import GreenboneFeeder.Sem.Plain

/-!
# The pool of I/O buffers

The free I/O buffers (`net/iob`) are a list, and a semaphore that counts them. A task that finds no
free buffer waits for the semaphore and tries again when it is woken. The count is taken twice then:
`sem_post` gives it to the task, and `iob_tryalloc` decrements it by hand. So the count falls with
every task that is woken (`Iob.semcount_counts`), and does not count the free buffers any more
(`Iob.semcount_drifts`). A free buffer still wakes a task that waits for one, until the count, an
`int16_t`, has fallen out of its range. `CONFIG_IOB_THROTTLE` is 0.
-/

namespace GreenboneFeeder.Iob

open List

open Sem (Plain)

/-- A value in an `int16_t`. -/
def int16 (n : ℤ) : ℤ := n.bmod (2 ^ 16)

theorem int16_of_lt {n : ℤ} (hle : -2 ^ 15 ≤ n) (hlt : n < 2 ^ 15) : int16 n = n :=
  Int.bmod_eq_of_le (by omega) (by omega)

/-- **The pool**: `g_iob_sem` and `g_iob_freelist`. -/
structure Pool (τ β : Type) where
  sem : Plain τ
  freelist : List β

variable {τ β : Type}

/-- The count is kept in 16 bits. -/
def narrow (c : Plain τ) : Plain τ := { c with semcount := int16 c.semcount }

/-- `iob_tryalloc`: the buffer at the head of the free list, and the count decremented by
hand. -/
def iobTryalloc (p : Pool τ β) : Option (β × Pool τ β) :=
  match p.freelist with
  | [] => none
  | iob :: rest =>
    some (iob, { sem := narrow { p.sem with semcount := p.sem.semcount - 1 }, freelist := rest })

/-- The loop of `iob_allocwait`, up to where the task blocks; it has no buffer then. A task that
is not blocked by `sem_wait` tries again at once. -/
def allocLoop (t : τ) : ℕ → Pool τ β → Pool τ β × Option β
  | 0, p => (p, none)
  | rounds + 1, p =>
    match iobTryalloc p with
    | some (iob, p) => (p, some iob)
    | none =>
      match p.sem.semWait t with
      | (sem, true) => allocLoop t rounds { p with sem := narrow sem }
      | (sem, false) => ({ p with sem := narrow sem }, none)

/-- `iob_allocwait`. A round that does not end the loop takes a count, so there are enough
rounds for the loop to end. -/
def iobAllocwait (t : τ) (p : Pool τ β) : Pool τ β × Option β :=
  allocLoop t (p.sem.semcount.toNat + 1) p

variable [DecidableEq τ] [DecidableEq β]

/-- `iob_free`, when the post gives the count to `stcb`. -/
def iobFree (iob : β) (stcb : Option τ) (p : Pool τ β) : Option (Pool τ β) :=
  (p.sem.semPost stcb).map fun sem => { sem, freelist := iob :: p.freelist }

/-! ### Interleavings -/

/-- **The pool and its tasks**: those that were woken and have not yet tried again, and how
often a woken task has tried again. -/
structure Sys (τ β : Type) where
  pool : Pool τ β
  woken : List τ
  retries : ℕ

/-- What can happen next. -/
inductive Event (τ β : Type) where
  /-- a task calls `iob_alloc` -/
  | alloc (t : τ)
  /-- an interrupt handler calls `iob_alloc` or `iob_tryalloc` -/
  | tryalloc
  /-- a buffer that is not free is freed -/
  | free (iob : β) (stcb : Option τ)
  /-- a task that was woken tries again -/
  | retry (t : τ)

/-- **One step.** -/
def step (s : Sys τ β) : Event τ β → Option (Sys τ β)
  | .alloc t =>
    if t ∉ s.pool.sem.waiters ∧ t ∉ s.woken then some { s with pool := (iobAllocwait t s.pool).1 }
    else none
  | .tryalloc =>
    match iobTryalloc s.pool with
    | some (_, pool) => some { s with pool }
    | none => some s
  | .free iob stcb =>
    if iob ∉ s.pool.freelist then
      (iobFree iob stcb s.pool).map fun pool => { s with pool, woken := stcb.toList ++ s.woken }
    else none
  | .retry t =>
    if t ∈ s.woken then
      some { pool := (iobAllocwait t s.pool).1, woken := s.woken.erase t, retries := s.retries + 1 }
    else none

/-- `iob_initialize`: all buffers are free. -/
def iobInitialize (bufs : List β) : Sys τ β where
  pool := { sem := Plain.semInit bufs.length, freelist := bufs }
  woken := []
  retries := 0

/-! ### The count -/

/-- The free buffers that neither a blocked task nor a woken one is going to take. -/
def Sys.spare (s : Sys τ β) : ℤ :=
  s.pool.freelist.length - s.pool.sem.waiters.length - s.woken.length

/-- **What the count is**: the spare buffers less one for every task that was woken and has
tried again. A task is blocked only while the woken tasks need all free buffers. -/
structure Sound (s : Sys τ β) : Prop where
  semcount : s.pool.sem.semcount = s.spare - s.retries
  le : s.pool.sem.semcount < 2 ^ 15
  blocked : s.pool.sem.waiters ≠ [] → s.pool.freelist.length ≤ s.woken.length

/-- The count can be decremented. -/
def InRange (s : Sys τ β) (_ : Event τ β) : Prop := -2 ^ 15 < s.pool.sem.semcount

instance (s : Sys τ β) (e : Event τ β) : Decidable (InRange s e) :=
  inferInstanceAs (Decidable (_ < _))

variable {s s' : Sys τ β} {t : τ} {e : Event τ β}

omit [DecidableEq τ] [DecidableEq β] in
theorem sound_iobInitialize {bufs : List β} (h : bufs.length < 2 ^ 15) :
    Sound (iobInitialize bufs : Sys τ β) where
  semcount := by simp [iobInitialize, Plain.semInit, Sys.spare]
  le := by
    change (bufs.length : ℤ) < 2 ^ 15
    omega
  blocked hw := absurd rfl hw

omit [DecidableEq τ] [DecidableEq β] in
/-- **A try for a buffer** either takes the first free one or blocks the task. -/
theorem iobAllocwait_eq (p : Pool τ β) (hlo : -2 ^ 15 < p.sem.semcount)
    (hhi : p.sem.semcount < 2 ^ 15) (hempty : p.freelist = [] → p.sem.semcount ≤ 0) :
    (iobAllocwait t p).1 =
      { sem := ⟨p.sem.semcount - 1,
          if p.freelist = [] then t :: p.sem.waiters else p.sem.waiters⟩,
        freelist := p.freelist.tail } := by
  have hnarrow : int16 (p.sem.semcount - 1) = p.sem.semcount - 1 :=
    int16_of_lt (by omega) (by omega)
  rw [iobAllocwait, allocLoop, iobTryalloc]
  cases hfree : p.freelist with
  | nil =>
    have hle := hempty hfree
    simp only [Plain.semWait, if_neg (show ¬0 < p.sem.semcount by omega), narrow, hnarrow,
      if_true, tail_nil]
  | cons iob rest =>
    simp only [narrow, hnarrow, tail_cons, if_neg (cons_ne_nil iob rest)]

variable (h : Sound s)

include h

omit [DecidableEq τ] [DecidableEq β] in
theorem Sound.semcount_le (hempty : s.pool.freelist = []) :
    s.pool.sem.semcount ≤ 0 := by
  have heq := h.semcount
  rw [Sys.spare, hempty, length_nil] at heq
  omega

variable (hlo : -2 ^ 15 < s.pool.sem.semcount)

include hlo

omit [DecidableEq τ] [DecidableEq β] in
/-- A task tries for a buffer. It may be one that was woken, which counts as a retry then. -/
theorem Sound.attempt {woken : List τ}
    {retries : ℕ} (hsum : woken.length + retries = s.woken.length + s.retries)
    (hle : s.woken.length ≤ woken.length + 1) :
    Sound { pool := (iobAllocwait t s.pool).1, woken, retries } := by
  have heq := h.semcount
  have hlt := h.le
  rw [Sys.spare] at heq
  rw [iobAllocwait_eq _ hlo h.le h.semcount_le]
  cases hfree : s.pool.freelist with
  | nil =>
    rw [hfree, length_nil] at heq
    refine ⟨?_, ?_, fun _ => Nat.zero_le _⟩
    · simp only [Sys.spare, if_true, tail_nil, length_nil, length_cons]
      omega
    · change s.pool.sem.semcount - 1 < 2 ^ 15
      omega
  | cons iob rest =>
    rw [hfree, length_cons] at heq
    refine ⟨?_, ?_, fun hw => ?_⟩
    · simp only [Sys.spare, if_neg (cons_ne_nil iob rest), tail_cons]
      omega
    · change s.pool.sem.semcount - 1 < 2 ^ 15
      omega
    · have := h.blocked hw
      rw [hfree, length_cons] at this
      simp only [tail_cons]
      omega

theorem Sound.alloc (hs : step s (.alloc t) = some s') : Sound s' := by
  obtain ⟨-, hs⟩ := Option.ite_none_right_eq_some.mp hs
  cases hs
  exact h.attempt hlo rfl (Nat.le_succ _)

theorem Sound.tryalloc (hs : step s .tryalloc = some s') : Sound s' := by
  have heq := h.semcount
  have hlt := h.le
  rw [step, iobTryalloc] at hs
  cases hfree : s.pool.freelist with
  | nil =>
    rw [hfree] at hs
    cases hs
    exact h
  | cons iob rest =>
    rw [hfree] at hs
    cases hs
    rw [Sys.spare, hfree, length_cons] at heq
    have hnarrow : int16 (s.pool.sem.semcount - 1) = s.pool.sem.semcount - 1 :=
      int16_of_lt (by omega) (by omega)
    refine ⟨?_, ?_, fun hw => ?_⟩
    · simp only [narrow, hnarrow, Sys.spare]
      omega
    · simp only [narrow, hnarrow]
      omega
    · have := h.blocked hw
      rw [hfree, length_cons] at this
      change rest.length ≤ s.woken.length
      omega

omit hlo in
theorem Sound.free {iob : β} {stcb : Option τ}
    (hs : step s (.free iob stcb) = some s') : Sound s' := by
  obtain ⟨-, hs⟩ := Option.ite_none_right_eq_some.mp hs
  obtain ⟨pool, hpool, rfl⟩ := Option.map_eq_some_iff.mp hs
  obtain ⟨sem, hpost, rfl⟩ := Option.map_eq_some_iff.mp hpool
  obtain ⟨hchoice, hpost⟩ := Option.ite_none_right_eq_some.mp hpost
  cases hpost
  have heq := h.semcount
  have hmax : s.pool.sem.semcount < 0x7fff := hchoice.1
  rw [Sys.spare] at heq
  have hle : s.pool.sem.semcount + 1 < 2 ^ 15 := by omega
  cases stcb with
  | none =>
    refine ⟨?_, hle, fun hw => ?_⟩
    · change s.pool.sem.semcount + 1 = ((iob :: s.pool.freelist).length : ℤ) -
        s.pool.sem.waiters.length - s.woken.length - s.retries
      rw [length_cons]
      omega
    · -- the count is negative while a task is blocked, so a task is woken
      have hblocked := h.blocked hw
      have hpos := length_pos_of_ne_nil hw
      rcases hchoice.2 with hnonneg | hnil
      · change 0 < s.pool.sem.waiters.length at hpos
        omega
      · exact absurd hnil hw
  | some u =>
    have hmem : u ∈ s.pool.sem.waiters := hchoice.2.2
    have hpos := length_pos_of_mem hmem
    have hblocked := h.blocked (ne_nil_of_mem hmem)
    refine ⟨?_, hle, fun _ => ?_⟩
    · change s.pool.sem.semcount + 1 = ((iob :: s.pool.freelist).length : ℤ) -
        (s.pool.sem.waiters.erase u).length - (u :: s.woken).length - s.retries
      rw [length_erase_of_mem hmem, length_cons, length_cons]
      omega
    · change (iob :: s.pool.freelist).length ≤ (u :: s.woken).length
      rw [length_cons, length_cons]
      omega

theorem Sound.retry (hs : step s (.retry t) = some s') : Sound s' := by
  obtain ⟨hmem, hs⟩ := Option.ite_none_right_eq_some.mp hs
  cases hs
  have hpos := length_pos_of_mem hmem
  have herase := length_erase_of_mem hmem
  exact h.attempt hlo (by omega) (by omega)

omit hlo

/-- **One step keeps the count.** -/
theorem Sound.step (hc : InRange s e) (hs : step s e = some s') : Sound s' := by
  cases e with
  | alloc t => exact h.alloc hc hs
  | tryalloc => exact h.tryalloc hc hs
  | free iob stcb => exact h.free hs
  | retry t => exact h.retry hc hs

omit h

/-- **The semaphore counts the spare buffers until a woken task tries again**, and a task is blocked
only while the woken tasks need all free buffers, as long as the count stays in its range. -/
theorem semcount_counts (bufs : List β) (hbufs : bufs.length < 2 ^ 15) (es : List (Event τ β))
    (s : Sys τ β) (hc : Run.AllSteps Iob.step InRange (iobInitialize bufs) es)
    (hr : Run.run Iob.step (iobInitialize bufs) es = some s) :
    (s.pool.sem.semcount = s.pool.freelist.length - s.pool.sem.waiters.length - s.woken.length ↔
        s.retries = 0) ∧
      (s.pool.sem.waiters ≠ [] → s.pool.freelist.length ≤ s.woken.length) := by
  have h : Sound s := Run.invariant_of_allSteps (fun _ _ _ h hc hs => Sound.step h hc hs) es
    (sound_iobInitialize hbufs) hc hr
  refine ⟨?_, h.blocked⟩
  have heq := h.semcount
  rw [Sys.spare] at heq
  omega

/-- One buffer and two tasks; the second one is blocked, and is woken when the buffer is
freed. -/
theorem semcount_counts_woken :
    ∃ s : Sys Bool Unit, Run.run Iob.step (iobInitialize [()])
        [.alloc true, .alloc false, .free () (some false)] = some s ∧ s.woken = [false] ∧
      (s.pool.sem.semcount = s.pool.freelist.length - s.pool.sem.waiters.length -
        s.woken.length ↔ s.retries = 0) ∧
      (s.pool.sem.waiters ≠ [] → s.pool.freelist.length ≤ s.woken.length) :=
  Run.exists_eq_some (by decide) fun s hs hw =>
    ⟨hw, semcount_counts [()] (by decide) _ s (by decide) hs⟩

/-- **The count drifts**: when the woken task has taken the buffer, nobody waits and no buffer
is free, but the count is -1. -/
theorem semcount_drifts :
    ∃ s : Sys Bool Unit, Run.run Iob.step (iobInitialize [()])
        [.alloc true, .alloc false, .free () (some false), .retry false] = some s ∧
      s.pool.sem.semcount = -1 ∧
      (s.pool.freelist.length - s.pool.sem.waiters.length - s.woken.length : ℤ) = 0 :=
  Run.exists_eq_some (by decide) fun _ _ h => h

end GreenboneFeeder.Iob
