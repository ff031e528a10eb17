import GreenboneFeeder.Sem.Counting

/-!
# A semaphore as its users see it

Mutexes, condition variables and barriers know of a semaphore its count and which threads are
blocked on it. This is what is left here of the semaphores of the kernel (`Sem.System.views_move`):
the priorities, the lists of the scheduler and the order of the waiters are gone, and which waiter a
`sem_post` chooses is said from outside.
-/

namespace GreenboneFeeder.Sem

/-- **One semaphore**: its count and the threads that are blocked on it. -/
structure Plain (τ : Type) where
  semcount : ℤ
  waiters : List τ
deriving DecidableEq, Repr

namespace Plain

variable {τ : Type}

/-- `sem_init`. -/
def semInit (value : ℤ) : Plain τ := ⟨value, []⟩

variable (t : τ) (c : Plain τ)

/-- `sem_wait`, up to where it blocks. The flag says whether it returns `OK` at once. -/
def semWait : Plain τ × Bool :=
  if 0 < c.semcount then ({ c with semcount := c.semcount - 1 }, true)
  else (⟨c.semcount - 1, t :: c.waiters⟩, false)

/-- `sem_trywait`; there is no result when it fails with `EAGAIN`. -/
def semTrywait : Option (Plain τ) :=
  if 0 < c.semcount then some { c with semcount := c.semcount - 1 } else none

/-- The thread that `sem_post` may give the count to: one that waits, if the count says that
there is one. -/
def Chooses : Option τ → Prop
  | some t => c.semcount < 0 ∧ t ∈ c.waiters
  | none => 0 ≤ c.semcount ∨ c.waiters = []

variable [DecidableEq τ]

instance (c : Plain τ) : ∀ stcb, Decidable (c.Chooses stcb)
  | some _ => inferInstanceAs (Decidable (_ ∧ _))
  | none => inferInstanceAs (Decidable (_ ∨ _))

/-- The waiters without the one that is woken. -/
def without : Option τ → List τ
  | some t => c.waiters.erase t
  | none => c.waiters

/-- `sem_post`, when it gives the count to `stcb`. -/
def semPost (stcb : Option τ) (c : Plain τ) : Option (Plain τ) :=
  if c.semcount < valueMax ∧ c.Chooses stcb then some ⟨c.semcount + 1, c.without stcb⟩ else none

/-- `sem_waitirq`, for a thread that is blocked on the semaphore. -/
def semWaitirq : Option (Plain τ) :=
  if t ∈ c.waiters then some ⟨c.semcount + 1, c.waiters.erase t⟩ else none

/-! ### The count and the waiters -/

/-- The count is negative by the number of the waiters, or there are none. -/
def Balanced : Prop :=
  (0 ≤ c.semcount ∧ c.waiters = []) ∨ c.semcount = -c.waiters.length

variable {c c' : Plain τ} {t : τ} {stcb : Option τ}

variable (h : c.Balanced)

include h

omit [DecidableEq τ] in
theorem Balanced.of_neg (hneg : c.semcount ≤ 0) :
    c.semcount = -c.waiters.length := by
  rcases h with ⟨hle, hnil⟩ | heq
  · rw [hnil, List.length_nil]
    omega
  · exact heq

omit [DecidableEq τ] in
theorem Balanced.of_nonneg (hle : 0 ≤ c.semcount) : c.waiters = [] := by
  rcases h with ⟨-, hnil⟩ | heq
  · exact hnil
  · exact List.eq_nil_of_length_eq_zero (by omega)

omit [DecidableEq τ] in
theorem Balanced.semWait : (c.semWait t).1.Balanced := by
  unfold Plain.semWait
  split
  · exact .inl ⟨by dsimp only; omega, h.of_nonneg (by omega)⟩
  · right
    have heq := h.of_neg (by omega)
    dsimp only
    rw [List.length_cons]
    omega

omit [DecidableEq τ] in
theorem Balanced.semTrywait (hs : c.semTrywait = some c') : c'.Balanced := by
  unfold Plain.semTrywait at hs
  split at hs
  · cases hs
    exact .inl ⟨by dsimp only; omega, h.of_nonneg (by omega)⟩
  · cases hs

omit h in
theorem length_erase_of_mem (ht : t ∈ c.waiters) :
    -((c.waiters.erase t).length : ℤ) = -c.waiters.length + 1 := by
  have hpos := List.length_pos_of_mem ht
  rw [List.length_erase_of_mem ht]
  omega

theorem Balanced.semPost (hs : c.semPost stcb = some c') : c'.Balanced := by
  obtain ⟨hc, hs⟩ := Option.ite_none_right_eq_some.mp hs
  cases hs
  cases stcb with
  | some t =>
    right
    change c.semcount + 1 = -((c.waiters.erase t).length : ℤ)
    rw [length_erase_of_mem hc.2.2, h.of_neg (by have := hc.2.1; omega)]
  | none =>
    have hle : 0 ≤ c.semcount := by
      rcases hc.2 with hle | hnil
      · exact hle
      · rcases h with ⟨hle, -⟩ | heq
        · exact hle
        · rw [heq, hnil, List.length_nil]
          omega
    exact .inl ⟨by dsimp only; omega, h.of_nonneg hle⟩

theorem Balanced.semWaitirq (hs : c.semWaitirq t = some c') : c'.Balanced := by
  obtain ⟨ht, hs⟩ := Option.ite_none_right_eq_some.mp hs
  cases hs
  right
  rcases h with ⟨-, hnil⟩ | heq
  · rw [hnil] at ht
    exact absurd ht List.not_mem_nil
  · rw [length_erase_of_mem ht, heq]

omit h

/-! ### What the users see of the kernel -/

/-- The two are the same up to the order of the waiters. -/
def Same (c c' : Plain τ) : Prop := c.semcount = c'.semcount ∧ c.waiters.Perm c'.waiters

/-- The operations on a semaphore; `post` leaves open who is given the count. -/
inductive Operation (τ : Type) where
  | wait (t : τ)
  | trywait
  | post
  | waitirq (t : τ)

/-- **The operation, or nothing, leads from `c` to `c'`.** -/
def Moves (c c' : Plain τ) : Option (Operation τ) → Prop
  | none => c'.Same c
  | some (.wait t) => c'.Same (c.semWait t).1
  | some .trywait => c'.Same (c.semTrywait.getD c)
  | some .post => ∃ stcb d, c.semPost stcb = some d ∧ c'.Same d
  | some (.waitirq t) => ∃ d, c.semWaitirq t = some d ∧ c'.Same d

end Plain

/-- A semaphore of the kernel as its users see it. -/
def Kernel.view {τ κ : Type} [DecidableEq κ] (k : Kernel τ κ) (sem : κ) : Plain τ :=
  ⟨k.semcount sem, k.waiters sem⟩

namespace System

variable {τ κ : Type} [DecidableEq τ] [DecidableEq κ] {cfg : Config} {idle t : τ} {sem : κ}
  {x x' : System τ κ} {k' : Kernel τ κ} {a : Act τ κ} {e : Event τ κ}

/-- **What an event is to the users of a semaphore**: the operation of the running task, or the end
of the wait of a task that is blocked on the semaphore. All else is nothing to them. -/
def operation (x : System τ κ) (sem : κ) : Event τ κ → Option (Plain.Operation τ)
  | .wait sem' => if sem' = sem then x.readyHead.map .wait else none
  | .trywait sem' => if sem' = sem then some .trywait else none
  | .post _ sem' => if sem' = sem then some .post else none
  | .waitirq _ t _ => if x.waitsem t = some sem then some (.waitirq t) else none
  | .recover _ t => if x.waitsem t = some sem then some (.waitirq t) else none
  | .resume => none
  | .sched _ => none

/-- A post of the kernel is a post of the plain semaphore, whoever it wakes. -/
theorem moves_post {sem : κ} (h : x.toKernel.InOrder idle) (hmax : x.semcount sem < valueMax)
    (hdoes : Kernel.Does cfg idle x.toKernel (Kernel.postAct sem x.toKernel) k') :
    (x.view sem).Moves (k'.view sem) (some .post) := by
  rw [Kernel.postAct] at hdoes
  cases hfirst : x.firstWaiter sem with
  | none =>
    simp only [hfirst] at hdoes
    have hnil : x.waiters sem = [] := hdoes.enabled
    have hcount : k'.semcount sem = x.semcount sem + 1 := by
      rw [hdoes.semcount]
      exact Function.update_self ..
    exact ⟨none, _, if_pos ⟨hmax, .inr hnil⟩, hcount, hdoes.waiters_of_stays rfl rfl⟩
  | some u =>
    simp only [hfirst] at hdoes
    have hu := hdoes.mem_waiters_of_departs rfl
    have hneg := (h.negative sem).mpr (List.ne_nil_of_mem hu)
    have hcount : k'.semcount sem = x.semcount sem + 1 := by
      rw [hdoes.semcount]
      exact Function.update_self ..
    exact ⟨some u, _, if_pos ⟨hmax, hneg, hu⟩, hcount, hdoes.waiters_of_departs h.sound rfl⟩

/-- **A change of the kernel is, on each semaphore, the operation of its event.** -/
theorem Change.view_moves (h : x.toKernel.InOrder idle) (he : x.Allowed idle e)
    (hchange : Change cfg x e a k') (sem : κ) :
    (x.view sem).Moves (k'.view sem) (x.operation sem e) := by
  have hdoes := hchange.does h he
  have hcount : k'.semcount sem = a.semcount x.toKernel sem := by rw [hdoes.semcount]
  have hstay (ha : a.target ≠ some sem) : (k'.view sem).Same (x.view sem) :=
    ⟨hcount.trans (semcount_of_ne_target _ ha), waiters_of_ne_target h.sound hdoes ha⟩
  have hdeparts : ∀ {u}, a.departs = some (sem, u) → u ∈ x.waiters sem ∧
      (k'.waiters sem).Perm ((x.waiters sem).erase u) :=
    fun hu => ⟨hdoes.mem_waiters_of_departs hu, hdoes.waiters_of_departs h.sound hu⟩
  cases hchange with
  | @take sem₀ t hr hpos =>
    by_cases hsem : sem₀ = sem
    · subst hsem
      rw [operation, if_pos rfl, hr, Option.map_some, Plain.Moves, Plain.semWait,
        if_pos (show 0 < (x.view sem₀).semcount from hpos)]
      exact ⟨hcount.trans (Function.update_self ..), hdoes.waiters_of_stays rfl rfl⟩
    · rw [operation, if_neg hsem]
      exact hstay fun hc => hsem (Option.some.inj hc)
  | @block sem₀ t k' hr hpos hblock =>
    by_cases hsem : sem₀ = sem
    · subst hsem
      rw [operation, if_pos rfl, hr, Option.map_some, Plain.Moves, Plain.semWait,
        if_neg (show ¬0 < (x.view sem₀).semcount from hpos)]
      exact ⟨hcount.trans (Function.update_self ..), hdoes.waiters_of_arrive⟩
    · rw [operation, if_neg hsem]
      exact hstay fun hc => hsem (Option.some.inj hc)
  | @trywait sem₀ t hr hpos =>
    by_cases hsem : sem₀ = sem
    · subst hsem
      rw [operation, if_pos rfl, Plain.Moves, Plain.semTrywait,
        if_pos (show 0 < (x.view sem₀).semcount from hpos)]
      exact ⟨hcount.trans (Function.update_self ..), hdoes.waiters_of_stays rfl rfl⟩
    · rw [operation, if_neg hsem]
      exact hstay fun hc => hsem (Option.some.inj hc)
  | @post interrupt sem₀ t k₁ k' hr hmax hrelease hpost =>
    rw [operation]
    by_cases hsem : sem₀ = sem
    · subst hsem
      rw [if_pos rfl]
      exact moves_post h hmax hdoes
    · rw [if_neg hsem]
      refine hstay fun hc => hsem ?_
      rw [Kernel.postAct] at hc
      split at hc <;> exact Option.some.inj hc
  | @leave interrupt t errcode sem₀ k₁ k' hsem hcancel hunblock
  | @abandon interrupt t sem₀ k' hsem hcancel =>
    rw [operation, hsem]
    by_cases hsem : sem₀ = sem
    · subst hsem
      obtain ⟨hu, hperm⟩ := hdeparts rfl
      rw [if_pos rfl]
      exact ⟨_, if_pos hu, hcount.trans (Function.update_self ..), hperm⟩
    · rw [if_neg fun hc => hsem (Option.some.inj hc)]
      exact hstay fun hc => hsem (Option.some.inj hc)
  | resume hr hs | sched hforeign hs => exact hstay (Option.some_ne_none sem).symm
  | nothing hvoid =>
    -- the call fails, on the plain semaphore too, or no task waits for the semaphore
    have hsame := hstay (Option.some_ne_none sem).symm
    cases e with
    | trywait sem₀ =>
      rw [operation]
      split
      · next hsem =>
        subst hsem
        rw [Plain.Moves, Plain.semTrywait,
          if_neg (show ¬0 < (x.view sem₀).semcount from hvoid)]
        exact hsame
      · exact hsame
    | waitirq interrupt t errcode | recover interrupt t =>
      rw [operation, show x.waitsem t = none from hvoid]
      exact hsame
    | _ => exact hvoid.elim

/-- **The semaphores of the kernel refine the plain ones.** From boot, as long as the idle task does
not wait, every step of a run is to the users of each semaphore the operation that was called on it,
and nothing when none was. -/
theorem views_move (cfg : Config) (idle : τ) (x₀ : System τ κ) (es : List (Event τ κ))
    (hboot : Booted idle x₀) (hallowed : Run.AllSteps (step cfg) (Allowed idle) x₀ es) :
    Run.AllSteps (step cfg) (fun x e => ∀ x', x.step cfg e = some x' →
      ∀ sem, (x.view sem).Moves (x'.view sem) (x.operation sem e)) x₀ es := by
  refine Run.AllSteps.of_invariant (P := Kept idle x₀) (fun x e x' hkept he hs => ?_)
    (fun x e hkept he x' hs sem => ?_) es hboot.kept hallowed
  · obtain ⟨a, hdoes⟩ := step_does hkept.inOrder he hs
    exact hkept.of_does hdoes
  · obtain ⟨a, hchange, -⟩ := step_cases hkept.inOrder hs
    exact hchange.view_moves hkept.inOrder he sem

theorem views_move_wait :
    ∃ x x', fourTasks.step ⟨false, 4, 20⟩ (.sched (.unblock 1)) = some x ∧
      x.step ⟨false, 4, 20⟩ (.wait ()) = some x' ∧
      (x'.view ()).Same ((x.view ()).semWait 1).1 := by
  have h := views_move ⟨false, 4, 20⟩ 0 fourTasks [.sched (.unblock 1), .wait ()] fourTasks_booted
    (by decide)
  exact ⟨_, _, rfl, rfl, (h.2 _ rfl).1 _ rfl ()⟩

end System

end GreenboneFeeder.Sem
