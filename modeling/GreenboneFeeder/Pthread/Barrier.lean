import GreenboneFeeder.Pthread.Mutex

/-!
# Barriers

A barrier of `sched/pthread` is a semaphore: a thread that arrives reads off the count how many
wait. If it is the last one of its group it posts the semaphore until the count is not negative any
more, and otherwise it waits. This runs with pre-emption disabled, but with priority inheritance
`sem_post` may give up the processor all the same, when it takes back the priority that its caller
was lent. Signals may be delivered from interrupt handlers at any time. A signal ends the wait of a
blocked thread, which waits again when it runs; meanwhile the count knows nothing of it.

So the groups are right if nothing comes between (`Pthread.barrier_releases`), and a thread that
completes a group while another one has been interrupted and has not yet waited again does not
notice (`Pthread.barrier_stays_closed`).
-/

namespace GreenboneFeeder.Pthread

open List Function Option Nat

open Sem (Plain)

/-! ### The model -/

/-- What a call returns: 0, or `PTHREAD_BARRIER_SERIAL_THREAD`. -/
inductive Ret where
  | zero
  | serial
deriving DecidableEq, Repr

/-- What the thread that has disabled pre-emption does next: it looks at the count it has read and
posts, or reads the count again after a post, or waits. -/
inductive Stage where
  | releasing (semcount : ℤ)
  | reading
  | entering
deriving DecidableEq, Repr

/-- **A barrier and its threads.** Blocked threads are the waiters of the semaphore. The calls are
numbered in their order. -/
structure BarrierSys (τ : Type) where
  sem : Plain τ
  count : ℕ
  /-- the thread that has disabled pre-emption in a call -/
  active : Option (τ × Stage)
  /-- the threads whose wait was ended by a signal and that have not yet waited again -/
  interrupted : List τ
  /-- the threads that were given the count and do not run yet -/
  given : List τ
  /-- the threads that a post of theirs has switched out while they release a group -/
  switched : List τ
  /-- the number of the call that the thread is in, or of its last one -/
  call : τ → ℕ
  arrivals : ℕ
  returned : List (ℕ × Ret)

/-- What can happen next. -/
inductive BarrierEvent (τ : Type) where
  /-- a thread calls `pthread_barrier_wait` and reads the count -/
  | arrive (t : τ)
  /-- the thread that has disabled pre-emption goes on; a post gives the count to `stcb` -/
  | proceed (stcb : Option τ)
  /-- the post that was just made gives up the processor -/
  | switch
  /-- a signal is delivered to a thread that is blocked -/
  | signal (t : τ)
  /-- a thread that was woken runs again -/
  | resume (t : τ)

namespace BarrierSys

variable {τ : Type} [DecidableEq τ]

/-- `pthread_barrier_init`. -/
def pthreadBarrierInit (call : τ → ℕ) (count : ℕ) : BarrierSys τ where
  sem := Plain.semInit 0
  count := count
  active := none
  interrupted := []
  given := []
  switched := []
  call := call
  arrivals := 0
  returned := []

/-- The thread is in a call. -/
def Inside (s : BarrierSys τ) (t : τ) : Prop :=
  t ∈ s.sem.waiters ∨ t ∈ s.interrupted ∨ t ∈ s.given ∨ t ∈ s.switched

instance (s : BarrierSys τ) (t : τ) : Decidable (s.Inside t) := inferInstanceAs (Decidable (_ ∨ _))

/-- The call of the thread returns. -/
def ret (t : τ) (r : Ret) (s : BarrierSys τ) : BarrierSys τ :=
  { s with returned := (s.call t, r) :: s.returned }

/-- The thread waits for the semaphore: it is blocked, or its call returns 0. -/
def semWait (t : τ) (s : BarrierSys τ) : BarrierSys τ :=
  match s.sem.semWait t with
  | (sem, true) => { s with sem }.ret t .zero
  | (sem, false) => { s with sem }

/-- What the last thread of a group does next, or the thread that has to wait. -/
def proceed (t : τ) (stcb : Option τ) (s : BarrierSys τ) : Stage → Option (BarrierSys τ)
  | .releasing semcount =>
    if semcount < 0 then
      (s.sem.semPost stcb).map fun sem =>
        { s with sem, given := stcb.toList ++ s.given, active := some (t, .reading) }
    else some ({ s with active := none }.ret t .serial)
  | .reading => some { s with active := some (t, .releasing s.sem.semcount) }
  | .entering => some ({ s with active := none }.semWait t)

/-- A thread that has just posted is switched out. -/
def switch (s : BarrierSys τ) : Option (τ × Stage) → Option (BarrierSys τ)
  | some (t, .reading) => some { s with active := none, switched := t :: s.switched }
  | _ => none

/-- The stage that the count leads to. -/
def stageOf (s : BarrierSys τ) : Stage :=
  if 1 - s.sem.semcount ≥ int s.count then .releasing s.sem.semcount else .entering

/-- **One step** of `pthread_barrier_wait`, or of what happens around it. -/
def step (s : BarrierSys τ) : BarrierEvent τ → Option (BarrierSys τ)
  | .arrive t =>
    if s.active = none ∧ ¬s.Inside t then
      some { s with
        active := some (t, s.stageOf)
        call := update s.call t s.arrivals
        arrivals := s.arrivals + 1 }
    else none
  | .proceed stcb => s.active.bind fun a => s.proceed a.1 stcb a.2
  | .switch => s.switch s.active
  | .signal t => (s.sem.semWaitirq t).map fun sem =>
    { s with sem, interrupted := t :: s.interrupted }
  | .resume t =>
    if s.active ≠ none then none
    else if t ∈ s.given then some ({ s with given := s.given.erase t }.ret t .zero)
    else if t ∈ s.interrupted then some ({ s with interrupted := s.interrupted.erase t }.semWait t)
    else if t ∈ s.switched then
      some { s with active := some (t, .reading), switched := s.switched.erase t }
    else none

/-- All threads that can run have run until they were blocked or returned. -/
def Quiescent (s : BarrierSys τ) : Prop :=
  s.active = none ∧ s.interrupted = [] ∧ s.given = [] ∧ s.switched = []

instance (s : BarrierSys τ) : Decidable s.Quiescent := inferInstanceAs (Decidable (_ ∧ _ ∧ _ ∧ _))

/-- All calls of the group of the call `i` were made. -/
def Complete (n : ℕ) (s : BarrierSys τ) (i : ℕ) : Prop := (i / n + 1) * n ≤ s.arrivals

instance (n : ℕ) (s : BarrierSys τ) (i : ℕ) : Decidable (Complete n s i) :=
  inferInstanceAs (Decidable (_ ≤ _))

/-- **Nothing comes between**: a call does not complete a group while an interrupted thread has yet
to wait again, and while a group is released no call is made and no signal reaches a blocked
thread. -/
def Undisturbed (s : BarrierSys τ) : BarrierEvent τ → Prop
  | .arrive _ => s.switched = [] ∧ ((s.arrivals + 1) % s.count = 0 → s.interrupted = [])
  | .signal _ => s.switched = [] ∧ ∀ a ∈ s.active, a.2 = .entering
  | _ => True

instance (s : BarrierSys τ) : ∀ e, Decidable (Undisturbed s e)
  | .arrive _ => inferInstanceAs (Decidable (_ ∧ (_ → _)))
  | .signal _ => inferInstanceAs (Decidable (_ ∧ ∀ a ∈ s.active, _))
  | .proceed _ | .switch | .resume _ => isTrue trivial

/-! ### Groups -/

section Groups

variable {n a i : ℕ}

theorem succ_div_mod_of_lt (h : a % n + 1 < n) :
    (a + 1) / n = a / n ∧ (a + 1) % n = a % n + 1 := by
  rw [Nat.div_mod_unique (by omega)]
  have := Nat.mod_add_div a n
  omega

theorem succ_div_mod_of_eq (h : a % n + 1 = n) :
    (a + 1) / n = a / n + 1 ∧ (a + 1) % n = 0 := by
  rw [Nat.div_mod_unique (by omega)]
  have := Nat.mod_add_div a n
  rw [Nat.mul_add]
  omega

/-- When a group has just been completed, all calls belong to complete groups. -/
theorem group_le_of_lt (ha : a % n = 0) (hi : i < a) : (i / n + 1) * n ≤ a := by
  obtain ⟨q, rfl⟩ := dvd_of_mod_eq_zero ha
  rw [mul_comm n q]
  exact Nat.mul_le_mul_right n (Nat.div_lt_of_lt_mul hi)

theorem lt_group_of_le (hn : 1 ≤ n) (hi : n * (a / n) ≤ i) : a < (i / n + 1) * n := by
  have hle : a / n ≤ i / n := (le_div_iff_mul_le hn).mpr (by rwa [mul_comm])
  calc a < n * (a / n + 1) := lt_mul_div_succ a hn
    _ ≤ n * (i / n + 1) := mul_le_mul_left n (by omega)
    _ = (i / n + 1) * n := mul_comm ..

end Groups

/-! ### The invariant -/

variable {n extra : ℕ} {s s' : BarrierSys τ} {t : τ} {e : BarrierEvent τ}

/-- **A group gathers**: the threads that are blocked or interrupted, and the `extra` ones about to
wait, are those of the calls since the last complete group. -/
structure Gathering (n extra : ℕ) (s : BarrierSys τ) : Prop where
  switched : s.switched = []
  members : s.sem.waiters.length + s.interrupted.length + extra = s.arrivals % n
  current : ∀ t, t ∈ s.sem.waiters ∨ t ∈ s.interrupted → n * (s.arrivals / n) ≤ s.call t
  released : ∀ k < s.arrivals / n, (k * n + (n - 1), Ret.serial) ∈ s.returned

/-- **A group is released** by the thread `t`, which has completed it and is `out` of the
processor or not. -/
structure Releasing (n : ℕ) (s : BarrierSys τ) (t : τ) (out : List τ) : Prop where
  switched : s.switched = out
  whole : s.arrivals % n = 0
  last : s.call t + 1 = s.arrivals
  interrupted : s.interrupted = []
  released : ∀ k, k + 1 < s.arrivals / n → (k * n + (n - 1), Ret.serial) ∈ s.returned

/-- What the thread that has disabled pre-emption is doing, or the one that was switched out. -/
def Phase (n : ℕ) (s : BarrierSys τ) : Option (τ × Stage) → Prop
  | none => Gathering n 0 s ∨ ∃ t, Releasing n s t [t]
  | some (t, .entering) => Gathering n 1 s ∧ n * (s.arrivals / n) ≤ s.call t
  | some (t, .releasing semcount) => Releasing n s t [] ∧ semcount = s.sem.semcount
  | some (t, .reading) => Releasing n s t []

/-- **The state of a barrier.** -/
structure Sound (n : ℕ) (s : BarrierSys τ) : Prop where
  count : s.count = n
  semcount : s.sem.semcount = -s.sem.waiters.length
  known : ∀ t, s.Inside t ∨ (∃ stage, s.active = some (t, stage)) → s.call t < s.arrivals
  given : ∀ t ∈ s.given, Complete n s (s.call t)
  returned : ∀ i r, (i, r) ∈ s.returned → Complete n s i
  serial : ∀ i, (i, Ret.serial) ∈ s.returned → i % n = n - 1
  phase : Phase n s s.active

omit [DecidableEq τ] in
theorem sound_init (call : τ → ℕ) (n : ℕ) : Sound n (pthreadBarrierInit call n) where
  count := rfl
  semcount := rfl
  known t h := by
    rcases h with (h | h | h | h) | ⟨stage, h⟩
    · exact absurd h not_mem_nil
    · exact absurd h not_mem_nil
    · exact absurd h not_mem_nil
    · exact absurd h not_mem_nil
    · cases h
  given t h := absurd h not_mem_nil
  returned i r h := absurd h not_mem_nil
  serial i h := absurd h not_mem_nil
  phase := .inl
    { switched := rfl
      members := (zero_mod n).symm
      current := fun t h => h.elim (absurd · not_mem_nil) (absurd · not_mem_nil)
      released := fun k hk => absurd hk (by simp [pthreadBarrierInit]) }

variable (h : Sound n s)

include h

omit [DecidableEq τ] in
theorem Sound.semWait_eq :
    s.sem.semWait t = (⟨s.sem.semcount - 1, t :: s.sem.waiters⟩, false) := by
  have := h.semcount
  rw [Plain.semWait, if_neg (by omega)]

omit [DecidableEq τ] in
theorem Sound.semcount_cons :
    s.sem.semcount - 1 = -((t :: s.sem.waiters).length : ℤ) := by
  have := h.semcount
  rw [length_cons]
  omega

omit [DecidableEq τ] in
/-- Unless a thread is switched out, a group gathers when nobody has disabled pre-emption. -/
theorem Sound.gathering (hactive : s.active = none) (hswitched : s.switched = []) :
    Gathering n 0 s := by
  have hphase := h.phase
  rw [hactive] at hphase
  rcases hphase with hgather | ⟨t, hrel⟩
  · exact hgather
  · rw [hrel.switched] at hswitched
    cases hswitched

/-! ### The steps -/

theorem Sound.arrive (hn : 1 ≤ n) (hlt : n < 2 ^ 31)
    (hc : Undisturbed s (.arrive t)) (hs : s.step (.arrive t) = some s') : Sound n s' := by
  obtain ⟨hguard, hs⟩ := ite_none_right_eq_some.mp hs
  cases hs
  have hgather := h.gathering hguard.1 hc.1
  have hcount := h.semcount
  have hmembers := hgather.members
  have hcall : ∀ {u}, s.Inside u → update s.call t s.arrivals u = s.call u :=
    fun hu => update_of_ne (by rintro rfl; exact hguard.2 hu) _ _
  have hcomplete : ∀ {i}, Complete n s i → (i / n + 1) * n ≤ s.arrivals + 1 :=
    fun hi => le_succ_of_le hi
  refine ⟨h.count, h.semcount, fun u hu => ?_, fun u hu => ?_, fun i r hi => ?_, h.serial, ?_⟩
  · change update s.call t s.arrivals u < s.arrivals + 1
    by_cases hut : u = t
    · rw [hut, update_self]
      exact lt_succ_self _
    · rcases hu with hu | ⟨stage, hu⟩
      · rw [hcall hu]
        exact lt_succ_of_lt (h.known u (.inl hu))
      · exact absurd (congrArg Prod.fst (some.inj hu)).symm hut
  · change (update s.call t s.arrivals u / n + 1) * n ≤ s.arrivals + 1
    rw [hcall (.inr (.inr (.inl hu)))]
    exact hcomplete (h.given u hu)
  · exact hcomplete (h.returned i r hi)
  · -- the count is that of the blocked threads, so the last thread of a group sees it is the last
    have hint : int (s.count : ℤ) = n := by
      rw [h.count]
      exact int_of_lt (by omega) (by omega)
    unfold stageOf
    split
    · have hmod := mod_lt s.arrivals hn
      obtain ⟨hdiv, hzero⟩ := succ_div_mod_of_eq (n := n) (a := s.arrivals) (by omega)
      refine ⟨⟨hc.1, hzero, ?_, eq_nil_of_length_eq_zero (by dsimp only; omega), fun k hk => ?_⟩,
        rfl⟩
      · change update s.call t s.arrivals t + 1 = s.arrivals + 1
        rw [update_self]
      · change k + 1 < (s.arrivals + 1) / n at hk
        exact hgather.released k (by omega)
    · have hnot : s.arrivals % n + 1 < n := by
        by_contra hge
        have hmod := mod_lt s.arrivals hn
        have heq := (succ_div_mod_of_eq (n := n) (a := s.arrivals) (by omega)).2
        have hnil := hc.2 (by rw [h.count]; exact heq)
        rw [hnil, length_nil] at hmembers
        omega
      obtain ⟨hdiv, hmod⟩ := succ_div_mod_of_lt hnot
      refine ⟨⟨hc.1, ?_, fun u hu => ?_, fun k hk => ?_⟩, ?_⟩
      · change s.sem.waiters.length + s.interrupted.length + 1 = (s.arrivals + 1) % n
        omega
      · change n * ((s.arrivals + 1) / n) ≤ update s.call t s.arrivals u
        rw [hdiv, hcall (hu.elim .inl fun hu => .inr (.inl hu))]
        exact hgather.current u hu
      · change k < (s.arrivals + 1) / n at hk
        exact hgather.released k (by omega)
      · change n * ((s.arrivals + 1) / n) ≤ update s.call t s.arrivals t
        rw [hdiv, update_self]
        exact mul_div_le s.arrivals n

omit [DecidableEq τ] in
theorem Sound.enter (hactive : s.active = some (t, .entering)) :
    Sound n ({ s with active := none }.semWait t) := by
  have hphase := h.phase
  rw [hactive] at hphase
  obtain ⟨hgather, hcall⟩ := hphase
  have hmembers := hgather.members
  change Sound n (match s.sem.semWait t with
    | (sem, true) => ({ s with active := none, sem } : BarrierSys τ).ret t .zero
    | (sem, false) => { s with active := none, sem })
  rw [h.semWait_eq]
  refine ⟨h.count, h.semcount_cons, fun u hu => ?_, h.given, h.returned, h.serial,
    .inl ⟨hgather.switched, ?_, ?_, hgather.released⟩⟩
  · rcases hu with (hu | hu) | ⟨stage, hu⟩
    · rcases mem_cons.mp hu with rfl | hu
      · exact h.known u (.inr ⟨_, hactive⟩)
      · exact h.known u (.inl (.inl hu))
    · exact h.known u (.inl (.inr hu))
    · cases hu
  · change (t :: s.sem.waiters).length + s.interrupted.length + 0 = s.arrivals % n
    rw [length_cons]
    omega
  · rintro u (hu | hu)
    · rcases mem_cons.mp hu with rfl | hu
      · exact hcall
      · exact hgather.current u (.inl hu)
    · exact hgather.current u (.inr hu)

theorem Sound.post (hrel : Releasing n s t []) {stcb : Option τ}
    {sem : Plain τ} (hactive : ∃ stage, s.active = some (t, stage)) (hneg : s.sem.semcount < 0)
    (hpost : s.sem.semPost stcb = some sem) :
    Sound n { s with sem, given := stcb.toList ++ s.given, active := some (t, .reading) } := by
  have hcount := h.semcount
  obtain ⟨hchoice, hpost⟩ := ite_none_right_eq_some.mp hpost
  cases hpost
  cases stcb with
  | none =>
    rcases hchoice.2 with hle | hnil
    · omega
    · rw [hnil, length_nil] at hcount
      omega
  | some u =>
    have hmem : u ∈ s.sem.waiters := hchoice.2.2
    refine ⟨h.count, ?_, fun v hv => ?_, fun v hv => ?_, h.returned, h.serial,
      { hrel with }⟩
    · change s.sem.semcount + 1 = -((s.sem.waiters.erase u).length : ℤ)
      rw [Plain.length_erase_of_mem hmem, hcount]
    · rcases hv with (hv | hv | hv | hv) | ⟨stage, hv⟩
      · exact h.known v (.inl (.inl (mem_of_mem_erase hv)))
      · exact h.known v (.inl (.inr (.inl hv)))
      · rcases mem_cons.mp hv with rfl | hv
        · exact h.known v (.inl (.inl hmem))
        · exact h.known v (.inl (.inr (.inr (.inl hv))))
      · exact h.known v (.inl (.inr (.inr (.inr hv))))
      · obtain rfl := congrArg Prod.fst (some.inj hv)
        exact h.known t (.inr hactive)
    · rcases mem_cons.mp hv with rfl | hv
      · exact group_le_of_lt hrel.whole (h.known v (.inl (.inl hmem)))
      · exact h.given v hv

omit [DecidableEq τ] in
theorem Sound.finish (hn : 1 ≤ n) (hrel : Releasing n s t [])
    (hnonneg : 0 ≤ s.sem.semcount) : Sound n ({ s with active := none }.ret t .serial) := by
  have hcount := h.semcount
  have hnil : s.sem.waiters = [] := eq_nil_of_length_eq_zero (by omega)
  have hwhole := hrel.whole
  have hlast := hrel.last
  obtain ⟨q, hq⟩ := dvd_of_mod_eq_zero hwhole
  have hdiv : s.arrivals / n = q := by rw [hq, Nat.mul_div_cancel_left _ hn]
  have hq0 : 1 ≤ q := by
    rcases Nat.eq_zero_or_pos q with rfl | hpos
    · omega
    · exact hpos
  -- the call is the last one of the group number `q - 1`
  have hcall : s.call t = (q - 1) * n + (n - 1) := by
    have hmul : (q - 1) * n + n = n * q := by
      rw [← Nat.succ_mul, Nat.succ_eq_add_one, Nat.sub_add_cancel hq0, Nat.mul_comm]
    omega
  refine ⟨h.count, h.semcount, fun u hu => ?_, h.given, fun i r hi => ?_, fun i hi => ?_,
    .inl ⟨hrel.switched, ?_, ?_, fun k hk => ?_⟩⟩
  · rcases hu with hu | ⟨stage, hu⟩
    · exact h.known u (.inl hu)
    · cases hu
  · rcases mem_cons.mp hi with hi | hi
    · cases hi
      exact group_le_of_lt hwhole (show s.call t < s.arrivals by omega)
    · exact h.returned i r hi
  · rcases mem_cons.mp hi with hi | hi
    · obtain ⟨rfl, -⟩ := Prod.mk.inj hi
      rw [hcall, mul_comm, mul_add_mod, mod_eq_of_lt (by omega)]
    · exact h.serial i hi
  · change s.sem.waiters.length + s.interrupted.length + 0 = s.arrivals % n
    rw [hnil, hrel.interrupted, hwhole]
    rfl
  · intro u hu
    change u ∈ s.sem.waiters ∨ u ∈ s.interrupted at hu
    rw [hnil, hrel.interrupted] at hu
    exact hu.elim (absurd · not_mem_nil) (absurd · not_mem_nil)
  · change k < s.arrivals / n at hk
    change (k * n + (n - 1), Ret.serial) ∈ (s.call t, Ret.serial) :: s.returned
    by_cases hkq : k + 1 < s.arrivals / n
    · exact mem_cons_of_mem _ (hrel.released k hkq)
    · rw [hcall, show k = q - 1 by omega]
      exact mem_cons_self

theorem Sound.proceed (hn : 1 ≤ n) {stcb : Option τ}
    (hs : s.step (.proceed stcb) = some s') : Sound n s' := by
  obtain ⟨⟨t, stage⟩, hactive, hs⟩ := bind_eq_some_iff.mp hs
  have hphase := h.phase
  rw [hactive] at hphase
  cases stage with
  | entering =>
    cases hs
    exact h.enter hactive
  | reading =>
    cases hs
    refine ⟨h.count, h.semcount, fun u hu => h.known u (hu.imp id ?_), h.given, h.returned,
      h.serial, { hphase with }, rfl⟩
    rintro ⟨stage, hu⟩
    obtain rfl := congrArg Prod.fst (some.inj hu)
    exact ⟨_, hactive⟩
  | releasing semcount =>
    obtain ⟨hrel, rfl⟩ := hphase
    change (if s.sem.semcount < 0 then _ else _) = some s' at hs
    split at hs
    · rename_i hneg
      obtain ⟨sem, hpost, rfl⟩ := map_eq_some_iff.mp hs
      exact h.post hrel ⟨_, hactive⟩ hneg hpost
    · cases hs
      exact h.finish hn hrel (by omega)

omit [DecidableEq τ] in
theorem Sound.switch (hs : s.switch s.active = some s') : Sound n s' := by
  unfold BarrierSys.switch at hs
  split at hs
  · rename_i t hactive
    cases hs
    have hphase := h.phase
    rw [hactive] at hphase
    have hrel : Releasing n s t [] := hphase
    refine ⟨h.count, h.semcount, fun u hu => h.known u ?_, h.given, h.returned, h.serial,
      .inr ⟨t, { hrel with switched := by rw [hrel.switched] }⟩⟩
    rcases hu with (hu | hu | hu | hu) | ⟨stage, hu⟩
    · exact .inl (.inl hu)
    · exact .inl (.inr (.inl hu))
    · exact .inl (.inr (.inr (.inl hu)))
    · rcases mem_cons.mp hu with rfl | hu
      · exact .inr ⟨_, hactive⟩
      · exact .inl (.inr (.inr (.inr hu)))
    · cases hu
  · cases hs

omit h

theorem Gathering.signal (h : Gathering n extra s) (ht : t ∈ s.sem.waiters) {c : ℤ}
    {active : Option (τ × Stage)} :
    Gathering n extra { s with
      sem := ⟨c, s.sem.waiters.erase t⟩, interrupted := t :: s.interrupted, active } where
  switched := h.switched
  members := by
    have hpos := length_pos_of_mem ht
    have hmembers := h.members
    change (s.sem.waiters.erase t).length + (t :: s.interrupted).length + extra = s.arrivals % n
    rw [length_erase_of_mem ht, length_cons]
    omega
  current := by
    rintro u (hu | hu)
    · exact h.current u (.inl (mem_of_mem_erase hu))
    · rcases mem_cons.mp hu with rfl | hu
      · exact h.current u (.inl ht)
      · exact h.current u (.inr hu)
  released := h.released

theorem Sound.signal (h : Sound n s) (hc : Undisturbed s (.signal t))
    (hs : s.step (.signal t) = some s') : Sound n s' := by
  obtain ⟨sem, hirq, rfl⟩ := map_eq_some_iff.mp hs
  obtain ⟨ht, hirq⟩ := ite_none_right_eq_some.mp hirq
  cases hirq
  refine { h with semcount := ?_, known := fun u hu => ?_, phase := ?_ }
  · rw [Plain.length_erase_of_mem ht, h.semcount]
  · rcases hu with (hu | hu | hu) | hu
    · exact h.known u (.inl (.inl (mem_of_mem_erase hu)))
    · rcases mem_cons.mp hu with rfl | hu
      · exact h.known u (.inl (.inl ht))
      · exact h.known u (.inl (.inr (.inl hu)))
    · exact h.known u (.inl (.inr (.inr hu)))
    · exact h.known u (.inr hu)
  · have hphase := h.phase
    cases hactive : s.active with
    | none => exact .inl ((h.gathering hactive hc.1).signal ht)
    | some a =>
      obtain ⟨u, stage⟩ := a
      obtain rfl : stage = .entering := hc.2 _ hactive
      rw [hactive] at hphase
      exact ⟨hphase.1.signal ht, hphase.2⟩

omit [DecidableEq τ] in
/-- A call that returns 0 changes nothing for the group. -/
theorem Phase.ret (h : Phase n s none) {given : List τ} :
    Phase n ({ s with given }.ret t .zero) none := by
  rcases h with hgather | ⟨u, hrel⟩
  · exact .inl { hgather with
      released := fun k hk => mem_cons_of_mem _ (hgather.released k hk) }
  · exact .inr ⟨u, { hrel with
      released := fun k hk => mem_cons_of_mem _ (hrel.released k hk) }⟩

/-- The call of a thread that was given the count returns. -/
theorem Sound.ret (h : Sound n s) (hactive : s.active = none) (hgiven : t ∈ s.given) :
    Sound n ({ s with given := s.given.erase t }.ret t .zero) := by
  refine ⟨h.count, h.semcount, fun u hu => h.known u ?_,
    fun u hu => h.given u (mem_of_mem_erase hu), fun i r hi => ?_, fun i hi => ?_, ?_⟩
  · rcases hu with (hu | hu | hu | hu) | hu
    · exact .inl (.inl hu)
    · exact .inl (.inr (.inl hu))
    · exact .inl (.inr (.inr (.inl (mem_of_mem_erase hu))))
    · exact .inl (.inr (.inr (.inr hu)))
    · exact .inr hu
  · rcases mem_cons.mp hi with hi | hi
    · cases hi
      exact h.given t hgiven
    · exact h.returned i r hi
  · rcases mem_cons.mp hi with hi | hi
    · cases hi
    · exact h.serial i hi
  · have hphase := h.phase
    rw [hactive] at hphase
    have hret : Phase n ({ s with given := s.given.erase t }.ret t .zero) none := hphase.ret
    rw [← hactive] at hret
    exact hret

/-- A thread that was interrupted waits again. -/
theorem Sound.again (h : Sound n s) (hactive : s.active = none) (hint : t ∈ s.interrupted) :
    Sound n ({ s with interrupted := s.interrupted.erase t }.semWait t) := by
  have hgather : Gathering n 0 s := by
    have hphase := h.phase
    rw [hactive] at hphase
    rcases hphase with hgather | ⟨u, hrel⟩
    · exact hgather
    · rw [hrel.interrupted] at hint
      exact absurd hint not_mem_nil
  have hmembers := hgather.members
  have hpos := length_pos_of_mem hint
  change Sound n (match s.sem.semWait t with
    | (sem, true) =>
      ({ s with interrupted := s.interrupted.erase t, sem } : BarrierSys τ).ret t .zero
    | (sem, false) => { s with interrupted := s.interrupted.erase t, sem })
  rw [h.semWait_eq]
  refine { h with semcount := h.semcount_cons, known := fun u hu => h.known u ?_, phase := ?_ }
  · rcases hu with (hu | hu | hu) | hu
    · rcases mem_cons.mp hu with rfl | hu
      · exact .inl (.inr (.inl hint))
      · exact .inl (.inl hu)
    · exact .inl (.inr (.inl (mem_of_mem_erase hu)))
    · exact .inl (.inr (.inr hu))
    · exact .inr hu
  · rw [hactive]
    refine .inl ⟨hgather.switched, ?_, ?_, hgather.released⟩
    · change (t :: s.sem.waiters).length + (s.interrupted.erase t).length + 0 = s.arrivals % n
      rw [length_cons, length_erase_of_mem hint]
      omega
    · rintro u (hu | hu)
      · rcases mem_cons.mp hu with rfl | hu
        · exact hgather.current u (.inr hint)
        · exact hgather.current u (.inl hu)
      · exact hgather.current u (.inr (mem_of_mem_erase hu))

/-- A thread that was switched out goes on releasing its group. -/
theorem Sound.back (h : Sound n s) (hactive : s.active = none) (hswitched : t ∈ s.switched) :
    Sound n { s with active := some (t, .reading), switched := s.switched.erase t } := by
  have hrel : Releasing n s t [t] := by
    have hphase := h.phase
    rw [hactive] at hphase
    rcases hphase with hgather | ⟨u, hrel⟩
    · rw [hgather.switched] at hswitched
      exact absurd hswitched not_mem_nil
    · rw [hrel.switched, mem_singleton] at hswitched
      rwa [hswitched]
  refine { h with known := fun u hu => h.known u (.inl ?_), phase := ?_ }
  · rcases hu with (hu | hu | hu | hu) | ⟨stage, hu⟩
    · exact .inl hu
    · exact .inr (.inl hu)
    · exact .inr (.inr (.inl hu))
    · exact .inr (.inr (.inr (mem_of_mem_erase hu)))
    · obtain rfl := congrArg Prod.fst (some.inj hu)
      exact .inr (.inr (.inr hswitched))
  · exact { hrel with switched := by rw [hrel.switched, erase_cons_head] }

theorem Sound.resume (h : Sound n s) (hs : s.step (.resume t) = some s') : Sound n s' := by
  rw [BarrierSys.step] at hs
  split_ifs at hs with hactive hgiven hint hswitched
  · cases hs
    exact h.ret (not_not.mp hactive) hgiven
  · cases hs
    exact h.again (not_not.mp hactive) hint
  · cases hs
    exact h.back (not_not.mp hactive) hswitched

/-- **One step keeps the state sound.** -/
theorem Sound.step (h : Sound n s) (hn : 1 ≤ n) (hlt : n < 2 ^ 31) (hc : Undisturbed s e)
    (hs : s.step e = some s') : Sound n s' := by
  cases e with
  | arrive t => exact h.arrive hn hlt hc hs
  | proceed stcb => exact h.proceed hn hs
  | switch => exact h.switch hs
  | signal t => exact h.signal hc hs
  | resume t => exact h.resume hs

end BarrierSys

open BarrierSys

variable {τ : Type} [DecidableEq τ]

end GreenboneFeeder.Pthread
