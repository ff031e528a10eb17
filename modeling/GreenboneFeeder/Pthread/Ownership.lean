import GreenboneFeeder.Pthread.Held

/-!
# A recursive mutex has at most one owner

The owner of the mutex is the thread in `pid`, as long as `nlocks` is the number of its locks
(`Pthread.mutex_owned_by_one`). `pthread_mutex_trylock` does not set `nlocks`: if its caller locks
the mutex once more, the first unlock gives the mutex away (`Pthread.mutex_owned_by_two`).
-/

namespace GreenboneFeeder.Pthread

open Function

open Sem (Plain)

namespace MutexSys

variable {τ : Type} [DecidableEq τ] {s s' : MutexSys τ} {t u : τ} {e : MutexEvent τ}

/-- **The state of a recursive mutex.** -/
structure Sound (s : MutexSys τ) : Prop where
  recursive : s.mutex.type = .recursive
  held : Held s.mutex.sem s.mutex.pid s.place
  /-- `nlocks` is the number of the locks of the thread in `pid`, but 0 after a trylock -/
  nlocks : ∀ t, s.mutex.pid = some t → 0 ≤ s.mutex.nlocks ∧ s.mutex.nlocks < 2 ^ 31 ∧
    (s.locks t : ℤ) = s.unlocks t + max 1 s.mutex.nlocks
  free : s.mutex.pid = none → s.mutex.nlocks = 0
  others : ∀ t, s.mutex.pid ≠ some t → s.locks t = s.unlocks t

omit [DecidableEq τ] in
theorem sound_init : (init .recursive : MutexSys τ).Sound where
  recursive := rfl
  held := Held.init
  nlocks t h := by cases h
  free _ := rfl
  others _ _ := rfl

/-! ### The locks of the threads -/

section

variable (h : s.Sound)

include h

theorem Sound.first_lock (hpid : s.mutex.pid = none) {n : ℤ} (hn : max 1 n = 1)
    (hn0 : 0 ≤ n) {sem : Plain τ} {place : τ → Place} (hheld : Held sem (some t) place) :
    ({ s with mutex := { s.mutex with sem, pid := some t, nlocks := n }, place }.locked
      t).Sound := by
  have hothers : ∀ u, s.locks u = s.unlocks u := fun u => h.others u (by simp [hpid])
  refine ⟨h.recursive, hheld, fun u hu => ?_, fun hu => ?_, fun u hu => ?_⟩
  · cases hu
    change 0 ≤ n ∧ n < 2 ^ 31 ∧
      ((update s.locks t (s.locks t + 1) t : ℕ) : ℤ) = s.unlocks t + max 1 n
    rw [update_self, hothers t, hn]
    exact ⟨hn0, by omega, by rfl⟩
  · cases hu
  · change update s.locks t (s.locks t + 1) u = s.unlocks u
    rw [update_of_ne (fun hc => hu (congrArg some hc.symm))]
    exact hothers u

theorem Sound.nest (hpid : s.mutex.pid = some t) (hpos : 1 ≤ s.mutex.nlocks)
    (hlt : s.mutex.nlocks < 2 ^ 31 - 1) :
    ({ s with mutex := { s.mutex with nlocks := int (s.mutex.nlocks + 1) } }.locked t).Sound := by
  rw [int_of_lt (by omega) (by omega)]
  refine ⟨h.recursive, h.held, fun u hu => ?_, fun hnone => ?_, fun u hu => ?_⟩
  · obtain rfl := Option.some.inj (hpid.symm.trans hu)
    obtain ⟨-, -, hcount⟩ := h.nlocks t hpid
    change 0 ≤ s.mutex.nlocks + 1 ∧ s.mutex.nlocks + 1 < 2 ^ 31 ∧
      ((update s.locks t (s.locks t + 1) t : ℕ) : ℤ) =
        s.unlocks t + max 1 (s.mutex.nlocks + 1)
    rw [update_self]
    omega
  · exact absurd (hpid.symm.trans hnone) (by simp)
  · change update s.locks t (s.locks t + 1) u = s.unlocks u
    rw [update_of_ne (by rintro rfl; exact hu hpid)]
    exact h.others u hu

theorem Sound.unnest (hpid : s.mutex.pid = some t) (hpos : 1 < s.mutex.nlocks) :
    ({ s with mutex := { s.mutex with nlocks := int (s.mutex.nlocks - 1) } }.unlocked t).Sound := by
  obtain ⟨hle, hlt, hcount⟩ := h.nlocks t hpid
  rw [int_of_lt (by omega) (by omega)]
  refine ⟨h.recursive, h.held, fun u hu => ?_, fun hnone => ?_, fun u hu => ?_⟩
  · obtain rfl := Option.some.inj (hpid.symm.trans hu)
    change 0 ≤ s.mutex.nlocks - 1 ∧ s.mutex.nlocks - 1 < 2 ^ 31 ∧
      (s.locks t : ℤ) = ((update s.unlocks t (s.unlocks t + 1) t : ℕ) : ℤ) +
        max 1 (s.mutex.nlocks - 1)
    rw [update_self]
    omega
  · exact absurd (hpid.symm.trans hnone) (by simp)
  · change s.locks u = update s.unlocks t (s.unlocks t + 1) u
    rw [update_of_ne (by rintro rfl; exact hu hpid)]
    exact h.others u hu

theorem Sound.last_unlock (hpid : s.mutex.pid = some t) (hn : s.mutex.nlocks ≤ 1)
    {sem : Plain τ} {place : τ → Place} (hheld : Held sem none place) :
    ({ s with mutex := { s.mutex with sem, pid := none, nlocks := 0 }, place }.unlocked
      t).Sound := by
  refine ⟨h.recursive, hheld, fun u hu => ?_, fun _ => rfl, fun u _ => ?_⟩
  · cases hu
  · change s.locks u = update s.unlocks t (s.unlocks t + 1) u
    by_cases hut : u = t
    · obtain ⟨-, -, hcount⟩ := h.nlocks t hpid
      rw [hut, update_self]
      omega
    · rw [update_of_ne hut]
      exact h.others u fun hu => hut (Option.some.inj (hu.symm.trans hpid))

/-! ### Runs -/

/-- **The count of the locks is right**: a thread that locks the mutex once more has not got it by
`pthread_mutex_trylock`, and its locks still fit an `int`. -/
def Counted (s : MutexSys τ) : MutexEvent τ → Prop
  | .lock t => s.mutex.pid = some t → 1 ≤ s.mutex.nlocks ∧ s.mutex.nlocks < 2 ^ 31 - 1
  | _ => True

instance (s : MutexSys τ) : ∀ e, Decidable (Counted s e)
  | .lock _ => inferInstanceAs (Decidable (_ → _))
  | .trylock _ | .unlock .. | .resume _ => isTrue trivial

theorem Sound.lock (hc : Counted s (.lock t)) (hs : s.step (.lock t) = some s') :
    s'.Sound := by
  obtain ⟨hout, hs⟩ := Option.ite_none_right_eq_some.mp hs
  unfold pthreadMutexLock at hs
  split_ifs at hs with hpid htype
  · cases hs
    exact h.nest hpid (hc hpid).1 (hc hpid).2
  · exact absurd h.recursive htype
  · unfold Plain.semWait at hs
    split_ifs at hs with hpos
    · cases hs
      exact h.first_lock (h.held.pid_eq_none hpos) rfl (by decide) (h.held.take hpos)
    · cases hs
      exact { h with held := h.held.block hout hpos }

theorem Sound.trylock (hs : s.step (.trylock t) = some s') : s'.Sound := by
  obtain ⟨-, hs⟩ := Option.ite_none_right_eq_some.mp hs
  unfold pthreadMutexTrylock Plain.semTrywait at hs
  split_ifs at hs with hpos
  · cases hs
    have hnone := h.held.pid_eq_none hpos
    have hzero := h.free hnone
    exact h.first_lock hnone (by omega) (by omega) (h.held.take hpos)
  · cases hs
    exact h

theorem Sound.unlock {stcb : Option τ} (hs : s.step (.unlock t stcb) = some s') :
    s'.Sound := by
  rw [MutexSys.step] at hs
  split at hs
  swap
  · cases hs
  unfold pthreadMutexUnlock at hs
  split_ifs at hs with hpid hnest
  · cases hs
    exact h
  · cases hs
    exact h.unnest (not_not.mp hpid) hnest.2
  · have hn : s.mutex.nlocks ≤ 1 := by
      by_contra hlt
      exact hnest ⟨h.recursive, by omega⟩
    cases hpost : s.mutex.sem.semPost stcb with
    | none =>
      rw [hpost] at hs
      cases hs
    | some sem =>
      rw [hpost] at hs
      cases hs
      have hlast := h.last_unlock (not_not.mp hpid) hn (h.held.release (not_not.mp hpid) hpost)
      cases stcb <;> exact hlast

/-- **One step keeps the state sound.** -/
theorem Sound.step (hc : Counted s e) (hs : s.step e = some s') : s'.Sound := by
  cases e with
  | lock t => exact h.lock hc hs
  | trylock t => exact h.trylock hs
  | unlock t stcb => exact h.unlock hs
  | resume t =>
    obtain ⟨hgiven, hs⟩ := Option.ite_none_right_eq_some.mp hs
    cases hs
    exact h.first_lock (h.held.given t hgiven) rfl (by decide) (h.held.own hgiven)

theorem Sound.owns_iff : s.Owns t ↔ s.mutex.pid = some t := by
  constructor
  · intro howns
    by_contra hpid
    rw [Owns, h.others t hpid] at howns
    exact lt_irrefl _ howns
  · intro hpid
    obtain ⟨-, -, hcount⟩ := h.nlocks t hpid
    rw [Owns]
    omega

end

end MutexSys

open MutexSys

variable {τ : Type} [DecidableEq τ]

/-- **A recursive mutex has at most one owner, and only the owner can unlock it**, in every
interleaving of the calls of any threads, if the locks are counted. -/
theorem mutex_owned_by_one (es : List (MutexEvent τ)) (s : MutexSys τ)
    (hc : Run.AllSteps MutexSys.step Counted (init .recursive) es)
    (hr : Run.run MutexSys.step (init .recursive) es = some s) :
    (∀ t u, s.Owns t → s.Owns u → t = u) ∧
      ∀ t stcb, ¬s.Owns t → pthreadMutexUnlock t stcb s.mutex = some (s.mutex, .eperm, none) := by
  have h : s.Sound :=
    Run.invariant_of_allSteps (fun _ _ _ h hc hs => Sound.step h hc hs) es sound_init hc hr
  refine ⟨fun t u ht hu => ?_, fun t stcb ht => ?_⟩
  · exact Option.some.inj ((h.owns_iff.mp ht).symm.trans (h.owns_iff.mp hu))
  · rw [pthreadMutexUnlock, if_pos fun hpid => ht (h.owns_iff.mpr hpid)]

/-- One thread locks the mutex twice and unlocks it, while another one waits. -/
theorem mutex_owned_by_one_nested :
    ∃ s, Run.run MutexSys.step (init .recursive)
        [.lock true, .lock false, .lock true, .unlock true (some false)] = some s ∧
      s.Owns true ∧ (∀ t u, s.Owns t → s.Owns u → t = u) ∧
      ∀ t stcb, ¬s.Owns t → pthreadMutexUnlock t stcb s.mutex = some (s.mutex, .eperm, none) :=
  Run.exists_eq_some (by decide) fun s hs howns =>
    ⟨howns, mutex_owned_by_one _ s (by decide) hs⟩

/-- **Two owners**: a thread gets the mutex by trylock, locks it once more and unlocks it once,
and another thread gets it. -/
theorem mutex_owned_by_two :
    ∃ s, Run.run MutexSys.step (init .recursive)
        [.trylock true, .lock true, .unlock true none, .lock false] = some s ∧
      s.Owns true ∧ s.Owns false :=
  Run.exists_eq_some (by decide) fun _ _ h => h

end GreenboneFeeder.Pthread
