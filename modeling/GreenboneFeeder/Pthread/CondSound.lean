import GreenboneFeeder.Pthread.Cond

/-!
# The state of a condition variable

As long as nothing comes between a thread's reading the count and its posts
(`Pthread.CondSys.Undisturbed`), the count is the number of the threads that are blocked on the
condition, and a thread that has read it holds the mutex, so that no other thread can begin to wait
before it has acted on it.
-/

namespace GreenboneFeeder.Pthread

open Function Option

open Sem (Plain)

/-! ### Places -/

/-- What a place says about the semaphore of the mutex. -/
def Where.key : Where → Place
  | .locking .blocked => .blocked
  | .locking .given => .given
  | .reacquiring .blocked => .blocked
  | .reacquiring .given => .given
  | .reacquired => .given
  | _ => .outside

/-- The count that a thread has read and still has to act on. -/
def Where.sval : Where → Option ℤ
  | .signalling sval => some sval
  | .broadcasting sval => some sval
  | _ => none

/-- The thread is in the semaphore wait of `pthread_cond_wait`, blocked or about to wait. -/
def Where.Pending (w : Where) : Prop := w = .waiting .blocked ∨ w = .waiting .ready

instance (w : Where) : Decidable w.Pending := inferInstanceAs (Decidable (_ ∨ _))

theorem Where.key_eq_blocked {w : Where} (h : w.key = .blocked) :
    w.wake.key = .given ∧ ¬w.wake.Pending ∧ w.wake.sval = none ∧ w ≠ .waiting .blocked := by
  cases w with
  | locking w | reacquiring w =>
    cases w with
    | blocked => decide
    | _ => cases h
  | waiting w | outside | reacquired | signalling sval | broadcasting sval => cases h

variable {sval : ℤ}

theorem Where.key_of_sval {w : Where} (h : w.sval = some sval) :
    w.key = .outside ∧ w ≠ .waiting .blocked ∧ w.wake = w := by
  cases w with
  | signalling sval | broadcasting sval => exact ⟨rfl, by simp, rfl⟩
  | _ => cases h

namespace CondSys

variable {τ : Type} [DecidableEq τ] {s s' : CondSys τ} {t u : τ} {e : CondEvent τ} {w : Where}
  {mutex : Mutex τ} {stcb : Option τ}

theorem key_update (loc : τ → Where) (t : τ) (w : Where) :
    (fun u => (update loc t w u).key) =
      update (fun u => (loc u).key) t w.key :=
  funext fun u => Function.apply_update (fun _ => Where.key) loc t w u

theorem key_update_of_eq {loc : τ → Where} (h : w.key = (loc t).key) :
    (fun u => (update loc t w u).key) = fun u => (loc u).key := by
  rw [key_update, h]
  exact update_eq_self t fun u => (loc u).key

/-! ### The semaphore of the condition -/

/-- The blocked threads are the waiters of the semaphore, and the count is their number. -/
structure Waits (cond : Plain τ) (loc : τ → Where) : Prop where
  blocked : ∀ t, loc t = .waiting .blocked ↔ t ∈ cond.waiters
  nodup : cond.waiters.Nodup
  semcount : cond.semcount = -cond.waiters.length

namespace Waits

variable {cond cond' : Plain τ} {loc : τ → Where}

variable (h : Waits cond loc)

include h

theorem move (ht : loc t ≠ .waiting .blocked) (hw : w ≠ .waiting .blocked) :
    Waits cond (update loc t w) where
  blocked u := by
    by_cases hut : u = t
    · rw [hut, update_self]
      exact iff_of_false hw fun hmem => ht ((h.blocked t).mpr hmem)
    · rw [update_of_ne hut, h.blocked]
  nodup := h.nodup
  semcount := h.semcount

omit [DecidableEq τ] in
theorem semWait_eq :
    cond.semWait t = (⟨cond.semcount - 1, t :: cond.waiters⟩, false) := by
  have := h.semcount
  rw [Plain.semWait, if_neg (by omega)]

theorem block (ht : loc t ≠ .waiting .blocked) :
    Waits ⟨cond.semcount - 1, t :: cond.waiters⟩ (update loc t (.waiting .blocked)) where
  blocked u := by
    by_cases hut : u = t
    · simp [hut]
    · rw [update_of_ne hut, h.blocked, List.mem_cons, or_iff_right hut]
  nodup := List.nodup_cons.mpr ⟨fun hmem => ht ((h.blocked t).mpr hmem), h.nodup⟩
  semcount := by
    have := h.semcount
    rw [List.length_cons]
    push_cast
    omega

theorem unblock (ht : t ∈ cond.waiters) (hw : w ≠ .waiting .blocked) :
    Waits ⟨cond.semcount + 1, cond.waiters.erase t⟩ (update loc t w) where
  blocked u := by
    rw [h.nodup.mem_erase_iff]
    by_cases hut : u = t
    · rw [hut, update_self]
      exact iff_of_false hw fun hne => hne.1 rfl
    · rw [update_of_ne hut, h.blocked, and_iff_right hut]
  nodup := h.nodup.erase t
  semcount := by
    rw [Plain.length_erase_of_mem ht, h.semcount]

theorem exists_of_semPost (hneg : cond.semcount < 0) (hpost : cond.semPost stcb = some cond') :
    ∃ u, stcb = some u ∧ u ∈ cond.waiters ∧
      cond' = ⟨cond.semcount + 1, cond.waiters.erase u⟩ := by
  obtain ⟨hchoice, hpost⟩ := ite_none_right_eq_some.mp hpost
  cases hpost
  cases stcb with
  | none =>
    have := h.semcount
    rcases hchoice.2 with hle | hnil
    · omega
    · rw [hnil, List.length_nil] at this
      omega
  | some u => exact ⟨u, rfl, hchoice.2.2, rfl⟩

end Waits

/-! ### The invariant -/

/-- **The state of a condition variable.** A thread that has read the count holds the mutex, the
count is still what it was, and no thread is about to wait. -/
structure Sound (s : CondSys τ) : Prop where
  held : Held s.mutex.sem s.mutex.pid fun t => (s.loc t).key
  waits : Waits s.cond s.loc
  posting : ∀ t, ∀ sval ∈ (s.loc t).sval, s.mutex.pid = some t ∧ sval = s.cond.semcount ∧
    ∀ u, s.loc u ≠ .waiting .ready
  call : ∀ t, s.call t ≤ s.calls

/-- **Nothing comes between**: when a thread reads the count no thread that has given up the mutex
is about to wait, at first or again, and no signal reaches a thread that waits on the condition
until the count was acted on. -/
def Undisturbed (s : CondSys τ) : CondEvent τ → Prop
  | .signal _ => ∀ u, s.loc u ≠ .waiting .ready
  | .broadcast _ => ∀ u, s.loc u ≠ .waiting .ready
  | .interrupt t => s.loc t = .waiting .blocked → ∀ u, (s.loc u).sval = none
  | _ => True

instance [Fintype τ] (s : CondSys τ) : ∀ e, Decidable (Undisturbed s e)
  | .signal _ => inferInstanceAs (Decidable (∀ _, _))
  | .broadcast _ => inferInstanceAs (Decidable (∀ _, _))
  | .interrupt _ => inferInstanceAs (Decidable (_ → ∀ _, _))
  | .lock _ | .trylock _ | .unlock .. | .wait .. | .post .. | .take _ | .resume _ => isTrue trivial

omit [DecidableEq τ] in
theorem sound_init (type : MutexType) : (init type : CondSys τ).Sound where
  held := Held.init
  waits := ⟨fun t => by simp [init, Plain.semInit], List.nodup_nil, rfl⟩
  posting t sval h := by cases h
  call _ := le_refl _

omit [DecidableEq τ] in
theorem Sound.not_posting (h : s.Sound) (hpid : s.mutex.pid = some t) (ht : (s.loc t).sval = none)
    (u : τ) : (s.loc u).sval = none := by
  by_contra hu
  obtain ⟨sval, hsval⟩ := ne_none_iff_exists'.mp hu
  have hut := (h.posting u sval hsval).1
  rw [hpid] at hut
  rw [some.inj hut, hsval] at ht
  cases ht

omit [DecidableEq τ] in
theorem Sound.not_posting_of_none (h : s.Sound) (hpid : s.mutex.pid = none) (u : τ) :
    (s.loc u).sval = none := by
  by_contra hu
  obtain ⟨sval, hsval⟩ := ne_none_iff_exists'.mp hu
  have hut := (h.posting u sval hsval).1
  rw [hpid] at hut
  cases hut

theorem Sound.posting_move (h : s.Sound) (hw : w.sval = none) (hready : w ≠ .waiting .ready)
    {v : τ} (hv : sval ∈ (update s.loc t w v).sval) :
    s.mutex.pid = some v ∧ sval = s.cond.semcount ∧
      ∀ u, update s.loc t w u ≠ .waiting .ready := by
  by_cases hvt : v = t
  · rw [hvt, update_self, hw] at hv
    cases hv
  · rw [update_of_ne hvt] at hv
    obtain ⟨hpid, hcount, hnone⟩ := h.posting v sval hv
    refine ⟨hpid, hcount, fun u => ?_⟩
    by_cases hut : u = t
    · rwa [hut, update_self]
    · rw [update_of_ne hut]
      exact hnone u

theorem sval_update (hw : w.sval = none) (hs : ∀ u, (s.loc u).sval = none) (u : τ) :
    (update s.loc t w u).sval = none := by
  by_cases hut : u = t
  · rw [hut, update_self, hw]
  · rw [update_of_ne hut, hs u]

variable (h : s.Sound)

include h

/-- A thread moves that is not blocked on the condition, and the mutex changes but for `pid`. -/
theorem Sound.move (ht : s.loc t ≠ .waiting .blocked) (hw : w.sval = none)
    (hwait : ∀ v, w ≠ .waiting v) (hpid : mutex.pid = s.mutex.pid)
    (hheld : Held mutex.sem mutex.pid (update (fun u => (s.loc u).key) t w.key)) :
    ({ s with mutex }.move t w).Sound where
  held := by
    change Held _ _ fun u => (update s.loc t w u).key
    rw [key_update]
    exact hheld
  waits := h.waits.move ht (hwait _)
  posting v sval hv := by
    obtain ⟨hp, hrest⟩ := h.posting_move hw (hwait _) hv
    exact ⟨hpid.trans hp, hrest⟩
  call := h.call

/-- The thread does as much with the mutex as before. -/
theorem Sound.stay (ht : s.loc t ≠ .waiting .blocked) (hw : w.sval = none)
    (hwait : ∀ v, w ≠ .waiting v) (hkey : w.key = (s.loc t).key) : (s.move t w).Sound := by
  refine h.move ht hw hwait rfl ?_
  rw [hkey]
  exact (update_eq_self t fun u => (s.loc u).key).symm ▸ h.held

/-! ### The mutex -/

omit [DecidableEq τ] in
theorem Sound.with_mutex {loc : τ → Where}
    (hheld : Held mutex.sem mutex.pid fun t => (loc t).key) (hwaits : Waits s.cond loc)
    (hsval : ∀ u, (loc u).sval = none) : ({ s with mutex, loc } : CondSys τ).Sound where
  held := hheld
  waits := hwaits
  posting t sval ht := by
    rw [hsval t] at ht
    cases ht
  call := h.call

theorem Sound.lock (hs : s.step (.lock t) = some s') : s'.Sound := by
  obtain ⟨hout, hs⟩ := ite_none_right_eq_some.mp hs
  have hkey : (s.loc t).key = .outside := by rw [hout]; rfl
  unfold pthreadMutexLock at hs
  split_ifs at hs with hpid htype
  · cases hs
    exact { h with }
  · cases hs
    exact h
  · unfold Plain.semWait at hs
    split_ifs at hs with hpos
    · cases hs
      exact h.with_mutex (h.held.take hpos) h.waits
        (h.not_posting_of_none (h.held.pid_eq_none hpos))
    · cases hs
      exact h.move (by rw [hout]; decide) rfl (by simp) rfl (h.held.block hkey hpos)

theorem Sound.trylock (hs : s.step (.trylock t) = some s') : s'.Sound := by
  obtain ⟨-, hs⟩ := ite_none_right_eq_some.mp hs
  unfold pthreadMutexTrylock Plain.semTrywait at hs
  split_ifs at hs with hpos
  · cases hs
    exact h.with_mutex (h.held.take hpos) h.waits
      (h.not_posting_of_none (h.held.pid_eq_none hpos))
  · cases hs
    exact h

theorem Sound.release (hpid : s.mutex.pid = some t) (ht : (s.loc t).sval = none)
    {sem : Plain τ} (hpost : s.mutex.sem.semPost stcb = some sem) {n : ℤ} :
    ({ s with mutex := { s.mutex with sem, pid := none, nlocks := n } }.wake stcb).Sound := by
  have hrelease := h.held.release hpid hpost
  have hsval := h.not_posting hpid ht
  cases stcb with
  | none => exact h.with_mutex hrelease h.waits hsval
  | some u =>
    have hmem : u ∈ s.mutex.sem.waiters := by
      obtain ⟨hchoice, hpost⟩ := ite_none_right_eq_some.mp hpost
      exact hchoice.2.2
    have hkey := Where.key_eq_blocked ((h.held.blocked u).mpr hmem)
    have hwaits : Waits s.cond (update s.loc u (s.loc u).wake) :=
      h.waits.move hkey.2.2.2 fun hc => hkey.2.1 (.inl hc)
    refine h.with_mutex ?_ hwaits (sval_update hkey.2.2.1 hsval)
    rw [key_update, hkey.1]
    exact hrelease

theorem Sound.unlock (hs : s.step (.unlock t stcb) = some s') :
    s'.Sound := by
  obtain ⟨hout, hs⟩ := ite_none_right_eq_some.mp hs
  unfold pthreadMutexUnlock at hs
  split_ifs at hs with hpid hnest
  · cases hs
    exact h
  · cases hs
    exact { h with }
  · cases hpost : s.mutex.sem.semPost stcb with
    | none =>
      rw [hpost] at hs
      cases hs
    | some sem =>
      rw [hpost] at hs
      cases hs
      exact h.release (not_not.mp hpid) (by rw [hout]; rfl) hpost

/-! ### Waiting -/

/-- A thread waits for the semaphore of the condition, while no thread has read a count. -/
theorem Sound.takeCond (ht : s.loc t ≠ .waiting .blocked)
    (hkey : (s.loc t).key = .outside) (hsval : ∀ u, (s.loc u).sval = none) :
    (s.takeCond t).Sound := by
  unfold CondSys.takeCond
  rw [h.waits.semWait_eq]
  refine ⟨?_, h.waits.block ht, fun v sval hv => ?_, h.call⟩
  · change Held _ _ fun u => (update s.loc t (.waiting .blocked) u).key
    rw [key_update_of_eq (by rw [hkey]; rfl)]
    exact h.held
  · change sval ∈ (update s.loc t (.waiting .blocked) v).sval at hv
    rw [sval_update rfl hsval] at hv
    cases hv

omit h in
theorem loc_wake_of_ne (ht : stcb ≠ some t) : (s.wake stcb).loc t = s.loc t := by
  cases stcb with
  | none => rfl
  | some u => exact update_of_ne (fun hc => ht (congrArg some hc.symm)) _ _

/-- A thread that holds the mutex is not blocked on it, so it does not wake itself. -/
theorem Sound.stcb_ne (ht : s.loc t = .outside) {sem : Plain τ}
    (hpost : s.mutex.sem.semPost stcb = some sem) : stcb ≠ some t := by
  rintro rfl
  obtain ⟨hchoice, hpost⟩ := ite_none_right_eq_some.mp hpost
  have hblocked := (h.held.blocked t).mpr hchoice.2.2
  rw [ht] at hblocked
  cases hblocked

theorem Sound.count : (s.count t).Sound where
  held := h.held
  waits := h.waits
  posting := h.posting
  call u := by
    have hle := h.call u
    change update s.call t (s.calls + 1) u ≤ s.calls + 1
    by_cases hut : u = t
    · rw [hut, update_self]
    · rw [update_of_ne hut]
      exact Nat.le_succ_of_le hle

/-- A thread has given up the mutex and is about to wait. -/
theorem Sound.enter (hout : s.loc t = .outside) (hpid : s.mutex.pid = none) :
    (s.move t (.waiting .ready)).Sound := by
  refine h.with_mutex ?_ (h.waits.move (by rw [hout]; decide) (by decide))
    (sval_update rfl (h.not_posting_of_none hpid))
  rw [key_update_of_eq (by rw [hout]; rfl)]
  exact h.held

theorem Sound.wait (hs : s.step (.wait t stcb) = some s') :
    s'.Sound := by
  obtain ⟨⟨hout, hpid⟩, hs⟩ := ite_none_right_eq_some.mp hs
  obtain ⟨sem, hpost, rfl⟩ := map_eq_some_iff.mp hs
  have hrel := h.release hpid (by rw [hout]; rfl) hpost (n := s.mutex.nlocks)
  refine hrel.count.enter ((loc_wake_of_ne (h.stcb_ne hout hpost)).trans hout) ?_
  cases stcb <;> rfl

/-! ### Reading the count and posting -/

theorem Sound.read (hout : s.loc t = .outside) (hpid : s.mutex.pid = some t)
    (hready : ∀ u, s.loc u ≠ .waiting .ready)
    (hw : w = .signalling s.cond.semcount ∨ w = .broadcasting s.cond.semcount) :
    (s.move t w).Sound := by
  have hkey : w.key = .outside := by rcases hw with rfl | rfl <;> rfl
  have hsval : w.sval = some s.cond.semcount := by rcases hw with rfl | rfl <;> rfl
  have hwait : ∀ v, w ≠ .waiting v := by rcases hw with rfl | rfl <;> simp
  have hnone := h.not_posting hpid (by rw [hout]; rfl)
  refine ⟨?_, h.waits.move (by rw [hout]; decide) (hwait _), fun v sval hv => ?_, h.call⟩
  · change Held _ _ fun u => (update s.loc t w u).key
    rw [key_update_of_eq (by rw [hkey, hout]; rfl)]
    exact h.held
  · change sval ∈ (update s.loc t w v).sval at hv
    by_cases hvt : v = t
    · rw [hvt, update_self, hsval] at hv
      refine ⟨hvt ▸ hpid, (some.inj hv).symm, fun u => ?_⟩
      change update s.loc t w u ≠ _
      by_cases hut : u = t
      · rw [hut, update_self]
        exact hwait _
      · rw [update_of_ne hut]
        exact hready u
    · rw [update_of_ne hvt, hnone v] at hv
      cases hv

theorem Sound.done (ht : (s.loc t).sval = some sval) : (s.move t .outside).Sound := by
  have hkey := Where.key_of_sval ht
  exact h.stay hkey.2.1 rfl (by simp) hkey.1.symm

/-- A post of a thread that has read a negative count wakes a thread that waits. -/
theorem Sound.postCond (ht : (s.loc t).sval = some sval) (hneg : sval < 0) {cond : Plain τ}
    (hpost : s.cond.semPost stcb = some cond) (hw : w = .outside ∨ w = .broadcasting (sval + 1)) :
    (({ s with cond }.wake stcb).move t w).Sound := by
  obtain ⟨hpid, rfl, hready⟩ := h.posting t sval ht
  obtain ⟨u, rfl, hmem, rfl⟩ := h.waits.exists_of_semPost hneg hpost
  have hu : s.loc u = .waiting .blocked := (h.waits.blocked u).mpr hmem
  have hut : t ≠ u := by
    rintro rfl
    rw [hu] at ht
    cases ht
  have hloc : update s.loc u (s.loc u).wake = update s.loc u (.waiting .given) := by
    rw [hu]
    rfl
  have hwaits := h.waits.unblock hmem (w := .waiting .given) (by decide)
  have htloc : update s.loc u (.waiting .given) t = s.loc t :=
    update_of_ne hut _ _
  have hkey := Where.key_of_sval ht
  have hwkey : w.key = .outside ∧ (∀ v, w ≠ .waiting v) ∧
      ∀ x ∈ w.sval, x = s.cond.semcount + 1 := by
    rcases hw with rfl | rfl
    · exact ⟨rfl, by simp, fun x hx => by cases hx⟩
    · exact ⟨rfl, by simp, fun x hx => (some.inj hx).symm⟩
  change Sound { s with
    cond := ⟨s.cond.semcount + 1, s.cond.waiters.erase u⟩
    loc := update (update s.loc u (s.loc u).wake) t w }
  rw [hloc]
  refine ⟨?_, hwaits.move (by rw [htloc]; exact hkey.2.1) (hwkey.2.1 _), fun v x hv => ?_, h.call⟩
  · rw [key_update_of_eq (by rw [htloc, hkey.1, hwkey.1]), key_update_of_eq (by rw [hu]; rfl)]
    exact h.held
  · change x ∈ (update (update s.loc u (.waiting .given)) t w v).sval at hv
    have hv' : v = t := by
      by_contra hvt
      rw [update_of_ne hvt] at hv
      by_cases hvu : v = u
      · rw [hvu, update_self] at hv
        cases hv
      · rw [update_of_ne hvu] at hv
        have := (h.posting v x hv).1
        rw [hpid] at this
        exact hvt (some.inj this).symm
    rw [hv', update_self] at hv
    refine ⟨hv' ▸ hpid, hwkey.2.2 x hv, fun y => ?_⟩
    change update (update s.loc u (.waiting .given)) t w y ≠ _
    by_cases hyt : y = t
    · rw [hyt, update_self]
      exact hwkey.2.1 _
    · rw [update_of_ne hyt]
      by_cases hyu : y = u
      · rw [hyu, update_self]
        decide
      · rw [update_of_ne hyu]
        exact hready y

theorem Sound.posted (ht : (s.loc t).sval = some sval)
    (hw : w = .outside ∨ w = .broadcasting (sval + 1))
    (hs :
      (if sval < 0 then (s.cond.semPost stcb).map fun cond => ({ s with cond }.wake stcb).move t w
      else some (s.move t .outside)) = some s') : s'.Sound := by
  split_ifs at hs with hneg
  · obtain ⟨cond, hpost, rfl⟩ := map_eq_some_iff.mp hs
    exact h.postCond ht hneg hpost hw
  · cases hs
    exact h.done ht

theorem Sound.post (hs : s.step (.post t stcb) = some s') :
    s'.Sound := by
  change s.postNext t stcb (s.loc t) = some s' at hs
  cases hloc : s.loc t with
  | signalling sval =>
    rw [hloc] at hs
    exact h.posted (by rw [hloc]; rfl) (.inl rfl) hs
  | broadcasting sval =>
    rw [hloc] at hs
    exact h.posted (by rw [hloc]; rfl) (.inr rfl) hs
  | _ =>
    rw [hloc] at hs
    cases hs

/-! ### Taking the semaphores -/

omit [DecidableEq τ] in
theorem Sound.not_posting_of_ready (ht : s.loc t = .waiting .ready) (u : τ) :
    (s.loc u).sval = none := by
  by_contra hu
  obtain ⟨sval, hsval⟩ := ne_none_iff_exists'.mp hu
  exact (h.posting u sval hsval).2.2 t ht

theorem Sound.take (hs : s.step (.take t) = some s') : s'.Sound := by
  change s.takeNext t (s.loc t) = some s' at hs
  unfold CondSys.takeNext at hs
  split at hs
  · -- in `pthread_mutex_lock`
    rename_i hloc
    have hkey : (s.loc t).key = .outside := by rw [hloc]; rfl
    have hne : s.loc t ≠ .waiting .blocked := by rw [hloc]; decide
    unfold CondSys.takeMutex Plain.semWait at hs
    split_ifs at hs with hpos
    · cases hs
      have hsval := h.not_posting_of_none (h.held.pid_eq_none hpos)
      refine h.with_mutex ?_ ((h.waits.move hne (by decide)).move
        (by rw [update_self]; decide) (by decide)) ?_
      · change Held _ (some t) fun u =>
          (update (update s.loc t .outside) t .outside u).key
        rw [update_idem, key_update_of_eq (show Where.outside.key = _ from hkey.symm)]
        exact h.held.take hpos
      · change ∀ u, (update (update s.loc t .outside) t .outside u).sval = none
        rw [update_idem]
        exact sval_update rfl hsval
    · cases hs
      exact h.move hne rfl (by simp) rfl (h.held.block hkey hpos)
  · rename_i hloc
    cases hs
    exact h.takeCond (by rw [hloc]; decide) (by rw [hloc]; rfl) (h.not_posting_of_ready hloc)
  · -- in `pthread_cond_wait`
    rename_i hloc
    have hkey : (s.loc t).key = .outside := by rw [hloc]; rfl
    have hne : s.loc t ≠ .waiting .blocked := by rw [hloc]; decide
    cases hs
    unfold CondSys.takeMutex Plain.semWait
    split_ifs with hpos
    · exact h.move hne rfl (by simp) rfl (h.held.take_given hkey hpos)
    · exact h.move hne rfl (by simp) rfl (h.held.block hkey hpos)
  · cases hs

theorem Sound.owned (ht : (s.loc t).key = .given) (hne : s.loc t ≠ .waiting .blocked)
    (hsem : mutex.sem = s.mutex.sem) (hpid : mutex.pid = some t) :
    ({ s with mutex }.move t .outside).Sound := by
  refine h.with_mutex ?_ (h.waits.move hne (by decide))
    (sval_update rfl (h.not_posting_of_none (h.held.given t ht)))
  rw [key_update, hsem, hpid]
  exact h.held.own ht

theorem Sound.resume (hs : s.step (.resume t) = some s') : s'.Sound := by
  change s.resumeNext t (s.loc t) = some s' at hs
  unfold CondSys.resumeNext at hs
  split at hs
  · rename_i hloc
    cases hs
    exact h.owned (by rw [hloc]; rfl) (by rw [hloc]; decide) rfl rfl
  · rename_i hloc
    cases hs
    exact h.stay (by rw [hloc]; decide) rfl (by simp) (by rw [hloc]; rfl)
  · rename_i hloc
    cases hs
    exact h.stay (by rw [hloc]; decide) rfl (by simp) (by rw [hloc]; rfl)
  · rename_i hloc
    cases hs
    exact h.owned (by rw [hloc]; rfl) (by rw [hloc]; decide) rfl rfl
  · cases hs

theorem Sound.interrupt (hc : Undisturbed s (.interrupt t))
    (hs : s.step (.interrupt t) = some s') : s'.Sound := by
  change s.interruptNext t (s.loc t) = some s' at hs
  unfold CondSys.interruptNext at hs
  split at hs
  · rename_i hloc
    obtain ⟨sem, hirq, rfl⟩ := map_eq_some_iff.mp hs
    exact h.move (by rw [hloc]; decide) rfl (by simp) rfl (h.held.interrupt hirq)
  · rename_i hloc
    obtain ⟨cond, hirq, rfl⟩ := map_eq_some_iff.mp hs
    obtain ⟨hmem, hirq⟩ := ite_none_right_eq_some.mp hirq
    cases hirq
    refine ⟨?_, h.waits.unblock hmem (by decide), fun v sval hv => ?_, h.call⟩
    · change Held _ _ fun u => (update s.loc t (.waiting .ready) u).key
      rw [key_update_of_eq (by rw [hloc]; rfl)]
      exact h.held
    · change sval ∈ (update s.loc t (.waiting .ready) v).sval at hv
      rw [sval_update rfl (hc hloc)] at hv
      cases hv
  · rename_i hloc
    obtain ⟨sem, hirq, rfl⟩ := map_eq_some_iff.mp hs
    exact h.move (by rw [hloc]; decide) rfl (by simp) rfl (h.held.interrupt hirq)
  · cases hs

/-- **One step keeps the state sound.** -/
theorem Sound.step (hc : Undisturbed s e) (hs : s.step e = some s') : s'.Sound := by
  cases e with
  | lock t => exact h.lock hs
  | trylock t => exact h.trylock hs
  | unlock t stcb => exact h.unlock hs
  | wait t stcb => exact h.wait hs
  | signal t =>
    obtain ⟨hguard, hs⟩ := ite_none_right_eq_some.mp hs
    cases hs
    exact h.read hguard.1 hguard.2 hc (.inl rfl)
  | broadcast t =>
    obtain ⟨hguard, hs⟩ := ite_none_right_eq_some.mp hs
    cases hs
    exact h.read hguard.1 hguard.2 hc (.inr rfl)
  | post t stcb => exact h.post hs
  | take t => exact h.take hs
  | resume t => exact h.resume hs
  | interrupt t => exact h.interrupt hc hs

end CondSys

end GreenboneFeeder.Pthread
