import GreenboneFeeder.Sched.Runs

/-!
# The waiting list

All tasks that wait for a semaphore are in `g_waitingforsemaphore`. Blocking a task inserts it,
unblocking it removes it, a change of priority permutes the list, and nothing else touches it.

The semaphores need nothing else of the scheduler. `Sched.Sound` is its invariant;
`Sched.block_waiting`, `Sched.unblock_waiting` and `Sched.setPriority_waiting` say that an operation
can be performed and what becomes of the list, and `Sched.step_foreign` is for what the rest of the
kernel does.
-/

namespace GreenboneFeeder.Sched

variable {τ : Type*} {idle t : τ} {s s' : Sched τ} {op : Op τ}

/-- The lists are consistent, and every task is in one of them. -/
structure Sound (idle : τ) (s : Sched τ) : Prop where
  consistent : Consistent idle s
  complete : Complete s

theorem StepKept.sound (h : StepKept idle s op s') : Sound idle s' :=
  ⟨h.consistent, h.complete⟩

theorem Sound.congr (h : Sound idle s) (hprio : s'.schedPriority = s.schedPriority)
    (hstate : s'.taskState = s.taskState) (hlists : s'.lists = s.lists) : Sound idle s' :=
  ⟨h.consistent.congr hprio hstate hlists, fun t => hlists ▸ h.complete t⟩

theorem list_eq_waiting_iff {σ : TState} :
    σ.list = some .waitingForSemaphore ↔ σ = .waitSem := by
  cases σ <;> simp [TState.list]

theorem Sound.mem_waiting_iff (h : Sound idle s) :
    t ∈ s.lists .waitingForSemaphore ↔ s.taskState t = .waitSem := by
  rw [h.consistent.mem_iff, list_eq_waiting_iff]

theorem Sound.ne_idle_of_mem_waiting (h : Sound idle s)
    (ht : t ∈ s.lists .waitingForSemaphore) : t ≠ idle := by
  rintro rfl
  exact h.consistent.not_mem_of_mem h.consistent.idle_mem (by simp) ht

theorem isBlocked_iff {σ : TState} :
    σ.isBlocked ↔ ∃ L, L ≠ .readyToRun ∧ L ≠ .pendingTasks ∧ σ.list = some L := by
  refine ⟨fun hσ => ?_, ?_⟩
  · obtain ⟨L, hL⟩ := exists_list_of_isBlocked hσ
    obtain ⟨hr, hp⟩ := list_ne_of_isBlocked hσ hL
    exact ⟨L, hr, hp, hL⟩
  · cases σ <;> simp_all [TState.list, TState.isBlocked]

/-- Whether a task is blocked depends on the lists of the blocked tasks only. -/
theorem Sound.isBlocked_congr (h : Sound idle s) (h' : Sound idle s')
    (hperm : ∀ L, L ≠ .readyToRun → L ≠ .pendingTasks → (s'.lists L).Perm (s.lists L)) (t : τ) :
    (s'.taskState t).isBlocked = (s.taskState t).isBlocked := by
  rw [Bool.eq_iff_iff, isBlocked_iff, isBlocked_iff]
  refine exists_congr fun L => and_congr_right fun hr => and_congr_right fun hp => ?_
  rw [← h.consistent.mem_iff, ← h'.consistent.mem_iff]
  exact (hperm L hr hp).mem_iff

theorem sound_of_eq_some {o : Option (Sched τ)} (hs : o = some s')
    (hk : ∃ s', o = some s' ∧ StepKept idle s op s') : Sound idle s' := by
  have hkept := Run.of_eq_some (hk) hs
  exact hkept.sound

variable [DecidableEq τ]

theorem block_waiting (h : Sound idle s) (ht : (s.taskState t).isReady) (hidle : t ≠ idle) :
    ∃ s', s.blockTask t .waitSem = some s' ∧ Sound idle s' ∧
      s'.schedPriority = s.schedPriority ∧
      s'.lists .waitingForSemaphore =
        PrioList.insert s.schedPriority t (s.lists .waitingForSemaphore) := by
  obtain ⟨s', hs', -, hmoved, hlists⟩ :=
    blockTask_spec (σ := .waitSem) h.consistent ht hidle rfl rfl
  refine ⟨s', hs', sound_of_eq_some hs' (block_kept h.consistent h.complete ht hidle rfl),
    hmoved.schedPriority, ?_⟩
  rw [hlists]
  simp [enqueue, TList.prioritized]

theorem unblock_waiting (rrTicks : ℕ) (h : Sound idle s) (ht : s.taskState t = .waitSem) :
    ∃ s', s.unblockTask rrTicks t = some s' ∧ Sound idle s' ∧
      s'.schedPriority = s.schedPriority ∧ s'.lockcount = s.lockcount ∧ KeepsHead t s s' ∧
      (s'.taskState t).isBlocked = false ∧
      s'.lists .waitingForSemaphore = (s.lists .waitingForSemaphore).erase t := by
  have hσ : (s.taskState t).isBlocked := by rw [ht]; rfl
  have hL : (s.taskState t).list = some .waitingForSemaphore := by rw [ht]; rfl
  have hmem := h.mem_waiting_iff.mpr ht
  have hp : priorityMin ≤ s.schedPriority t :=
    h.consistent.positive _ rfl t hmem (h.ne_idle_of_mem_waiting hmem)
  obtain ⟨r, rest, hready⟩ := h.consistent.ready_eq_cons
  obtain ⟨s', hs', -, hmoved, hlists⟩ := unblockTask_spec h.consistent hσ hL hp
    (by rw [hready]; rfl)
  have hsound := sound_of_eq_some hs' (unblock_kept h.consistent h.complete rrTicks hσ hp)
  refine ⟨s', hs', hsound, hmoved.schedPriority, hmoved.lockcount, fun r₁ hr₁ hrt hlock => ?_,
    ?_, ?_⟩
  · have hr : (s.lists .readyToRun).head? = some r := by rw [hready]; rfl
    obtain rfl := Option.some.inj (hr.symm.trans hr₁)
    rw [hlists, readyTarget]
    split
    · simpa using hr
    · next htarget =>
      refine head?_insert hr (Nat.not_lt.mp fun hc => htarget ⟨hlock, hc⟩)
  · have hin : t ∈ s'.lists (s.readyTarget r t) := by rw [hlists]; simp
    have hlist := (hsound.consistent.mem_iff t _).mp hin
    rw [← Bool.not_eq_true, isBlocked_iff]
    rintro ⟨L, hr, hp, hL⟩
    rw [hlist, Option.some.injEq, readyTarget] at hL
    split at hL
    · exact hp hL.symm
    · exact hr hL.symm
  · rw [hlists, readyTarget]
    split <;> simp

theorem setPriority_waiting (h : Sound idle s) (hidle : t ≠ idle) {p : ℕ}
    (hp : priorityMin ≤ p) (hmax : p ≤ priorityMax) :
    ∃ s', s.setPriority t p = some (s', true) ∧ Sound idle s' ∧
      s'.schedPriority = Function.update s.schedPriority t p ∧ s'.lockcount = s.lockcount ∧
      KeepsHead t s s' ∧
      ∀ L, L ≠ .readyToRun → L ≠ .pendingTasks → (s'.lists L).Perm (s.lists L) := by
  obtain ⟨L, hmem⟩ := h.complete t
  have hkept := setPriority_kept h.consistent h.complete hidle p
  by_cases hr : L = .readyToRun
  · subst hr
    obtain ⟨s', hs', -, hmoved, hlists, hhead⟩ :=
      setPriority_ready h.consistent hmem hidle hp hmax
    refine ⟨s', hs', sound_of_eq_some (by rw [hs']; rfl) hkept, hmoved.schedPriority,
      hmoved.lockcount, hhead, ?_⟩
    intro L hr hp
    rcases hlists with hlists | hlists | hlists <;> simp [hlists, hr, hp]
  · have hL := (h.consistent.mem_iff t L).mp hmem
    obtain ⟨s', hs', -, hmoved, hlists⟩ := setPriority_other h.consistent hL hr hp hmax
    refine ⟨s', hs', sound_of_eq_some (by rw [hs']; rfl) hkept, hmoved.schedPriority,
      hmoved.lockcount, fun r₁ hr₁ _ _ => ?_, ?_⟩
    · rw [hlists]
      split <;> simpa [Ne.symm hr] using hr₁
    intro L' hr' hp'
    by_cases hl : L' = L
    · subst hl
      rw [hlists]
      split
      · rw [Function.update_self]
        exact (PrioList.insert_perm ..).trans (List.perm_cons_erase hmem).symm
      · exact .refl _
    · rw [hlists]
      split <;> simp [hl]

theorem setPriority_refused {p : ℕ} (hp : ¬(priorityMin ≤ p ∧ p ≤ priorityMax)) :
    s.setPriority t p = some (s, false) := by
  rw [setPriority, if_pos]
  omega

theorem unlock_waiting {rrTicks : ℕ} {interrupt : Bool} (h : Sound idle s) :
    ∃ s', s.unlock rrTicks interrupt = some s' ∧ Sound idle s' ∧
      s'.schedPriority = s.schedPriority ∧
      ∀ L, L ≠ .readyToRun → L ≠ .pendingTasks → s'.lists L = s.lists L := by
  obtain ⟨s', hs', -, hprio, hlists⟩ := unlock_spec h.consistent rrTicks interrupt
  refine ⟨s', hs', sound_of_eq_some hs' (unlock_kept h.consistent h.complete rrTicks interrupt),
    hprio, fun L hr hp => ?_⟩
  rcases hlists with hlists | hlists <;> simp [hlists, releasedLists, hr, hp]

theorem lock_frame {interrupt : Bool} (hs : s.lock interrupt = some s') :
    s'.schedPriority = s.schedPriority ∧ s'.taskState = s.taskState ∧ s'.lists = s.lists := by
  rw [lock] at hs
  split at hs
  · cases hs
    exact ⟨rfl, rfl, rfl⟩
  · split at hs
    · cases hs
      exact ⟨rfl, rfl, rfl⟩
    · obtain ⟨-, hs⟩ := Option.ite_none_right_eq_some.mp hs
      cases hs
      exact ⟨rfl, rfl, rfl⟩

theorem lockcount_lock {r : τ} (hr : (s.lists .readyToRun).head? = some r)
    (hs : s.lock false = some s') : s'.lockcount r ≠ 0 := by
  rw [lock, hr] at hs
  obtain ⟨-, hs⟩ := Option.ite_none_right_eq_some.mp hs
  cases hs
  simp

/-- An operation of the rest of the kernel leaves the waiting list and the priorities
alone. -/
theorem step_foreign {rrTicks : ℕ} (h : Sound idle s) (hop : op.target ≠ some idle)
    (hforeign : s.Foreign op) (hs : s.step rrTicks op = some s') :
    Sound idle s' ∧ s'.schedPriority = s.schedPriority ∧
      s'.lists .waitingForSemaphore = s.lists .waitingForSemaphore := by
  have hlegal := legal_of_step hs
  refine ⟨sound_of_eq_some hs (step_of_legal h.consistent h.complete rrTicks hop hlegal), ?_⟩
  cases op with
  | block tcb σ =>
    obtain ⟨L, hL⟩ := exists_list_of_isBlocked hlegal.2
    obtain ⟨-, hmoved, hlists⟩ := Run.of_eq_some (blockTask_spec h.consistent hlegal.1 (fun hc =>
      hop (congrArg some hc)) hlegal.2 hL) hs
    refine ⟨hmoved.schedPriority, ?_⟩
    have hne : L ≠ .waitingForSemaphore := by
      rintro rfl
      exact hforeign (list_eq_waiting_iff.mp hL)
    simp [hlists, Ne.symm hne]
  | unblock tcb =>
    obtain ⟨L, hL⟩ := exists_list_of_isBlocked hlegal.1
    obtain ⟨r, rest, hready⟩ := h.consistent.ready_eq_cons
    obtain ⟨-, hmoved, hlists⟩ := Run.of_eq_some (unblockTask_spec h.consistent hlegal.1 hL
      hlegal.2 (by rw [hready]; rfl)) hs
    refine ⟨hmoved.schedPriority, ?_⟩
    have hne : L ≠ .waitingForSemaphore := by
      rintro rfl
      exact hforeign (list_eq_waiting_iff.mp hL)
    rw [hlists, readyTarget]
    split <;> simp [Ne.symm hne]
  | setPriority tcb q => exact hforeign.elim
  | lock interrupt =>
    obtain ⟨hprio, -, hlists⟩ := lock_frame hs
    exact ⟨hprio, by rw [hlists]⟩
  | unlock interrupt =>
    obtain ⟨-, hprio, hlists⟩ := Run.of_eq_some (unlock_waiting h) hs
    exact ⟨hprio, hlists _ (by simp) (by simp)⟩
  | timeslice =>
    obtain ⟨-, hprio, hlists⟩ := Run.of_eq_some (processTimeslice_spec h.consistent rrTicks) hs
    refine ⟨hprio, ?_⟩
    rcases hlists with ⟨hlists, -⟩ | ⟨t, -, hlists⟩ <;> simp [hlists]

end GreenboneFeeder.Sched
