import GreenboneFeeder.Sched.Specs

/-!
# Runs of the scheduler

From the state in which the idle task starts alone, every sequence of operations keeps the task
lists in order, as long as none of them is applied to the idle task (`Sched.lists_kept_of_run`). Its
priority is below the lowest that a task may be given, which keeps it at the end of the ready-to-run
list; a change of its priority moves it up (`Sched.idle_moves_up`).
-/

namespace GreenboneFeeder.Sched

open List Function PrioList

variable {τ : Type*} {rrTicks : ℕ} {op : Op τ}

/-! ### What is kept -/

/-- The task an operation is applied to. -/
def Op.target : Op τ → Option τ
  | .block tcb _ => some tcb
  | .unblock tcb => some tcb
  | .setPriority tcb _ => some tcb
  | .lock _ => none
  | .unlock _ => none
  | .timeslice => none

/-- **The task lists are in order.** -/
structure ListsKept [DecidableEq τ] (idle : τ) (s : Sched τ) : Prop where
  readySorted : PrioList.Sorted s.schedPriority (s.lists .readyToRun)
  idleLast : (s.lists .readyToRun).getLast? = some idle
  running_iff : ∀ t, s.taskState t = .running ↔ (s.lists .readyToRun).head? = some t
  othersReady : ∀ t ∈ s.lists .readyToRun, (s.lists .readyToRun).head? ≠ some t →
    s.taskState t = .readyToRun
  pendingSorted : PrioList.Sorted s.schedPriority (s.lists .pendingTasks)
  oneList : ∀ t, ∃ L, (s.taskState t).list = some L ∧
    ∀ L', (s.lists L').count t = if L' = L then 1 else 0

/-- The operation takes the task out of its list and adds it again, or finds it in its
place. -/
def Readds (s : Sched τ) (t : τ) : Op τ → Prop
  | .setPriority tcb p => tcb = t ∧ priorityMin ≤ p ∧ p ≤ priorityMax
  | .timeslice => SliceEnds s t
  | _ => False

/-- The operation from `s` to `s'` adds the task to the list. -/
def Adds (s s' : Sched τ) (op : Op τ) (L : TList) (t : τ) : Prop :=
  t ∈ s'.lists L ∧ (t ∉ s.lists L ∨ Readds s t op)

/-- Of the tasks that were in the list before, only those of a lower priority stand
behind the task. -/
def PlacedBehind (s s' : Sched τ) (L : TList) (t : τ) : Prop :=
  ∀ u ∈ s.lists L, u ≠ t → PrioList.Follows (s'.lists L) t u →
    s'.schedPriority u < s'.schedPriority t

/-- The boot state: the idle task runs, and every other task has been created but not
activated. -/
structure Boot (idle : τ) (s : Sched τ) : Prop where
  ready : s.lists .readyToRun = [idle]
  running : s.taskState idle = .running
  idlePriority : s.schedPriority idle = 0
  inactive : ∀ t, t ≠ idle → s.taskState t = .inactive
  mem_inactive : ∀ t, t ∈ s.lists .inactiveTasks ↔ t ≠ idle
  nodup : (s.lists .inactiveTasks).Nodup
  empty : ∀ L, L ≠ .readyToRun → L ≠ .inactiveTasks → s.lists L = []

section Kept

variable {idle t : τ} {s s' : Sched τ}

/-- Every task is in some list. -/
def Complete (s : Sched τ) : Prop := ∀ t, ∃ L, t ∈ s.lists L

theorem Boot.consistent (h : Boot idle s) : Consistent idle s ∧ Complete s := by
  have hlists : ∀ L, s.lists L = [] ∨ L = .readyToRun ∨ L = .inactiveTasks := by
    intro L
    by_cases hr : L = .readyToRun
    · exact .inr (.inl hr)
    by_cases hi : L = .inactiveTasks
    · exact .inr (.inr hi)
    · exact .inl (h.empty L hr hi)
  have hstate : ∀ t, t = idle ∧ s.taskState t = .running ∨ t ≠ idle ∧
      s.taskState t = .inactive := by
    intro t
    by_cases ht : t = idle
    · exact .inl ⟨ht, ht ▸ h.running⟩
    · exact .inr ⟨ht, h.inactive t ht⟩
  refine ⟨⟨fun L hL => ?_, fun L hL t ht hne => ?_, fun L => ?_, fun t L => ?_, ?_,
    h.idlePriority, fun t => ?_⟩, fun t => ?_⟩
  · rcases hlists L with hnil | rfl | rfl
    · rw [hnil]
      exact Pairwise.nil
    · rw [h.ready]
      exact pairwise_singleton _ _
    · exact absurd hL (by simp [TList.prioritized])
  · rcases hlists L with hnil | rfl | rfl
    · rw [hnil] at ht
      exact absurd ht (by simp)
    · rw [h.ready] at ht
      exact absurd (mem_singleton.mp ht) hne
    · exact absurd hL (by simp [TList.prioritized])
  · rcases hlists L with hnil | rfl | rfl
    · rw [hnil]
      exact nodup_nil
    · rw [h.ready]
      exact pairwise_singleton _ _
    · exact h.nodup
  · by_cases hr : L = .readyToRun
    · subst hr
      rw [h.ready]
      rcases hstate t with ⟨ht, hs⟩ | ⟨ht, hs⟩ <;> simp [ht, hs, TState.list, h.running]
    by_cases hi : L = .inactiveTasks
    · subst hi
      rw [h.mem_inactive]
      rcases hstate t with ⟨ht, hs⟩ | ⟨ht, hs⟩ <;> simp [ht, hs, TState.list, h.running]
    · rw [h.empty L hr hi]
      rcases hstate t with ⟨-, hs⟩ | ⟨-, hs⟩ <;>
        simp [hs, TState.list, Ne.symm hr, Ne.symm hi]
  · rw [h.ready]
    rfl
  · rw [h.ready, head?_cons, Option.some.injEq]
    rcases hstate t with ⟨ht, hs⟩ | ⟨ht, hs⟩
    · exact ⟨fun _ => ht.symm, fun _ => hs⟩
    · exact ⟨fun hc => absurd (hs.symm.trans hc) (by simp), fun hc => absurd hc.symm ht⟩
  · by_cases ht : t = idle
    · exact ⟨.readyToRun, by rw [h.ready, ht]; simp⟩
    · exact ⟨.inactiveTasks, (h.mem_inactive t).mpr ht⟩

variable [DecidableEq τ]

theorem listsKept (h : Consistent idle s) (hc : Complete s) : ListsKept idle s := by
  refine ⟨h.sorted _ rfl, h.idleLast, h.running_iff, fun t => h.state_of_mem_ready,
    h.sorted _ rfl, fun t => ?_⟩
  obtain ⟨L, hL⟩ := hc t
  have hlist := (h.mem_iff t L).mp hL
  refine ⟨L, hlist, fun L' => ?_⟩
  rw [(h.nodup L').count]
  refine if_congr ?_ rfl rfl
  rw [h.mem_iff, hlist, Option.some.injEq]
  exact eq_comm

end Kept

/-! ### One operation -/

section Placed

variable {idle t u : τ} {s s' : Sched τ} {L L' : TList}

theorem Consistent.not_mem_of_mem (h : Consistent idle s) (ht : t ∈ s.lists L)
    (hne : L ≠ L') : t ∉ s.lists L' := by
  intro hc
  have := (h.mem_iff t L').mp hc
  rw [(h.mem_iff t L).mp ht] at this
  exact hne (Option.some.inj this)

theorem placedBehind_insert (base : List τ) (hlist : s'.lists L = insert s'.schedPriority t base)
    (hbase : PrioList.Sorted s'.schedPriority base) (ht : t ∉ base) : PlacedBehind s s' L t := by
  intro u _ _ hfollows
  rw [hlist] at hfollows
  exact lt_of_follows_insert hbase ht hfollows

/-- No task gets lost when the pending list is emptied into the ready-to-run list. -/
theorem exists_mem_released {lists : TList → List τ} {ready : List τ}
    (hu : u ∈ lists L) (hready : u ∈ lists .readyToRun ∨ u ∈ lists .pendingTasks → u ∈ ready) :
    ∃ L', u ∈ update (update lists .readyToRun ready) .pendingTasks [] L' := by
  by_cases hr : L = .readyToRun ∨ L = .pendingTasks
  · refine ⟨.readyToRun, ?_⟩
    rcases hr with rfl | rfl <;> simp [hready, hu]
  · rw [not_or] at hr
    exact ⟨L, by simpa [hr] using hu⟩

variable [DecidableEq τ]

/-- The pending tasks that are released are placed behind those of their priority, and
so is a task that is inserted before them. -/
theorem placedBehind_release (qs base : List τ) (h : Consistent idle s)
    (hlist : s'.lists .readyToRun =
      insertAll s'.schedPriority (qs ++ s.lists .pendingTasks) base)
    (hbase : PrioList.Sorted s'.schedPriority base) (hqs : qs = [] ∨ ∃ q, qs = [q])
    (hnodup : (qs ++ base).Nodup) (hsub : ∀ u ∈ qs ++ base, u ∈ s.lists .readyToRun)
    (hu : u ∈ qs ++ s.lists .pendingTasks) : PlacedBehind s s' .readyToRun u := by
  obtain ⟨q₁, q₂, hsplit⟩ := append_of_mem hu
  have hperm : (q₁ ++ u :: q₂ ++ base).Perm (qs ++ base ++ s.lists .pendingTasks) := by
    rw [← hsplit, append_assoc, append_assoc]
    exact Perm.append_left qs perm_append_comm
  have hnodup' : (q₁ ++ u :: q₂ ++ base).Nodup := by
    rw [hperm.nodup_iff, nodup_append]
    refine ⟨hnodup, h.nodup _, fun a ha b hb hab => ?_⟩
    exact h.not_mem_of_mem (hsub a ha) (by simp) (hab ▸ hb)
  -- what is inserted after `u` comes from the pending list
  have hlater : ∀ v ∈ q₂, v ∈ s.lists .pendingTasks := by
    intro v hv
    rcases hqs with rfl | ⟨q, rfl⟩
    · rw [nil_append] at hsplit
      rw [hsplit]
      simp [hv]
    · rcases q₁ with _ | ⟨a, q₁⟩
      · rw [singleton_append, nil_append, cons.injEq] at hsplit
        rw [hsplit.2]
        exact hv
      · rw [singleton_append, cons_append, cons.injEq] at hsplit
        rw [hsplit.2]
        simp [hv]
  intro v hv _ hfollows
  rw [hlist, hsplit] at hfollows
  refine lt_of_follows_insertAll hbase hnodup' (fun hc => ?_) hfollows
  exact h.not_mem_of_mem hv (by simp) (hlater v hc)

end Placed

section Step

variable [DecidableEq τ] {idle t : τ} {s s' : Sched τ} {L : TList} {p : ℕ}

/-- What one operation keeps, and where it places the tasks that it adds. -/
structure StepKept (idle : τ) (s : Sched τ) (op : Op τ) (s' : Sched τ) : Prop where
  consistent : Consistent idle s'
  complete : Complete s'
  placed : ∀ L : TList, L.prioritized → ∀ t, Adds s s' op L t → PlacedBehind s s' L t

theorem Consistent.sorted_erase (h : Consistent idle s) (hL : L.prioritized) (t : τ) (p : ℕ) :
    PrioList.Sorted (s.setPrio t p).schedPriority ((s.lists L).erase t) := by
  have hsorted := (h.sorted L hL).sublist (erase_sublist (a := t))
  refine (sorted_congr fun u hu => update_of_ne ?_ _ _).mpr hsorted
  rintro rfl
  exact (h.nodup L).not_mem_erase hu

variable (h : Consistent idle s) (hc : Complete s)

include h hc

theorem block_kept {σ : TState}
    (ht : (s.taskState t).isReady) (hidle : t ≠ idle) (hσ : σ.isBlocked) :
    ∃ s', s.blockTask t σ = some s' ∧ StepKept idle s (.block t σ) s' := by
  obtain ⟨L, hL⟩ := exists_list_of_isBlocked hσ
  obtain ⟨hLr, hLp⟩ := list_ne_of_isBlocked hσ hL
  obtain ⟨s', heq, hcons, hmoved, hlists⟩ := blockTask_spec h ht hidle hσ hL
  have henqueue : ∀ u, u ∈ enqueue L s.schedPriority t (s.lists L) ↔ u = t ∨ u ∈ s.lists L := by
    rw [enqueue]
    split <;> simp [or_comm]
  refine ⟨s', heq, hcons, fun u => ?_, fun L' hL' u hadds => ?_⟩
  · obtain ⟨L', hu⟩ := hc u
    rw [hlists]
    by_cases hut : u = t
    · exact ⟨L, by simp [hLr, hLp, henqueue, hut]⟩
    · have hu' : u ∈ update s.lists L (enqueue L s.schedPriority t (s.lists L)) L' := by
        by_cases hl : L' = L
        · subst hl
          simp [henqueue, hu]
        · simpa [hl] using hu
      refine exists_mem_released hu' ?_
      rintro (hr | hp)
      · simp [mem_erase_of_ne hut, by simpa [Ne.symm hLr] using hr]
      · simp [by simpa [Ne.symm hLp] using hp]
  · have hnew : u ∉ s.lists L' := hadds.2.resolve_right id
    have hin := hadds.1
    rw [hlists] at hin
    by_cases hp : L' = .pendingTasks
    · subst hp
      exact absurd hin (by simp)
    by_cases hr : L' = .readyToRun
    · subst hr
      refine placedBehind_release [] ((s.lists .readyToRun).erase t) h ?_ ?_
        (.inl rfl) ?_ ?_ ?_
      · rw [hlists, hmoved.schedPriority]
        simp
      · rw [hmoved.schedPriority]
        exact (h.sorted _ rfl).sublist erase_sublist
      · exact (h.nodup _).erase t
      · exact fun v hv => mem_of_mem_erase hv
      · have : u ∈ s.lists .pendingTasks ∨ u ∈ (s.lists .readyToRun).erase t := by simpa using hin
        exact this.resolve_right fun hc => hnew (mem_of_mem_erase hc)
    by_cases hl : L' = L
    · subst hl
      have hut : u = t := by
        have : u ∈ enqueue L' s.schedPriority t (s.lists L') := by simpa [hp, hr] using hin
        exact ((henqueue u).mp this).resolve_right hnew
      subst hut
      refine placedBehind_insert (s.lists L') ?_ ?_ hnew
      · rw [hlists, hmoved.schedPriority]
        simp [hp, hr, enqueue, hL']
      · rw [hmoved.schedPriority]
        exact h.sorted _ hL'
    · exact absurd (by simpa [hp, hr, hl] using hin) hnew

theorem unblock_kept (rrTicks : ℕ)
    (hσ : (s.taskState t).isBlocked) (hp : priorityMin ≤ s.schedPriority t) :
    ∃ s', s.unblockTask rrTicks t = some s' ∧ StepKept idle s (.unblock t) s' := by
  obtain ⟨L, hL⟩ := exists_list_of_isBlocked hσ
  obtain ⟨hLr, hLp⟩ := list_ne_of_isBlocked hσ hL
  obtain ⟨r, rest, hready⟩ := h.ready_eq_cons
  obtain ⟨s', heq, hcons, hmoved, hlists⟩ := unblockTask_spec h hσ hL hp
    (by rw [hready]; rfl)
  have hprio : s'.schedPriority = s.schedPriority := hmoved.schedPriority
  have htarget : (s.readyTarget r t).prioritized ∧ s.readyTarget r t ≠ L := by
    rw [readyTarget]
    split
    · exact ⟨rfl, Ne.symm hLp⟩
    · exact ⟨rfl, Ne.symm hLr⟩
  refine ⟨s', heq, hcons, fun u => ?_, fun L' hL' u hadds => ?_⟩
  · obtain ⟨L', hu⟩ := hc u
    rw [hlists]
    by_cases hut : u = t
    · exact ⟨s.readyTarget r t, by simp [hut]⟩
    · refine ⟨L', ?_⟩
      by_cases ht : L' = s.readyTarget r t
      · subst ht
        simp [hu]
      by_cases hl : L' = L
      · subst hl
        simpa [ht] using (mem_erase_of_ne hut).mpr hu
      · simpa [ht, hl] using hu
  · have hnew : u ∉ s.lists L' := hadds.2.resolve_right id
    have hin := hadds.1
    rw [hlists] at hin
    by_cases ht : L' = s.readyTarget r t
    · subst ht
      have hut : u = t := by
        have : u = t ∨ u ∈ s.lists (s.readyTarget r t) := by simpa using hin
        exact this.resolve_right hnew
      subst hut
      refine placedBehind_insert (s.lists (s.readyTarget r u)) ?_ ?_ hnew
      · rw [hlists, hprio]
        simp
      · rw [hprio]
        exact h.sorted _ htarget.1
    by_cases hl : L' = L
    · subst hl
      exact absurd (mem_of_mem_erase (by simpa [ht] using hin)) hnew
    · exact absurd (by simpa [ht, hl] using hin) hnew

variable (hcons : Consistent idle s') (hprio : s'.schedPriority = (s.setPrio t p).schedPriority)
  (hop : ∀ u, Readds s u op → u = t)

include hcons hprio hop

/-- The running task is moved behind its priority and the pending tasks follow. -/
theorem switch_kept (ht : t ∈ s.lists .readyToRun)
 (hlists : s'.lists = update (update s.lists .readyToRun
      (insertAll s'.schedPriority (t :: s.lists .pendingTasks)
        ((s.lists .readyToRun).erase t))) .pendingTasks []) :
    StepKept idle s op s' := by
  refine ⟨hcons, fun u => ?_, fun L hL u hadds => ?_⟩
  · obtain ⟨L, hu⟩ := hc u
    rw [hlists]
    refine exists_mem_released hu ?_
    rintro (hr | hp)
    · by_cases hut : u = t
      · simp [hut]
      · simp [mem_erase_of_ne hut, hr]
    · simp [hp]
  · have hin := hadds.1
    rw [hlists] at hin
    by_cases hp : L = .pendingTasks
    · subst hp
      exact absurd hin (by simp)
    by_cases hr : L = .readyToRun
    · subst hr
      refine placedBehind_release [t] ((s.lists .readyToRun).erase t) h ?_ ?_
        (.inr ⟨t, rfl⟩) ?_ ?_ ?_
      · rw [hlists]
        simp
      · rw [hprio]
        exact h.sorted_erase rfl t p
      · exact nodup_cons.mpr ⟨(h.nodup _).not_mem_erase, (h.nodup _).erase t⟩
      · intro v hv
        rcases mem_cons.mp hv with rfl | hv
        · exact ht
        · exact mem_of_mem_erase hv
      · rcases hadds.2 with hnew | hre
        · have : u ∈ s.lists .pendingTasks ∨ u = t ∨ u ∈ (s.lists .readyToRun).erase t := by
            simpa using hin
          rcases this with hp | hut | hr
          · exact mem_append_right _ hp
          · simp [hut]
          · exact absurd (mem_of_mem_erase hr) hnew
        · simp [hop u hre]
    · rcases hadds.2 with hnew | hre
      · exact absurd (by simpa [hp, hr] using hin) hnew
      · have hut := hop u hre
        subst hut
        exact absurd (by simpa [hp, hr] using hin) (h.not_mem_of_mem ht (Ne.symm hr))

theorem reinsert_kept (ht : t ∈ s.lists L) (hL : L.prioritized)
 (hlists : s'.lists = update s.lists L
      (insert s'.schedPriority t ((s.lists L).erase t))) :
    StepKept idle s op s' := by
  refine ⟨hcons, fun u => ?_, fun L' hL' u hadds => ?_⟩
  · obtain ⟨L', hu⟩ := hc u
    refine ⟨L', ?_⟩
    rw [hlists]
    by_cases hl : L' = L
    · subst hl
      by_cases hut : u = t
      · simp [hut]
      · simp [mem_erase_of_ne hut, hu]
    · simpa [hl] using hu
  · have hin := hadds.1
    rw [hlists] at hin
    by_cases hl : L' = L
    · subst hl
      have hut : u = t := by
        rcases hadds.2 with hnew | hre
        · have : u = t ∨ u ∈ (s.lists L').erase t := by simpa using hin
          exact this.resolve_right fun hc => hnew (mem_of_mem_erase hc)
        · exact hop u hre
      subst hut
      refine placedBehind_insert ((s.lists L').erase u) ?_ ?_ (h.nodup _).not_mem_erase
      · rw [hlists]
        simp
      · rw [hprio]
        exact h.sorted_erase hL u p
    · rcases hadds.2 with hnew | hre
      · exact absurd (by simpa [hl] using hin) hnew
      · have hut := hop u hre
        subst hut
        exact absurd (by simpa [hl] using hin) (h.not_mem_of_mem ht (Ne.symm hl))

theorem putAside_kept (ht : t ∈ s.lists .readyToRun)
 (hlists : s'.lists = update
      (update s.lists .readyToRun ((s.lists .readyToRun).erase t)) .pendingTasks
      (insert s'.schedPriority t (s.lists .pendingTasks))) :
    StepKept idle s op s' := by
  have htp : t ∉ s.lists .pendingTasks := h.not_mem_of_mem ht (by simp)
  refine ⟨hcons, fun u => ?_, fun L hL u hadds => ?_⟩
  · obtain ⟨L, hu⟩ := hc u
    rw [hlists]
    by_cases hut : u = t
    · exact ⟨.pendingTasks, by simp [hut]⟩
    · refine ⟨L, ?_⟩
      by_cases hp : L = .pendingTasks
      · subst hp
        simp [hu]
      by_cases hr : L = .readyToRun
      · subst hr
        simpa using (mem_erase_of_ne hut).mpr hu
      · simpa [hp, hr] using hu
  · have hin := hadds.1
    have hold : L ≠ .pendingTasks → u ∈ s.lists L := by
      intro hp
      rw [hlists] at hin
      by_cases hr : L = .readyToRun
      · subst hr
        exact mem_of_mem_erase (by simpa using hin)
      · simpa [hp, hr] using hin
    by_cases hp : L = .pendingTasks
    · subst hp
      have hut : u = t := by
        rcases hadds.2 with hnew | hre
        · have : u = t ∨ u ∈ s.lists .pendingTasks := by simpa [hlists] using hin
          exact this.resolve_right hnew
        · exact hop u hre
      subst hut
      refine placedBehind_insert (s.lists .pendingTasks) ?_ ?_ htp
      · rw [hlists]
        simp
      · rw [hprio]
        have := h.sorted_erase (L := .pendingTasks) rfl u p
        rwa [erase_of_not_mem htp] at this
    · rcases hadds.2 with hnew | hre
      · exact absurd (hold hp) hnew
      · have hut := hop u hre
        subst hut
        by_cases hr : L = .readyToRun
        · subst hr
          rw [hlists] at hin
          exact absurd (by simpa using hin) (h.nodup _).not_mem_erase
        · exact absurd (hold hp) (h.not_mem_of_mem ht (Ne.symm hr))

omit hcons hprio hop

omit h in
omit [DecidableEq τ] in
theorem unmoved_kept (hcons : Consistent idle s') (hlists : s'.lists = s.lists)
    (hop : ∀ L : TList, L.prioritized → ∀ u, Readds s u op → PlacedBehind s s' L u) :
    StepKept idle s op s' := by
  refine ⟨hcons, fun u => hlists ▸ hc u, fun L hL u hadds => ?_⟩
  rcases hadds.2 with hnew | hre
  · exact absurd (hlists ▸ hadds.1) hnew
  · exact hop L hL u hre

theorem setPriority_kept (hidle : t ≠ idle) (q : ℤ) :
    ∃ s', (s.setPriority t q).map Prod.fst = some s' ∧
      StepKept idle s (.setPriority t q) s' := by
  by_cases hrange : (priorityMin : ℤ) ≤ q ∧ q ≤ priorityMax
  · obtain ⟨p, rfl⟩ : ∃ p : ℕ, q = p := ⟨q.toNat, by omega⟩
    have hp : priorityMin ≤ p := by omega
    have hmax : p ≤ priorityMax := by omega
    have hop : ∀ u, Readds s u (.setPriority t p) → u = t := fun u hu => hu.1.symm
    obtain ⟨L, hmem⟩ := hc t
    by_cases hr : L = .readyToRun
    · subst hr
      obtain ⟨s', heq, hcons, hmoved, hlists, -⟩ := setPriority_ready h hmem hidle hp hmax
      refine ⟨s', by rw [heq]; rfl, ?_⟩
      have hprio := hmoved.schedPriority
      rw [ReadyReprioritized, ← hprio] at hlists
      rcases hlists with hlists | hlists | hlists
      · exact switch_kept h hc hcons hprio hop hmem hlists
      · exact putAside_kept h hc hcons hprio hop hmem hlists
      · exact reinsert_kept h hc hcons hprio hop hmem rfl hlists
    · have hL := (h.mem_iff t L).mp hmem
      obtain ⟨s', heq, hcons, hmoved, hlists⟩ := setPriority_other h hL hr hp hmax
      refine ⟨s', by rw [heq]; rfl, ?_⟩
      have hprio := hmoved.schedPriority
      by_cases hprioritized : L.prioritized
      · rw [if_pos hprioritized, ← hprio] at hlists
        exact reinsert_kept h hc hcons hprio hop hmem hprioritized hlists
      · rw [if_neg hprioritized] at hlists
        refine unmoved_kept hc hcons hlists fun L' hL' u hu v _ _ hfollows => ?_
        obtain rfl := hop u hu
        have hmem' : u ∈ s.lists L' := by
          rw [← hlists]
          exact hfollows.subset (by simp)
        have hne : L ≠ L' := fun hc => hprioritized (hc ▸ hL')
        exact absurd hmem' (h.not_mem_of_mem hmem hne)
  · refine ⟨s, ?_, unmoved_kept hc h rfl fun L hL u hu => absurd hu.2 hrange⟩
    rw [setPriority, if_pos (by omega)]
    rfl

theorem unlock_kept (rrTicks : ℕ) (interrupt : Bool) :
    ∃ s', s.unlock rrTicks interrupt = some s' ∧ StepKept idle s (.unlock interrupt) s' := by
  obtain ⟨s', heq, hcons, hprio, hlists | hlists⟩ := unlock_spec h rrTicks interrupt
  · exact ⟨s', heq, unmoved_kept hc hcons hlists fun _ _ _ hu => hu.elim⟩
  · rw [releasedLists] at hlists
    refine ⟨s', heq, hcons, fun u => ?_, fun L hL u hadds => ?_⟩
    · obtain ⟨L, hu⟩ := hc u
      rw [hlists]
      refine exists_mem_released hu ?_
      rintro (hr | hp)
      · simp [hr]
      · simp [hp]
    · have hnew : u ∉ s.lists L := hadds.2.resolve_right id
      have hin := hadds.1
      rw [hlists] at hin
      by_cases hp : L = .pendingTasks
      · subst hp
        exact absurd hin (by simp)
      by_cases hr : L = .readyToRun
      · subst hr
        refine placedBehind_release [] (s.lists .readyToRun) h ?_ ?_ (.inl rfl)
          (h.nodup _) (fun v hv => hv) ?_
        · rw [hlists, hprio]
          simp
        · rw [hprio]
          exact h.sorted _ rfl
        · have : u ∈ s.lists .pendingTasks ∨ u ∈ s.lists .readyToRun := by simpa using hin
          exact this.resolve_right hnew
      · exact absurd (by simpa [hp, hr] using hin) hnew

theorem timeslice_kept (rrTicks : ℕ) :
    ∃ s', s.processTimeslice rrTicks = some s' ∧ StepKept idle s .timeslice s' := by
  obtain ⟨s', heq, hcons, hprio, ⟨hlists, hlow⟩ | ⟨t, hends, hlists⟩⟩ :=
    processTimeslice_spec h rrTicks
  · refine ⟨s', heq, unmoved_kept hc hcons hlists fun L hL u hu v hv hne hfollows => ?_⟩
    have hready : u ∈ s.lists .readyToRun := mem_of_head? hu.1
    have hmem : u ∈ s.lists L := by
      rw [← hlists]
      exact hfollows.subset (by simp)
    obtain rfl : L = .readyToRun := by
      by_contra hc
      exact h.not_mem_of_mem hready (Ne.symm hc) hmem
    rw [hprio]
    exact hlow u hu v hv hne
  · refine ⟨s', heq, switch_kept (p := s.schedPriority t) h hc hcons ?_ (fun u hu => ?_)
      (mem_of_head? hends.1) ?_⟩
    · rw [hprio]
      simp
    · exact Option.some.inj (hu.1.symm.trans hends.1)
    · rw [hlists, hprio]

/-- The operation passes the assertions it meets. -/
def Legal (s : Sched τ) : Op τ → Prop
  | .block tcb σ => (s.taskState tcb).isReady ∧ σ.isBlocked
  | .unblock tcb => (s.taskState tcb).isBlocked ∧ priorityMin ≤ s.schedPriority tcb
  | .setPriority _ _ => True
  | .lock interrupt => interrupt = false →
      ∀ r, (s.lists .readyToRun).head? = some r → s.lockcount r < maxLockCount
  | .unlock _ => True
  | .timeslice => True

/-- **Every legal operation can be performed**, and keeps the lists in order. -/
theorem step_of_legal (rrTicks : ℕ) (hop : op.target ≠ some idle) (hlegal : Legal s op) :
    ∃ s', step rrTicks s op = some s' ∧ StepKept idle s op s' := by
  cases op with
  | block tcb σ => exact block_kept h hc hlegal.1 (fun hc => hop (congrArg some hc)) hlegal.2
  | unblock tcb => exact unblock_kept h hc rrTicks hlegal.1 hlegal.2
  | setPriority tcb q => exact setPriority_kept h hc (fun hc => hop (congrArg some hc)) q
  | unlock interrupt => exact unlock_kept h hc rrTicks interrupt
  | timeslice => exact timeslice_kept h hc rrTicks
  | lock interrupt =>
    obtain ⟨r, rest, hready⟩ := h.ready_eq_cons
    have hr : (s.lists .readyToRun).head? = some r := by rw [hready]; rfl
    cases interrupt with
    | true =>
      refine ⟨s, ?_, unmoved_kept hc h rfl fun _ _ _ hu => hu.elim⟩
      simp [step, lock, hr]
    | false =>
      refine ⟨s.setLockcount r (s.lockcount r + 1), ?_,
        unmoved_kept hc (h.congr rfl rfl rfl) rfl fun _ _ _ hu => hu.elim⟩
      simp [step, lock, hr, hlegal rfl r hr]

omit h hc

theorem legal_of_step (hs : step rrTicks s op = some s') :
    Legal s op := by
  cases op with
  | block tcb σ =>
    rw [step, blockTask] at hs
    split at hs
    · next hready =>
      refine ⟨hready, ?_⟩
      by_contra hσ
      cases hrem : s.removeReadyToRun tcb <;> simp [hrem, addBlocked, hσ] at hs
    · exact absurd hs (by simp)
  | unblock tcb =>
    rw [step, unblockTask] at hs
    split at hs
    · next hblocked =>
      refine ⟨hblocked, ?_⟩
      by_contra hp
      cases hL : (s.taskState tcb).list <;>
        simp [removeBlocked, hblocked, hL, addReadyToRun, addPrioritized, hp] at hs
    · exact absurd hs (by simp)
  | setPriority tcb q | unlock interrupt | timeslice => trivial
  | lock interrupt =>
    rintro rfl r hr
    by_contra hc
    rw [step, lock, hr] at hs
    simp [hc] at hs

end Step

/-! ### Runs -/

section Runs

variable [DecidableEq τ]

theorem stepKept {idle : τ} {s s' : Sched τ} (h : Consistent idle s ∧ Complete s)
    (hop : op.target ≠ some idle) (hs : step rrTicks s op = some s') : StepKept idle s op s' := by
  obtain ⟨s'', hs', hk⟩ := step_of_legal h.1 h.2 rrTicks hop (legal_of_step hs)
  rwa [← Option.some.inj (hs'.symm.trans hs)]

/-- The lists are consistent in every state that operations not applied to the idle task lead to. -/
theorem consistent_of_run {idle : τ} {s₀ s : Sched τ} (ops : List (Op τ))
    (hboot : Boot idle s₀) (hops : ∀ op ∈ ops, op.target ≠ some idle)
    (hrun : Run.run (step rrTicks) s₀ ops = some s) : Consistent idle s ∧ Complete s :=
  Run.invariant_of_allSteps
    (P := fun s => Consistent idle s ∧ Complete s)
    (fun _ _ _ h hop hs => ⟨(stepKept h hop hs).consistent, (stepKept h hop hs).complete⟩)
    ops hboot.consistent (Run.allSteps_of_forall_mem ops s₀ fun op hop _ => hops op hop) hrun

/-- **The task lists stay in order** in every sequence of operations not applied to the idle task,
and whatever operation comes next places the tasks that it adds to a prioritized list behind those
of the same priority. -/
theorem lists_kept_of_run (rrTicks : ℕ) (idle : τ) (s₀ s : Sched τ) (ops : List (Op τ))
    (hboot : Boot idle s₀) (hops : ∀ op ∈ ops, op.target ≠ some idle)
    (hrun : Run.run (step rrTicks) s₀ ops = some s) :
    ListsKept idle s ∧
      ∀ op s', op.target ≠ some idle → step rrTicks s op = some s' →
        ∀ L : TList, L.prioritized → ∀ t, Adds s s' op L t → PlacedBehind s s' L t := by
  have hinv := consistent_of_run ops hboot hops hrun
  exact ⟨listsKept hinv.1 hinv.2, fun op s' hop hs => (stepKept hinv hop hs).placed⟩

end Runs

/-! ### The idle task -/

/-- Three tasks at boot: the idle task `0`, and two tasks of priorities 10 and 3. -/
def threeTasks : Sched (Fin 3) where
  schedPriority := fun t => if t = 0 then 0 else if t = 1 then 10 else 3
  taskState := fun t => if t = 0 then .running else .inactive
  lockcount := fun _ => 0
  roundRobin := fun _ => false
  timeslice := fun _ => 0
  lists := fun L => match L with
    | .readyToRun => [0]
    | .inactiveTasks => [1, 2]
    | _ => []

theorem threeTasks_boot : Boot 0 threeTasks where
  ready := rfl
  running := rfl
  idlePriority := rfl
  inactive := by decide
  mem_inactive := by decide
  nodup := by decide
  empty := by
    intro L hr hi
    cases L <;> first | rfl | exact absurd rfl hr | exact absurd rfl hi

theorem lists_kept_of_run_unblock :
    ∃ s, Run.run (step 20) threeTasks [.unblock 1, .unblock 2, .setPriority 2 10] = some s ∧
      s.lists .readyToRun = [1, 2, 0] ∧ ListsKept 0 s := by
  refine ⟨_, rfl, by decide, ?_⟩
  exact (lists_kept_of_run 20 0 threeTasks _ [.unblock 1, .unblock 2, .setPriority 2 10]
    threeTasks_boot (by simp [Op.target]) rfl).1

/-- **A change of the priority of the idle task moves it up**: with the priority 5 it
comes to stand in front of a task of priority 3. -/
theorem idle_moves_up :
    Boot 0 threeTasks ∧
      ∃ s, Run.run (step 20) threeTasks [.unblock 1, .unblock 2, .setPriority 0 5] = some s ∧
        s.lists .readyToRun = [1, 0, 2] ∧ ¬ListsKept 0 s := by
  refine ⟨threeTasks_boot, _, rfl, by decide, fun h => ?_⟩
  exact absurd h.idleLast (by decide)

end GreenboneFeeder.Sched
