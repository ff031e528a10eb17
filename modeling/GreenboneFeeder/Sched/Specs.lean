import GreenboneFeeder.Sched.Consistent

/-!
# What the operations do to the task lists

One lemma for each operation: in a consistent state it can be performed, leaves a consistent state
behind, and changes the lists as its statement says, by `PrioList.insert`, and by
`PrioList.insertAll` for the pending tasks that are released.

While pre-emption is disabled, no other task may become the head of the ready-to-run list. A task
that would is put aside, and comes back to the list when pre-emption is enabled again
(`Sched.releasedLists`).
-/

namespace GreenboneFeeder.Sched

open Function Option List PrioList

variable {τ : Type*} {idle t r : τ} {s : Sched τ} {σ : TState} {L : TList} {p : ℕ}

theorem list_ne_of_isBlocked (hσ : σ.isBlocked) (hL : σ.list = some L) :
    L ≠ .readyToRun ∧ L ≠ .pendingTasks := by
  constructor
  all_goals
    rintro rfl
    revert hσ hL
    cases σ <;> simp [TState.isBlocked, TState.list]

theorem exists_list_of_isBlocked (hσ : σ.isBlocked) : ∃ L, σ.list = some L := by
  revert hσ
  cases σ <;> simp [TState.isBlocked, TState.list]

theorem mem_ready_of_isReady (h : Consistent idle s) (ht : (s.taskState t).isReady) :
    t ∈ s.lists .readyToRun := by
  rw [h.mem_iff]
  revert ht
  cases s.taskState t <;> simp [TState.isReady, TState.list]

variable [DecidableEq τ]

/-- **Blocking a task** moves it to the list of its new state, and releases the tasks
that were put aside. -/
theorem blockTask_spec (h : Consistent idle s) (ht : (s.taskState t).isReady) (hidle : t ≠ idle)
    (hσ : σ.isBlocked) (hL : σ.list = some L) :
    ∃ s', s.blockTask t σ = some s' ∧ Consistent idle s' ∧ Moved s s' ∧
      s'.lists = update (update (update s.lists L
        (enqueue L s.schedPriority t (s.lists L))) .readyToRun
          (insertAll s.schedPriority (s.lists .pendingTasks)
            ((s.lists .readyToRun).erase t))) .pendingTasks [] := by
  obtain ⟨hLr, hLp⟩ := list_ne_of_isBlocked hσ hL
  have hmem := mem_ready_of_isReady h ht
  have hp : priorityMin ≤ s.schedPriority t := h.positive _ rfl t hmem hidle
  obtain ⟨s₁, hremove, hcons₁, hmoved₁, hinvalid, hlists₁⟩ := removeReadyToRun_spec h hmem hidle
  obtain ⟨s₂, hadd, hcons₂, hmoved₂, hlists₂⟩ := addBlocked_spec hcons₁ hinvalid
    (by rw [hmoved₁.schedPriority]; exact hp) hσ hL
  obtain ⟨s₃, hrelease, hcons₃, hmoved₃, hlists₃⟩ := releasePending_spec hcons₂
  refine ⟨s₃, ?_, hcons₃, (hmoved₁.trans hmoved₂).trans hmoved₃, ?_⟩
  · rw [blockTask, if_pos ht, hremove]
    dsimp only [bind_eq_bind, bind_some]
    rw [hadd]
    exact hrelease
  · rw [hlists₃, hlists₂, hlists₁, hmoved₂.schedPriority, hmoved₁.schedPriority]
    simp [hLr, Ne.symm hLr, Ne.symm hLp, update_comm hLr]

/-- **Unblocking a task** moves it from the list of its state to the ready-to-run list,
or puts it aside. -/
theorem unblockTask_spec {rrTicks : ℕ} (h : Consistent idle s) (hσ : (s.taskState t).isBlocked)
    (hL : (s.taskState t).list = some L) (hp : priorityMin ≤ s.schedPriority t)
    (hr : (s.lists .readyToRun).head? = some r) :
    ∃ s', s.unblockTask rrTicks t = some s' ∧ Consistent idle s' ∧
      Moved (s.setTimeslice t rrTicks) s' ∧
      s'.lists = update (update s.lists L ((s.lists L).erase t))
        (s.readyTarget r t) (insert s.schedPriority t (s.lists (s.readyTarget r t))) := by
  obtain ⟨hLr, hLp⟩ := list_ne_of_isBlocked hσ hL
  obtain ⟨s₁, hremove, hcons₁, hmoved₁, hinvalid, hlists₁⟩ := removeBlocked_spec h hσ hL
  have hcons₂ : Consistent idle (s₁.setTimeslice t rrTicks) := hcons₁.congr rfl rfl rfl
  obtain ⟨s₃, hadd, hcons₃, hmoved₃, hlists₃⟩ := addReadyToRun_spec hcons₂ hinvalid
    (by simpa [hmoved₁.schedPriority] using hp) (by simpa [hlists₁, Ne.symm hLr] using hr)
  have htarget : (s₁.setTimeslice t rrTicks).readyTarget r t = s.readyTarget r t := by
    simp [readyTarget, hmoved₁.schedPriority, hmoved₁.lockcount]
  have hne : s.readyTarget r t ≠ L := by
    rw [readyTarget]
    split
    · exact Ne.symm hLp
    · exact Ne.symm hLr
  refine ⟨s₃, ?_, hcons₃, ?_, ?_⟩
  · rw [unblockTask, if_pos hσ, hremove]
    dsimp only [bind_eq_bind, bind_some]
    rw [hadd]
    rfl
  · refine Moved.trans ?_ hmoved₃
    exact { hmoved₁ with timeslice := by simp [hmoved₁.timeslice] }
  · rw [hlists₃, htarget]
    simp [hlists₁, hmoved₁.schedPriority, hne]

variable (h : Consistent idle s)

include h

/-- A task of the ready-to-run list is taken out, gets a new priority and is added
again, while `r` is at the head of the others. -/
theorem readd_spec (ht : t ∈ s.lists .readyToRun) (hidle : t ≠ idle)
    (hp : priorityMin ≤ p) (hr : ((s.lists .readyToRun).erase t).head? = some r) :
    ∃ s₁ s₂, s.removeReadyToRun t = some (s₁, decide ((s.lists .readyToRun).head? = some t)) ∧
      (s₁.setPrio t p).addReadyToRun t = some (s₂,
        decide ((s.setPrio t p).readyTarget r t = .readyToRun ∧ s.schedPriority r < p)) ∧
      Consistent idle s₂ ∧ Moved (s.setPrio t p) s₂ ∧
      s₂.lists = update
        (update s.lists .readyToRun ((s.lists .readyToRun).erase t))
        ((s.setPrio t p).readyTarget r t)
        (insert (s.setPrio t p).schedPriority t
          (update s.lists .readyToRun ((s.lists .readyToRun).erase t)
            ((s.setPrio t p).readyTarget r t))) := by
  obtain ⟨s₁, hremove, hcons₁, hmoved₁, hinvalid, hlists₁⟩ := removeReadyToRun_spec h ht hidle
  have hrt : r ≠ t := by
    rintro rfl
    exact (h.nodup .readyToRun).not_mem_erase (mem_of_head? hr)
  obtain ⟨s₂, hadd, hcons₂, hmoved₂, hlists₂⟩ := addReadyToRun_spec
    (hcons₁.setPrio hinvalid p) hinvalid (by simpa using hp) (by simpa [hlists₁] using hr)
  have htarget : (s₁.setPrio t p).readyTarget r t = (s.setPrio t p).readyTarget r t := by
    simp [readyTarget, hmoved₁.schedPriority, hmoved₁.lockcount]
  refine ⟨s₁, s₂, hremove, ?_, hcons₂, ?_, ?_⟩
  · rw [hadd, htarget]
    simp [hrt, hmoved₁.schedPriority]
  · refine Moved.trans ?_ hmoved₂
    exact { hmoved₁ with schedPriority := by simp [hmoved₁.schedPriority] }
  · rw [hlists₂, htarget]
    simp [hlists₁, hmoved₁.schedPriority]

/-- **Reprioritizing the running task** downwards moves it behind the tasks of its new
priority, and releases the tasks that were put aside. -/
theorem reprioritizeRtr_running {n : τ} {rest : List τ}
    (hready : s.lists .readyToRun = t :: n :: rest) (hp : priorityMin ≤ p)
    (hle : p ≤ s.schedPriority n) :
    ∃ s', s.reprioritizeRtr t p = some s' ∧ Consistent idle s' ∧ Moved (s.setPrio t p) s' ∧
      s'.lists = update (update s.lists .readyToRun
        (insertAll (s.setPrio t p).schedPriority (t :: s.lists .pendingTasks)
          ((s.lists .readyToRun).erase t))) .pendingTasks [] := by
  have hhead : (s.lists .readyToRun).head? = some t := by rw [hready]; rfl
  have hrun : (s.taskState t).isReady := by
    rw [(h.running_iff t).mpr hhead]
    rfl
  obtain ⟨hidle, hnot⟩ := h.head_ne hready
  have htn : n ≠ t := fun hc => hnot (by simp [hc])
  have htarget : (s.setPrio t p).readyTarget n t = .readyToRun := by
    refine if_neg fun hc => ?_
    have := hc.2
    simp only [setPrio_schedPriority, update_self, update_of_ne htn] at this
    omega
  obtain ⟨s₁, s₂, hremove, hadd, hcons₂, hmoved₂, hlists₂⟩ := readd_spec (r := n) h
    (by rw [hready]; simp) hidle hp (by rw [hready]; simp)
  obtain ⟨s₃, hrelease, hcons₃, hmoved₃, hlists₃⟩ := releasePending_spec hcons₂
  refine ⟨s₃, ?_, hcons₃, hmoved₂.trans hmoved₃, ?_⟩
  · rw [reprioritizeRtr, if_pos ⟨hrun, hp⟩, hremove]
    dsimp only [bind_eq_bind, bind_some]
    rw [hadd]
    simpa [hhead, htarget, Nat.not_lt.mpr hle] using hrelease
  · rw [hlists₃, hmoved₂.schedPriority, hlists₂, htarget]
    simp

/-- **Reprioritizing a ready task** above the running one puts it in front of it and
releases the tasks that were put aside, or puts it aside. -/
theorem reprioritizeRtr_ready (ht : t ∈ s.lists .readyToRun)
    (hidle : t ≠ idle) (hr : (s.lists .readyToRun).head? = some r) (hrt : r ≠ t)
    (hp : priorityMin ≤ p) (hlt : s.schedPriority r < p) :
    ∃ s', s.reprioritizeRtr t p = some s' ∧ Consistent idle s' ∧ Moved (s.setPrio t p) s' ∧
      s'.lists = if s.lockcount r ≠ 0 then
          update (update s.lists .readyToRun ((s.lists .readyToRun).erase t))
            .pendingTasks (insert (s.setPrio t p).schedPriority t (s.lists .pendingTasks))
        else update (update s.lists .readyToRun
          (insertAll (s.setPrio t p).schedPriority (t :: s.lists .pendingTasks)
            ((s.lists .readyToRun).erase t))) .pendingTasks [] := by
  have hhead : (s.lists .readyToRun).head? ≠ some t := fun hc =>
    hrt (some.inj (hr.symm.trans hc))
  have hrun : (s.taskState t).isReady := by
    rw [h.state_of_mem_ready ht hhead]
    rfl
  obtain ⟨s₁, s₂, hremove, hadd, hcons₂, hmoved₂, hlists₂⟩ := readd_spec h
    ht hidle hp (by rw [head?_erase hhead]; exact hr)
  by_cases hlock : s.lockcount r ≠ 0
  · have htarget : (s.setPrio t p).readyTarget r t = .pendingTasks :=
      if_pos ⟨hlock, by simpa [hrt] using hlt⟩
    refine ⟨s₂, ?_, hcons₂, hmoved₂, ?_⟩
    · rw [reprioritizeRtr, if_pos ⟨hrun, hp⟩, hremove]
      dsimp only [bind_eq_bind, bind_some]
      rw [hadd]
      simp [hhead, htarget]
    · rw [if_pos hlock, hlists₂, htarget]
      simp
  · have htarget : (s.setPrio t p).readyTarget r t = .readyToRun := if_neg fun hc => hlock hc.1
    obtain ⟨s₃, hrelease, hcons₃, hmoved₃, hlists₃⟩ := releasePending_spec hcons₂
    refine ⟨s₃, ?_, hcons₃, hmoved₂.trans hmoved₃, ?_⟩
    · rw [reprioritizeRtr, if_pos ⟨hrun, hp⟩, hremove]
      dsimp only [bind_eq_bind, bind_some]
      rw [hadd]
      simpa [hhead, htarget, hlt] using hrelease
    · rw [if_neg hlock, hlists₃, hmoved₂.schedPriority, hlists₂, htarget]
      simp

/-- The lists after a change of the priority of a task in the ready-to-run list: the task is moved
behind those of its new priority, and with a context switch the pending tasks follow; or it is put
aside itself. -/
def ReadyReprioritized (t : τ) (p : ℕ) (s s' : Sched τ) : Prop :=
  let prio := (s.setPrio t p).schedPriority
  let others := (s.lists .readyToRun).erase t
  s'.lists = update (update s.lists .readyToRun
      (insertAll prio (t :: s.lists .pendingTasks) others)) .pendingTasks [] ∨
  s'.lists = update (update s.lists .readyToRun others) .pendingTasks
      (insert prio t (s.lists .pendingTasks)) ∨
  s'.lists = update s.lists .readyToRun (insert prio t others)

/-- The priority of the running task is raised, or lowered to no less than the next
one's. -/
theorem Consistent.setPrio_running {n : τ} {rest : List τ}
    (hready : s.lists .readyToRun = t :: n :: rest) (hlt : s.schedPriority n < p) :
    Consistent idle (s.setPrio t p) := by
  obtain ⟨hidle, htn⟩ := h.head_ne hready
  have hsorted := h.sorted .readyToRun rfl
  rw [hready] at hsorted
  have hprio : ∀ u, u ≠ t → (s.setPrio t p).schedPriority u = s.schedPriority u :=
    fun u hu => update_of_ne hu _ _
  have hself : (s.setPrio t p).schedPriority t = p := by simp
  have hother : ∀ L, L ≠ .readyToRun → t ∉ s.lists L := by
    intro L hL hc
    have := (h.mem_iff t L).mp hc
    rw [(h.mem_iff t .readyToRun).mp (by rw [hready]; simp)] at this
    exact hL (some.inj this).symm
  refine { h with sorted := fun L hL => ?_, positive := fun L hL u hu hne => ?_, idlePriority :=
    ?_ }
  · by_cases heq : L = .readyToRun
    · subst heq
      change PrioList.Sorted _ (s.lists .readyToRun)
      rw [hready, PrioList.Sorted, pairwise_cons]
      have htail : PrioList.Sorted s.schedPriority (n :: rest) := (pairwise_cons.mp hsorted).2
      refine ⟨fun u hu => ?_, ?_⟩
      · rw [hprio u (fun hc => htn (hc ▸ hu))]
        rcases mem_cons.mp hu with rfl | hu
        · omega
        · have := (pairwise_cons.mp htail).1 u hu
          omega
      · exact (sorted_congr fun u hu => hprio u fun hc => htn (hc ▸ hu)).mpr htail
    · exact (sorted_congr fun u hu => hprio u fun hc => hother L heq (hc ▸ hu)).mpr
        (h.sorted L hL)
  · by_cases hut : u = t
    · rw [hut, priorityMin]
      omega
    · rw [hprio u hut]
      exact h.positive L hL u hu hne
  · rw [hprio idle (Ne.symm hidle)]
    exact h.idlePriority

omit h

/-- The task at the head of the ready-to-run list stays there, if it has disabled
pre-emption and is not the task `t`. -/
def KeepsHead (t : τ) (s s' : Sched τ) : Prop :=
  ∀ r, (s.lists .readyToRun).head? = some r → r ≠ t → s.lockcount r ≠ 0 →
    (s'.lists .readyToRun).head? = some r

omit [DecidableEq τ] in
theorem head?_insert {prio : τ → ℕ} {l : List τ} (hr : l.head? = some r)
    (hle : prio t ≤ prio r) : (insert prio t l).head? = some r := by
  obtain ⟨rest, rfl⟩ := head?_eq_some_iff.mp hr
  rw [head?_insert_of_ahead_ne_nil, head?_cons]
  rw [ne_eq, ahead_eq_nil_iff]
  exact Nat.not_lt.mpr hle

variable (h : Consistent idle s)

include h

/-- **Changing the priority of a task in the ready-to-run list.** -/
theorem setPriority_ready (ht : t ∈ s.lists .readyToRun)
    (hidle : t ≠ idle) (hp : priorityMin ≤ p) (hmax : p ≤ priorityMax) :
    ∃ s', s.setPriority t p = some (s', true) ∧ Consistent idle s' ∧ Moved (s.setPrio t p) s' ∧
      ReadyReprioritized t p s s' ∧ KeepsHead t s s' := by
  by_cases hhead : (s.lists .readyToRun).head? = some t
  · obtain ⟨n, rest, hready⟩ := h.ready_eq_cons_cons hidle hhead
    have hrun : s.taskState t = .running := (h.running_iff t).mpr hhead
    have hkeeps : ∀ s', KeepsHead t s s' := by
      intro s' r hr hrt
      exact absurd (some.inj (hr.symm.trans hhead)) hrt
    by_cases hle : p ≤ s.schedPriority n
    · obtain ⟨s', heq, hcons, hmoved, hlists⟩ := reprioritizeRtr_running h hready hp hle
      refine ⟨s', ?_, hcons, hmoved, .inl hlists, hkeeps s'⟩
      simp [setPriority, hp, hmax, hrun, hready, hle, heq]
    · have hlt : s.schedPriority n < p := Nat.not_le.mp hle
      refine ⟨s.setPrio t p, ?_, h.setPrio_running hready hlt, ⟨rfl, rfl, rfl, rfl⟩,
        .inr (.inr ?_), hkeeps _⟩
      · simp [setPriority, hp, hmax, hrun, hready, hle]
      · have htn : n ≠ t := fun hc => (h.head_ne hready).2 (by simp [hc])
        have hnil : ahead (s.setPrio t p).schedPriority
            ((s.setPrio t p).schedPriority t) (n :: rest) = [] := by
          rw [ahead_eq_nil_iff]
          simpa [htn] using hlt
        rw [hready, erase_cons_head, insert_of_ahead_eq_nil hnil, ← hready, update_eq_self]
        rfl
  · have hstate := h.state_of_mem_ready ht hhead
    obtain ⟨r, rest, hready⟩ := h.ready_eq_cons
    have hr : (s.lists .readyToRun).head? = some r := by rw [hready]; rfl
    have hrt : r ≠ t := fun hc => hhead (hc ▸ hr)
    have hr' : ((s.lists .readyToRun).erase t).head? = some r := by
      rw [head?_erase hhead]
      exact hr
    by_cases hlt : s.schedPriority r < p
    · obtain ⟨s', heq, hcons, hmoved, hlists⟩ := reprioritizeRtr_ready h ht hidle hr hrt hp hlt
      refine ⟨s', ?_, hcons, hmoved, ?_, fun r₁ hr₁ _ hlock => ?_⟩
      · simp [setPriority, hp, hmax, hstate, hr, hlt, heq]
      · by_cases hlock : s.lockcount r ≠ 0
        · rw [if_pos hlock] at hlists
          exact .inr (.inl hlists)
        · rw [if_neg hlock] at hlists
          exact .inl hlists
      · -- with pre-emption disabled the task is put aside
        obtain rfl := some.inj (hr.symm.trans hr₁)
        rw [hlists, if_pos hlock]
        simpa using hr'
    · have htarget : (s.setPrio t p).readyTarget r t = .readyToRun := by
        refine if_neg fun hc => hlt ?_
        simpa [hrt] using hc.2
      obtain ⟨s₁, s₂, hremove, hadd, hcons, hmoved, hlists⟩ := readd_spec h ht
        hidle hp hr'
      refine ⟨s₂, ?_, hcons, hmoved, .inr (.inr ?_), fun r₁ hr₁ _ _ => ?_⟩
      · simp [setPriority, Nat.not_lt.mpr hp, Nat.not_lt.mpr hmax, hstate, hr, hlt, hremove, hrt,
          hadd, htarget]
      · rw [hlists, htarget]
        simp
      · obtain rfl := some.inj (hr.symm.trans hr₁)
        rw [hlists, htarget]
        refine head?_insert hr' ?_
        simpa [hrt] using hlt

/-- **Changing the priority of a task in another list** moves it behind the tasks of
its new priority, if the list is ordered by priority. -/
theorem setPriority_other (hL : (s.taskState t).list = some L)
    (hready : L ≠ .readyToRun) (hp : priorityMin ≤ p) (hmax : p ≤ priorityMax) :
    ∃ s', s.setPriority t p = some (s', true) ∧ Consistent idle s' ∧ Moved (s.setPrio t p) s' ∧
      s'.lists = if L.prioritized then update s.lists L
          (insert (s.setPrio t p).schedPriority t ((s.lists L).erase t))
        else s.lists := by
  have hmem : t ∈ s.lists L := (h.mem_iff t L).mpr hL
  have hset : s.setPriority t p = some (if L.prioritized then
      ((s.dqRem t L).setPrio t p).setList L
        (insert (s.setPrio t p).schedPriority t ((s.lists L).erase t))
      else s.setPrio t p, true) := by
    have hcase : ∀ σ, σ = s.taskState t → s.setPriority t p = some (if L.prioritized then
      ((s.dqRem t L).setPrio t p).setList L
        (insert (s.setPrio t p).schedPriority t ((s.lists L).erase t))
      else s.setPrio t p, true) := by
      intro σ hσ
      rw [← hσ] at hL
      cases σ <;> simp only [TState.list, some.injEq, reduceCtorEq] at hL <;> subst hL <;>
        simp_all [setPriority, ← hσ, TState.list, TList.prioritized, addPrioritized]
    exact hcase _ rfl
  have hbase := (h.detach hmem hready).setPrio (t := t) (by simp) p
  by_cases hprio : L.prioritized
  · rw [if_pos hprio] at hset ⊢
    refine ⟨_, hset, ?_, ⟨rfl, rfl, rfl, rfl⟩, by simp⟩
    have hattach := hbase.attach (t := t) (by simp) hL hready (insert_perm _ _ _)
      fun _ => ⟨sorted_insert (hbase.sorted L hprio), by simpa using hp⟩
    exact hattach.congr rfl (by simp) (by simp)
  · rw [if_neg hprio] at hset ⊢
    refine ⟨_, hset, ?_, ⟨rfl, rfl, rfl, rfl⟩, rfl⟩
    have hattach := hbase.attach (t := t) (by simp) hL hready
      (by simpa using perm_cons_erase hmem) fun hc => absurd hc hprio
    exact hattach.congr rfl (by simp) (by simp)

/-- The lists after the tasks that were put aside have been released. -/
def releasedLists (s : Sched τ) : TList → List τ :=
  update (update s.lists .readyToRun
    (insertAll s.schedPriority (s.lists .pendingTasks) (s.lists .readyToRun)))
    .pendingTasks []

theorem unlock_spec (rrTicks : ℕ) (interrupt : Bool) :
    ∃ s', s.unlock rrTicks interrupt = some s' ∧ Consistent idle s' ∧
      s'.schedPriority = s.schedPriority ∧ (s'.lists = s.lists ∨ s'.lists = s.releasedLists) := by
  obtain ⟨r, rest, hready⟩ := h.ready_eq_cons
  have hr : (s.lists .readyToRun).head? = some r := by rw [hready]; rfl
  rw [unlock, hr]
  dsimp only
  split
  · exact ⟨s, rfl, h, rfl, .inl rfl⟩
  split
  · obtain ⟨s', hrelease, hcons, hmoved, hlists⟩ := releasePending_spec
      (s := s.setLockcount r (s.lockcount r - 1)) (h.congr rfl rfl rfl)
    rw [hrelease]
    dsimp only [bind_eq_bind, bind_some]
    split
    · exact ⟨_, rfl, hcons.congr rfl rfl rfl, hmoved.schedPriority, .inr hlists⟩
    · exact ⟨s', rfl, hcons, hmoved.schedPriority, .inr hlists⟩
  · exact ⟨_, rfl, h.congr rfl rfl rfl, rfl, .inl rfl⟩

/-- The time slice of the task ends, and the task may be pre-empted. -/
def SliceEnds (s : Sched τ) (t : τ) : Prop :=
  (s.lists .readyToRun).head? = some t ∧ s.roundRobin t ∧ s.timeslice t ≤ 1 ∧ s.lockcount t = 0

/-- **The end of a time slice** moves the running task behind the other tasks of its
priority, if there are any. -/
theorem processTimeslice_spec (rrTicks : ℕ) :
    ∃ s', s.processTimeslice rrTicks = some s' ∧ Consistent idle s' ∧
      s'.schedPriority = s.schedPriority ∧
      (s'.lists = s.lists ∧ (∀ t, SliceEnds s t → ∀ u ∈ s.lists .readyToRun, u ≠ t →
          s.schedPriority u < s.schedPriority t) ∨
        ∃ t, SliceEnds s t ∧ s'.lists = update (update s.lists .readyToRun
          (insertAll s.schedPriority (t :: s.lists .pendingTasks)
            ((s.lists .readyToRun).erase t))) .pendingTasks []) := by
  obtain ⟨r, rest, hready⟩ := h.ready_eq_cons
  have hr : (s.lists .readyToRun).head? = some r := by rw [hready]; rfl
  have hnone : ¬SliceEnds s r → ∀ t, SliceEnds s t → ∀ u ∈ s.lists .readyToRun, u ≠ t →
      s.schedPriority u < s.schedPriority t := by
    intro hno t hends
    obtain rfl : r = t := some.inj (hr.symm.trans hends.1)
    exact absurd hends hno
  rw [processTimeslice, hr]
  dsimp only [bind_eq_bind, bind_some]
  split
  · next hrr =>
    split
    · next hts =>
      split
      · next hlock =>
        have hends : SliceEnds s r := ⟨hr, hrr, hts, hlock⟩
        have hcons : Consistent idle (s.setTimeslice r rrTicks) := h.congr rfl rfl rfl
        rcases rest with _ | ⟨n, rest⟩
        · refine ⟨s.setTimeslice r rrTicks, by simp [hready], hcons, rfl, .inl ⟨rfl, ?_⟩⟩
          intro t hends u hu hut
          obtain rfl : r = t := some.inj (hr.symm.trans hends.1)
          rw [hready] at hu
          exact absurd (mem_singleton.mp hu) hut
        · by_cases hle : s.schedPriority r ≤ s.schedPriority n
          · have hp : priorityMin ≤ s.schedPriority r :=
              h.positive .readyToRun rfl r (by rw [hready]; simp) (h.head_ne hready).1
            obtain ⟨s', heq, hcons', hmoved, hlists⟩ :=
              reprioritizeRtr_running hcons hready hp hle
            refine ⟨s', by simpa [hready, hle] using heq, hcons', ?_, .inr ⟨r, hends, ?_⟩⟩
            · rw [hmoved.schedPriority]
              simp
            · rw [hlists]
              simp
          · refine ⟨s.setTimeslice r rrTicks, by simp [hready, hle], hcons, rfl, .inl ⟨rfl, ?_⟩⟩
            intro t hends u hu hut
            obtain rfl : r = t := some.inj (hr.symm.trans hends.1)
            have hsorted := h.sorted .readyToRun rfl
            rw [hready] at hu hsorted
            rcases mem_cons.mp ((mem_cons.mp hu).resolve_left hut) with rfl | hu
            · omega
            · have := (pairwise_cons.mp (pairwise_cons.mp hsorted).2).1 u hu
              omega
      · next hlock => exact ⟨s, rfl, h, rfl, .inl ⟨rfl, hnone fun hc => hlock hc.2.2.2⟩⟩
    · next hts =>
      exact ⟨_, rfl, h.congr rfl rfl rfl, rfl, .inl ⟨rfl, hnone fun hc => hts hc.2.2.1⟩⟩
  · next hrr => exact ⟨s, rfl, h, rfl, .inl ⟨rfl, hnone fun hc => hrr hc.2.1⟩⟩

omit h

end GreenboneFeeder.Sched
