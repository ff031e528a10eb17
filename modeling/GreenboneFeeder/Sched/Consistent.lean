import GreenboneFeeder.Sched.Ops
import GreenboneFeeder.Lib.Run

/-!
# Consistent task lists

The invariant of the scheduler is `Sched.Consistent`. A task may be in no list, with the state
`TSTATE_TASK_INVALID`, on its way from one list to another: the functions of `sched/sched` take a
task out of a list (`Sched.Consistent.detachOf`), possibly change its priority
(`Sched.Consistent.setPrio`), and put it into a list (`Sched.Consistent.attachOf`), and each of
these moves keeps the invariant.

The merge of the pending tasks is a loop that walks the ready-to-run list only once: nothing in
front of its cursor is outranked by a task still to be merged (`Sched.mergeLoop_behind`).
-/

namespace GreenboneFeeder.Sched

open List Function PrioList TState

variable {τ : Type*} {rest : List τ}

/-- **The task lists are consistent**: the prioritized lists are sorted, and hold tasks of valid
priorities; each task is in the list that its state names, once; the idle task is at the end of the
ready-to-run list, and the task at its head is the one that runs. -/
structure Consistent (idle : τ) (s : Sched τ) : Prop where
  sorted : ∀ L : TList, L.prioritized → PrioList.Sorted s.schedPriority (s.lists L)
  positive : ∀ L : TList, L.prioritized →
    ∀ t ∈ s.lists L, t ≠ idle → priorityMin ≤ s.schedPriority t
  nodup : ∀ L, (s.lists L).Nodup
  mem_iff : ∀ t L, t ∈ s.lists L ↔ (s.taskState t).list = some L
  idleLast : (s.lists .readyToRun).getLast? = some idle
  idlePriority : s.schedPriority idle = 0
  running_iff : ∀ t, s.taskState t = .running ↔ (s.lists .readyToRun).head? = some t

section Moves

variable {idle t : τ} {s : Sched τ} {L : TList} {l : List τ} {σ : TState}

section

variable (h : Consistent idle s)

include h

theorem Consistent.idle_mem : idle ∈ s.lists .readyToRun :=
  mem_of_getLast? h.idleLast

theorem Consistent.not_mem_of_invalid (ht : s.taskState t = .invalid)
    (L : TList) : t ∉ s.lists L := by
  rw [h.mem_iff, ht]
  simp [list]

/-- Every member of the ready-to-run list but its head is ready and does not run. -/
theorem Consistent.state_of_mem_ready (ht : t ∈ s.lists .readyToRun)
    (hne : (s.lists .readyToRun).head? ≠ some t) : s.taskState t = .readyToRun := by
  have hlist := (h.mem_iff t .readyToRun).mp ht
  have hrun : s.taskState t ≠ .running := fun hc => hne ((h.running_iff t).mp hc)
  revert hlist hrun
  cases s.taskState t <;> simp [list]

theorem Consistent.ready_eq_cons :
    ∃ r rest, s.lists .readyToRun = r :: rest :=
  exists_cons_of_ne_nil (ne_nil_of_mem h.idle_mem)

/-- A task other than the idle task has a successor in the ready-to-run list. -/
theorem Consistent.ready_eq_cons_cons (hidle : t ≠ idle)
    (hhead : (s.lists .readyToRun).head? = some t) :
    ∃ n rest, s.lists .readyToRun = t :: n :: rest := by
  have hlast := h.idleLast
  rcases hl : s.lists .readyToRun with _ | ⟨a, _ | ⟨n, rest⟩⟩
  · rw [hl] at hhead
    exact absurd hhead (by simp)
  · rw [hl] at hhead hlast
    exact absurd (Option.some.inj (hhead.symm.trans hlast)) hidle
  · rw [hl] at hhead
    exact ⟨n, rest, by rw [Option.some.inj hhead]⟩

theorem Consistent.head_ne {n : τ}
    (hready : s.lists .readyToRun = t :: n :: rest) : t ≠ idle ∧ t ∉ n :: rest := by
  have hnodup := h.nodup .readyToRun
  have hlast := h.idleLast
  rw [hready] at hnodup hlast
  have htn : t ∉ n :: rest := (nodup_cons.mp hnodup).1
  exact ⟨fun hc => htn (hc ▸ mem_of_getLast? hlast), htn⟩

theorem Consistent.congr {s' : Sched τ} (hprio : s'.schedPriority = s.schedPriority)
    (hstate : s'.taskState = s.taskState) (hlists : s'.lists = s.lists) : Consistent idle s' := by
  obtain ⟨sorted, positive, nodup, mem_iff, idleLast, idlePriority, running_iff⟩ := h
  constructor <;> simp only [hprio, hstate, hlists] <;> assumption

end

variable [DecidableEq τ]

section

variable (h : Consistent idle s)

include h

theorem Consistent.setPrio (ht : s.taskState t = .invalid) (p : ℕ) :
    Consistent idle (s.setPrio t p) := by
  have hprio : ∀ L, ∀ u ∈ s.lists L, (s.setPrio t p).schedPriority u = s.schedPriority u := by
    intro L u hu
    refine update_of_ne ?_ _ _
    rintro rfl
    exact h.not_mem_of_invalid ht L hu
  refine { h with sorted := fun L hL => ?_, positive := fun L hL u hu hne => ?_, idlePriority :=
    ?_ }
  · exact (sorted_congr (hprio L)).mpr (h.sorted L hL)
  · rw [hprio L u hu]
    exact h.positive L hL u hu hne
  · rw [hprio _ idle h.idle_mem]
    exact h.idlePriority

theorem Consistent.attachOf (ht : s.taskState t = .invalid) (hl : l.Perm (t :: s.lists L))
    (hprio : L.prioritized → PrioList.Sorted s.schedPriority l ∧ priorityMin ≤ s.schedPriority t)
    {state : τ → TState} (hstate : (state t).list = some L)
    (hother : ∀ u, u ≠ t → (state u).list = (s.taskState u).list)
    (hlast : ((s.setList L l).lists .readyToRun).getLast? = some idle)
    (hrun : ∀ u, state u = .running ↔ ((s.setList L l).lists .readyToRun).head? = some u) :
    Consistent idle { s.setList L l with taskState := state } := by
  have hnot := h.not_mem_of_invalid ht
  refine ⟨fun L' hL' => ?_, fun L' hL' u hu hne => ?_, fun L' => ?_, fun u L' => ?_, hlast,
    h.idlePriority, hrun⟩
  · by_cases heq : L' = L
    · subst heq
      simpa using (hprio hL').1
    · simpa [heq] using h.sorted L' hL'
  · by_cases heq : L' = L
    · subst heq
      have hu : u = t ∨ u ∈ s.lists L' := by simpa [hl.mem_iff] using hu
      rcases hu with rfl | hu
      · exact (hprio hL').2
      · exact h.positive L' hL' u hu hne
    · exact h.positive L' hL' u (by simpa [heq] using hu) hne
  · by_cases heq : L' = L
    · subst heq
      simpa [hl.nodup_iff, hnot L'] using h.nodup L'
    · simpa [heq] using h.nodup L'
  · by_cases heq : L' = L <;> by_cases hut : u = t
    · subst heq hut
      simp [hl.mem_iff, hstate]
    · subst heq
      simp [hl.mem_iff, hut, h.mem_iff, hother u hut]
    · subst hut
      simp [heq, hstate, hnot L', Ne.symm heq]
    · simp [heq, h.mem_iff, hother u hut]

theorem Consistent.detachOf (ht : t ∈ s.lists L) {state : τ → TState} (hstate : state t = .invalid)
    (hother : ∀ u, u ≠ t → (state u).list = (s.taskState u).list)
    (hlast : ((s.dqRem t L).lists .readyToRun).getLast? = some idle)
    (hrun : ∀ u, state u = .running ↔ ((s.dqRem t L).lists .readyToRun).head? = some u) :
    Consistent idle { s.dqRem t L with taskState := state } := by
  have hlist := (h.mem_iff t L).mp ht
  have hnot : ∀ L', L' ≠ L → t ∉ s.lists L' := by
    intro L' hne hc
    have := (h.mem_iff t L').mp hc
    rw [hlist] at this
    exact hne (Option.some.inj this).symm
  have hsub : ∀ L', ((s.dqRem t L).lists L').Sublist (s.lists L') := by
    intro L'
    by_cases heq : L' = L
    · subst heq
      simpa using erase_sublist
    · simp [heq]
  refine ⟨fun L' hL' => (h.sorted L' hL').sublist (hsub L'), fun L' hL' u hu hne => ?_,
    fun L' => (h.nodup L').sublist (hsub L'), fun u L' => ?_, hlast, h.idlePriority, hrun⟩
  · exact h.positive L' hL' u ((hsub L').subset hu) hne
  · by_cases heq : L' = L <;> by_cases hut : u = t
    · subst heq hut
      simp [list, (h.nodup L').not_mem_erase, hstate]
    · subst heq
      simp [hut, (h.nodup L').mem_erase_iff, h.mem_iff, hother u hut]
    · subst hut
      simp [heq, list, hnot L' heq, hstate]
    · simp [heq, h.mem_iff, hother u hut]

theorem Consistent.attach (ht : s.taskState t = .invalid)
    (hσ : σ.list = some L) (hL : L ≠ .readyToRun) (hl : l.Perm (t :: s.lists L))
    (hprio : L.prioritized → PrioList.Sorted s.schedPriority l ∧ priorityMin ≤ s.schedPriority t) :
    Consistent idle ((s.setList L l).setState t σ) := by
  have hready : (s.setList L l).lists .readyToRun = s.lists .readyToRun :=
    update_of_ne (Ne.symm hL) _ _
  refine h.attachOf ht hl hprio (by simp [hσ]) (fun u hu => by simp [hu]) ?_ fun u => ?_
  · rw [hready]
    exact h.idleLast
  · rw [hready, ← h.running_iff]
    by_cases hut : u = t
    · subst hut
      have hne : σ ≠ .running := by
        rintro rfl
        exact hL (by simpa [list] using hσ.symm)
      simp [hne, ht]
    · simp [hut]

theorem Consistent.detach (ht : t ∈ s.lists L) (hL : L ≠ .readyToRun) :
    Consistent idle ((s.dqRem t L).setState t .invalid) := by
  have hready : (s.dqRem t L).lists .readyToRun = s.lists .readyToRun :=
    update_of_ne (Ne.symm hL) _ _
  refine h.detachOf ht (by simp) (fun u hu => by simp [hu]) ?_ fun u => ?_
  · rw [hready]
    exact h.idleLast
  · rw [hready, ← h.running_iff]
    by_cases hut : u = t
    · subst hut
      have hne : s.taskState u ≠ .running := by
        intro hc
        have := (h.mem_iff u L).mp ht
        rw [hc] at this
        exact hL (Option.some.inj this).symm
      simp [hne]
    · simp [hut]

theorem Consistent.detachReady (ht : t ∈ s.lists .readyToRun)
    (hidle : t ≠ idle) (hne : (s.lists .readyToRun).head? ≠ some t) :
    Consistent idle ((s.dqRem t .readyToRun).setState t .invalid) := by
  refine h.detachOf ht (by simp) (fun u hu => by simp [hu]) ?_ fun u => ?_
  · exact getLast?_erase h.idleLast (Ne.symm hidle)
  · simp only [dqRem_lists, update_self]
    rw [head?_erase hne, ← h.running_iff]
    by_cases hut : u = t
    · subst hut
      have hrun : s.taskState u ≠ .running := fun hc => hne ((h.running_iff u).mp hc)
      simp [hrun]
    · simp [hut]

/-- The running task is taken out of the ready-to-run list, and the next one runs. -/
theorem Consistent.detachRunning {n : τ} (hready : s.lists .readyToRun = t :: n :: rest) :
    Consistent idle
      (((s.setState n .running).dqRem t .readyToRun).setState t .invalid) := by
  have herase : (s.dqRem t .readyToRun).lists .readyToRun = n :: rest := by
    simp [hready]
  have hnodup := h.nodup .readyToRun
  rw [hready, nodup_cons, mem_cons, not_or] at hnodup
  have hlast := h.idleLast
  rw [hready] at hlast
  have hn : s.taskState n = .readyToRun := by
    refine h.state_of_mem_ready (by rw [hready]; simp) ?_
    rw [hready]
    exact fun hc => hnodup.1.1 (Option.some.inj hc)
  refine h.detachOf (by rw [hready]; simp) (by simp) (fun u hu => ?_) ?_ fun u => ?_
  · by_cases hun : u = n
    · subst hun
      simp [hu, hn, list]
    · simp [hu, hun]
  · rw [herase]
    exact hlast
  · rw [herase]
    have hut : u ≠ t → u ≠ n → s.taskState u ≠ .running := by
      intro hut _ hc
      have := (h.running_iff u).mp hc
      rw [hready] at this
      exact hut (Option.some.inj this).symm
    by_cases hut' : u = t
    · subst hut'
      simpa using Ne.symm hnodup.1.1
    · by_cases hun : u = n
      · subst hun
        simp [hut']
      · simpa [hut', hun, Ne.symm hun] using hut hut' hun

theorem Consistent.attachReady (ht : s.taskState t = .invalid)
    (hp : priorityMin ≤ s.schedPriority t)
    (hahead : ahead s.schedPriority (s.schedPriority t) (s.lists .readyToRun) ≠ []) :
    Consistent idle ((s.setList .readyToRun
      (insert s.schedPriority t (s.lists .readyToRun))).setState t .readyToRun) := by
  refine h.attachOf ht (insert_perm _ _ _)
    (fun _ => ⟨sorted_insert (h.sorted _ rfl), hp⟩) (by simp [list])
    (fun u hu => by simp [hu]) ?_ fun u => ?_
  · refine getLast?_insert h.idleLast ?_
    rw [h.idlePriority]
    exact hp
  · simp only [setList_lists, update_self]
    rw [head?_insert_of_ahead_ne_nil hahead, ← h.running_iff]
    by_cases hut : u = t
    · subst hut
      simp [ht]
    · simp [hut]

theorem Consistent.attachRunning {r : τ}
    (ht : s.taskState t = .invalid) (hp : priorityMin ≤ s.schedPriority t)
    (hready : s.lists .readyToRun = r :: rest) (hlt : s.schedPriority r < s.schedPriority t) :
    Consistent idle (((s.setList .readyToRun (t :: r :: rest)).setState t .running).setState r
      .readyToRun) := by
  have hrt : r ≠ t := by
    rintro rfl
    exact h.not_mem_of_invalid ht .readyToRun (by rw [hready]; simp)
  have hrun : s.taskState r = .running := (h.running_iff r).mpr (by rw [hready]; rfl)
  have hsorted : PrioList.Sorted s.schedPriority (t :: r :: rest) := by
    have := h.sorted .readyToRun rfl
    rw [hready] at this
    have hins := sorted_insert (t := t) this
    rwa [insert_of_ahead_eq_nil (ahead_eq_nil_iff.mpr hlt)] at hins
  refine h.attachOf ht (by rw [hready]) (fun _ => ⟨hsorted, hp⟩) ?_ (fun u hu => ?_) ?_ fun u => ?_
  · simp [Ne.symm hrt, list]
  · by_cases hur : u = r
    · subst hur
      simp [hrun, list]
    · simp [hu, hur]
  · have := h.idleLast
    rw [hready] at this
    simpa using this
  · by_cases hur : u = r
    · subst hur
      simpa using Ne.symm hrt
    · by_cases hut : u = t
      · subst hut
        simp [hur]
      · have hno : s.taskState u ≠ .running := by
          intro hc
          have := (h.running_iff u).mp hc
          rw [hready] at this
          exact hur (Option.some.inj this).symm
        simpa [hur, hut, Ne.symm hut] using hno

end

end Moves

/-! ### The functions -/

section Functions

variable [DecidableEq τ] {idle t : τ} {s s' s'' : Sched τ}

/-- Tasks were moved between lists and their states changed, but nothing else. -/
structure Moved (s s' : Sched τ) : Prop where
  schedPriority : s'.schedPriority = s.schedPriority
  lockcount : s'.lockcount = s.lockcount
  roundRobin : s'.roundRobin = s.roundRobin
  timeslice : s'.timeslice = s.timeslice

omit [DecidableEq τ] in
theorem Moved.trans (h : Moved s s') (h' : Moved s' s'') : Moved s s'' :=
  ⟨h'.schedPriority.trans h.schedPriority, h'.lockcount.trans h.lockcount,
    h'.roundRobin.trans h.roundRobin, h'.timeslice.trans h.timeslice⟩

/-- The list that `sched_addreadytorun` adds a task to while `r` is running. -/
def readyTarget (s : Sched τ) (r t : τ) : TList :=
  if s.lockcount r ≠ 0 ∧ s.schedPriority r < s.schedPriority t then .pendingTasks else .readyToRun

/-- **Adding a task to the ready-to-run list**: it is inserted there, or put aside. -/
theorem addReadyToRun_spec (h : Consistent idle s) (ht : s.taskState t = .invalid)
    (hp : priorityMin ≤ s.schedPriority t) {r : τ} (hr : (s.lists .readyToRun).head? = some r) :
    ∃ s', s.addReadyToRun t = some (s', decide (s.readyTarget r t = .readyToRun ∧
        s.schedPriority r < s.schedPriority t)) ∧
      Consistent idle s' ∧ Moved s s' ∧
      s'.lists = update s.lists (s.readyTarget r t)
        (insert s.schedPriority t (s.lists (s.readyTarget r t))) := by
  obtain ⟨rest, hready⟩ : ∃ rest, s.lists .readyToRun = r :: rest := by
    obtain ⟨a, rest, hl⟩ := h.ready_eq_cons
    rw [hl] at hr
    exact ⟨rest, by rw [hl, Option.some.inj hr]⟩
  by_cases hlock : s.lockcount r ≠ 0 ∧ s.schedPriority r < s.schedPriority t
  · have htarget : s.readyTarget r t = .pendingTasks := if_pos hlock
    refine ⟨_, ?_, h.attach (σ := .pending) ht rfl (by simp) (insert_perm _ _ _)
      fun _ => ⟨sorted_insert (h.sorted _ rfl), hp⟩, ⟨rfl, rfl, rfl, rfl⟩,
      by rw [htarget]; rfl⟩
    simp [addReadyToRun, hready, hlock, addPrioritized, hp, htarget]
  · have htarget : s.readyTarget r t = .readyToRun := if_neg hlock
    rw [htarget]
    by_cases hlt : s.schedPriority r < s.schedPriority t
    · have hunlocked : s.lockcount r = 0 := by
        by_contra hc
        exact hlock ⟨hc, hlt⟩
      have hnil := (ahead_eq_nil_iff (l := rest)).mpr hlt
      have hins : insert s.schedPriority t (s.lists .readyToRun) = t :: r :: rest := by
        rw [hready, insert_of_ahead_eq_nil hnil]
      refine ⟨_, ?_, h.attachRunning ht hp hready hlt, ⟨rfl, rfl, rfl, rfl⟩, by rw [hins]; rfl⟩
      simp [addReadyToRun, hunlocked, addPrioritized, hp, hready, hnil, hlt,
        insert_of_ahead_eq_nil hnil]
    · have hahead :
          ahead s.schedPriority (s.schedPriority t) (s.lists .readyToRun) ≠ [] := by
        rw [hready, Ne, ahead_eq_nil_iff]
        exact hlt
      refine ⟨_, ?_, h.attachReady ht hp hahead, ⟨rfl, rfl, rfl, rfl⟩, rfl⟩
      simp [addReadyToRun, hr, addPrioritized, hp, hahead, hlt]

/-- The state with the given ready-to-run and pending lists and the given task
states. -/
@[simps -fullyApplied]
def withReady (s : Sched τ) (ready pending : List τ) (state : τ → TState) : Sched τ :=
  { s with
    lists := update (update s.lists .readyToRun ready) .pendingTasks pending
    taskState := state }

/-! ### The merge of the pending tasks -/

section Merge

variable {prio : τ → ℕ} {a : τ} {ps rest : List τ}

/-- **The merge behind the head** inserts the tasks one after another: the tasks in front of the
cursor have at least the priority of those still to come. -/
theorem mergeLoop_behind (ahead rest : List τ) (hsorted : PrioList.Sorted prio ps)
    (hcursor : ∀ q ∈ ps, ∀ b ∈ ahead, prio q ≤ prio b)
    (hlow : ∀ q ∈ ps, ∃ r ∈ rest, prio r < prio q) (hhead : (ahead ++ rest).head? = some a)
    (ha : ∀ q ∈ ps, prio q ≤ prio a) (state : τ → TState) (ret : Bool) :
    mergeLoop prio ps ahead rest state ret = some (insertAll prio ps (ahead ++ rest),
      ps.foldl (update · · .readyToRun) state, ret) := by
  induction ps generalizing ahead rest state with
  | nil => rfl
  | cons p ps ih =>
    obtain ⟨hp, hps⟩ := pairwise_cons.mp hsorted
    obtain ⟨hcp, hcursor⟩ := forall_mem_cons.mp hcursor
    obtain ⟨⟨r, hr, hrp⟩, hlow⟩ := forall_mem_cons.mp hlow
    obtain ⟨hap, ha⟩ := forall_mem_cons.mp ha
    have hwalk := ahead_append_behind prio (prio p) rest
    have hfront : ∀ b ∈ ahead ++ PrioList.ahead prio (prio p) rest, prio p ≤ prio b := by
      intro b hb
      rcases mem_append.mp hb with hb | hb
      · exact hcp b hb
      · exact le_of_mem_ahead hb
    -- what has a lower priority is not walked past
    have hlower : ∀ r ∈ rest, prio r < prio p → r ∈ behind prio (prio p) rest := by
      intro r hr hrp
      rw [← hwalk] at hr
      refine (mem_append.mp hr).resolve_left fun hc => ?_
      exact absurd (le_of_mem_ahead hc) (by omega)
    have hins : insert prio p (ahead ++ rest) =
        ahead ++ PrioList.ahead prio (prio p) rest ++ p :: PrioList.behind prio (prio p) rest := by
      rw [PrioList.insert_append hcp, PrioList.insert, append_assoc]
    have hne : ahead ++ PrioList.ahead prio (prio p) rest ≠ [] := by
      intro hnil
      obtain ⟨rfl, hnil⟩ := append_eq_nil_iff.mp hnil
      obtain ⟨l, rfl⟩ := head?_eq_some_iff.mp hhead
      exact absurd (PrioList.ahead_eq_nil_iff.mp hnil) (by omega)
    have hhead' : (insert prio p (ahead ++ rest)).head? = some a := by
      rw [head?_insert_of_ahead_ne_nil, hhead]
      rwa [PrioList.ahead_append hcp]
    rw [hins] at hhead'
    rw [insertAll_cons, hins, mergeLoop]
    rcases hbehind : behind prio (prio p) rest with _ | ⟨r', rest'⟩
    · exact absurd (hlower r hr hrp) (by simp [hbehind])
    · rw [hbehind] at hlower hhead'
      dsimp only
      rw [if_neg hne]
      refine ih _ _ hps (fun q hq b hb => (hp q hq).trans (hfront b hb)) (fun q hq => ?_) hhead'
        ha _
      obtain ⟨r, hr, hrq⟩ := hlow q hq
      exact ⟨r, mem_cons_of_mem _ (hlower r hr (hrq.trans_le (hp q hq))), hrq⟩

theorem foldl_update_apply (ps : List τ) (state : τ → TState) (σ : TState) (t : τ) :
    ps.foldl (update · · σ) state t = if t ∈ ps then σ else state t := by
  induction ps generalizing state with
  | nil => rfl
  | cons p ps ih =>
    rw [foldl_cons]
    grind

/-- **The merge of the pending tasks**: they are inserted one after another, at most the first
becomes the head of the list, and the states follow. -/
theorem mergeLoop_spec (hsorted : PrioList.Sorted prio ps)
    (hlow : ∀ q ∈ ps, ∃ r ∈ rest, prio r < prio q) (hnodup : (ps ++ rest).Nodup)
    {state : τ → TState} :
    ∃ state' ret, mergeLoop prio ps [] rest state false =
        some (insertAll prio ps rest, state', ret) ∧
      (ret = true ↔ (insertAll prio ps rest).head? ≠ rest.head?) ∧
      (ret = true → ∃ q ∈ ps, (insertAll prio ps rest).head? = some q) ∧
      ∀ t, state' t =
        if t ∈ ps then
          if (insertAll prio ps rest).head? = some t then .running else .readyToRun
        else if ret = true ∧ rest.head? = some t then .readyToRun else state t := by
  rcases ps with _ | ⟨p, ps⟩
  · exact ⟨state, false, rfl, by simp, by simp, by simp⟩
  obtain ⟨hp, hps⟩ := pairwise_cons.mp hsorted
  obtain ⟨_, hr, _⟩ := hlow p mem_cons_self
  obtain ⟨r, l, rfl⟩ := exists_cons_of_ne_nil (ne_nil_of_mem hr)
  by_cases hlt : prio r < prio p
  · have hahead := ahead_eq_nil_iff (l := l) |>.mpr hlt
    have hbehind := ahead_append_behind prio (prio p) (r :: l)
    rw [hahead, nil_append] at hbehind
    have hloop := mergeLoop_behind [] (p :: r :: l) hps (by simp)
      (fun q hq => (hlow q (mem_cons_of_mem _ hq)).imp fun _ => And.imp_left
        (mem_cons_of_mem _)) rfl hp
      (update (update state r .readyToRun) p .running) true
    have hhead := head?_insertAll (l := p :: r :: l) rfl hp
    rw [insertAll_cons, insert_of_ahead_eq_nil hahead, hhead, mergeLoop, hbehind]
    refine ⟨_, true, by simpa [hahead] using hloop, ?_, fun _ => ⟨p, by simp⟩, fun t => ?_⟩
    · grind
    · rw [foldl_update_apply]
      grind
  · have hle : ∀ q ∈ p :: ps, prio q ≤ prio r :=
      forall_mem_cons.mpr ⟨Nat.le_of_not_lt hlt, fun q hq =>
        (hp q hq).trans (Nat.le_of_not_lt hlt)⟩
    have hhead := head?_insertAll (l := r :: l) rfl hle
    refine ⟨_, false, mergeLoop_behind [] (r :: l) hsorted (by simp) hlow rfl hle state false,
      by rw [hhead]; simp, by simp, fun t => ?_⟩
    rw [foldl_update_apply]
    grind

end Merge

theorem mergePending_consistent (h : Consistent idle s) :
    ∃ state ret, s.mergePending = some (s.withReady (insertAll s.schedPriority
        (s.lists .pendingTasks) (s.lists .readyToRun)) [] state, ret) ∧
      Consistent idle (s.withReady (insertAll s.schedPriority (s.lists .pendingTasks)
        (s.lists .readyToRun)) [] state) := by
  have hpos : ∀ q ∈ s.lists .pendingTasks, s.schedPriority idle < s.schedPriority q := by
    intro q hq
    have hne : q ≠ idle := by
      rintro rfl
      have := (h.mem_iff q .pendingTasks).mp hq
      rw [(h.mem_iff q .readyToRun).mp h.idle_mem] at this
      simp at this
    rw [h.idlePriority]
    exact h.positive .pendingTasks rfl q hq hne
  have hnodup : (s.lists .pendingTasks ++ s.lists .readyToRun).Nodup := by
    refine nodup_append.mpr ⟨h.nodup _, h.nodup _, fun t ht u hu htu => ?_⟩
    rw [h.mem_iff] at ht hu
    rw [← htu, ht] at hu
    simp at hu
  obtain ⟨state, ret, hloop, hret, hnew, hstate⟩ := mergeLoop_spec (h.sorted .pendingTasks rfl)
    (fun q hq => ⟨idle, h.idle_mem, hpos q hq⟩) hnodup
  have hlists : ∀ ready L, (s.withReady ready [] state).lists L =
      if L = .pendingTasks then [] else if L = .readyToRun then ready else s.lists L := by
    intro ready L
    rw [withReady_lists, update_apply, update_apply]
  refine ⟨state, ret, by rw [mergePending, hloop]; rfl, ?_, ?_, ?_, ?_, ?_, h.idlePriority, ?_⟩
  · intro L hL
    rw [hlists]
    split_ifs
    · exact Pairwise.nil
    · exact sorted_insertAll (h.sorted .readyToRun rfl)
    · exact h.sorted L hL
  · intro L hL t ht hne
    rw [hlists] at ht
    split_ifs at ht with h₁ h₂
    · simp at ht
    · rcases mem_insertAll.mp ht with ht | ht
      · exact h.positive .pendingTasks rfl t ht hne
      · exact h.positive .readyToRun rfl t ht hne
    · exact h.positive L hL t ht hne
  · intro L
    rw [hlists]
    split_ifs
    · exact nodup_nil
    · exact (insertAll_perm _ _ _).nodup_iff.mpr hnodup
    · exact h.nodup L
  · intro t L
    have hlist : (state t).list =
        if t ∈ s.lists .pendingTasks then some .readyToRun else (s.taskState t).list := by
      rw [hstate]
      split_ifs with _ _ hhead
      · rfl
      · rfl
      · exact ((h.mem_iff t _).mp (mem_of_mem_head? hhead.2)).symm
      · rfl
    have hmem := h.mem_iff t
    rw [withReady_taskState]
    grind [mem_insertAll]
  · exact getLast?_insertAll h.idleLast hpos
  · intro t
    have hrun := h.running_iff t
    rw [withReady_taskState]
    grind

/-- **Releasing the pending tasks** inserts them into the ready-to-run list in their
order. -/
theorem releasePending_spec (h : Consistent idle s) :
    ∃ s', s.releasePending = some s' ∧ Consistent idle s' ∧ Moved s s' ∧
      s'.lists = update (update s.lists .readyToRun
        (insertAll s.schedPriority (s.lists .pendingTasks) (s.lists .readyToRun)))
        .pendingTasks [] := by
  by_cases hnil : s.lists .pendingTasks = []
  · refine ⟨s, if_pos hnil, h, ⟨rfl, rfl, rfl, rfl⟩, ?_⟩
    rw [hnil, insertAll_nil, update_eq_self, ← hnil, update_eq_self]
  · obtain ⟨state, ret, hmerge, hcons⟩ := mergePending_consistent h
    exact ⟨_, by rw [releasePending, if_neg hnil, hmerge]; rfl, hcons, ⟨rfl, rfl, rfl, rfl⟩, rfl⟩

omit [DecidableEq τ] in
theorem foldlM_addPrioritized (qs : List τ) (hqs : ∀ q ∈ qs, priorityMin ≤ s.schedPriority q) :
    qs.foldlM (fun s q => (s.addPrioritized q .readyToRun).map Prod.fst) s =
      some (s.setList .readyToRun
        (insertAll s.schedPriority qs (s.lists .readyToRun))) := by
  induction qs generalizing s with
  | nil => simp [setList]
  | cons q qs ih =>
    obtain ⟨hq, hqs⟩ := forall_mem_cons.mp hqs
    rw [foldlM_cons, addPrioritized, if_pos hq]
    exact (ih (s := s.setList .readyToRun _) hqs).trans (by simp [setList])

/-- **Merging the pending tasks is inserting them one by one** with `sched_addprioritized`. The
tasks that are merged, and the one displaced from the head of the list, get the states of their
places; `g_pendingtasks` is empty afterwards, and the result says whether the head has changed. -/
theorem mergePending_inserts (idle : τ) (s : Sched τ)
    (hlast : (s.lists .readyToRun).getLast? = some idle) (hidle : s.schedPriority idle = 0)
    (hsorted : PrioList.Sorted s.schedPriority (s.lists .pendingTasks))
    (hpositive : ∀ q ∈ s.lists .pendingTasks, priorityMin ≤ s.schedPriority q)
    (hnodup : (s.lists .pendingTasks ++ s.lists .readyToRun).Nodup) :
    ∃ s' ret, s.mergePending = some (s', ret) ∧
      (s.lists .pendingTasks).foldlM
          (fun s q => (s.addPrioritized q .readyToRun).map Prod.fst) s =
        some (s.setList .readyToRun (s'.lists .readyToRun)) ∧
      s'.lists .pendingTasks = [] ∧
      (ret = true ↔ (s'.lists .readyToRun).head? ≠ (s.lists .readyToRun).head?) ∧
      ∀ t, s'.taskState t =
        if t ∈ s.lists .pendingTasks then
          if (s'.lists .readyToRun).head? = some t then .running else .readyToRun
        else if ret = true ∧ (s.lists .readyToRun).head? = some t then .readyToRun
        else s.taskState t := by
  have hlow : ∀ q ∈ s.lists .pendingTasks, ∃ r ∈ s.lists .readyToRun,
      s.schedPriority r < s.schedPriority q :=
    fun q hq => ⟨idle, mem_of_getLast? hlast, by rw [hidle]; exact hpositive q hq⟩
  obtain ⟨state, ret, hloop, hret, -, hstate⟩ := mergeLoop_spec hsorted hlow hnodup
  exact ⟨s.withReady _ [] state, ret, by rw [mergePending, hloop]; rfl,
    foldlM_addPrioritized _ hpositive, rfl, hret, hstate⟩

/-- Tasks of the priorities of their numbers: two of them are pending, and one outranks the
running task. -/
def twoPending : Sched ℕ where
  schedPriority := id
  taskState t := if t = 2 then .running else if t = 0 then .readyToRun else .pending
  lockcount _ := 0
  roundRobin _ := false
  timeslice _ := 0
  lists
    | .readyToRun => [2, 0]
    | .pendingTasks => [3, 1]
    | _ => []

theorem mergePending_inserts_two : ∃ s' ret, twoPending.mergePending = some (s', ret) ∧
    s'.lists .pendingTasks = [] ∧ (ret = true ↔ (s'.lists .readyToRun).head? ≠ some 2) :=
  have ⟨s', ret, hmerge, _, hnil, hret, _⟩ := mergePending_inserts 0 twoPending rfl rfl
    (by unfold PrioList.Sorted; decide) (by decide) (by decide)
  ⟨s', ret, hmerge, hnil, hret⟩

/-- **Taking a task out of the ready-to-run list** makes the next one run if it was
the running task. -/
theorem removeReadyToRun_spec (h : Consistent idle s) (ht : t ∈ s.lists .readyToRun)
    (hidle : t ≠ idle) :
    ∃ s', s.removeReadyToRun t = some (s', decide ((s.lists .readyToRun).head? = some t)) ∧
      Consistent idle s' ∧ Moved s s' ∧ s'.taskState t = .invalid ∧
      s'.lists = update s.lists .readyToRun ((s.lists .readyToRun).erase t) := by
  by_cases hhead : (s.lists .readyToRun).head? = some t
  · obtain ⟨n, rest, hready⟩ := h.ready_eq_cons_cons hidle hhead
    refine ⟨_, ?_, h.detachRunning hready, ⟨rfl, rfl, rfl, rfl⟩, by simp, rfl⟩
    rw [removeReadyToRun, if_pos hhead, decide_eq_true hhead, hready]
    rfl
  · refine ⟨_, ?_, h.detachReady ht hidle hhead, ⟨rfl, rfl, rfl, rfl⟩, by simp, rfl⟩
    rw [removeReadyToRun, if_neg hhead, decide_eq_false hhead]

/-- How a task is put into a list: behind its priority, or at the end. -/
def enqueue (L : TList) (prio : τ → ℕ) (t : τ) (l : List τ) : List τ :=
  if L.prioritized then insert prio t l else l ++ [t]

/-- **Adding a task to the list of a blocked state.** -/
theorem addBlocked_spec {σ : TState} {L : TList} (h : Consistent idle s)
    (ht : s.taskState t = .invalid) (hp : priorityMin ≤ s.schedPriority t)
    (hσ : σ.isBlocked) (hL : σ.list = some L) :
    ∃ s', s.addBlocked t σ = some s' ∧ Consistent idle s' ∧ Moved s s' ∧
      s'.lists = update s.lists L (enqueue L s.schedPriority t (s.lists L)) := by
  have hready : L ≠ .readyToRun := by
    rintro rfl
    revert hσ hL
    cases σ <;> simp [isBlocked, list]
  by_cases hprio : L.prioritized
  · rw [enqueue, if_pos hprio]
    refine ⟨_, by simp [addBlocked, hσ, hL, hprio, addPrioritized, hp],
      h.attach ht hL hready (insert_perm _ _ _)
        fun hc => ⟨sorted_insert (h.sorted _ hc), hp⟩, ⟨rfl, rfl, rfl, rfl⟩, rfl⟩
  · rw [enqueue, if_neg hprio]
    exact ⟨_, by simp [addBlocked, hσ, hL, hprio],
      h.attach ht hL hready (perm_append_singleton _ _) fun hc => absurd hc hprio,
      ⟨rfl, rfl, rfl, rfl⟩, rfl⟩

/-- **Taking a task out of the list of its blocked state.** -/
theorem removeBlocked_spec {L : TList} (h : Consistent idle s)
    (hσ : (s.taskState t).isBlocked) (hL : (s.taskState t).list = some L) :
    ∃ s', s.removeBlocked t = some s' ∧ Consistent idle s' ∧ Moved s s' ∧
      s'.taskState t = .invalid ∧
      s'.lists = update s.lists L ((s.lists L).erase t) := by
  have hready : L ≠ .readyToRun := by
    rintro rfl
    revert hσ hL
    cases s.taskState t <;> simp [isBlocked, list]
  exact ⟨_, by simp [removeBlocked, hσ, hL], h.detach ((h.mem_iff t L).mpr hL) hready,
    ⟨rfl, rfl, rfl, rfl⟩, by simp, rfl⟩

end Functions

end GreenboneFeeder.Sched
