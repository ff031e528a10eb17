import GreenboneFeeder.Sched.Runs

/-!
# Pre-emption disabled

A task that has called `sched_lock` keeps the processor until it blocks or calls `sched_unlock`:
`sched_addreadytorun` puts aside every task that would pre-empt it, and its time slice does not
expire. But `sched_setpriority` does not look at `lockcount` when it is applied to the running task
itself: a priority that is not above the one of the next task switches to that task. This is the
only exception (`Sched.locked_runs_iff`).
-/

namespace GreenboneFeeder.Sched

open Function Option List PrioList

variable {τ : Type*} {r t n : τ} {s s' : Sched τ} {L : TList} {b : Bool} {rrTicks : ℕ}

/-- **The task `r` runs with pre-emption disabled**: it is at the head of the ready-to-run list and
in no other place of the lists of tasks that can run, and only it has the state
`TSTATE_TASK_RUNNING`. -/
structure LockedBy (r : τ) (s : Sched τ) : Prop where
  ready : ∃ rest, s.lists .readyToRun = r :: rest ∧ r ∉ rest
  notMem_pending : r ∉ s.lists .pendingTasks
  running_iff : ∀ t, s.taskState t = .running ↔ t = r
  lockcount_pos : 0 < s.lockcount r

/-- Every state that operations not applied to the idle task lead to, and whose running task has
disabled pre-emption, is such a state. -/
theorem lockedBy_of_run [DecidableEq τ] {idle : τ} {s₀ : Sched τ} (ops : List (Op τ))
    (hboot : Boot idle s₀) (hops : ∀ op ∈ ops, op.target ≠ some idle)
    (hrun : Run.run (step rrTicks) s₀ ops = some s)
    (hhead : (s.lists .readyToRun).head? = some r) (hlock : 0 < s.lockcount r) : LockedBy r s := by
  obtain ⟨h, -⟩ := consistent_of_run ops hboot hops hrun
  have hrunning := (h.running_iff r).mpr hhead
  refine ⟨?_, fun hmem => ?_, fun t => ?_, hlock⟩
  · obtain ⟨rest, hready⟩ := head?_eq_some_iff.mp hhead
    have hnodup := h.nodup .readyToRun
    rw [hready] at hnodup
    exact ⟨rest, hready, (nodup_cons.mp hnodup).1⟩
  · have hlist := (h.mem_iff r .pendingTasks).mp hmem
    rw [hrunning] at hlist
    exact absurd hlist (by simp [TState.list])
  · rw [h.running_iff, hhead, some.injEq]
    exact eq_comm

/-! ### Updates of the other tasks -/

section Updates

theorem LockedBy.head (h : LockedBy r s) : (s.lists .readyToRun).head? = some r := by
  obtain ⟨rest, hready, -⟩ := h.ready
  rw [hready]
  rfl

theorem LockedBy.running (h : LockedBy r s) : s.taskState r = .running := (h.running_iff r).mpr rfl

theorem LockedBy.ne (h : LockedBy r s) (ht : s.taskState t ≠ .running) : t ≠ r :=
  fun hc => ht ((h.running_iff t).mpr hc)

variable [DecidableEq τ]

variable (h : LockedBy r s)

include h

theorem LockedBy.setPrio (t : τ) (p : ℕ) : LockedBy r (s.setPrio t p) :=
  { h with }

theorem LockedBy.setTimeslice (t : τ) (k : ℕ) :
    LockedBy r (s.setTimeslice t k) :=
  { h with }

theorem LockedBy.setState (ht : t ≠ r) {σ : TState} (hσ : σ ≠ .running) :
    LockedBy r (s.setState t σ) := by
  refine { h with running_iff := fun u => ?_ }
  by_cases hu : u = t
  · subst hu
    simp [setState_taskState, hσ, ht]
  · simpa [setState_taskState, hu] using h.running_iff u

theorem LockedBy.dqRem (ht : t ≠ r) (L : TList) : LockedBy r (s.dqRem t L) := by
  obtain ⟨rest, hready, hrest⟩ := h.ready
  refine ⟨?_, ?_, h.running_iff, h.lockcount_pos⟩
  · by_cases hL : L = .readyToRun
    · subst hL
      refine ⟨rest.erase t, ?_, fun hc => hrest (mem_of_mem_erase hc)⟩
      rw [dqRem_lists, update_self, hready, erase_cons_tail (by simpa using ht.symm)]
    · exact ⟨rest, by rw [dqRem_lists, update_of_ne (Ne.symm hL), hready], hrest⟩
  · by_cases hL : L = .pendingTasks
    · subst hL
      exact fun hc => h.notMem_pending (mem_of_mem_erase hc)
    · rw [dqRem_lists, update_of_ne (Ne.symm hL)]
      exact h.notMem_pending

omit [DecidableEq τ] in
/-- Another task is put into a list; it does not outrank the running task if that is the
ready-to-run list. -/
theorem LockedBy.addPrioritized (ht : t ≠ r)
    (hle : L = .readyToRun → s.schedPriority t ≤ s.schedPriority r)
    (hs : s.addPrioritized t L = some (s', b)) :
    LockedBy r s' ∧ (L = .readyToRun → b = false) := by
  obtain ⟨rest, hready, hrest⟩ := h.ready
  obtain ⟨-, hs⟩ := ite_none_right_eq_some.mp hs
  cases hs
  have hmem : ∀ l : List τ, r ∈ insert s.schedPriority t l → r ∈ l := fun l hr =>
    (mem_cons.mp ((insert_perm _ t l).mem_iff.mp hr)).resolve_left ht.symm
  by_cases hL : L = .readyToRun
  · subst hL
    have hinsert : insert s.schedPriority t ([r] ++ rest) =
        [r] ++ insert s.schedPriority t rest :=
      insert_append fun u hu => by
        rw [mem_singleton.mp hu]
        exact hle rfl
    refine ⟨{ h with ready := ⟨insert s.schedPriority t rest, ?_, fun hr => hrest (hmem rest hr)⟩ },
      fun _ => ?_⟩
    · rw [hready]
      exact hinsert
    · rw [hready, isEmpty_eq_false_iff, Ne, ahead_eq_nil_iff]
      exact Nat.not_lt.mpr (hle rfl)
  · refine ⟨⟨⟨rest, ?_, hrest⟩, ?_, h.running_iff, h.lockcount_pos⟩, fun hc => absurd hc hL⟩
    · rw [setList_lists, update_of_ne (Ne.symm hL), hready]
    · by_cases hp : L = .pendingTasks
      · subst hp
        exact fun hr => h.notMem_pending (hmem _ hr)
      · rw [setList_lists, update_of_ne (Ne.symm hp)]
        exact h.notMem_pending

/-- **`sched_addreadytorun` does not pre-empt the running task**: a task that would is put aside. -/
theorem LockedBy.addReadyToRun (ht : t ≠ r)
    (hs : s.addReadyToRun t = some (s', b)) : LockedBy r s' ∧ b = false := by
  rw [Sched.addReadyToRun, h.head] at hs
  obtain ⟨rtcb, hr, hs⟩ := bind_eq_some_iff.mp hs
  cases hr
  split at hs
  · obtain ⟨⟨s₁, b₁⟩, hadd, hs⟩ := bind_eq_some_iff.mp hs
    obtain ⟨h₁, -⟩ := h.addPrioritized ht (fun hc => absurd hc (by decide)) hadd
    cases hs
    exact ⟨h₁.setState ht (by simp), rfl⟩
  · next hcond =>
    have hle : s.schedPriority t ≤ s.schedPriority r := by
      by_contra hlt
      exact hcond ⟨h.lockcount_pos.ne', Nat.lt_of_not_le hlt⟩
    obtain ⟨⟨s₁, b₁⟩, hadd, hs⟩ := bind_eq_some_iff.mp hs
    obtain ⟨h₁, hb⟩ := h.addPrioritized ht (fun _ => hle) hadd
    obtain rfl := hb rfl
    cases hs
    exact ⟨h₁.setState ht (by simp), rfl⟩

theorem LockedBy.removeReadyToRun (ht : t ≠ r)
    (hs : s.removeReadyToRun t = some (s', b)) : LockedBy r s' ∧ b = false := by
  rw [Sched.removeReadyToRun, if_neg (by rw [h.head]; exact fun hc => ht (some.inj hc).symm)]
    at hs
  cases hs
  exact ⟨(h.dqRem ht _).setState ht (by simp), rfl⟩

end Updates

/-! ### The operations -/

section Operations

variable [DecidableEq τ]

/-- The running task neither blocks nor enables pre-emption; from the interrupt level `sched_unlock`
has no effect. -/
def Stays : Op τ → Prop
  | .block _ _ => False
  | .unlock interrupt => interrupt = true
  | _ => True

/-- **The exception**: `sched_setpriority` gives the running task a valid priority that is not above
the one of the next task. -/
def Yields (r : τ) (s : Sched τ) : Op τ → Prop
  | .setPriority tcb p =>
      tcb = r ∧ priorityMin ≤ p ∧ p ≤ priorityMax ∧
        ∃ n ∈ (s.lists .readyToRun).tail.head?, p ≤ s.schedPriority n
  | _ => False

section

variable (h : LockedBy r s)

include h

theorem LockedBy.dropWhile_ready :
    (s.lists .readyToRun).dropWhile (· ≠ r) = s.lists .readyToRun := by
  obtain ⟨rest, hready, -⟩ := h.ready
  rw [hready, dropWhile_cons_of_neg (by simp)]

theorem LockedBy.unblockTask (hs : s.unblockTask rrTicks t = some s') : LockedBy r s' := by
  rw [Sched.unblockTask] at hs
  split at hs
  · next hblocked =>
    have ht : t ≠ r := h.ne fun hc => by
      rw [hc] at hblocked
      exact absurd hblocked (by simp [TState.isBlocked])
    obtain ⟨s₁, hrem, hs⟩ := bind_eq_some_iff.mp hs
    obtain ⟨⟨s₂, b⟩, hadd, hs⟩ := bind_eq_some_iff.mp hs
    have h₁ : LockedBy r s₁ := by
      rw [removeBlocked] at hrem
      split at hrem
      · cases hrem
        exact (h.dqRem ht _).setState ht (by simp)
      · cases hrem
    cases hs
    exact ((h₁.setTimeslice t rrTicks).addReadyToRun ht hadd).1
  · cases hs

theorem LockedBy.reprioritizeRtr {p : ℕ} (ht : t ≠ r)
    (hs : s.reprioritizeRtr t p = some s') : LockedBy r s' := by
  obtain ⟨-, hs⟩ := ite_none_right_eq_some.mp hs
  obtain ⟨⟨s₁, b₁⟩, hrem, hs⟩ := bind_eq_some_iff.mp hs
  obtain ⟨⟨s₂, b₂⟩, hadd, hs⟩ := bind_eq_some_iff.mp hs
  obtain ⟨h₁, rfl⟩ := h.removeReadyToRun ht hrem
  obtain ⟨h₂, rfl⟩ := (h₁.setPrio t p).addReadyToRun ht hadd
  cases hs
  exact h₂

theorem LockedBy.setPriority {q : ℤ}
    (hs : s.setPriority t q = some (s', b)) (hy : ¬Yields r s (.setPriority t q)) :
    LockedBy r s' := by
  rw [Sched.setPriority] at hs
  split at hs
  · cases hs
    exact h
  next hvalid =>
  split at hs
  · next hstate =>
    -- the running task: its new priority is above the one of the next task
    obtain rfl := (h.running_iff t).mp hstate
    rw [h.dropWhile_ready] at hs
    split at hs
    · cases hs
    next flink hflink =>
    rw [if_neg fun hle => hy ⟨rfl, by omega, by omega, flink, hflink, by omega⟩] at hs
    cases hs
    exact h.setPrio _ _
  · next hstate =>
    have ht : t ≠ r := h.ne (by rw [hstate]; simp)
    obtain ⟨rtcb, -, hs⟩ := bind_eq_some_iff.mp hs
    split at hs
    · obtain ⟨s₁, hset, hs⟩ := bind_eq_some_iff.mp hs
      cases hs
      exact h.reprioritizeRtr ht hset
    · obtain ⟨⟨s₁, b₁⟩, hrem, hs⟩ := bind_eq_some_iff.mp hs
      obtain ⟨h₁, rfl⟩ := h.removeReadyToRun ht hrem
      obtain ⟨⟨s₂, b₂⟩, hadd, hs⟩ := bind_eq_some_iff.mp hs
      obtain ⟨h₂, rfl⟩ := (h₁.setPrio t _).addReadyToRun ht hadd
      cases hs
      exact h₂
  · next hrunning hready =>
    have ht : t ≠ r := h.ne hrunning
    split at hs
    · cases hs
      exact h.setPrio _ _
    · next L hL =>
      have hne : L ≠ .readyToRun := by
        rintro rfl
        revert hL hrunning hready
        cases s.taskState t <;> simp [TState.list]
      split at hs
      · obtain ⟨s₁, hset, hs⟩ := bind_eq_some_iff.mp hs
        cases hs
        obtain ⟨⟨s₂, b₂⟩, hadd, rfl⟩ := map_eq_some_iff.mp hset
        exact (((h.dqRem ht L).setPrio t _).addPrioritized ht (fun hc => absurd hc hne) hadd).1
      · cases hs
        exact h.setPrio _ _

theorem LockedBy.lock {interrupt : Bool} (hs : s.lock interrupt = some s') :
    LockedBy r s' := by
  rw [Sched.lock, h.head] at hs
  dsimp only at hs
  split_ifs at hs
  · cases hs
    exact h
  · cases hs
    refine { h with lockcount_pos := ?_ }
    rw [setLockcount_lockcount, update_self]
    exact Nat.succ_pos _

theorem LockedBy.processTimeslice (hs : s.processTimeslice rrTicks = some s') : LockedBy r s' := by
  rw [Sched.processTimeslice, h.head] at hs
  obtain ⟨rtcb, hr, hs⟩ := bind_eq_some_iff.mp hs
  cases hr
  split_ifs at hs with _ _ hlock
  · exact absurd hlock h.lockcount_pos.ne'
  · cases hs
    exact h
  · cases hs
    exact h.setTimeslice _ _
  · cases hs
    exact h

/-- **One operation** that is not the exception leaves the running task where it is. -/
theorem LockedBy.step {op : Op τ} (hstay : Stays op)
    (hy : ¬Yields r s op) (hs : step rrTicks s op = some s') : LockedBy r s' := by
  cases op with
  | block tcb σ => exact hstay.elim
  | unblock tcb => exact h.unblockTask hs
  | setPriority tcb q =>
    obtain ⟨⟨s₁, b⟩, hset, rfl⟩ := map_eq_some_iff.mp hs
    exact h.setPriority hset hy
  | lock interrupt => exact h.lock hs
  | unlock interrupt =>
    obtain rfl : interrupt = true := hstay
    rw [Sched.step, unlock, h.head] at hs
    cases hs
    exact h
  | timeslice => exact h.processTimeslice hs

end

/-! ### The exception -/

theorem head?_mergeLoop {prio : τ → ℕ} :
    ∀ (pending ahead rest : List τ) (state : τ → TState) (ret : Bool)
      {res : List τ × (τ → TState) × Bool},
      r ∉ pending → (ahead ++ rest).head? ≠ some r →
      mergeLoop prio pending ahead rest state ret = some res → res.1.head? ≠ some r
  | [], ahead, rest, state, ret, res, _, hhead, hs => by
    cases hs
    exact hhead
  | pndtcb :: pndnext, ahead, rest, state, ret, res, hmem, hhead, hs => by
    have hpnd : r ≠ pndtcb := fun hc => hmem (hc ▸ mem_cons_self)
    have hnext : r ∉ pndnext := fun hc => hmem (mem_cons_of_mem _ hc)
    rw [mergeLoop] at hs
    split at hs
    · cases hs
    next rtrtcb rest' hbehind =>
    split_ifs at hs with hprev
    · refine head?_mergeLoop pndnext _ _ _ _ hnext (fun hc => ?_) hs
      exact hpnd (some.inj hc).symm
    · refine head?_mergeLoop pndnext _ _ _ _ hnext ?_ hs
      -- the walk has passed the head, which stays in front
      obtain ⟨a, prev, hcons⟩ := exists_cons_of_ne_nil hprev
      have hall := ahead_append_behind prio (prio pndtcb) rest
      rw [← hall, ← append_assoc, hcons] at hhead
      rw [hcons]
      exact hhead

theorem head?_releasePending (hmem : r ∉ s.lists .pendingTasks)
    (hhead : (s.lists .readyToRun).head? ≠ some r) (hs : s.releasePending = some s') :
    (s'.lists .readyToRun).head? ≠ some r := by
  rw [releasePending] at hs
  split at hs
  · cases hs
    exact hhead
  · obtain ⟨⟨s₁, b⟩, hmerge, rfl⟩ := map_eq_some_iff.mp hs
    obtain ⟨⟨ready, state, ret⟩, hloop, hmerge⟩ := bind_eq_some_iff.mp hmerge
    cases hmerge
    exact head?_mergeLoop _ _ _ _ _ hmem hhead hloop

theorem addReadyToRun_behind (hn : (s.lists .readyToRun).head? = some n)
    (hle : s.schedPriority t ≤ s.schedPriority n) (hs : s.addReadyToRun t = some (s', b)) :
    b = false ∧ (s'.lists .readyToRun).head? = some n ∧
      s'.lists .pendingTasks = s.lists .pendingTasks := by
  obtain ⟨rest, hready⟩ := head?_eq_some_iff.mp hn
  have hahead : ahead s.schedPriority (s.schedPriority t) (s.lists .readyToRun) ≠ [] := by
    rw [hready, Ne, ahead_eq_nil_iff]
    exact Nat.not_lt.mpr hle
  rw [Sched.addReadyToRun, hn] at hs
  obtain ⟨rtcb, hr, hs⟩ := bind_eq_some_iff.mp hs
  cases hr
  rw [if_neg fun hc => absurd hc.2 (Nat.not_lt.mpr hle), Sched.addPrioritized] at hs
  split at hs
  · rw [isEmpty_eq_false_iff.mpr hahead] at hs
    cases hs
    refine ⟨rfl, ?_, rfl⟩
    rw [setState_lists, setList_lists, update_self, head?_insert_of_ahead_ne_nil hahead, hn]
  · cases hs

/-- The running task gets a priority that is not above the one of the next task. -/
theorem LockedBy.head?_reprioritizeRtr {p : ℕ} (h : LockedBy r s)
    (hn : (s.lists .readyToRun).tail.head? = some n) (hp : p ≤ s.schedPriority n)
    (hs : s.reprioritizeRtr r p = some s') : (s'.lists .readyToRun).head? ≠ some r := by
  obtain ⟨rest, hready, hrest⟩ := h.ready
  rw [hready] at hn
  obtain ⟨rest', rfl⟩ := head?_eq_some_iff.mp hn
  have hne : n ≠ r := fun hc => hrest (hc ▸ mem_cons_self)
  rw [Sched.reprioritizeRtr] at hs
  split at hs
  · next hvalid =>
    obtain ⟨⟨s₁, b₁⟩, hrem, hs⟩ := bind_eq_some_iff.mp hs
    obtain ⟨⟨s₂, b₂⟩, hadd, hs⟩ := bind_eq_some_iff.mp hs
    rw [Sched.removeReadyToRun, if_pos h.head, hready] at hrem
    cases hrem
    obtain ⟨rfl, hhead, hpending⟩ :=
        addReadyToRun_behind (n := n) (by simp [hready]) (by simpa [hne]) hadd
    refine head?_releasePending ?_ ?_ hs
    · rw [hpending]
      exact h.notMem_pending
    · rw [hhead]
      exact fun hc => hne (some.inj hc)
  · cases hs

theorem LockedBy.head?_of_yields {op : Op τ} (h : LockedBy r s) (hy : Yields r s op)
    (hs : Sched.step rrTicks s op = some s') : (s'.lists .readyToRun).head? ≠ some r := by
  cases op with
  | setPriority tcb q =>
    obtain ⟨rfl, hmin, hmax, n, hn, hle⟩ := hy
    obtain ⟨⟨s₁, b⟩, hset, rfl⟩ := map_eq_some_iff.mp hs
    rw [Sched.setPriority, if_neg (by omega), h.running] at hset
    rw [h.dropWhile_ready, hn] at hset
    dsimp only at hset
    rw [if_pos (by omega)] at hset
    obtain ⟨s₂, hrtr, hs₂⟩ := bind_eq_some_iff.mp hset
    cases hs₂
    exact h.head?_reprioritizeRtr hn (by omega) hrtr
  | _ => exact hy.elim

end Operations

/-- **A task with pre-emption disabled keeps the processor exactly as long as it does not lower its
own priority to the one of the next task**: along every sequence of operations in which it neither
blocks nor enables pre-emption, it stays at the head if and only if no operation that returns is the
exception. -/
theorem locked_runs_iff [DecidableEq τ] (rrTicks : ℕ) (r : τ) (ops : List (Op τ)) (s : Sched τ)
    (h : LockedBy r s) (hops : ∀ op ∈ ops, Stays op) :
    Run.AllSteps (step rrTicks)
        (fun s op => ∀ s', step rrTicks s op = some s' → (s'.lists .readyToRun).head? = some r) s
          ops ↔
      Run.AllSteps (step rrTicks)
        (fun s op => ∀ s', step rrTicks s op = some s' → ¬Yields r s op) s ops := by
  induction ops generalizing s with
  | nil => exact .rfl
  | cons op ops ih =>
    have hstay := hops op mem_cons_self
    rw [Run.allSteps_cons, Run.allSteps_cons]
    cases hs : step rrTicks s op with
    | none => simp
    | some s' =>
      by_cases hy : Yields r s op
      · -- the exception: both sides fail here
        have hhead := h.head?_of_yields hy hs
        exact ⟨fun hl => absurd (hl.1 s' rfl) hhead, fun hr => absurd hy (hr.1 s' rfl)⟩
      · have h' := h.step hstay hy hs
        have hrest := ih s' h' fun op hop => hops op (mem_cons_of_mem _ hop)
        constructor
        · rintro ⟨-, hl⟩
          exact ⟨fun _ _ => hy, fun s'' hs'' => by cases hs''; exact hrest.mp (hl s' rfl)⟩
        · rintro ⟨-, hr⟩
          exact ⟨fun s'' hs'' => by cases hs''; exact h'.head,
            fun s'' hs'' => by cases hs''; exact hrest.mpr (hr s' rfl)⟩

/-- The task of priority 10 has disabled pre-emption; another task gets a higher priority, and the
timer interrupt comes. -/
theorem locked_runs_over_raised :
    ∃ s, Run.run (step 20) threeTasks [.unblock 1, .unblock 2, .lock false] = some s ∧
      (Run.AllSteps (step 20)
          (fun s op => ∀ s', step 20 s op = some s' → (s'.lists .readyToRun).head? = some 1) s
          [.setPriority 2 50, .timeslice] ↔
        Run.AllSteps (step 20) (fun s op => ∀ s', step 20 s op = some s' → ¬Yields 1 s op) s
          [.setPriority 2 50, .timeslice]) := by
  refine ⟨_, rfl, ?_⟩
  have hlocked := lockedBy_of_run (r := 1) [.unblock 1, .unblock 2, .lock false] threeTasks_boot
    (by simp [Op.target]) (rfl : Run.run (step 20) threeTasks _ = some _) (by decide) (by decide)
  refine locked_runs_iff 20 1 [.setPriority 2 50, .timeslice] _ hlocked fun op hop => ?_
  rcases mem_cons.mp hop with rfl | hop
  · trivial
  · rw [mem_singleton.mp hop]
    trivial

/-- **Pre-emption is disabled, and the running task loses the processor**: it lowers its own
priority from 10 to 2, and the task of priority 3 runs. -/
theorem locked_task_yields :
    ∃ s s', Run.run (step 20) threeTasks [.unblock 1, .unblock 2, .lock false] = some s ∧
      (s.lists .readyToRun).head? = some 1 ∧ s.lockcount 1 = 1 ∧
      step 20 s (.setPriority 1 2) = some s' ∧
      (s'.lists .readyToRun).head? = some 2 ∧ s'.lockcount 1 = 1 := by
  refine ⟨_, _, rfl, ?_, ?_, rfl, ?_, ?_⟩ <;> decide

end GreenboneFeeder.Sched
