import GreenboneFeeder.Sched.Lists

/-!
# The operations of the scheduler

What the rest of the kernel does to the task lists: blocking and unblocking a task, changing a
priority, disabling and enabling pre-emption, and the rotation at the end of a time slice. Switching
the processor to the head of the ready-to-run list changes no list, so the registers are left out.
-/

namespace GreenboneFeeder.Sched

variable {τ : Type*} [DecidableEq τ]

variable (rrTicks : ℕ) (tcb : τ) (interrupt : Bool) (s : Sched τ)

/-- What `up_block_task`, `up_reprioritize_rtr` and `sched_unlock` do with the tasks
that were put aside. -/
def releasePending : Option (Sched τ) :=
  if s.lists .pendingTasks = [] then some s else s.mergePending.map Prod.fst

/-- `up_block_task`. -/
def blockTask (σ : TState) (s : Sched τ) : Option (Sched τ) :=
  if (s.taskState tcb).isReady then do
    let (s, _) ← s.removeReadyToRun tcb
    let s ← s.addBlocked tcb σ
    s.releasePending
  else none

/-- `up_unblock_task`, with `MSEC2TICK(CONFIG_RR_INTERVAL)` as `rrTicks`. -/
def unblockTask : Option (Sched τ) :=
  if (s.taskState tcb).isBlocked then do
    let s ← s.removeBlocked tcb
    let (s, _) ← (s.setTimeslice tcb rrTicks).addReadyToRun tcb
    some s
  else none

/-- `up_reprioritize_rtr`. -/
def reprioritizeRtr (priority : ℕ) (s : Sched τ) : Option (Sched τ) :=
  if (s.taskState tcb).isReady ∧ priorityMin ≤ priority then do
    let (s, removed) ← s.removeReadyToRun tcb
    let (s, added) ← (s.setPrio tcb priority).addReadyToRun tcb
    if removed ^^ added then s.releasePending else some s
  else none

/-- `sched_setpriority`. The flag of the result is false for `ERROR`, with `EINVAL`. -/
def setPriority (schedPriority : ℤ) (s : Sched τ) : Option (Sched τ × Bool) :=
  if schedPriority < priorityMin ∨ priorityMax < schedPriority then some (s, false)
  else do
    let p := schedPriority.toNat
    let s ← match s.taskState tcb with
      | .running =>
          match ((s.lists .readyToRun).dropWhile (· ≠ tcb)).tail.head? with
          | none => none
          | some flink =>
              if p ≤ s.schedPriority flink then s.reprioritizeRtr tcb p
              else some (s.setPrio tcb p)
      | .readyToRun => do
          let rtcb ← (s.lists .readyToRun).head?
          if s.schedPriority rtcb < p then s.reprioritizeRtr tcb p
          else do
            let (s, removed) ← s.removeReadyToRun tcb
            -- both calls stand inside an assertion
            if removed then none
            else
              let (s, added) ← (s.setPrio tcb p).addReadyToRun tcb
              if added then none else some s
      | σ =>
          match σ.list with
          | none => some (s.setPrio tcb p)
          | some L =>
              if L.prioritized then
                (((s.dqRem tcb L).setPrio tcb p).addPrioritized tcb L).map Prod.fst
              else some (s.setPrio tcb p)
    some (s, true)

/-- `sched_lock`; it has no effect from the interrupt level. -/
def lock : Option (Sched τ) :=
  match (s.lists .readyToRun).head? with
  | none => some s
  | some rtcb =>
      if interrupt then some s
      else if s.lockcount rtcb < maxLockCount then
        some (s.setLockcount rtcb (s.lockcount rtcb + 1))
      else none

/-- `sched_unlock`; it has no effect from the interrupt level. A time slice that expired meanwhile
starts afresh if the task was pre-empted. -/
def unlock : Option (Sched τ) :=
  match (s.lists .readyToRun).head? with
  | none => some s
  | some rtcb =>
      if interrupt then some s
      else
        let s := s.setLockcount rtcb (s.lockcount rtcb - 1)
        if s.lockcount rtcb = 0 then do
          let s ← s.releasePending
          if s.roundRobin rtcb ∧ s.timeslice rtcb = 0 ∧
              (s.lists .readyToRun).head? ≠ some rtcb then
            some (s.setTimeslice rtcb rrTicks)
          else some s
        else some s

/-- `sched_process_timeslice`: what the timer interrupt does to the running task. -/
def processTimeslice : Option (Sched τ) := do
  let rtcb ← (s.lists .readyToRun).head?
  if s.roundRobin rtcb then
    if s.timeslice rtcb ≤ 1 then
      if s.lockcount rtcb = 0 then
        let s := s.setTimeslice rtcb rrTicks
        match (s.lists .readyToRun).tail.head? with
        | none => some s
        | some flink =>
            if s.schedPriority rtcb ≤ s.schedPriority flink then
              s.reprioritizeRtr rtcb (s.schedPriority rtcb)
            else some s
      else some s
    else some (s.setTimeslice rtcb (s.timeslice rtcb - 1))
  else some s

/-- The operations. -/
inductive Op (τ : Type*) where
  | block (tcb : τ) (σ : TState)
  | unblock (tcb : τ)
  | setPriority (tcb : τ) (schedPriority : ℤ)
  | lock (interrupt : Bool)
  | unlock (interrupt : Bool)
  | timeslice

/-- **One operation**; there is no result when it stops the system. -/
def step : Op τ → Option (Sched τ)
  | .block tcb σ => s.blockTask tcb σ
  | .unblock tcb => s.unblockTask rrTicks tcb
  | .setPriority tcb p => (s.setPriority tcb p).map Prod.fst
  | .lock interrupt => s.lock interrupt
  | .unlock interrupt => s.unlock rrTicks interrupt
  | .timeslice => s.processTimeslice rrTicks

/-- **The operations of the rest of the kernel**: they neither move the tasks that wait
for a semaphore nor change a priority. -/
def Foreign : Op τ → Prop
  | .block _ σ => σ ≠ .waitSem
  | .unblock tcb => s.taskState tcb ≠ .waitSem
  | .setPriority _ _ => False
  | .lock _ => True
  | .unlock _ => True
  | .timeslice => True

instance (s : Sched τ) (op : Op τ) : Decidable (s.Foreign op) :=
  match op with
  | .block _ σ => inferInstanceAs (Decidable (σ ≠ .waitSem))
  | .unblock tcb => inferInstanceAs (Decidable (s.taskState tcb ≠ .waitSem))
  | .setPriority _ _ => isFalse id
  | .lock _ | .unlock _ | .timeslice => isTrue trivial

end GreenboneFeeder.Sched
