import GreenboneFeeder.Lib.PrioList
import Mathlib.Tactic.Common

/-!
# The task lists of the scheduler

Every task control block is linked into one list at a time, and its `task_state` says which. This
file has the state of the scheduler and the functions of `sched/sched` that move a task control
block in and out of a list. A doubly linked list of the source is here the list of the tasks from
head to tail, and the fields of the task control blocks are functions of the task. There is no
result when an `ASSERT` fails or at a `PANIC`.
-/

namespace GreenboneFeeder

open Function

namespace Sched

/-! ### Task states and their lists -/

/-- `tstate_t`, in the configuration with signals, message queues and paging. -/
inductive TState where
  | invalid
  | pending
  | readyToRun
  | running
  | inactive
  | waitSem
  | waitSig
  | waitMqNotEmpty
  | waitMqNotFull
  | waitPageFill
  deriving DecidableEq, Repr

/-- The lists of `os_start.c`. -/
inductive TList where
  | readyToRun
  | pendingTasks
  | inactiveTasks
  | waitingForSemaphore
  | waitingForSignal
  | waitingForMqNotEmpty
  | waitingForMqNotFull
  | waitingForFill
  deriving DecidableEq, Repr

/-- The column `list` of `g_tasklisttable`. -/
def TState.list : TState → Option TList
  | .invalid => none
  | .pending => some .pendingTasks
  | .readyToRun => some .readyToRun
  | .running => some .readyToRun
  | .inactive => some .inactiveTasks
  | .waitSem => some .waitingForSemaphore
  | .waitSig => some .waitingForSignal
  | .waitMqNotEmpty => some .waitingForMqNotEmpty
  | .waitMqNotFull => some .waitingForMqNotFull
  | .waitPageFill => some .waitingForFill

/-- The column `prioritized` of `g_tasklisttable`, as a property of the list. -/
def TList.prioritized : TList → Bool
  | .readyToRun => true
  | .pendingTasks => true
  | .inactiveTasks => false
  | .waitingForSemaphore => true
  | .waitingForSignal => false
  | .waitingForMqNotEmpty => true
  | .waitingForMqNotFull => true
  | .waitingForFill => true

/-- From `FIRST_READY_TO_RUN_STATE` to `LAST_READY_TO_RUN_STATE`. -/
def TState.isReady : TState → Bool
  | .readyToRun => true
  | .running => true
  | _ => false

/-- From `FIRST_BLOCKED_STATE` to `LAST_BLOCKED_STATE`. -/
def TState.isBlocked : TState → Bool
  | .invalid => false
  | .pending => false
  | .readyToRun => false
  | .running => false
  | _ => true

/-- `SCHED_PRIORITY_MIN`. -/
def priorityMin : ℕ := 1

/-- `SCHED_PRIORITY_MAX`. -/
def priorityMax : ℕ := 255

/-- `MAX_LOCK_COUNT`. -/
def maxLockCount : ℕ := 127

end Sched

/-- **The state of the scheduler**: the fields of the task control blocks that it
reads and writes, and the task lists. The tasks are an arbitrary type. -/
@[ext]
structure Sched (τ : Type*) where
  schedPriority : τ → ℕ
  taskState : τ → Sched.TState
  lockcount : τ → ℕ
  /-- `TCB_FLAG_ROUND_ROBIN` -/
  roundRobin : τ → Bool
  timeslice : τ → ℕ
  lists : Sched.TList → List τ

namespace Sched

variable {τ : Type*} [DecidableEq τ]

variable (btcb : τ) (t : τ) (n : ℕ) (σ : TState) (L : TList) (s : Sched τ)

@[simps -fullyApplied]
def setState : Sched τ :=
  { s with taskState := update s.taskState t σ }

@[simps -fullyApplied]
def setPrio (p : ℕ) (s : Sched τ) : Sched τ :=
  { s with schedPriority := update s.schedPriority t p }

@[simps -fullyApplied]
def setLockcount : Sched τ :=
  { s with lockcount := update s.lockcount t n }

@[simps -fullyApplied]
def setTimeslice : Sched τ :=
  { s with timeslice := update s.timeslice t n }

@[simps -fullyApplied]
def setList (l : List τ) (s : Sched τ) : Sched τ :=
  { s with lists := update s.lists L l }

/-- `dq_rem`. -/
@[simps -fullyApplied]
def dqRem : Sched τ :=
  { s with lists := update s.lists L ((s.lists L).erase t) }

/-! ### The functions of `sched/sched` -/

/-- `sched_addprioritized`: the task goes in front of the first task of a lower priority. The result
says whether the head of the list has changed. -/
def addPrioritized : Option (Sched τ × Bool) :=
  if priorityMin ≤ s.schedPriority t then
    some (s.setList L (PrioList.insert s.schedPriority t (s.lists L)),
      (PrioList.ahead s.schedPriority (s.schedPriority t) (s.lists L)).isEmpty)
  else none

/-- `sched_addreadytorun`: a task that would pre-empt a task with pre-emption disabled is put aside.
The result says whether the running task has changed. -/
def addReadyToRun : Option (Sched τ × Bool) := do
  let rtcb ← (s.lists .readyToRun).head?
  if s.lockcount rtcb ≠ 0 ∧ s.schedPriority rtcb < s.schedPriority btcb then
    let (s, _) ← s.addPrioritized btcb .pendingTasks
    some (s.setState btcb .pending, false)
  else
    let (s, headChanged) ← s.addPrioritized btcb .readyToRun
    if headChanged then
      -- the assertion on `lockcount` and on `btcb->flink`
      match s.lockcount rtcb, (s.lists .readyToRun).tail.head? with
      | 0, some flink => some ((s.setState btcb .running).setState flink .readyToRun, true)
      | _, _ => none
    else some (s.setState btcb .readyToRun, false)

/-- `sched_removereadytorun`: the task at the head makes room for the next one. -/
def removeReadyToRun (rtcb : τ) (s : Sched τ) : Option (Sched τ × Bool) :=
  if (s.lists .readyToRun).head? = some rtcb then do
    let ntcb ← (s.lists .readyToRun).tail.head?
    some (((s.setState ntcb .running).dqRem rtcb .readyToRun).setState rtcb .invalid, true)
  else
    some ((s.dqRem rtcb .readyToRun).setState rtcb .invalid, false)

/-- The loop of `sched_mergepending`. `ahead` are the tasks in front of the cursor `rtrtcb`, `rest`
those from the cursor on; the cursor is left at the task just inserted. -/
def mergeLoop (prio : τ → ℕ) :
    List τ → List τ → List τ → (τ → TState) → Bool → Option (List τ × (τ → TState) × Bool)
  | [], ahead, rest, state, ret => some (ahead ++ rest, state, ret)
  | pndtcb :: pndnext, ahead, rest, state, ret =>
      let rtrprev := ahead ++ PrioList.ahead prio (prio pndtcb) rest
      match PrioList.behind prio (prio pndtcb) rest with
      | [] => none
      | rtrtcb :: rest' =>
          if rtrprev = [] then
            mergeLoop prio pndnext [] (pndtcb :: rtrtcb :: rest')
              (update (update state rtrtcb .readyToRun) pndtcb .running) true
          else
            mergeLoop prio pndnext rtrprev (pndtcb :: rtrtcb :: rest')
              (update state pndtcb .readyToRun) ret

/-- `sched_mergepending`. -/
def mergePending : Option (Sched τ × Bool) := do
  let (ready, state, ret) ←
    mergeLoop s.schedPriority (s.lists .pendingTasks) [] (s.lists .readyToRun) s.taskState false
  some ((({ s with taskState := state }.setList .readyToRun ready).setList .pendingTasks []), ret)

/-- `sched_addblocked`. -/
def addBlocked : Option (Sched τ) :=
  match σ.isBlocked, σ.list with
  | true, some L =>
      if L.prioritized then do
        let (s, _) ← s.addPrioritized btcb L
        some (s.setState btcb σ)
      else
        some ((s.setList L (s.lists L ++ [btcb])).setState btcb σ)
  | _, _ => none

/-- `sched_removeblocked`. -/
def removeBlocked : Option (Sched τ) :=
  match (s.taskState btcb).isBlocked, (s.taskState btcb).list with
  | true, some L => some ((s.dqRem btcb L).setState btcb .invalid)
  | _, _ => none

end Sched

end GreenboneFeeder
