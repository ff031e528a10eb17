import GreenboneFeeder.Sched.Ops
import GreenboneFeeder.Lib.Run
import GreenboneFeeder.Lib.Words

/-!
# Semaphores

The semaphores of `sched/semaphore` on top of the scheduler: the count, the list of the holders when
priority inheritance is configured, and what the task control blocks know about a wait. All waiters
share the one prioritized list `g_waitingforsemaphore`, and each names its semaphore in `waitsem`.

A call runs with the interrupts disabled until it returns or the calling task is switched out:
`sem_wait` blocks the task, and `sem_post` may give the task its lower base priority back. What the
call does afterwards is done when the task runs again (`Sem.Kernel.resume`). An interrupt handler is
never switched out. A task that ends the wait of another one can be switched out as well, when it
holds the semaphore itself: it then goes on with a list of holders that may have changed meanwhile,
and there is no result here (`Sem.Kernel.cancelWait`).

The count of a semaphore is an `int16_t` of the source and an integer here: `sem_post` checks it
against `SEM_VALUE_MAX`, and it is negative by the number of the waiters. The count of a holder is
an `int16_t` too, which nothing checks, so it wraps here as it does there.
-/

namespace GreenboneFeeder.Sem

open Function

/-! ### The state -/

/-- The configuration: `CONFIG_PRIORITY_INHERITANCE`, `CONFIG_SEM_NNESTPRIO` and
`MSEC2TICK(CONFIG_RR_INTERVAL)`. -/
structure Config where
  priorityInheritance : Bool
  nnestprio : ℕ
  rrTicks : ℕ

/-- `SEM_VALUE_MAX`. -/
def valueMax : ℤ := 0x7fff

/-- The error codes that `sem_waitirq` is called with. -/
inductive Errno where
  | eintr
  | etimedout
  deriving DecidableEq, Repr

/-- `struct semholder_s`. -/
structure Holder (τ : Type) where
  htcb : τ
  counts : ℤ
  deriving DecidableEq, Repr

/-- What a task that was switched out in a call has still to do of it. -/
inductive Rest (κ : Type) where
  | nothing
  | wait (sem : κ)
  /-- `discard` says whether `sched_reprioritize` has not returned yet -/
  | post (sem : κ) (discard : Bool)
  deriving DecidableEq, Repr

/-- **The state of the kernel**: the scheduler, the semaphores, and the fields of the task control
blocks that the semaphores use. The first `npend_reprio` entries of `pend_reprios` are a list, and
so are the holders of a semaphore; there are enough holder structures. -/
structure Kernel (τ κ : Type) extends Sched τ where
  semcount : κ → ℤ
  holders : κ → List (Holder τ)
  waitsem : τ → Option κ
  /-- `pterrno`, as far as it is set by `sem_waitirq` -/
  errno : τ → Option Errno
  basePriority : τ → ℕ
  pendReprios : τ → List ℕ
  rest : τ → Rest κ

namespace Kernel

variable {τ κ : Type} [DecidableEq τ] [DecidableEq κ]

variable (cfg : Config) (wtcb : τ) (interrupt : Bool) (stcb : Option τ) (sem : κ)

@[simps -fullyApplied toSched semcount holders waitsem errno basePriority
  pendReprios rest]
def setSemcount (n : ℤ) (k : Kernel τ κ) : Kernel τ κ :=
  { k with semcount := update k.semcount sem n }

@[simps -fullyApplied toSched semcount holders waitsem errno basePriority
  pendReprios rest]
def setHolders (l : List (Holder τ)) (k : Kernel τ κ) : Kernel τ κ :=
  { k with holders := update k.holders sem l }

@[simps -fullyApplied toSched semcount holders waitsem errno basePriority
  pendReprios rest]
def setWaitsem (t : τ) (o : Option κ) (k : Kernel τ κ) : Kernel τ κ :=
  { k with waitsem := update k.waitsem t o }

@[simps -fullyApplied toSched semcount holders waitsem errno basePriority
  pendReprios rest]
def setErrno (t : τ) (o : Option Errno) (k : Kernel τ κ) : Kernel τ κ :=
  { k with errno := update k.errno t o }

@[simps -fullyApplied toSched semcount holders waitsem errno basePriority
  pendReprios rest]
def setPend (t : τ) (l : List ℕ) (k : Kernel τ κ) : Kernel τ κ :=
  { k with pendReprios := update k.pendReprios t l }

@[simps -fullyApplied toSched semcount holders waitsem errno basePriority
  pendReprios rest]
def setBase (t : τ) (p : ℕ) (k : Kernel τ κ) : Kernel τ κ :=
  { k with basePriority := update k.basePriority t p }

@[simps -fullyApplied toSched semcount holders waitsem errno basePriority
  pendReprios rest]
def setRest (t : τ) (r : Rest κ) (k : Kernel τ κ) : Kernel τ κ :=
  { k with rest := update k.rest t r }

variable (rtcb : τ) (k : Kernel τ κ)

@[simps -fullyApplied toSched semcount holders waitsem errno basePriority
  pendReprios rest]
def withSched (s : Sched τ) : Kernel τ κ :=
  { k with toSched := s }

/-- An operation of the scheduler. -/
def onSched (f : Sched τ → Option (Sched τ)) : Option (Kernel τ κ) :=
  (f k.toSched).map k.withSched

/-- `g_readytorun.head`. -/
def readyHead : Option τ :=
  (k.lists .readyToRun).head?

/-- What is compiled with `CONFIG_PRIORITY_INHERITANCE` only. -/
def inheriting (f : Kernel τ κ → Option (Kernel τ κ)) (k : Kernel τ κ) :
    Option (Kernel τ κ) :=
  if cfg.priorityInheritance then f k else some k

/-! ### The holders -/

/-- The tasks recorded as holders of a semaphore. -/
def holderTasks (sem : κ) : List τ :=
  (k.holders sem).map Holder.htcb

/-- `sem_addholder`; a new holder goes to the head of the list. -/
def addHolder : Kernel τ κ :=
  k.setHolders sem
    (if (k.holders sem).any (·.htcb = rtcb) then
      (k.holders sem).map fun h =>
        if h.htcb = rtcb then { h with counts := Words.int16 (h.counts + 1) } else h
    else ⟨rtcb, 1⟩ :: k.holders sem)

/-- `sem_releaseholder`. -/
def releaseHolder : Kernel τ κ :=
  k.setHolders sem ((k.holders sem).map fun h =>
    if h.htcb = rtcb ∧ 0 < h.counts then { h with counts := h.counts - 1 } else h)

/-- The end of `sem_restorebaseprio_task`: a holder without counts is removed. -/
def freeHolder : Kernel τ κ :=
  match (k.holders sem).find? (·.htcb = rtcb) with
  | none => k
  | some pholder =>
      if pholder.counts ≤ 0 then
        k.setHolders sem ((k.holders sem).eraseP (·.htcb = rtcb))
      else k

/-! ### Priority inheritance -/

/-- `sched_setpriority`, without its return value. -/
def setPriority (tcb : τ) (p : ℕ) (k : Kernel τ κ) : Option (Kernel τ κ) :=
  k.onSched fun s => (s.setPriority tcb p).map Prod.fst

/-- `sched_reprioritize`: the record of the pending priorities is discarded, by a task
that is switched out in `sched_setpriority` only when it runs again. -/
def reprioritize (tcb : τ) (p : ℕ) (k : Kernel τ κ) : Option (Kernel τ κ) := do
  let (s, ok) ← k.toSched.setPriority tcb p
  let k' := k.withSched s
  if ok ∧ (interrupt ∨ k'.readyHead = k.readyHead) then some ((k'.setBase tcb p).setPend tcb [])
  else some k'

/-- `sem_boostholderprio`, for a waiter `rtcb` and a holder `htcb`. Only the first of the two places
that record a priority checks for room. -/
def boostHolderPrio (rtcb htcb : τ) (k : Kernel τ κ) : Option (Kernel τ κ) :=
  let waiterPriority := k.schedPriority rtcb
  if cfg.nnestprio = 0 then
    if k.schedPriority htcb < waiterPriority then k.setPriority htcb waiterPriority
    else some k
  else if k.basePriority htcb < waiterPriority then
    let pend := k.pendReprios htcb
    if k.schedPriority htcb < waiterPriority then
      if k.basePriority htcb < k.schedPriority htcb ∧ pend.length < cfg.nnestprio then
        (k.setPend htcb (pend ++ [k.schedPriority htcb])).setPriority htcb waiterPriority
      else k.setPriority htcb waiterPriority
    else some (k.setPend htcb (pend ++ [waiterPriority]))
  else some k

/-- The loop that finds the highest of the pending priorities, from the index `i` on;
`j` is the index of the highest one so far. -/
def highestFrom (pend : List ℕ) : ℕ → ℕ → ℕ → ℕ
  | 0, _, j => j
  | n + 1, i, j => highestFrom pend n (i + 1) (if pend.getD j 0 < pend.getD i 0 then i else j)

/-- The index of the highest pending priority. -/
def highest (pend : List ℕ) : ℕ :=
  highestFrom pend (pend.length - 1) 1 0

/-- An entry is removed by putting the last one in its place. -/
def removeAt (pend : List ℕ) (j : ℕ) : List ℕ :=
  (pend.set j (pend.getLastD 0)).dropLast

/-- Whether `sem_restoreholderprio` gives the holder its base priority, with
`sched_reprioritize`: no priorities are pending. -/
def resets (htcb : τ) : Prop :=
  cfg.nnestprio = 0 ∨ (k.pendReprios htcb).length < 1

instance (htcb : τ) : Decidable (k.resets cfg htcb) := inferInstanceAs (Decidable (_ ∨ _))

/-- `sem_restoreholderprio`, for a task `stcb` that does not wait any more and a holder
`htcb`. -/
def restoreHolderPrio (stcb htcb : τ) (k : Kernel τ κ) : Option (Kernel τ κ) :=
  if k.schedPriority htcb = k.basePriority htcb then some k
  else
    let pend := k.pendReprios htcb
    if k.resets cfg htcb then k.reprioritize interrupt htcb (k.basePriority htcb)
    else if k.schedPriority htcb ≤ k.schedPriority stcb then
      let j := highest pend
      (k.setPend htcb (removeAt pend j)).setPriority htcb (pend.getD j 0)
    else
      let i := pend.findIdx (· = k.schedPriority stcb)
      if i < pend.length then some (k.setPend htcb (removeAt pend i)) else some k

/-- `sem_foreachholder`. -/
def forEachHolder (handler : τ → Kernel τ κ → Option (Kernel τ κ)) (k : Kernel τ κ) :
    Option (Kernel τ κ) :=
  (k.holders sem).foldlM (fun k h => handler h.htcb k) k

/-- `sem_restoreholderprioA`: every holder but the running task. -/
def restoreHolderPrioA (stcb htcb : τ) (k : Kernel τ κ) : Option (Kernel τ κ) :=
  if k.readyHead = some htcb then some k else k.restoreHolderPrio cfg false stcb htcb

/-- The second pass, with `sem_restoreholderprioB`: it ends at the running task. -/
def restoreHolderPrioB (stcb : τ) (sem : κ) (k : Kernel τ κ) :
    Option (Kernel τ κ) :=
  match (k.holders sem).find? (fun h => k.readyHead = some h.htcb) with
  | none => some k
  | some pholder => k.restoreHolderPrio cfg false stcb pholder.htcb

/-- What `sem_post` does once the priorities are restored: the end of
`sem_restorebaseprio_task`, and `sched_unlock`. -/
def endPost : Option (Kernel τ κ) :=
  (k.freeHolder sem rtcb).onSched (·.unlock cfg.rrTicks false)

/-- `sem_restorebaseprio_irq`. -/
def restoreBaseprioIrq :
    Option (Kernel τ κ) :=
  match stcb with
  | none => some k
  | some stcb => k.forEachHolder sem (restoreHolderPrio cfg true stcb)

/-- The two passes of `sem_restorebaseprio_task`. -/
def restorePasses :
    Option (Kernel τ κ) :=
  match stcb with
  | none => some k
  | some stcb => do
      let k ← k.forEachHolder sem (restoreHolderPrioA cfg stcb)
      k.restoreHolderPrioB cfg stcb sem

/-- `sem_restorebaseprio_task` and what follows it in `sem_post`. It ends early if the
running task has been switched out. -/
def restoreBaseprioTask :
    Option (Kernel τ κ) := do
  let rtcb ← k.readyHead
  let k' ← k.restorePasses cfg stcb sem
  if k'.readyHead = some rtcb then k'.endPost cfg sem rtcb
  -- only the second pass touches the running task
  else some (k'.setRest rtcb (.post sem (k.resets cfg rtcb)))

/-- `sem_restorebaseprio`, with the `sched_unlock` that follows it in `sem_post`. -/
def restoreBaseprio : Option (Kernel τ κ) :=
  if interrupt then k.restoreBaseprioIrq cfg stcb sem else k.restoreBaseprioTask cfg stcb sem

/-! ### The calls -/

/-- What `sem_wait` does when the semaphore is available. -/
def take : Kernel τ κ :=
  let k := k.setSemcount sem (k.semcount sem - 1)
  (if cfg.priorityInheritance then k.addHolder sem rtcb else k).setWaitsem rtcb none

/-- What `sem_wait` does when it is not, up to where it blocks. -/
def block : Option (Kernel τ κ) := do
  let k := (k.setSemcount sem (k.semcount sem - 1)).setWaitsem rtcb (some sem)
  let k ← k.inheriting cfg fun k => do
    let k ← k.onSched (·.lock false)
    k.forEachHolder sem (boostHolderPrio cfg rtcb)
  ((k.setErrno rtcb none).setRest rtcb (.wait sem)).onSched (·.blockTask rtcb .waitSem)

/-- `sem_wait`, up to where it blocks. The flag says whether it returns `OK` at once. -/
def semWait : Option (Kernel τ κ × Bool) :=
  if 0 < k.semcount sem then some (k.take cfg sem rtcb, true)
  else if k.waitsem rtcb = none then (k.block cfg sem rtcb).map (·, false)
  else none

/-- `sem_trywait`; the flag says whether it returns `OK`. The task does not become a
holder of the semaphore. -/
def semTrywait : Kernel τ κ × Bool :=
  if 0 < k.semcount sem then
    ((k.setSemcount sem (k.semcount sem - 1)).setWaitsem rtcb none, true)
  else (k, false)

/-- The first task in `g_waitingforsemaphore` that waits for the semaphore. -/
def firstWaiter : Option τ :=
  (k.lists .waitingForSemaphore).find? fun t => k.waitsem t = some sem

/-- The beginning of `sem_post`, up to the search for a waiter. -/
def release :
    Option (Kernel τ κ) :=
  let k := if cfg.priorityInheritance then k.releaseHolder sem rtcb else k
  (k.setSemcount sem (k.semcount sem + 1)).inheriting cfg fun k => k.onSched (·.lock interrupt)

/-- The waiter is given the count. -/
def wake : Option (Kernel τ κ) :=
  match stcb with
  | none => some k
  | some stcb => (k.setWaitsem stcb none).onSched (·.unblockTask cfg.rrTicks stcb)

/-- `sem_post`, from a task or from an interrupt handler. The result names the task
that was given the count. -/
def semPost :
    Option (Kernel τ κ × Option τ) :=
  if k.semcount sem < valueMax then do
    let k ← k.release cfg interrupt sem rtcb
    let stcb := if k.semcount sem ≤ 0 then k.firstWaiter sem else none
    let k ← k.wake cfg stcb
    let k ← k.inheriting cfg fun k => k.restoreBaseprio cfg interrupt stcb sem
    some (k, stcb)
  else none

/-- What `sem_waitirq` and `sem_recover` have in common: `sem_canceled`, the count and
`waitsem`. There is no result for a task that is switched out in `sem_canceled`. -/
def cancelWait : Option (Kernel τ κ) := do
  let k' ← k.inheriting cfg fun k => k.forEachHolder sem (restoreHolderPrio cfg interrupt wtcb)
  if interrupt ∨ k'.readyHead = k.readyHead then
    some ((k'.setSemcount sem (k'.semcount sem + 1)).setWaitsem wtcb none)
  else none

/-- `sem_waitirq`: a signal or a timeout ends the wait. -/
def semWaitirq (errcode : Errno) (k : Kernel τ κ) :
    Option (Kernel τ κ) :=
  if k.taskState wtcb = .waitSem then
    match k.waitsem wtcb with
    | none => none
    | some sem => do
        let k ← k.cancelWait cfg wtcb interrupt sem
        (k.setErrno wtcb (some errcode)).onSched (·.unblockTask cfg.rrTicks wtcb)
  else some k

/-- `sem_recover`: the waiter is being deleted. It stays in the list. -/
def semRecover (tcb : τ) (k : Kernel τ κ) : Option (Kernel τ κ) :=
  if k.taskState tcb = .waitSem then
    match k.waitsem tcb with
    | none => none
    | some sem => k.cancelWait cfg tcb interrupt sem
  else some k

/-- The end of `sem_wait`: the task has become a holder, unless its wait was
interrupted. -/
def holdIfGranted : Kernel τ κ :=
  if k.errno rtcb = none then k.addHolder sem rtcb else k

/-- The running task goes on with the call in which it was switched out. -/
def resume : Option (Kernel τ κ) :=
  match k.rest rtcb with
  | .nothing => none
  | .wait sem => (k.setRest rtcb .nothing).inheriting cfg fun k =>
      (k.holdIfGranted sem rtcb).onSched (·.unlock cfg.rrTicks false)
  | .post sem discard =>
      let k := k.setRest rtcb .nothing
      -- the end of `sched_reprioritize`; `base_priority` has its value already
      (if discard then k.setPend rtcb [] else k).endPost cfg sem rtcb

end Kernel

/-! ### Interleavings -/

/-- What can happen next. -/
inductive Event (τ κ : Type) where
  | wait (sem : κ)
  | trywait (sem : κ)
  | post (interrupt : Bool) (sem : κ)
  | waitirq (interrupt : Bool) (wtcb : τ) (errcode : Errno)
  | recover (interrupt : Bool) (tcb : τ)
  | resume
  | sched (op : Sched.Op τ)

/-- The history of the semaphores. -/
@[ext]
structure History (τ κ : Type) where
  posts : κ → ℕ
  acquisitions : κ → ℕ
  /-- the number of waits that have blocked so far -/
  blockings : ℕ
  /-- when the task last blocked in a wait, as the number of waits that had blocked
  before -/
  blockedSince : τ → ℕ
  /-- the priority with which the task last blocked in a wait -/
  blockedPriority : τ → ℕ
  /-- the holders that the semaphore had when the task last blocked in a wait -/
  blockedHolders : τ → List τ

namespace History

variable {τ κ : Type} [DecidableEq τ] [DecidableEq κ]

@[simps -fullyApplied]
def acquired (sem : κ) (h : History τ κ) : History τ κ :=
  { h with acquisitions := update h.acquisitions sem (h.acquisitions sem + 1) }

@[simps -fullyApplied]
def posted (sem : κ) (h : History τ κ) : History τ κ :=
  { h with posts := update h.posts sem (h.posts sem + 1) }

@[simps -fullyApplied]
def blocked (t : τ) (p : ℕ) (l : List τ) (h : History τ κ) : History τ κ :=
  { h with
    blockings := h.blockings + 1
    blockedSince := update h.blockedSince t h.blockings
    blockedPriority := update h.blockedPriority t p
    blockedHolders := update h.blockedHolders t l }

end History

/-- **The system**: the kernel together with the history of its semaphores. -/
structure System (τ κ : Type) extends Kernel τ κ, History τ κ

namespace System

variable {τ κ : Type} [DecidableEq τ] [DecidableEq κ]

/-- The running task, when it has no call to finish first. -/
def caller (x : System τ κ) : Option τ :=
  x.readyHead.filter fun t => x.rest t = .nothing

/-- The history after `sem_wait`. -/
def afterWait (x : System τ κ) (sem : κ) (rtcb : τ) (ok : Bool) : History τ κ :=
  if ok then x.toHistory.acquired sem
  else x.toHistory.blocked rtcb (x.schedPriority rtcb) (x.holderTasks sem)

/-- The history after `sem_post`: the task that is given the count acquires it. -/
def afterPost (x : System τ κ) (sem : κ) (stcb : Option τ) : History τ κ :=
  if stcb.isSome then (x.toHistory.posted sem).acquired sem else x.toHistory.posted sem

/-- **One step**; there is no result when the event cannot happen, or when it stops the
system. -/
def step (cfg : Config) (x : System τ κ) : Event τ κ → Option (System τ κ)
  | .wait sem => x.caller.bind fun rtcb =>
      (x.toKernel.semWait cfg sem rtcb).map fun r => ⟨r.1, x.afterWait sem rtcb r.2⟩
  | .trywait sem => x.caller.map fun rtcb =>
      let r := x.toKernel.semTrywait sem rtcb
      ⟨r.1, if r.2 then x.toHistory.acquired sem else x.toHistory⟩
  | .post interrupt sem => (if interrupt then x.readyHead else x.caller).bind fun rtcb =>
      (x.toKernel.semPost cfg interrupt sem rtcb).map fun r => ⟨r.1, x.afterPost sem r.2⟩
  | .waitirq interrupt wtcb errcode =>
      (x.toKernel.semWaitirq cfg wtcb interrupt errcode).map (⟨·, x.toHistory⟩)
  | .recover interrupt tcb => (x.toKernel.semRecover cfg interrupt tcb).map (⟨·, x.toHistory⟩)
  | .resume => x.readyHead.bind fun rtcb =>
      (x.toKernel.resume cfg rtcb).map (⟨·, x.toHistory⟩)
  | .sched op =>
      if x.toSched.Foreign op then
        (x.toKernel.onSched fun s => s.step cfg.rrTicks op).map (⟨·, x.toHistory⟩)
      else none

end System

end GreenboneFeeder.Sem
