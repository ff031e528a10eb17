import GreenboneFeeder.Lib.Run

/-!
# Signals of a task

The signals that are sent to one task (`sched/signal`): `sig_tcbdispatch` is called by other tasks
and by interrupt handlers, and the task itself changes its signal mask with `sigprocmask` and waits
with `sigtimedwait`. A signal that is masked is put into the list of the pending signals, unless the
task waits for it.

All callers that are tasks have disabled pre-emption, and so has the task itself in `sigprocmask`,
so there are only interrupt handlers between the parts of those calls. There are always enough
structures for pending signals. A dispatched signal is numbered, and is marked with what the test of
the mask has said (`Signal.Sig`).

When `sigtimedwait` finds a pending signal, it releases the structure, enables the interrupts and
reads the number that it returns from the structure only then. An interrupt handler that adds a
signal may have been given the same structure (`Signal.Event.irqReuse`).
-/

namespace GreenboneFeeder.Signal

/-! ### Signals and sets of signals -/

/-- **A signal that was dispatched** (`siginfo_t`): its number and the rest of its information. To
follow it there are the number of the dispatch, and whether it was masked then. -/
structure Sig (α : Type) where
  signo : ℕ
  value : α
  no : ℕ
  blocked : Bool
deriving DecidableEq, Repr

/-- `sigismember`. -/
def sigismember (set : BitVec 32) (signo : ℕ) : Bool := set.getLsbD signo

/-- The set with one signal, `SIGNO2SET`. -/
def signo2set (signo : ℕ) : BitVec 32 := 1#32 <<< signo

/-- `sigdelset`. -/
def sigdelset (set : BitVec 32) (signo : ℕ) : BitVec 32 := set &&& ~~~signo2set signo

/-- `sig_lowest`. -/
def sigLowest (set : BitVec 32) : Option ℕ := (List.range 32).find? (sigismember set)

variable {α : Type}

/-- `sig_pendingset`. -/
def sigPendingset (sigpendingq : List (Sig α)) : BitVec 32 :=
  sigpendingq.foldl (fun set sig => set ||| signo2set sig.signo) 0#32

/-- `sig_removependingsignal`: the first pending signal of the number, and the list without
it. -/
def sigRemovependingsignal (signo : ℕ) : List (Sig α) → Option (Sig α × List (Sig α))
  | [] => none
  | sig :: rest =>
    if sig.signo = signo then some (sig, rest)
    else (sigRemovependingsignal signo rest).map fun r => (r.1, sig :: r.2)

/-! ### The state -/

/-- What the task is doing. -/
inductive TaskState (α : Type) where
  | running
  /-- in `sigprocmask`, with the mask changed -/
  | masking
  /-- in `sig_unmaskpendingsignal`, with the signals that are left to dispatch -/
  | unmasking (unmaskedset : BitVec 32)
  /-- there, with a signal that was removed from the pending ones -/
  | dispatching (unmaskedset : BitVec 32) (sig : Sig α)
  /-- blocked in `sigtimedwait` -/
  | waitSig (set : BitVec 32)
  /-- in `sigtimedwait`, unblocked and not yet running -/
  | woken (set : BitVec 32)
  /-- in `sigtimedwait`, with what is in the structure that it has released -/
  | returning (set : BitVec 32) (sig : Sig α)
deriving DecidableEq, Repr

/-- What another task has still to do of a `sig_tcbdispatch`: to look whether the task waits for the
masked signal, to search the pending ones, to copy it to one at an index, to add it, or to look
whether the task waits for an unmasked signal. -/
inductive Stage where
  | masked
  | find
  | copy (i : ℕ)
  | add
  | unmasked
deriving DecidableEq, Repr

/-- **What became of the signals**: those dispatched while masked, those replaced, those returned by
`sigtimedwait` with its set, and those dispatched as unmasked signals. -/
structure Log (α : Type) where
  masked : List (Sig α)
  replaced : List (Sig α)
  returned : List (Sig α × BitVec 32)
  delivered : List (Sig α)

/-- **The task**, the dispatch that another task is in, and what became of the signals. -/
structure Sys (α : Type) where
  sigprocmask : BitVec 32
  sigwaitmask : BitVec 32
  /-- `sigunbinfo`; none is `SIG_WAIT_TIMEOUT` -/
  sigunbinfo : Option (Sig α)
  sigpendingq : List (Sig α)
  state : TaskState α
  sender : Option (Sig α × Stage)
  log : Log α
  /-- the number of dispatches -/
  count : ℕ

namespace Sys

/-! ### The parts of the calls -/

/-- A signal was dispatched while it was masked. -/
def masked (sig : Sig α) (s : Sys α) : Sys α :=
  { s with log := { s.log with masked := sig :: s.log.masked } }

variable (set : BitVec 32) (sig : Sig α) (s : Sys α)

/-- A signal was dispatched as an unmasked signal: `sig_queueaction` and
`up_schedule_sigaction`. -/
def deliver : Sys α :=
  { s with log := { s.log with delivered := sig :: s.log.delivered } }

/-- The end of `sig_addpendingsignal` for a signal that is already pending, at an index. -/
def copy (i : ℕ) (sig : Sig α) (s : Sys α) : Sys α :=
  { s.masked sig with
    sigpendingq := s.sigpendingq.set i sig
    log := { (s.masked sig).log with replaced := s.sigpendingq[i]?.toList ++ s.log.replaced } }

/-- The end of `sig_addpendingsignal` for a signal that is not pending. -/
def add : Sys α :=
  { s.masked sig with sigpendingq := s.sigpendingq ++ [sig] }

/-- `sig_findpendingsignal`. -/
def find (signo : ℕ) (s : Sys α) : Option ℕ := s.sigpendingq.findIdx? (·.signo = signo)

/-- `sig_addpendingsignal`. -/
def sigAddpendingsignal : Sys α :=
  match s.find sig.signo with
  | some i => s.copy i sig
  | none => s.add sig

/-- The task is unblocked if it waits for signals. -/
def wake : Sys α :=
  match s.state with
  | .waitSig set => { s with sigunbinfo := some sig, sigwaitmask := 0#32, state := .woken set }
  | _ => s

/-- The task waits for the signal. -/
def WaitsFor (signo : ℕ) : Prop :=
  match s.state with
  | .waitSig _ => sigismember s.sigwaitmask signo = true
  | _ => False

instance (s : Sys α) (signo : ℕ) : Decidable (s.WaitsFor signo) := by
  unfold WaitsFor
  split <;> infer_instance

/-- `sig_tcbdispatch`, when nothing comes between. -/
def sigTcbdispatch : Sys α :=
  if sigismember s.sigprocmask sig.signo then
    if s.WaitsFor sig.signo then (s.wake sig).masked sig else s.sigAddpendingsignal sig
  else (s.deliver sig).wake sig

/-- The signal of the next dispatch. -/
def next (signo : ℕ) (value : α) (s : Sys α) : Sig α :=
  ⟨signo, value, s.count, sigismember s.sigprocmask signo⟩

/-- What a task does next in `sig_tcbdispatch`. -/
def proceed : Stage → Sys α
  | .masked =>
    if s.WaitsFor sig.signo then { (s.wake sig).masked sig with sender := none }
    else { s with sender := some (sig, .find) }
  | .find =>
    match s.find sig.signo with
    | some i => { s with sender := some (sig, .copy i) }
    | none => { s with sender := some (sig, .add) }
  | .copy i => { s.copy i sig with sender := none }
  | .add => { s.add sig with sender := none }
  | .unmasked => { s.wake sig with sender := none }

/-- `how` of `sigprocmask`. -/
inductive How where
  | block
  | unblock
  | setmask
  | other
deriving DecidableEq, Repr

/-- The mask after `sigprocmask`. -/
def newmask (how : How) (set mask : BitVec 32) : BitVec 32 :=
  match how with
  | .block => mask ||| set
  | .unblock => mask &&& ~~~set
  | .setmask => set
  | .other => mask

/-- What the task does next in `sig_unmaskpendingsignal`. -/
def unmask : TaskState α → Option (Sys α)
  | .masking =>
    some { s with state := .unmasking (~~~s.sigprocmask &&& sigPendingset s.sigpendingq) }
  | .unmasking set =>
    match sigLowest set with
    | none => some { s with state := .running }
    | some signo =>
      match sigRemovependingsignal signo s.sigpendingq with
      | some (sig, rest) =>
        some { s with sigpendingq := rest, state := .dispatching (sigdelset set signo) sig }
      | none => some { s with state := .unmasking (sigdelset set signo) }
  | .dispatching set sig => some { s.sigTcbdispatch sig with state := .unmasking set }
  | _ => none

/-- `sigtimedwait`, up to where it blocks. -/
def sigtimedwait : Option (Sys α) :=
  match sigLowest (set &&& sigPendingset s.sigpendingq) with
  | some signo =>
    (sigRemovependingsignal signo s.sigpendingq).map fun r =>
      { s with sigpendingq := r.2, state := .returning set r.1 }
  | none => some { s with sigwaitmask := set, state := .waitSig set }

/-- `sigtimedwait` returns a signal. -/
def returns : Sys α :=
  { s with state := .running, log := { s.log with returned := (sig, set) :: s.log.returned } }

/-- The rest of `sigtimedwait`, after the task was unblocked: the signal that it returns. -/
def endWait : Sys α :=
  let s := { s with sigwaitmask := 0#32, state := .running }
  match s.sigunbinfo with
  -- or it was interrupted by another signal
  | some sig => if sigismember set sig.signo then s.returns set sig else s
  | none => s

end Sys

/-! ### Interleavings -/

/-- What can happen next. -/
inductive Event (α : Type) where
  /-- another task calls `sig_tcbdispatch` and tests the mask -/
  | send (signo : ℕ) (value : α)
  /-- that task goes on -/
  | proceed
  /-- an interrupt handler calls `sig_tcbdispatch` -/
  | irq (signo : ℕ) (value : α)
  /-- an interrupt handler does so, and adds the signal in the structure that `sigtimedwait` has
  just released -/
  | irqReuse (signo : ℕ) (value : α)
  /-- the timeout of `sigtimedwait` -/
  | timeout
  /-- the task calls `sigprocmask` -/
  | procmask (how : Sys.How) (set : BitVec 32)
  /-- the task goes on in `sig_unmaskpendingsignal` -/
  | unmask
  /-- the task calls `sigtimedwait` -/
  | timedwait (set : BitVec 32)
  /-- the task goes on in `sigtimedwait` -/
  | resume

/-- The task has not disabled pre-emption. -/
def TaskState.Open : TaskState α → Prop
  | .running => True
  | .waitSig _ => True
  | .woken _ => True
  | _ => False

instance : ∀ st : TaskState α, Decidable st.Open
  | .running | .waitSig _ | .woken _ => isTrue trivial
  | .masking | .unmasking _ | .dispatching .. | .returning .. => isFalse id

/-- **One step.** Signal numbers are those that `GOOD_SIGNO` accepts. -/
def step (s : Sys α) : Event α → Option (Sys α)
  | .send signo value =>
    if s.sender.isNone ∧ s.state.Open ∧ signo < 32 then
      let sig := s.next signo value
      let s := { s with count := s.count + 1 }
      if sig.blocked then some { s with sender := some (sig, .masked) }
      else some { s.deliver sig with sender := some (sig, .unmasked) }
    else none
  | .proceed => s.sender.map fun p => s.proceed p.1 p.2
  | .irq signo value =>
    if signo < 32 then
      some ({ s with count := s.count + 1 }.sigTcbdispatch (s.next signo value))
    else none
  | .irqReuse signo value =>
    match s.state with
    | .returning set _ =>
      let sig := s.next signo value
      if signo < 32 ∧ sig.blocked ∧ s.find signo = none then
        some { { s with count := s.count + 1 }.add sig with state := .returning set sig }
      else none
    | _ => none
  | .timeout =>
    match s.state with
    | .waitSig set => some { s with sigunbinfo := none, state := .woken set }
    | _ => some s
  | .procmask how set =>
    match s.sender, s.state with
    | none, .running =>
      some { s with sigprocmask := Sys.newmask how set s.sigprocmask, state := .masking }
    | _, _ => none
  | .unmask => if s.sender.isNone then s.unmask s.state else none
  | .timedwait set =>
    match s.sender, s.state with
    | none, .running => s.sigtimedwait set
    | _, _ => none
  | .resume =>
    match s.sender, s.state with
    | none, .woken set => some (s.endWait set)
    | none, .returning set sig => some (s.returns set sig)
    | _, _ => none

/-- A task that runs and has no pending signals. -/
def init (mask : BitVec 32) : Sys α where
  sigprocmask := mask
  sigwaitmask := 0#32
  sigunbinfo := none
  sigpendingq := []
  state := .running
  sender := none
  log := ⟨[], [], [], []⟩
  count := 0

end GreenboneFeeder.Signal
