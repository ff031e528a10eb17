import GreenboneFeeder.Lib.PrioQueue
import GreenboneFeeder.Lib.Run

/-!
# Message queues

`mq_send`, `mq_receive` and what they call (`sched/mqueue`), by any number of tasks and interrupt
handlers on any number of queues.

A task makes a call with the scheduler locked. Interrupts are disabled only in parts of the call;
between these an interrupt handler can send a message, and a signal or a timeout can end the wait of
another task. So a call is cut where interrupts are enabled, into the steps of `Mqueue.Pass`;
`running` is the task that is in such a call, with its next step. If `kmm_malloc` blocks a
sender in `mq_msgalloc`, other tasks run although the scheduler is locked. `mq_timedsend` and
`mq_timedreceive` are `mq_send` and `mq_receive` with the event `timeout`.

A message structure is an address, and its fields are what memory holds there; the lists of the
source are lists of addresses. What the two conditions a task can wait for have in common is said
once: `nwait .notempty` is `nwaitnotempty`, and `waitingformq .notfull` is `g_waitingformqnotfull`.
The queues also carry what was sent and taken, and what the receives have returned.
-/

namespace GreenboneFeeder.Mqueue

open Function

open PrioQueue (Op)

/-! ### Messages and queues -/

/-- The number of values of `msglen` and of `maxmsgsize`, by `MQ_MAX_BYTES`. -/
def lenRange (maxBytes : ℕ) : ℕ := if maxBytes < 256 then 256 else 65536

/-- `MQ_PRIO_MAX`. -/
def mqPrioMax : ℕ := 255

/-- `MQ_MAX_MSGS`. -/
def mqMaxMsgs : ℤ := 16

/-- `NUM_INTERRUPT_MSGS`. -/
def numInterruptMsgs : ℕ := 8

/-- What an `int16_t` holds after a value is stored in it. -/
def int16 (z : ℤ) : ℤ := (z + 32768) % 65536 - 32768

/-- `enum mqalloc_e`. -/
inductive AllocType where
  | fixed
  | dyn
  | irq
  deriving DecidableEq, Repr

/-- `struct mqueue_msg_s`. -/
structure Msg where
  type : AllocType
  priority : ℕ
  msglen : ℕ
  mail : List UInt8

/-- What a message is to its sender and its receiver: a priority, a length and the bytes. -/
structure Entry where
  prio : ℕ
  len : ℕ
  bytes : List UInt8
  deriving DecidableEq, Repr

/-- The message in a structure, as `mq_doreceive` copies it. -/
def Msg.entry (m : Msg) : Entry := ⟨m.priority, m.msglen, m.mail.take m.msglen⟩

/-- `ntpid`, `ntsigno` and `ntvalue` of a queue. -/
structure Notification (τ : Type) where
  pid : τ
  signo : ℤ
  value : ℤ

/-- `struct mqueue_inode_s`, without the numbers of the tasks that wait. -/
structure Msgq (maxBytes : ℕ) (τ : Type) where
  maxmsgs : ℤ
  maxmsgsize : ℕ
  nmsgs : ℤ := 0
  msglist : List ℕ := []
  notification : Option (Notification τ) := none
  size_le : maxmsgsize ≤ maxBytes
  size_lt : maxmsgsize < lenRange maxBytes

theorem lenRange_pos {maxBytes : ℕ} : 0 < lenRange maxBytes := by
  rw [lenRange]
  split <;> decide

/-- `struct mq_attr`. -/
structure MqAttr where
  maxmsg : ℤ
  msgsize : ℕ

/-- `mq_msgqalloc`. -/
def mqMsgqalloc (maxBytes : ℕ) (τ : Type) : Option MqAttr → Option (Msgq maxBytes τ)
  | some attr =>
    if h : attr.msgsize ≤ maxBytes then
      some {
        maxmsgs := int16 attr.maxmsg
        maxmsgsize := attr.msgsize % lenRange maxBytes
        size_le := (Nat.mod_le _ _).trans h
        size_lt := Nat.mod_lt _ lenRange_pos }
    else none
  | none =>
    some {
      maxmsgs := mqMaxMsgs
      maxmsgsize := maxBytes % lenRange maxBytes
      size_le := Nat.mod_le _ _
      size_lt := Nat.mod_lt _ lenRange_pos }

/-- `struct mq_des`, with the flags that are looked at. -/
structure Mqdes (κ : Type) where
  msgq : κ
  wrok : Bool
  rdok : Bool
  nonblock : Bool

/-- The error codes of the calls; `ok` is `OK`. -/
inductive Errno where
  | ok
  | einval
  | eperm
  | emsgsize
  | eagain
  | eintr
  | etimedout
  deriving DecidableEq, Repr

/-- The arguments of a send that have passed `mq_verifysend`. -/
structure Outgoing (maxBytes : ℕ) (κ : Type) where
  msgq : κ
  nonblock : Bool
  msg : List UInt8
  prio : ℕ
  prio_le : prio ≤ mqPrioMax
  len_le : msg.length ≤ maxBytes
  len_lt : msg.length < lenRange maxBytes

variable {maxBytes : ℕ} {τ κ : Type}

/-- The message that is sent. -/
def Outgoing.entry (o : Outgoing maxBytes κ) : Entry := ⟨o.prio, o.msg.length, o.msg⟩

/-- What `mq_dosend` stores in a message structure. -/
def Msg.fill (m : Msg) (o : Outgoing maxBytes κ) : Msg :=
  { m with
    priority := o.prio % 256
    msglen := o.msg.length % lenRange maxBytes
    mail := o.msg ++ m.mail.drop o.msg.length }

/-! ### Where the messages are -/

/-- The message structures and the queues. `structs` are the addresses of message structures: the
preallocated ones, and those from the heap and not freed. -/
structure Store (maxBytes : ℕ) (τ κ : Type) where
  msgs : ℕ → Msg
  structs : List ℕ
  msgfree : List ℕ
  msgfreeirq : List ℕ
  queues : κ → Msgq maxBytes τ
  ops : κ → List (Op Entry) := fun _ => []
  returned : κ → List Entry := fun _ => []

namespace Store

variable (malloc : Option ℕ) (q : κ) (n : Option (Notification τ)) (a : ℕ) (o : Outgoing maxBytes κ)
  (σ : Store maxBytes τ κ) (mqdes : Option (Mqdes κ))

/-- `mq_verifysend`: the `msglen` bytes at `msg` are the list `msg`. -/
def mqVerifysend (msg : Option (List UInt8))
    (prio : ℤ) : Except Errno (Outgoing maxBytes κ) :=
  match msg, mqdes with
  | some msg, some d =>
    if hp : 0 ≤ prio ∧ prio ≤ mqPrioMax then
      if d.wrok then
        if hl : msg.length ≤ (σ.queues d.msgq).maxmsgsize then
          .ok {
            msgq := d.msgq
            nonblock := d.nonblock
            msg := msg
            prio := prio.toNat
            prio_le := Int.toNat_le.mpr hp.2
            len_le := Nat.le_trans hl (σ.queues d.msgq).size_le
            len_lt := Nat.lt_of_le_of_lt hl (σ.queues d.msgq).size_lt }
        else .error .emsgsize
      else .error .eperm
    else .error .einval
  | _, _ => .error .einval

/-- `mq_verifyreceive`: whether there is a buffer, and its size. -/
def mqVerifyreceive (buffer : Bool)
    (msglen : ℕ) : Except Errno (Mqdes κ) :=
  match mqdes with
  | some d =>
    if buffer then
      if d.rdok then
        if msglen < (σ.queues d.msgq).maxmsgsize then .error .emsgsize else .ok d
      else .error .eperm
    else .error .einval
  | none => .error .einval

/-- The end of `mq_msgalloc`: `malloc` is the answer of `kmm_malloc`, an address without a message
structure; without one the assertion fails. -/
def malloced : Option (ℕ × Store maxBytes τ κ) :=
  match malloc with
  | none => none
  | some a =>
    if a ∈ σ.structs then none
    else some (a, { σ with
      structs := a :: σ.structs
      msgs := update σ.msgs a { σ.msgs a with type := .dyn } })

/-- `mq_msgalloc` in a task that is not blocked by `kmm_malloc`. -/
def mqMsgalloc : Option (ℕ × Store maxBytes τ κ) :=
  match σ.msgfree with
  | a :: l => some (a, { σ with msgfree := l })
  | [] => σ.malloced malloc

/-- `mq_msgalloc` in an interrupt handler. -/
def mqMsgallocIrq : Option (ℕ × Store maxBytes τ κ) :=
  match σ.msgfree with
  | a :: l => some (a, { σ with msgfree := l })
  | [] =>
    match σ.msgfreeirq with
    | a :: l => some (a, { σ with msgfreeirq := l })
    | [] => none

/-- `mq_msgfree`. -/
def mqMsgfree : Store maxBytes τ κ :=
  match (σ.msgs a).type with
  | .fixed => { σ with msgfree := σ.msgfree ++ [a] }
  | .irq => { σ with msgfreeirq := σ.msgfreeirq ++ [a] }
  | .dyn => { σ with structs := σ.structs.erase a }

variable [DecidableEq κ]

/-- The first part of `mq_dosend`: the structure is filled and inserted in the list, behind
the messages of at least its priority. -/
def insert : Store maxBytes τ κ :=
  let msgq := σ.queues o.msgq
  let priority := fun b => (σ.msgs b).priority
  { σ with
    msgs := update σ.msgs a ((σ.msgs a).fill o)
    queues := update σ.queues o.msgq { msgq with
      msglist := PrioList.ahead priority o.prio msgq.msglist ++
        a :: PrioList.behind priority o.prio msgq.msglist
      nmsgs := int16 (msgq.nmsgs + 1) }
    ops := update σ.ops o.msgq (σ.ops o.msgq ++ [.send o.entry]) }

/-- `sq_remfirst(&msgq->msglist)`, and `nmsgs--` when there is a message. -/
def remfirst : Option (ℕ × Store maxBytes τ κ) :=
  let msgq := σ.queues q
  match msgq.msglist with
  | [] => none
  | a :: l =>
    some (a, { σ with
      queues := update σ.queues q { msgq with
        msglist := l
        nmsgs := int16 (msgq.nmsgs - 1) }
      ops := update σ.ops q (σ.ops q ++ [.receive (σ.msgs a).entry]) })

/-- The first part of `mq_doreceive`: the message is copied, and its structure freed. -/
def deliver : Store maxBytes τ κ :=
  { σ with
    returned := update σ.returned q (σ.returned q ++ [(σ.msgs a).entry]) }.mqMsgfree a

/-- A queue's notification is replaced. -/
def setNotification :
    Store maxBytes τ κ :=
  { σ with queues := update σ.queues q { σ.queues q with notification := n } }

end Store

/-! ### Who waits -/

/-- What a task can wait for at a queue. -/
inductive Cond where
  | notempty
  | notfull
  deriving DecidableEq, Repr

/-- `TSTATE_WAIT_MQNOTEMPTY` and `TSTATE_WAIT_MQNOTFULL`, or a state in which the task can
run. -/
inductive TaskState where
  | ready
  | waitMq (c : Cond)
  deriving DecidableEq, Repr

/-- The fields of a TCB that are used here. -/
structure Tcb (κ : Type) where
  taskState : TaskState := .ready
  schedPriority : ℕ
  msgwaitq : Option κ := none
  pterrno : Errno := .ok

/-- The TCBs, the lists of the tasks that wait, and their number for each queue. -/
structure Waits (τ κ : Type) where
  tcb : τ → Tcb κ
  waitingformq : Cond → List τ := fun _ => []
  nwait : Cond → κ → ℤ := fun _ _ => 0

namespace Waits

variable [DecidableEq τ] [DecidableEq κ]

variable (c : Cond) (q : κ)

def addNwait (d : ℤ) (w : Waits τ κ) : Waits τ κ :=
  { w with
    nwait := update w.nwait c (update (w.nwait c) q (w.nwait c q + d)) }

variable (t : τ)

def setTcb (b : Tcb κ) (w : Waits τ κ) : Waits τ κ :=
  { w with tcb := update w.tcb t b }

def setWaiting (l : List τ) (w : Waits τ κ) : Waits τ κ :=
  { w with waitingformq := update w.waitingformq c l }

variable (err : Errno) (w : Waits τ κ)

/-- The running task begins to wait: `msgwaitq` is set, the number of waiting tasks incremented, and
`up_block_task` puts the task in the prioritized list of its new state. -/
def block : Waits τ κ :=
  ((w.addNwait c q 1).setTcb t
    { w.tcb t with msgwaitq := some q, pterrno := .ok, taskState := .waitMq c }).setWaiting c
      (PrioList.insert (fun u => (w.tcb u).schedPriority) t (w.waitingformq c))

/-- A wait ends with an error code: `msgwaitq` is cleared, the number of waiting tasks decremented,
and `up_unblock_task` makes the task ready. -/
def unblock : Waits τ κ :=
  ((w.addNwait c q (-1)).setTcb t
    { w.tcb t with msgwaitq := none, pterrno := err, taskState := .ready }).setWaiting c
      ((w.waitingformq c).erase t)

/-- The walk of `mq_dosend` and of `mq_doreceive` to the first task that waits for the queue, which
is asserted to exist. Its `pterrno` is not touched. -/
def wake : Option (Waits τ κ) :=
  match (w.waitingformq c).find? fun t => (w.tcb t).msgwaitq = some q with
  | none => none
  | some t => some (w.unblock c q t (w.tcb t).pterrno)

/-- `mq_waitirq`. -/
def mqWaitirq : Option (Waits τ κ) :=
  match (w.tcb t).taskState with
  | .ready => some w
  | .waitMq c =>
    match (w.tcb t).msgwaitq with
    | none => none
    | some q => some (w.unblock c q t err)

/-- `mq_sndtimeout` and `mq_rcvtimeout`. -/
def timeout : Option (Waits τ κ) :=
  if (w.tcb t).taskState = .waitMq c then w.mqWaitirq t .etimedout else some w

/-- `mq_recover`. -/
def mqRecover : Option (Waits τ κ) :=
  match (w.tcb t).taskState with
  | .ready => some w
  | .waitMq c =>
    match (w.tcb t).msgwaitq with
    | none => none
    | some q => some (w.addNwait c q (-1))

/-- `task_terminate` takes the TCB from the list of its state. A TCB that is used again is as
a new one. -/
def remove : Waits τ κ :=
  match (w.tcb t).taskState with
  | .ready => w.setTcb t { schedPriority := (w.tcb t).schedPriority }
  | .waitMq c =>
    (w.setTcb t { schedPriority := (w.tcb t).schedPriority }).setWaiting c
      ((w.waitingformq c).erase t)

end Waits

/-! ### The calls -/

/-- What comes next in the call of the running task, which has the scheduler locked. -/
inductive Pass (maxBytes : ℕ) (κ : Type) where
  /-- `mq_send` calls `mq_msgalloc`. -/
  | alloc (o : Outgoing maxBytes κ)
  /-- `kmm_malloc` returns to `mq_msgalloc` after it has blocked the task. -/
  | malloced (o : Outgoing maxBytes κ)
  /-- `mq_dosend` fills the structure and inserts it. -/
  | dosend (a : ℕ) (o : Outgoing maxBytes κ)
  /-- `mq_dosend` notifies the task registered for it. -/
  | notify (q : κ)
  /-- `mq_dosend` unblocks a receiver. -/
  | wakeReceiver (q : κ)
  /-- `mq_doreceive` copies the message and frees the structure. -/
  | doreceive (q : κ) (a : ℕ)
  /-- `mq_doreceive` looks at `nwaitnotfull`, before it disables the interrupts. -/
  | checkNotfull (q : κ) (e : Entry)
  /-- `mq_doreceive` unblocks a sender. -/
  | wakeSender (q : κ) (e : Entry)

/-- The loop that a task waits in: it is blocked there, or has been unblocked and has yet to
try again. A sender may also be blocked in `kmm_malloc`. -/
inductive Call (maxBytes : ℕ) (κ : Type) where
  | idle
  | sending (o : Outgoing maxBytes κ)
  | receiving (q : κ)
  | allocating (o : Outgoing maxBytes κ)

/-- What a call has returned. -/
inductive Outcome where
  | sent
  | received (e : Entry)
  | failed (e : Errno)

structure Sys (maxBytes : ℕ) (τ κ : Type) where
  store : Store maxBytes τ κ
  waits : Waits τ κ
  call : τ → Call maxBytes κ := fun _ => .idle
  result : τ → Option Outcome := fun _ => none
  running : Option (τ × Pass maxBytes κ) := none
  signals : List (Notification τ) := []

namespace Sys

variable [DecidableEq τ] [DecidableEq κ]

variable (t : τ)

/-- The call of a task returns, and the scheduler is unlocked. -/
def returns (o : Outcome) (s : Sys maxBytes τ κ) : Sys maxBytes τ κ :=
  { s with
    call := update s.call t .idle
    result := update s.result t (some o)
    running := none }

variable (q : κ) (nonblock : Bool) (p : Pass maxBytes κ) (s : Sys maxBytes τ κ)

/-- A task is past the loop that may wait, and goes on with the given step. -/
def enter : Sys maxBytes τ κ :=
  { s with
    call := update s.call t .idle
    running := some (t, p) }

/-- The running task goes on to the next step of its call. -/
def goto : Sys maxBytes τ κ :=
  { s with running := some (t, p) }

/-- The running task blocks in its call. -/
def block (c : Cond) (q : κ) (t : τ) (call : Call maxBytes κ) (s : Sys maxBytes τ κ) :
    Sys maxBytes τ κ :=
  { s with
    waits := s.waits.block c q t
    call := update s.call t call
    running := none }

/-- `while (msgq->nmsgs >= msgq->maxmsgs)` of `mq_waitsend`, up to the point where the task
blocks. -/
def waitsend (o : Outgoing maxBytes κ) (s : Sys maxBytes τ κ) : Sys maxBytes τ κ :=
  if (s.store.queues o.msgq).nmsgs ≥ (s.store.queues o.msgq).maxmsgs then
    s.block .notfull o.msgq t (.sending o)
  else s.enter t (.alloc o)

variable (mqdes : Option (Mqdes κ)) (msg : Option (List UInt8))

/-- `mq_send`, up to the call of `mq_msgalloc` or to the point where the task blocks. -/
def mqSend (prio : ℤ)
    (s : Sys maxBytes τ κ) : Sys maxBytes τ κ :=
  match s.store.mqVerifysend mqdes msg prio with
  | .error e => s.returns t (.failed e)
  | .ok o =>
    if (s.store.queues o.msgq).nmsgs < (s.store.queues o.msgq).maxmsgs then s.enter t (.alloc o)
    else if o.nonblock then s.returns t (.failed .eagain)
    else s.waitsend t o

/-- The loop of `mq_waitreceive`, up to the point where the task blocks. -/
def waitreceive : Sys maxBytes τ κ :=
  match s.store.remfirst q with
  | some (a, σ) => { s with store := σ }.enter t (.doreceive q a)
  | none =>
    if nonblock then s.returns t (.failed .eagain)
    else s.block .notempty q t (.receiving q)

/-- `mq_receive`, up to the call of `mq_doreceive` or to the point where the task blocks. -/
def mqReceive (buffer : Bool) (msglen : ℕ)
    (s : Sys maxBytes τ κ) : Sys maxBytes τ κ :=
  match s.store.mqVerifyreceive mqdes buffer msglen with
  | .error e => s.returns t (.failed e)
  | .ok d => s.waitreceive t d.msgq d.nonblock

/-- A task returns from `up_block_task`: it gives up if its wait ended with an error, and tries
again otherwise; or `kmm_malloc` returns. -/
def resume : Option (Sys maxBytes τ κ) :=
  match s.call t with
  | .idle => none
  | .sending o =>
    if (s.waits.tcb t).pterrno = .ok then some (s.waitsend t o)
    else some (s.returns t (.failed (s.waits.tcb t).pterrno))
  | .receiving q =>
    if (s.waits.tcb t).pterrno = .ok then some (s.waitreceive t q nonblock)
    else some (s.returns t (.failed (s.waits.tcb t).pterrno))
  | .allocating o => some (s.enter t (.malloced o))

/-- `kmm_malloc` blocks the running task, which has found no structure in `g_msgfree`. -/
def mallocBlocks : Option (Sys maxBytes τ κ) :=
  match s.running, s.store.msgfree with
  | some (t, .alloc o), [] => some { s with
      call := update s.call t (.allocating o)
      running := none }
  | _, _ => none

/-- The signal of `mq_dosend`. What it does to a task that waits is the event `signal`. -/
def notify : Sys maxBytes τ κ :=
  match (s.store.queues q).notification with
  | none => s
  | some n => { s with
      store := s.store.setNotification q none
      signals := s.signals ++ [n] }

/-- The last part of `mq_dosend`. -/
def wakeReceiver : Option (Sys maxBytes τ κ) :=
  if s.waits.nwait .notempty q > 0 then
    (s.waits.wake .notempty q).map fun w => { s with waits := w }
  else some s

omit [DecidableEq τ] in
theorem running_notify {q : κ} {s : Sys maxBytes τ κ} : (s.notify q).running = s.running := by
  unfold notify
  split <;> rfl

theorem running_wakeReceiver {q : κ} {s s' : Sys maxBytes τ κ}
    (hs : s.wakeReceiver q = some s') : s'.running = s.running := by
  unfold wakeReceiver at hs
  split at hs
  · obtain ⟨w, -, rfl⟩ := Option.map_eq_some_iff.mp hs
    rfl
  · exact Option.some.inj hs ▸ rfl

/-- The running task makes the next step of its call. -/
def next (malloc : Option ℕ) (s : Sys maxBytes τ κ) : Option (Sys maxBytes τ κ) :=
  match s.running with
  | none => none
  | some (t, .alloc o) =>
    (s.store.mqMsgalloc malloc).map fun p => { s with store := p.2 }.goto t (.dosend p.1 o)
  | some (t, .malloced o) =>
    (s.store.malloced malloc).map fun p => { s with store := p.2 }.goto t (.dosend p.1 o)
  | some (t, .dosend a o) =>
    some ({ s with store := s.store.insert a o }.goto t (.notify o.msgq))
  | some (t, .notify q) => some ((s.notify q).goto t (.wakeReceiver q))
  | some (t, .wakeReceiver q) => (s.wakeReceiver q).map (Sys.returns t .sent)
  | some (t, .doreceive q a) =>
    some ({ s with store := s.store.deliver q a }.goto t
      (.checkNotfull q (s.store.msgs a).entry))
  | some (t, .checkNotfull q e) =>
    if s.waits.nwait .notfull q > 0 then some (s.goto t (.wakeSender q e))
    else some (s.returns t (.received e))
  | some (t, .wakeSender q e) =>
    (s.waits.wake .notfull q).map fun w => { s with waits := w }.returns t (.received e)

/-- `mq_send` in an interrupt handler, which does not wait: the message is sent if there is a
structure for it, even if the queue is full. -/
def irqSend (prio : ℤ)
    (s : Sys maxBytes τ κ) : Option (Sys maxBytes τ κ) :=
  match s.store.mqVerifysend mqdes msg prio with
  | .error _ => some s
  | .ok o =>
    match s.store.mqMsgallocIrq with
    | none => some s
    | some (a, σ) => ({ s with store := σ.insert a o }.notify o.msgq).wakeReceiver o.msgq

/-- `task_terminate`: `mq_recover`, and the TCB leaves its list. -/
def taskTerminate : Option (Sys maxBytes τ κ) :=
  (s.waits.mqRecover t).map fun w =>
    { s with waits := w.remove t, call := update s.call t .idle }

end Sys

/-! ### The system -/

/-- What happens. -/
inductive Event (τ κ : Type) where
  | send (t : τ) (mqdes : Option (Mqdes κ)) (msg : Option (List UInt8)) (prio : ℤ)
  | receive (t : τ) (mqdes : Option (Mqdes κ)) (buffer : Bool) (msglen : ℕ)
  | resume (t : τ) (nonblock : Bool)
  | next (malloc : Option ℕ)
  | mallocBlocks
  | irqSend (mqdes : Option (Mqdes κ)) (msg : Option (List UInt8)) (prio : ℤ)
  | signal (t : τ)
  | timeout (c : Cond) (t : τ)
  | mqNotify (q : κ) (n : Option (Notification τ))
  | delete (t : τ)

namespace Sys

variable [DecidableEq τ] [DecidableEq κ]

/-- The tasks act while no task is in the middle of a call; interrupts come at any time. -/
def step (s : Sys maxBytes τ κ) : Event τ κ → Option (Sys maxBytes τ κ)
  | .send t mqdes msg prio =>
    match s.running, s.call t with
    | none, .idle => some (s.mqSend t mqdes msg prio)
    | _, _ => none
  | .receive t mqdes buffer msglen =>
    match s.running, s.call t with
    | none, .idle => some (s.mqReceive t mqdes buffer msglen)
    | _, _ => none
  | .resume t nonblock =>
    match s.running, (s.waits.tcb t).taskState with
    | none, .ready => s.resume t nonblock
    | _, _ => none
  | .next malloc => s.next malloc
  | .mallocBlocks => s.mallocBlocks
  | .irqSend mqdes msg prio => s.irqSend mqdes msg prio
  | .signal t => (s.waits.mqWaitirq t .eintr).map fun w => { s with waits := w }
  | .timeout c t => (s.waits.timeout c t).map fun w => { s with waits := w }
  | .mqNotify q n =>
    match s.running with
    | none => some { s with store := s.store.setNotification q n }
    | some _ => none
  | .delete t =>
    match s.running with
    | none => s.taskTerminate t
    | some _ => none

/-- The state after `mq_initialize`, with the queues as `mq_msgqalloc` has made them: the addresses
below `prealloc` hold the messages for general use, and those behind them the messages for interrupt
handlers. -/
def init (mem : ℕ → Msg) (prealloc : ℕ) (queues : κ → Msgq maxBytes τ) (schedPriority : τ → ℕ) :
    Sys maxBytes τ κ where
  store := {
    msgs := fun a => { mem a with type := if a < prealloc then .fixed else .irq }
    structs := List.range (prealloc + numInterruptMsgs)
    msgfree := List.range prealloc
    msgfreeirq := List.range' prealloc numInterruptMsgs
    queues := queues }
  waits := { tcb := fun t => { schedPriority := schedPriority t } }

end Sys

end GreenboneFeeder.Mqueue
