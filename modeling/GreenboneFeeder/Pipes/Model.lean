import GreenboneFeeder.Lib.Ring
import GreenboneFeeder.Lib.Run
import Mathlib.Data.Int.Notation

/-!
# Pipes

`pipecommon_read` and `pipecommon_write` of `drivers/pipes/pipe_common.c`, called by any number of
tasks. What a task does while it holds `d_bfsem` is one step here (a *pass*). A reader of an empty
pipe waits for `d_rdsem` and a writer of a full one for `d_wrsem`; the scheduler is locked from
before `d_bfsem` is given until the task waits.

The count of `d_rdsem` is the negative number of its waiters: it starts at zero and is posted only
while it is negative, until it is not. So a notification wakes all waiters, and the semaphore needs
no field; the same holds of `d_wrsem`. The pipe also carries the bytes stored and the bytes returned
so far, and a call of `pipecommon_write` those that it has stored itself.
-/

namespace GreenboneFeeder.Pipes

/-- The part of `struct pipe_dev_s` that reading and writing use, with everything that was
stored in the pipe and returned from it. -/
structure Pipe where
  wrndx : ℕ
  rdndx : ℕ
  nwriters : ℕ
  buffer : ℕ → UInt8
  stored : List UInt8 := []
  returned : List UInt8 := []

/-- The variables of a call of `pipecommon_write`, and the bytes it has stored. -/
structure Writing where
  buffer : ℕ → UInt8
  len : ℕ
  nwritten : ℕ := 0
  last : ℕ := 0
  stored : List UInt8 := []

/-- Where a task is: outside, in a call that waits, or in one that was woken and has yet to take
`d_bfsem`. A writer whose wait was interrupted (`writeAgain`) has yet to wait again. -/
inductive Task where
  | idle
  | readWait (len : ℕ)
  | readWoken (len : ℕ)
  | writeWait (w : Writing)
  | writeAgain (w : Writing)
  | writeWoken (w : Writing)

/-- A call of `pipecommon_write` that has returned. -/
structure Written where
  call : Writing
  result : ℤ

/-- The pipe, the tasks, and the writes that have returned. -/
structure Sys (τ : Type) where
  pipe : Pipe
  task : τ → Task
  writes : List Written := []

/-! ### The loops -/

namespace Pipe

/-- A byte is stored at `d_wrndx`. -/
def put (p : Pipe) (nxtwrndx : ℕ) (b : UInt8) : Pipe :=
  { p with
    buffer := Function.update p.buffer p.wrndx b
    wrndx := nxtwrndx
    stored := p.stored ++ [b] }

/-- The byte at `d_rdndx` is returned. -/
def get (N : ℕ) (p : Pipe) : Pipe :=
  { p with
    rdndx := Ring.next N p.rdndx
    returned := p.returned ++ [p.buffer p.rdndx] }

/-- `while (nread < len && dev->d_wrndx != dev->d_rdndx)`, with a bound on the rounds. -/
def readLoop (N len : ℕ) : ℕ → Pipe → ℕ → Option Pipe
  | 0, _, _ => none
  | fuel + 1, p, nread =>
    if nread < len ∧ p.wrndx ≠ p.rdndx then readLoop N len fuel (p.get N) (nread + 1)
    else some p

/-- How a pass of a writer ends: with the last byte, or with a full pipe. -/
inductive Exit where
  | complete
  | full
  deriving DecidableEq, Repr

/-- The `for (;;)` of `pipecommon_write`, up to the end of a pass, with a bound on the
rounds. -/
def writeLoop (N : ℕ) : ℕ → Pipe → Writing → Option (Pipe × Writing × Exit)
  | 0, _, _ => none
  | fuel + 1, p, w =>
    let nxtwrndx := Ring.next N p.wrndx
    if nxtwrndx ≠ p.rdndx then
      let b := w.buffer w.nwritten
      let p := p.put nxtwrndx b
      let w := { w with nwritten := w.nwritten + 1, stored := w.stored ++ [b] }
      -- the test comes after the byte is stored
      if w.nwritten ≥ w.len then some (p, w, .complete) else writeLoop N fuel p w
    else some (p, w, .full)

/-- The events that `pipecommon_poll` offers when a poll is set up: `POLLIN` and `POLLOUT`. -/
def pipecommonPoll (N : ℕ) (p : Pipe) : Bool × Bool :=
  let nbytes := if p.rdndx ≤ p.wrndx then p.wrndx - p.rdndx else N - 1 + p.wrndx - p.rdndx
  (0 < nbytes, nbytes < N - 1)

end Pipe

/-! ### The passes -/

/-- `EAGAIN`. -/
def eagain : ℤ := 11

/-- All waiters for `d_rdsem` are woken. -/
def Task.notifyReader : Task → Task
  | .readWait len => .readWoken len
  | s => s

/-- All waiters for `d_wrsem` are woken. -/
def Task.notifyWriter : Task → Task
  | .writeWait w => .writeWoken w
  | s => s

namespace Sys

variable {τ : Type} [DecidableEq τ]

def setTask (t : τ) (c : Task) (s : Sys τ) : Sys τ := { s with task := Function.update s.task t c }

def notifyReaders (s : Sys τ) : Sys τ := { s with task := fun t => (s.task t).notifyReader }

def notifyWriters (s : Sys τ) : Sys τ := { s with task := fun t => (s.task t).notifyWriter }

/-- A call of `pipecommon_write` returns. -/
def writeReturns (t : τ) (w : Writing) (result : ℤ) (s : Sys τ) : Sys τ :=
  setTask t .idle { s with writes := s.writes ++ [{ call := w, result := result }] }

/-- A pass of `pipecommon_read`: it returns, or waits when there is nothing to read. -/
def readPass (N : ℕ) (nonblock : Bool) (t : τ) (len : ℕ) (s : Sys τ) : Option (Sys τ) :=
  if s.pipe.wrndx = s.pipe.rdndx then
    if nonblock then some (s.setTask t .idle)
    else if s.pipe.nwriters = 0 then some (s.setTask t .idle)
    else some (s.setTask t (.readWait len))
  else do
    let p ← s.pipe.readLoop N len N 0
    return ({ s with pipe := p }.notifyWriters).setTask t .idle

/-- A pass of `pipecommon_write`: it returns, or waits when the pipe is full. -/
def writePass (N : ℕ) (nonblock : Bool) (t : τ) (w : Writing) (s : Sys τ) : Option (Sys τ) :=
  match s.pipe.writeLoop N N w with
  | none => none
  | some (p, w, .complete) =>
    some ({ s with pipe := p }.notifyReaders.writeReturns t w w.len)
  | some (p, w, .full) =>
    let s := { s with pipe := p }
    let s := if w.last < w.nwritten then s.notifyReaders else s
    let w := { w with last := w.nwritten }
    if nonblock then some (s.writeReturns t w (if w.nwritten = 0 then -eagain else w.nwritten))
    else some (s.setTask t (.writeWait w))

end Sys

/-! ### The system -/

/-- What happens: a task begins a call, a woken task takes `d_bfsem` and goes on, a signal reaches a
task in a call, or a pipe is opened or closed elsewhere. `O_NONBLOCK` is looked at in every pass. -/
inductive Event (τ : Type) where
  | read (t : τ) (len : ℕ) (nonblock : Bool)
  | write (t : τ) (buffer : ℕ → UInt8) (len : ℕ) (nonblock : Bool)
  | resume (t : τ) (nonblock : Bool)
  | interrupt (t : τ)
  | writers (n : ℕ) (wake : Bool)

namespace Sys

variable {τ : Type} [DecidableEq τ]

def step (N : ℕ) (s : Sys τ) : Event τ → Option (Sys τ)
  | .read t len nonblock =>
    match s.task t with
    | .idle => s.readPass N nonblock t len
    | _ => none
  | .write t buffer len nonblock =>
    match s.task t with
    | .idle => s.writePass N nonblock t { buffer := buffer, len := len }
    | _ => none
  | .resume t nonblock =>
    match s.task t with
    | .readWoken len => s.readPass N nonblock t len
    | .writeWoken w => s.writePass N nonblock t w
    | .writeAgain w => some (s.setTask t (.writeWait w))
    | _ => none
  | .interrupt t =>
    -- a reader gives up with `ERROR`; a writer waits again
    match s.task t with
    | .readWait _ | .readWoken _ => some (s.setTask t .idle)
    | .writeWait w => some (s.setTask t (.writeAgain w))
    | .writeAgain _ | .writeWoken _ => some s
    | .idle => none
  | .writers n wake =>
    let s := { s with pipe := { s.pipe with nwriters := n } }
    some (if wake then s.notifyReaders else s)

/-- The pipe when it is opened for the first time. -/
def init (τ : Type) (nwriters : ℕ) (buffer : ℕ → UInt8) : Sys τ where
  pipe := { wrndx := 0, rdndx := 0, nwriters := nwriters, buffer := buffer }
  task _ := .idle

end Sys

end GreenboneFeeder.Pipes
