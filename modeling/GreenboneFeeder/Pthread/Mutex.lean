import GreenboneFeeder.Sem.Plain

/-!
# Mutexes

A mutex of `sched/pthread` is a semaphore, the thread that holds it (`pid`) and, for recursive
mutexes, the number of its locks (`nlocks`). The calls run with pre-emption disabled; only
`pthread_mutex_lock` gives up the processor, when it has to wait for the semaphore. A thread owns
the mutex while it has locked it more often than it has unlocked it.
-/

namespace GreenboneFeeder.Pthread

open Sem (Plain)

/-- The types of mutexes, with `CONFIG_MUTEX_TYPES`. -/
inductive MutexType where
  | normal
  | errorcheck
  | recursive
deriving DecidableEq, Repr

/-- What a call returns. -/
inductive Errno where
  | ok
  | eperm
  | ebusy
  | edeadlk
deriving DecidableEq, Repr

/-- A value in an `int`. -/
def int (n : ℤ) : ℤ := n.bmod (2 ^ 32)

theorem int_of_lt {n : ℤ} (hle : -2 ^ 31 ≤ n) (hlt : n < 2 ^ 31) : int n = n :=
  Int.bmod_eq_of_le (by omega) (by omega)

/-- **A mutex** (`pthread_mutex_t`). No thread has the process identifier 0, which stands for
none. -/
structure Mutex (τ : Type) where
  sem : Plain τ
  pid : Option τ
  type : MutexType
  nlocks : ℤ
deriving DecidableEq, Repr

variable {τ : Type}

/-- `pthread_mutex_init`. -/
def pthreadMutexInit (type : MutexType) : Mutex τ where
  sem := Plain.semInit 1
  pid := none
  type := type
  nlocks := 0

variable [DecidableEq τ]

variable (mypid : τ) (mutex : Mutex τ)

/-- What `pthread_mutex_lock` does once the thread has the semaphore. -/
def Mutex.own : Mutex τ := { mutex with pid := some mypid, nlocks := 1 }

/-- `pthread_mutex_lock`, up to where it waits for the semaphore. It has no result then. -/
def pthreadMutexLock : Mutex τ × Option Errno :=
  if mutex.pid = some mypid then
    if mutex.type = .recursive then ({ mutex with nlocks := int (mutex.nlocks + 1) }, some .ok)
    else (mutex, some .edeadlk)
  else
    match mutex.sem.semWait mypid with
    | (sem, true) => (Mutex.own mypid { mutex with sem }, some .ok)
    | (sem, false) => ({ mutex with sem }, none)

/-- `pthread_mutex_trylock`. -/
def pthreadMutexTrylock : Mutex τ × Errno :=
  match mutex.sem.semTrywait with
  | some sem => ({ mutex with sem, pid := some mypid }, .ok)
  | none => (mutex, .ebusy)

/-- `pthread_mutex_unlock`, when the post, if there is one, gives the semaphore to `stcb`. The
result names that thread. -/
def pthreadMutexUnlock (stcb : Option τ) (mutex : Mutex τ) :
    Option (Mutex τ × Errno × Option τ) :=
  if mutex.pid ≠ some mypid then some (mutex, .eperm, none)
  else if mutex.type = .recursive ∧ mutex.nlocks > 1 then
    some ({ mutex with nlocks := int (mutex.nlocks - 1) }, .ok, none)
  else
    (mutex.sem.semPost stcb).map fun sem =>
      ({ mutex with sem, pid := none, nlocks := 0 }, .ok, stcb)

/-! ### Interleavings -/

/-- Where a thread is: outside of the calls, blocked in `pthread_mutex_lock`, or there with the
semaphore given to it and not yet running. -/
inductive Place where
  | outside
  | blocked
  | given
deriving DecidableEq, Repr

/-- **The mutex and its threads**, with the numbers of their successful locks and unlocks. -/
structure MutexSys (τ : Type) where
  mutex : Mutex τ
  place : τ → Place
  locks : τ → ℕ
  unlocks : τ → ℕ

/-- What can happen next: a call, or a thread that was given the semaphore runs again. -/
inductive MutexEvent (τ : Type) where
  | lock (t : τ)
  | trylock (t : τ)
  | unlock (t : τ) (stcb : Option τ)
  | resume (t : τ)

namespace MutexSys

variable (t : τ) (s : MutexSys τ)

/-- A successful lock is counted. -/
def locked : MutexSys τ :=
  { s with locks := Function.update s.locks t (s.locks t + 1) }

/-- A successful unlock is counted. -/
def unlocked : MutexSys τ :=
  { s with unlocks := Function.update s.unlocks t (s.unlocks t + 1) }

/-- A thread goes to another place. -/
def move (p : Place) (s : MutexSys τ) : MutexSys τ :=
  { s with place := Function.update s.place t p }

/-- The thread that was given the semaphore can run again. -/
def wake : Option τ → MutexSys τ
  | some t => s.move t .given
  | none => s

/-- **One step.** -/
def step : MutexEvent τ → Option (MutexSys τ)
  | .lock t =>
    if s.place t = .outside then
      match pthreadMutexLock t s.mutex with
      | (mutex, some .ok) => some ({ s with mutex }.locked t)
      | (mutex, some _) => some { s with mutex }
      | (mutex, none) => some ({ s with mutex }.move t .blocked)
    else none
  | .trylock t =>
    if s.place t = .outside then
      match pthreadMutexTrylock t s.mutex with
      | (mutex, .ok) => some ({ s with mutex }.locked t)
      | (mutex, _) => some { s with mutex }
    else none
  | .unlock t stcb =>
    if s.place t = .outside then
      match pthreadMutexUnlock t stcb s.mutex with
      | some (mutex, .ok, woken) => some (({ s with mutex }.unlocked t).wake woken)
      | some (mutex, _, _) => some { s with mutex }
      | none => none
    else none
  | .resume t =>
    if s.place t = .given then
      some (({ s with mutex := s.mutex.own t }.locked t).move t .outside)
    else none

/-- A new mutex that no thread has used yet. -/
def init (type : MutexType) : MutexSys τ where
  mutex := pthreadMutexInit type
  place := fun _ => .outside
  locks := fun _ => 0
  unlocks := fun _ => 0

/-- The thread owns the mutex: it has locked it more often than it has unlocked it. -/
def Owns (t : τ) : Prop := s.unlocks t < s.locks t

instance (s : MutexSys τ) (t : τ) : Decidable (s.Owns t) := inferInstanceAs (Decidable (_ < _))

end MutexSys

end GreenboneFeeder.Pthread
