import GreenboneFeeder.Pthread.Held

/-!
# Condition variables

A condition variable of `sched/pthread` is a semaphore. `pthread_cond_wait` gives up the mutex and
waits for that semaphore, and then takes the mutex again. `pthread_cond_signal` and
`pthread_cond_broadcast` read the count of the semaphore, and post it once, or as often as the count
says that there are waiters.

The calls are split where others can act between. `pthread_cond_wait` and `pthread_cond_broadcast`
disable pre-emption, but with priority inheritance `sem_post` may give up the processor all the
same, when it takes back the priority that its caller was lent; so other threads may run after every
post. Signals may be delivered by interrupt handlers at any time. A signal ends the wait of a
blocked thread, which goes round the loop of `pthread_takesemaphore`.
-/

namespace GreenboneFeeder.Pthread

open Sem (Plain)

/-- Where a thread is in `pthread_takesemaphore`: about to wait, blocked, or given the count and
not yet running. -/
inductive Wait where
  | ready
  | blocked
  | given
deriving DecidableEq, Repr

/-- Where a thread is. -/
inductive Where where
  | outside
  /-- in `pthread_mutex_lock`, taking the mutex -/
  | locking (w : Wait)
  /-- in `pthread_cond_wait`, taking the semaphore of the condition -/
  | waiting (w : Wait)
  /-- in `pthread_cond_wait`, taking the mutex again -/
  | reacquiring (w : Wait)
  /-- in `pthread_cond_wait`, with the mutex taken and `pid` not yet set -/
  | reacquired
  /-- in `pthread_cond_signal`, with the count that was read -/
  | signalling (sval : ℤ)
  /-- in `pthread_cond_broadcast`, with the count that is left to post -/
  | broadcasting (sval : ℤ)
deriving DecidableEq, Repr

/-- The thread was blocked, and has been given the count. -/
def Where.wake : Where → Where
  | .locking _ => .locking .given
  | .waiting _ => .waiting .given
  | .reacquiring _ => .reacquiring .given
  | w => w

/-- **A condition variable, its mutex and their threads.** The calls of `pthread_cond_wait` are
numbered. -/
structure CondSys (τ : Type) where
  mutex : Mutex τ
  cond : Plain τ
  /-- where the threads are -/
  loc : τ → Where
  /-- the number of the call of `pthread_cond_wait` that the thread is in, or of its last one -/
  call : τ → ℕ
  calls : ℕ

/-- What can happen next. -/
inductive CondEvent (τ : Type) where
  | lock (t : τ)
  | trylock (t : τ)
  | unlock (t : τ) (stcb : Option τ)
  /-- `pthread_cond_wait`, up to where it has given up the mutex -/
  | wait (t : τ) (stcb : Option τ)
  /-- `pthread_cond_signal`, up to where it has read the count -/
  | signal (t : τ)
  /-- `pthread_cond_broadcast`, up to where it has read the count -/
  | broadcast (t : τ)
  /-- the next post, or the end of a call that has nothing to post -/
  | post (t : τ) (stcb : Option τ)
  /-- `pthread_takesemaphore` waits, at first or after a signal -/
  | take (t : τ)
  /-- a thread that has got a semaphore goes on -/
  | resume (t : τ)
  /-- a signal is delivered to a blocked thread -/
  | interrupt (t : τ)

namespace CondSys

variable {τ : Type} [DecidableEq τ]

variable (t : τ) (stcb : Option τ) (s : CondSys τ)

/-- A thread goes to another place. -/
def move (w : Where) (s : CondSys τ) : CondSys τ :=
  { s with loc := Function.update s.loc t w }

/-- A thread that was given a count can run. -/
def wake (s : CondSys τ) : Option τ → CondSys τ
  | some u => s.move u (s.loc u).wake
  | none => s

/-- The thread waits for the semaphore of the condition. -/
def takeCond : CondSys τ :=
  match s.cond.semWait t with
  | (cond, true) => { s with cond }.move t (.reacquiring .ready)
  | (cond, false) => { s with cond }.move t (.waiting .blocked)

/-- The thread waits for the semaphore of the mutex, and is at `done` or at `blocked` then. -/
def takeMutex (done blocked : Where) (s : CondSys τ) : CondSys τ × Bool :=
  match s.mutex.sem.semWait t with
  | (sem, true) => ({ s with mutex := { s.mutex with sem } }.move t done, true)
  | (sem, false) => ({ s with mutex := { s.mutex with sem } }.move t blocked, false)

/-- `pthread_mutex_lock` ends. -/
def own (t : τ) (s : CondSys τ) : CondSys τ := { s with mutex := s.mutex.own t }.move t .outside

/-- A call of `pthread_cond_wait` is numbered. -/
def count : CondSys τ :=
  { s with call := Function.update s.call t (s.calls + 1), calls := s.calls + 1 }

/-- `pthread_cond_wait`, up to where it has given up the mutex. -/
def pthreadCondWait : Option (CondSys τ) :=
  (s.mutex.sem.semPost stcb).map fun sem =>
    (({ s with mutex := { s.mutex with sem, pid := none } }.wake stcb).count t).move t
      (.waiting .ready)

/-- What a thread does next that has read the count. -/
def postNext : Where → Option (CondSys τ)
  | .signalling sval =>
    if sval < 0 then
      (s.cond.semPost stcb).map fun cond => ({ s with cond }.wake stcb).move t .outside
    else some (s.move t .outside)
  | .broadcasting sval =>
    if sval < 0 then
      (s.cond.semPost stcb).map fun cond =>
        ({ s with cond }.wake stcb).move t (.broadcasting (sval + 1))
    else some (s.move t .outside)
  | _ => none

/-- What `pthread_takesemaphore` does next. -/
def takeNext : Where → Option (CondSys τ)
  | .locking .ready =>
    match s.takeMutex t .outside (.locking .blocked) with
    | (s, true) => some (s.own t)
    | (s, false) => some s
  | .waiting .ready => some (s.takeCond t)
  | .reacquiring .ready => some (s.takeMutex t .reacquired (.reacquiring .blocked)).1
  | _ => none

/-- What a thread does next that has got a semaphore. -/
def resumeNext : Where → Option (CondSys τ)
  | .locking .given => some (s.own t)
  | .waiting .given => some (s.move t (.reacquiring .ready))
  | .reacquiring .given => some (s.move t .reacquired)
  | .reacquired => some ({ s with mutex := { s.mutex with pid := some t } }.move t .outside)
  | _ => none

/-- What a signal does to a blocked thread. -/
def interruptNext : Where → Option (CondSys τ)
  | .locking .blocked => (s.mutex.sem.semWaitirq t).map fun sem =>
      { s with mutex := { s.mutex with sem } }.move t (.locking .ready)
  | .waiting .blocked => (s.cond.semWaitirq t).map fun cond =>
      { s with cond }.move t (.waiting .ready)
  | .reacquiring .blocked => (s.mutex.sem.semWaitirq t).map fun sem =>
      { s with mutex := { s.mutex with sem } }.move t (.reacquiring .ready)
  | _ => none

/-- **One step.** The calls on the condition variable are made by the thread that holds the
mutex. -/
def step : CondEvent τ → Option (CondSys τ)
  | .lock t =>
    if s.loc t = .outside then
      match pthreadMutexLock t s.mutex with
      | (mutex, some _) => some { s with mutex }
      | (mutex, none) => some ({ s with mutex }.move t (.locking .blocked))
    else none
  | .trylock t =>
    if s.loc t = .outside then some { s with mutex := (pthreadMutexTrylock t s.mutex).1 } else none
  | .unlock t stcb =>
    if s.loc t = .outside then
      match pthreadMutexUnlock t stcb s.mutex with
      | some (mutex, _, woken) => some ({ s with mutex }.wake woken)
      | none => none
    else none
  | .wait t stcb =>
    if s.loc t = .outside ∧ s.mutex.pid = some t then s.pthreadCondWait t stcb else none
  | .signal t =>
    if s.loc t = .outside ∧ s.mutex.pid = some t then
      some (s.move t (.signalling s.cond.semcount))
    else none
  | .broadcast t =>
    if s.loc t = .outside ∧ s.mutex.pid = some t then
      some (s.move t (.broadcasting s.cond.semcount))
    else none
  | .post t stcb => s.postNext t stcb (s.loc t)
  | .take t => s.takeNext t (s.loc t)
  | .resume t => s.resumeNext t (s.loc t)
  | .interrupt t => s.interruptNext t (s.loc t)

/-- `pthread_mutex_init` and `pthread_cond_init`. -/
def init (type : MutexType) : CondSys τ where
  mutex := pthreadMutexInit type
  cond := Plain.semInit 0
  loc := fun _ => .outside
  call := fun _ => 0
  calls := 0

end CondSys

end GreenboneFeeder.Pthread
