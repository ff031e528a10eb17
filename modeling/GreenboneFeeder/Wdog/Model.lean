import GreenboneFeeder.Lib.Delta
import GreenboneFeeder.Lib.Run

/-!
# Watchdogs

`wd_start`, `wd_cancel`, `wd_gettime` and `wd_timer` of `sched/wdog`, without
`CONFIG_SCHED_TICKLESS`. The active watchdogs stand in `g_wdactivelist`, each with the number of
ticks (its *lag*) by which it expires later than the one in front of it. The arithmetic is that of
`int` and of `int32_t`, which wrap. What a function called at expiration does to the watchdogs is a
list of commands, which may depend on the history of the system.
-/

namespace GreenboneFeeder.Wdog

/-- A number as a 32-bit `int`. -/
def int (x : ℤ) : ℤ := x.bmod 0x100000000

/-- `INT_MAX`. -/
def intMax : ℤ := 0x7fffffff

/-- The watchdogs: the active list with the lags, the flag `WDOGF_ACTIVE` of each, and the
function it calls. -/
structure Wdogs (W F : Type) where
  activelist : List (W × ℤ)
  active : W → Bool
  func : W → F

variable {W F : Type} [DecidableEq W]

/-! ### Cancelling and asking for the time -/

/-- What is behind a watchdog that is taken out takes over its lag. -/
def carryLag (lag : ℤ) : List (W × ℤ) → List (W × ℤ)
  | [] => []
  | (next, nextlag) :: l => (next, int (nextlag + lag)) :: l

/-- The walk to the watchdog, which is taken out; nothing if it is not there. -/
def remove (w : W) : List (W × ℤ) → Option (List (W × ℤ))
  | [] => none
  | (curr, lag) :: l =>
    if curr = w then some (carryLag lag l)
    else (remove w l).map fun l => (curr, lag) :: l

/-- `OK`. -/
def ok : ℤ := 0

/-- `ERROR`. -/
def error : ℤ := -1

/-- **`wd_cancel`**: nothing if the assertion fails that an active watchdog is in the list. -/
def wdCancel (s : Wdogs W F) (w : W) : Option (Wdogs W F × ℤ) :=
  if s.active w then
    (remove w s.activelist).map fun l =>
      ({ s with activelist := l, active := Function.update s.active w false }, ok)
  else some (s, error)

/-- The loop of `wd_gettime`. -/
def timeLeft (w : W) : ℤ → List (W × ℤ) → ℤ
  | _, [] => 0
  | delay, (curr, lag) :: l =>
    if curr = w then int (delay + lag) else timeLeft w (int (delay + lag)) l

/-- **`wd_gettime`.** -/
def wdGettime (s : Wdogs W F) (w : W) : ℤ :=
  if s.active w then timeLeft w 0 s.activelist else 0

/-! ### Starting -/

/-- A place in the list: what is in front of `curr`, `curr` and what is behind it, and the
time `now` at which `curr` expires. -/
structure Place (W : Type) where
  before : List (W × ℤ)
  curr : W × ℤ
  behind : List (W × ℤ)
  now : ℤ

/-- The first loop of `wd_start`: it goes past what is overdue. -/
def skipOverdue (before : List (W × ℤ)) (now : ℤ) (curr : W × ℤ) : List (W × ℤ) → Place W
  | [] => ⟨before, curr, [], int (now + curr.2)⟩
  | next :: behind =>
    if int (now + curr.2) < 0 then skipOverdue (before ++ [curr]) (int (now + curr.2)) next behind
    else ⟨before, curr, next :: behind, int (now + curr.2)⟩

/-- The second loop of `wd_start`: it goes past what does not expire later. -/
def skipSooner (delay : ℤ) (before : List (W × ℤ)) (now : ℤ) (curr : W × ℤ) :
    List (W × ℤ) → Place W
  | [] => ⟨before, curr, [], now⟩
  | next :: behind =>
    if now ≤ delay then skipSooner delay (before ++ [curr]) (int (now + next.2)) next behind
    else ⟨before, curr, next :: behind, now⟩

/-- The watchdog is put in front of the place that was found, or behind it. -/
def Place.put (p : Place W) (w : W) (delay : ℤ) : List (W × ℤ) :=
  if delay < p.now then
    let delay := int (delay - int (p.now - p.curr.2))
    p.before ++ (w, delay) :: (p.curr.1, int (p.curr.2 - delay)) :: p.behind
  else
    let delay := int (delay - p.now)
    match p.behind with
    | [] => p.before ++ [p.curr, (w, delay)]
    | next :: behind => p.before ++ p.curr :: (w, delay) :: (next.1, int (next.2 - delay)) :: behind

/-- The watchdog is put into the list. -/
def insert (w : W) (delay : ℤ) : List (W × ℤ) → List (W × ℤ)
  | [] => [(w, delay)]
  | head :: l =>
    let p := skipOverdue [] 0 head l
    let p := skipSooner delay p.before p.now p.curr p.behind
    p.put w delay

/-- The delay is made at least one, and one longer unless that overflows. -/
def adjust (delay : ℤ) : ℤ :=
  if delay ≤ 0 then 1
  else
    let delay := int (delay + 1)
    if delay ≤ 0 then int (delay - 1) else delay

/-- **`wd_start`**: with a negative delay it returns an error; a watchdog that is active is
cancelled first. -/
def wdStart (s : Wdogs W F) (w : W) (delay : ℤ) (func : F) : Option (Wdogs W F × ℤ) :=
  if delay < 0 then some (s, error)
  else do
    let (s, _) ← wdCancel s w
    return ({
      activelist := insert w (adjust delay) s.activelist
      active := Function.update s.active w true
      func := Function.update s.func w func }, ok)

/-! ### The system -/

/-- What a task, an interrupt handler or a function called at expiration does. -/
inductive Cmd (W F : Type) where
  | start (w : W) (delay : ℤ) (func : F)
  | cancel (w : W)

/-- The command starts or cancels the watchdog. -/
def Cmd.Concerns (w : W) : Cmd W F → Prop
  | .start w' _ _ | .cancel w' => w' = w

/-- A delay is not negative, and below `INT_MAX`. -/
def Cmd.Valid : Cmd W F → Prop
  | .start _ delay _ => 0 ≤ delay ∧ delay < intMax
  | .cancel _ => True

/-- What is remembered. -/
inductive Entry (W : Type) where
  | start (w : W) (delay : ℤ)
  | cancel (w : W)
  | tick
  | fire (w : W)
  deriving DecidableEq

/-- The watchdogs, and what has happened, the latest first. -/
structure Sys (W F : Type) where
  wdogs : Wdogs W F
  history : List (Entry W) := []

namespace Sys

def exec (s : Sys W F) : Cmd W F → Option (Sys W F)
  | .start w delay func => do
    let (wdogs, _) ← wdStart s.wdogs w delay func
    return { wdogs := wdogs, history := .start w delay :: s.history }
  | .cancel w => do
    let (wdogs, _) ← wdCancel s.wdogs w
    return { wdogs := wdogs, history := .cancel w :: s.history }

/-- What the functions do that are called at expiration. -/
abbrev Handler (W F : Type) := F → Sys W F → List (Cmd W F)

/-- A watchdog expires: it is taken off the list, and its function is called. -/
def fire (handler : Handler W F) (s : Sys W F) (w : W) (lag : ℤ) (l : List (W × ℤ)) :
    Option (Sys W F) :=
  let wdogs := { s.wdogs with
    activelist := carryLag lag l
    active := Function.update s.wdogs.active w false }
  let s := { wdogs := wdogs, history := .fire w :: s.history }
  Run.run exec s (handler (wdogs.func w) s)

/-- **`wd_expiration`**, with a bound on its rounds. -/
def wdExpiration (handler : Handler W F) : ℕ → Sys W F → Option (Sys W F)
  | 0, _ => none
  | fuel + 1, s =>
    match s.wdogs.activelist with
    | [] => some s
    | (w, lag) :: l =>
      if lag ≤ 0 then (s.fire handler w lag l).bind (wdExpiration handler fuel) else some s

/-- **`wd_timer`.** A tick expires no more watchdogs than are active at its beginning. -/
def wdTimer (handler : Handler W F) (s : Sys W F) : Option (Sys W F) :=
  match s.wdogs.activelist with
  | [] => some s
  | (w, lag) :: l =>
    wdExpiration handler (l.length + 2)
      { s with wdogs := { s.wdogs with activelist := (w, int (lag - 1)) :: l } }

/-- A command is given, or the timer ticks. -/
inductive Event (W F : Type) where
  | cmd (c : Cmd W F)
  | tick

def Event.Valid : Event W F → Prop
  | .cmd c => c.Valid
  | .tick => True

def step (handler : Handler W F) (s : Sys W F) : Event W F → Option (Sys W F)
  | .cmd c => s.exec c
  | .tick => wdTimer handler { s with history := .tick :: s.history }

/-- No watchdog is active. -/
def init (func : W → F) : Sys W F where
  wdogs := { activelist := [], active := fun _ => false, func := func }

end Sys

end GreenboneFeeder.Wdog
