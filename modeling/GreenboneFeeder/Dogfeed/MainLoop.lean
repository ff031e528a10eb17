import GreenboneFeeder.Dogfeed.Settings

/-!
# One iteration of the main loop

`dogfeed_main` reads the buttons, lets time pass, and drives the valve and the motor, over and over.
This is the body of that loop, cut where the source is cut: the handling of a key, the three nested
counters, and the two blocks that write to the valve and to the motor.

Only the modulus of the minute roll-over can fail. In C a modulus by zero has no meaning, so here it
is an `Option` (`Dogfeed.cMod`).
-/

namespace GreenboneFeeder.Dogfeed

/-- The statics, the locals of `dogfeed_main` that live from one iteration to the next, and the
bytes the last step wrote to `fd_valve` and `fd_motor`. `valve_exit_enabled` is never read and is
left out. -/
structure Feeder extends Statics where
  motorEnabled : UInt8 := 0
  valveEnterEnabled : UInt8 := 0
  blink : UInt8 := 0
  valveWritten : Option UInt8 := none
  motorWritten : Option UInt8 := none
  deriving DecidableEq, Repr

/-! ### A pressed key -/

variable (btkey : UInt8) (f : Feeder)

/-- The tests of `btkey` against the six known keys; at most one of them
succeeds. -/
def selectKey (s : Statics) : Statics :=
  if btkey = percentFoodKey then
    { setMode percentFoodKey s with count := s.percentFood.toNat, running := 0 }
  else if btkey = periodFoodKey then
    { setMode periodFoodKey s with count := s.periodFood.toNat, running := 0 }
  else if btkey = periodWaterKey then
    { setMode periodWaterKey s with count := s.periodWater.toNat, running := 0 }
  else if btkey = confirmModeKey then
    { setMode confirmModeKey s with running := 0 }
  else if btkey = keyUp then
    if s.running = 0 then { s with count := incInt s.count } else s
  else if btkey = keyDown then
    if s.running = 0 then { s with count := s.count - 1 } else s
  else s

/-- The clamping of `count` for a mode: `max_count` is 99 for the amount of food
and 24 for everything else. -/
def clampCount (lmode : UInt8) (count : ℤ) : ℤ :=
  let maxCount : ℤ := if lmode = percentFoodKey then 99 else 24
  let count := if count < 0 then 0 else count
  if count > maxCount then maxCount else count

/-- The block under `if (!running)`: the clamped count is stored in the setting
the mode selects, or the settings are confirmed. -/
def storeCount (s : Statics) : Statics :=
  let count := clampCount s.mode s.count
  let s := { s with count := count }
  if s.mode = percentFoodKey then setPercentFood (UInt8.ofInt count) s
  else if s.mode = periodFoodKey then setPeriodFood (UInt8.ofInt count) s
  else if s.mode = periodWaterKey then setPeriodWater (UInt8.ofInt count) s
  else if s.mode = confirmModeKey then setConfirmMode s
  else s

/-- The block under `if (btkey)`. -/
def pressKey (s : Statics) : Statics :=
  if btkey = 0 then s
  else
    let s := selectKey btkey s
    if s.running = 0 then storeCount s else s

/-! ### The counters -/

/-- `if (running) miliseconds++`. -/
def countMiliseconds : Feeder :=
  if f.running ≠ 0 then { f with miliseconds := incInt f.miliseconds } else f

/-- The block under `if (miliseconds >= 50)`: one second has passed, and the LED
blinks. -/
def countSeconds : Feeder :=
  if 50 ≤ f.miliseconds then
    { f with
      toStatics := writeLed f.blink
        { f.toStatics with seconds := incInt f.seconds, miliseconds := 0 }
      blink := if f.blink = 0 then 8 else 0 }
  else f

/-- The C modulus by a `uint8_t`: no value for a zero divisor. -/
def cMod (x : ℤ) (d : UInt8) : Option ℤ :=
  if d = 0 then none else some (Int.tmod x d.toNat)

/-- The block under `if (seconds >= 60)`: a minute has passed, and at the
multiples of the two periods the valve and the motor are enabled. -/
def countMinutes : Option Feeder :=
  if 60 ≤ f.seconds then do
    let minutes := incInt f.minutes
    let s :=
      writeDisplay (UInt8.ofInt minutes) { f.toStatics with minutes := minutes, seconds := 0 }
    let water ← cMod minutes s.periodWater
    let food ← cMod minutes s.periodFood
    some { f with
      toStatics := s
      valveEnterEnabled := if water = 0 then 1 else f.valveEnterEnabled
      motorEnabled := if food = 0 then 1 else f.motorEnabled }
  else some f

/-! ### The valve and the motor -/

/-- The block under `if (valve_enter_enabled)`. -/
def driveValve : Feeder :=
  if f.valveEnterEnabled ≠ 0 then
    let enabled := if (f.percentFood.toNat : ℤ) < f.seconds then 0 else f.valveEnterEnabled
    { f with valveEnterEnabled := enabled, valveWritten := some enabled }
  else { f with valveWritten := none }

/-- The block under `if (motor_enabled)`: the percentage is compared with twice the
seconds, unlike for the valve. -/
def driveMotor : Feeder :=
  if f.motorEnabled ≠ 0 then
    let enabled := if (f.percentFood.toNat : ℤ) < f.seconds * 2 then 0 else f.motorEnabled
    { f with motorEnabled := enabled, motorWritten := some enabled }
  else { f with motorWritten := none }

/-! ### The iteration -/

/-- The statics once the pressed key has been handled. -/
def keyed : Statics :=
  pressKey btkey { f.toStatics with writes := [] }

/-- The iteration up to the test of the seconds. -/
def beforeMinute : Feeder :=
  countSeconds (countMiliseconds { f with toStatics := keyed btkey f })

/-- **One iteration of the main loop** in which the buttons read `btkey`. The writes
of the result are those of this iteration. -/
def loopBody : Option Feeder :=
  (countMinutes (beforeMinute btkey f)).map fun g => driveMotor (driveValve g)

/-- The iteration rolls over a minute. -/
def RollsOver : Prop := 60 ≤ (beforeMinute btkey f).seconds

instance (btkey : UInt8) (f : Feeder) : Decidable (RollsOver btkey f) :=
  inferInstanceAs (Decidable (_ ≤ _))

/-! ### What each block changes -/

section Blocks

variable {f g : Feeder}

theorem countSeconds_of_lt (h : f.miliseconds < 50) : countSeconds f = f :=
  if_neg (by omega)

theorem countSeconds_of_ge (h : 50 ≤ f.miliseconds) :
    ∃ ws b, countSeconds f =
      { f with seconds := incInt f.seconds, miliseconds := 0, writes := ws, blink := b } := by
  obtain ⟨ws, hw⟩ := writeLed_eq f.blink
    { f.toStatics with seconds := incInt f.seconds, miliseconds := 0 }
  refine ⟨ws, if f.blink = 0 then 8 else 0, ?_⟩
  rw [countSeconds, if_pos h, hw]

theorem countMinutes_of_lt (h : f.seconds < 60) : countMinutes f = some f :=
  if_neg (by omega)

theorem countMinutes_of_ge (h : 60 ≤ f.seconds) (hw : f.periodWater ≠ 0) (hf : f.periodFood ≠ 0) :
    ∃ ws, countMinutes f = some { f with
      minutes := incInt f.minutes, seconds := 0, writes := ws
      valveEnterEnabled :=
        if Int.tmod (incInt f.minutes) f.periodWater.toNat = 0 then 1 else f.valveEnterEnabled
      motorEnabled :=
        if Int.tmod (incInt f.minutes) f.periodFood.toNat = 0 then 1 else f.motorEnabled } := by
  rw [countMinutes, if_pos h]
  simp [cMod, writeDisplay, hw, hf]

theorem countMinutes_eq_none (h : 60 ≤ f.seconds) (hz : f.periodWater = 0 ∨ f.periodFood = 0) :
    countMinutes f = none := by
  rw [countMinutes, if_pos h]
  rcases hz with hz | hz
  · simp [cMod, writeDisplay, hz]
  · by_cases hw : f.periodWater = 0 <;> simp [cMod, writeDisplay, hz, hw]

/-- An iteration that has a result reached the roll-over with non-zero periods, or
did not reach it. -/
theorem countMinutes_cases (h : countMinutes f = some g) :
    (f.seconds < 60 ∧ g = f) ∨
    (60 ≤ f.seconds ∧ f.periodWater ≠ 0 ∧ f.periodFood ≠ 0 ∧ ∃ ws, g = { f with
      minutes := incInt f.minutes, seconds := 0, writes := ws
      valveEnterEnabled :=
        if Int.tmod (incInt f.minutes) f.periodWater.toNat = 0 then 1 else f.valveEnterEnabled
      motorEnabled :=
        if Int.tmod (incInt f.minutes) f.periodFood.toNat = 0 then 1 else f.motorEnabled }) := by
  rcases Int.lt_or_le f.seconds 60 with hlt | hge
  · rw [countMinutes_of_lt hlt] at h
    exact .inl ⟨hlt, (Option.some.inj h).symm⟩
  · by_cases hz : f.periodWater = 0 ∨ f.periodFood = 0
    · rw [countMinutes_eq_none hge hz] at h
      exact absurd h (by simp)
    · rw [not_or] at hz
      obtain ⟨ws, heq⟩ := countMinutes_of_ge hge hz.1 hz.2
      exact .inr ⟨hge, hz.1, hz.2, ws, Option.some.inj (h.symm.trans heq)⟩

variable (f : Feeder)

@[simp] theorem driveValve_toStatics : (driveValve f).toStatics = f.toStatics := by
  unfold driveValve
  split <;> rfl

@[simp] theorem driveValve_motorEnabled :
    (driveValve f).motorEnabled = f.motorEnabled := by
  unfold driveValve
  split <;> rfl

theorem driveValve_valveEnterEnabled :
    (driveValve f).valveEnterEnabled =
      if (f.percentFood.toNat : ℤ) < f.seconds then 0 else f.valveEnterEnabled := by
  unfold driveValve
  split
  · rfl
  · next h =>
    rw [not_not] at h
    simp [h]

theorem driveValve_valveWritten :
    (driveValve f).valveWritten =
      if f.valveEnterEnabled = 0 then none else some (driveValve f).valveEnterEnabled := by
  by_cases h : f.valveEnterEnabled = 0 <;> simp [driveValve, h]

@[simp] theorem driveMotor_toStatics : (driveMotor f).toStatics = f.toStatics := by
  unfold driveMotor
  split <;> rfl

@[simp] theorem driveMotor_valveEnterEnabled :
    (driveMotor f).valveEnterEnabled = f.valveEnterEnabled := by
  unfold driveMotor
  split <;> rfl

@[simp] theorem driveMotor_valveWritten :
    (driveMotor f).valveWritten = f.valveWritten := by
  unfold driveMotor
  split <;> rfl

theorem driveMotor_motorEnabled :
    (driveMotor f).motorEnabled =
      if (f.percentFood.toNat : ℤ) < f.seconds * 2 then 0 else f.motorEnabled := by
  unfold driveMotor
  split
  · rfl
  · next h =>
    rw [not_not] at h
    simp [h]

theorem driveMotor_motorWritten :
    (driveMotor f).motorWritten =
      if f.motorEnabled = 0 then none else some (driveMotor f).motorEnabled := by
  by_cases h : f.motorEnabled = 0 <;> simp [driveMotor, h]

end Blocks

end GreenboneFeeder.Dogfeed
