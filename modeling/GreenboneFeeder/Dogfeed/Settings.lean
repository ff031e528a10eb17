import Mathlib.Data.Int.Notation
import Mathlib.Tactic.Common

/-!
# The settings of the dog feeder

The statics of `dogfeed.c` and the functions that read and write them. Two tasks share them: the
main loop (`Dogfeed.MainLoop`) and the command server (`Dogfeed.Server`). Both go through the
setters of this file, so what a setter refuses is refused on both paths.

The `uint8_t` variables are `UInt8` and the `int` variables are `ℤ`; a value passed to a `uint8_t`
parameter is narrowed by the caller. What a function shows on a device, or sends to the client, is
appended to `writes`.
-/

namespace GreenboneFeeder.Dogfeed

/-! ### The codes of `dogfeed.h` -/

/-- `PERCENT_FOOD`: the button, and the mode, that adjusts the amount of food. -/
def percentFoodKey : UInt8 := 1

/-- `PERIOD_FOOD`: the button, and the mode, that adjusts the food period. -/
def periodFoodKey : UInt8 := 2

/-- `PERIOD_WATER`: the button, and the mode, that adjusts the water period. -/
def periodWaterKey : UInt8 := 4

/-- `CONFIRM_MODE`: the button, and the mode, that confirms the settings. -/
def confirmModeKey : UInt8 := 8

/-- `KEY_UP`: the button that counts up. -/
def keyUp : UInt8 := 16

/-- `KEY_DOWN`: the button that counts down. -/
def keyDown : UInt8 := 32

/-! ### The statics -/

/-- One `write` to the LEDs or the display, or one `send` to the connected client. -/
inductive DeviceWrite where
  /-- One byte written to `fd_led`. -/
  | led (v : UInt8)
  /-- One byte written to `fd_display`. -/
  | display (v : UInt8)
  /-- The bytes sent to the client of the server. -/
  | reply (bytes : List UInt8)
  deriving DecidableEq, Repr

/-- The statics of `dogfeed.c` with their initial values, and the writes made so far
in the step that is being executed. -/
structure Statics where
  periodFood : UInt8 := 10
  periodWater : UInt8 := 21
  percentFood : UInt8 := 50
  running : UInt8 := 1
  mode : UInt8 := 0
  count : ℤ := 0
  miliseconds : ℤ := 0
  seconds : ℤ := 0
  minutes : ℤ := 0
  writes : List DeviceWrite := []
  deriving DecidableEq, Repr

/-- An `int` incremented by one, on a machine where `int` has 32 bits. -/
def incInt (x : ℤ) : ℤ := Int.bmod (x + 1) 0x100000000

theorem incInt_of_lt {x : ℤ} (h0 : 0 ≤ x) (h : x < 0x7fffffff) : incInt x = x + 1 := by
  unfold incInt
  rw [Int.bmod_def]
  omega

/-! ### Writing to the devices -/

/-- `write_display`. -/
def writeDisplay (mdisp : UInt8) (s : Statics) : Statics :=
  { s with writes := s.writes ++ [.display mdisp] }

/-- `write_led`: only a known pattern reaches the LEDs. -/
def writeLed (mled : UInt8) (s : Statics) : Statics :=
  if mled = 0 ∨ mled = percentFoodKey ∨ mled = periodFoodKey ∨ mled = periodWaterKey ∨
      mled = confirmModeKey then
    { s with writes := s.writes ++ [.led mled] }
  else s

/-! ### The setters -/

/-- `set_period_food`. -/
def setPeriodFood (pfood : UInt8) (s : Statics) : Statics :=
  if pfood ≤ 24 then writeDisplay pfood { s with periodFood := pfood } else s

/-- `set_period_water`. -/
def setPeriodWater (pwater : UInt8) (s : Statics) : Statics :=
  if pwater ≤ 24 then writeDisplay pwater { s with periodWater := pwater } else s

/-- `set_percent_food`. -/
def setPercentFood (pfood : UInt8) (s : Statics) : Statics :=
  if pfood < 100 then writeDisplay pfood { s with percentFood := pfood } else s

/-- `set_mode`: an unknown mode leaves the mode alone, but is still handed to
`write_led`. -/
def setMode (mod : UInt8) (s : Statics) : Statics :=
  writeLed mod
    (if mod = percentFoodKey ∨ mod = periodFoodKey ∨ mod = periodWaterKey ∨
        mod = confirmModeKey then
      { s with mode := mod }
    else s)

/-- `set_running`. -/
def setRunning (status : UInt8) (s : Statics) : Statics :=
  if status = 1 ∨ status = 0 then { s with running := status } else s

/-- `increase_value`: one up in the setting the mode selects, refused while the feeder is running
and at the upper bound. Its caller drops the returned status. -/
def increaseValue (s : Statics) : Statics :=
  if s.running ≠ 0 then s
  else if s.mode = percentFoodKey ∧ s.percentFood < 99 then
    writeDisplay (s.percentFood + 1) { s with percentFood := s.percentFood + 1 }
  else if s.mode = periodFoodKey ∧ s.periodFood < 24 then
    writeDisplay (s.periodFood + 1) { s with periodFood := s.periodFood + 1 }
  else if s.mode = periodWaterKey ∧ s.periodWater < 24 then
    writeDisplay (s.periodWater + 1) { s with periodWater := s.periodWater + 1 }
  else s

/-- `decrease_value`: one down, refused while the feeder is running and at zero. -/
def decreaseValue (s : Statics) : Statics :=
  if s.running ≠ 0 then s
  else if s.mode = percentFoodKey ∧ 0 < s.percentFood then
    writeDisplay (s.percentFood - 1) { s with percentFood := s.percentFood - 1 }
  else if s.mode = periodFoodKey ∧ 0 < s.periodFood then
    writeDisplay (s.periodFood - 1) { s with periodFood := s.periodFood - 1 }
  else if s.mode = periodWaterKey ∧ 0 < s.periodWater then
    writeDisplay (s.periodWater - 1) { s with periodWater := s.periodWater - 1 }
  else s

/-- `set_confirm_mode`: from a pause, the clock is reset and the feeder starts. -/
def setConfirmMode (s : Statics) : Statics :=
  if s.running ≠ 0 then s
  else
    setRunning 1
      (writeLed s.mode
        (writeDisplay 0 { s with miliseconds := 0, seconds := 0, minutes := 0, count := 0 }))

/-! ### What the setters change

Both kinds of device write leave every variable alone, so each setter is read off
as a record update up to the writes. -/

theorem writeLed_eq (mled : UInt8) (s : Statics) :
    ∃ ws, writeLed mled s = { s with writes := ws } := by
  unfold writeLed
  split
  · exact ⟨_, rfl⟩
  · exact ⟨s.writes, rfl⟩

theorem setMode_eq {key : UInt8} (hkey : key = percentFoodKey ∨ key = periodFoodKey ∨
    key = periodWaterKey ∨ key = confirmModeKey) (s : Statics) :
    ∃ ws, setMode key s = { s with mode := key, writes := ws } := by
  unfold setMode
  rw [if_pos hkey]
  exact writeLed_eq key _

theorem setConfirmMode_of_running {s : Statics} (h : s.running ≠ 0) : setConfirmMode s = s :=
  if_pos h

/-- **A confirmation from a pause** resets the clock and the count, and starts the
feeder. -/
theorem setConfirmMode_of_paused {s : Statics} (h : s.running = 0) :
    ∃ ws, setConfirmMode s =
      { s with miliseconds := 0, seconds := 0, minutes := 0, count := 0, running := 1,
               writes := ws } := by
  unfold setConfirmMode
  rw [if_neg (not_not.mpr h)]
  obtain ⟨ws, hw⟩ := writeLed_eq s.mode
    (writeDisplay 0 { s with miliseconds := 0, seconds := 0, minutes := 0, count := 0 })
  rw [hw]
  exact ⟨ws, rfl⟩

end GreenboneFeeder.Dogfeed
