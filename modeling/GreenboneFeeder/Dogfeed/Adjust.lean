import GreenboneFeeder.Dogfeed.Clock

/-!
# Two ways to adjust a setting

A setting is adjusted by the keys up and down, or by commands. The commands change the setting
itself; the keys change the variable `count` and store it. The variable is refreshed only when a
mode key is pressed, so after a command the two ways may differ (`Dogfeed.keys_adjust_iff`).
-/

namespace GreenboneFeeder.Dogfeed

open UInt8

/-! ### The settings that can be adjusted -/

section

variable (s : Statics)

/-- The three settings that a mode can select. -/
def Statics.values : UInt8 × UInt8 × UInt8 :=
  (s.percentFood, s.periodFood, s.periodWater)

/-- The upper bound of the setting. -/
def maxCount (mode : UInt8) : ℕ := if mode = percentFoodKey then 99 else 24

theorem maxCount_pos (mode : UInt8) : 0 < maxCount mode := by
  unfold maxCount
  split_ifs <;> decide

theorem maxCount_le (mode : UInt8) : maxCount mode ≤ 99 := by
  unfold maxCount
  split_ifs <;> decide

/-- The setting that the mode selects. -/
def Statics.setting : UInt8 :=
  if s.mode = percentFoodKey then s.percentFood
  else if s.mode = periodFoodKey then s.periodFood
  else s.periodWater

/-- The settings with another value for the one that the mode selects. -/
def Statics.valuesWith (v : UInt8) : UInt8 × UInt8 × UInt8 :=
  if s.mode = percentFoodKey then (v, s.periodFood, s.periodWater)
  else if s.mode = periodFoodKey then (s.percentFood, v, s.periodWater)
  else (s.percentFood, s.periodFood, v)

section Values

variable {s : Statics}

theorem valuesWith_inj {v w : UInt8} : s.valuesWith v = s.valuesWith w ↔ v = w := by
  unfold Statics.valuesWith
  split_ifs <;> simp

theorem setting_le (h : SettingsInRange s) : s.setting.toNat ≤ maxCount s.mode := by
  have hpercent := le_iff_toNat_le.mp h.percentFood
  have hfood := le_iff_toNat_le.mp h.periodFood
  have hwater := le_iff_toNat_le.mp h.periodWater
  unfold Statics.setting maxCount
  split_ifs
  · exact hpercent
  · exact hfood
  · exact hwater

theorem modes_ne : percentFoodKey ≠ periodFoodKey ∧ percentFoodKey ≠ periodWaterKey ∧
    periodFoodKey ≠ percentFoodKey ∧ periodFoodKey ≠ periodWaterKey ∧
    periodWaterKey ≠ percentFoodKey ∧ periodWaterKey ≠ periodFoodKey := by decide

/-- **`increase_value`** adds one up to the bound. -/
theorem values_increaseValue (hr : s.running = 0) (hm : Adjustable s.mode) :
    (increaseValue s).values =
      s.valuesWith (if s.setting.toNat < maxCount s.mode then s.setting + 1 else s.setting) := by
  unfold increaseValue Statics.valuesWith Statics.setting maxCount
  rw [if_neg (not_not.mpr hr)]
  rcases hm with hm | hm | hm
  all_goals
    simp only [hm, modes_ne, lt_iff_toNat_lt, reduceToNat, reduceIte, false_and, true_and]
    split_ifs <;> rfl

/-- **`decrease_value`** subtracts one down to zero. -/
theorem values_decreaseValue (hr : s.running = 0) (hm : Adjustable s.mode) :
    (decreaseValue s).values =
      s.valuesWith (if 0 < s.setting.toNat then s.setting - 1 else s.setting) := by
  unfold decreaseValue Statics.valuesWith Statics.setting
  rw [if_neg (not_not.mpr hr)]
  rcases hm with hm | hm | hm
  all_goals
    simp only [hm, modes_ne, lt_iff_toNat_lt, reduceToNat, reduceIte, false_and, true_and]
    split_ifs <;> rfl

/-! ### The keys -/

theorem clampCount_eq {mode : UInt8} (c : ℤ) :
    clampCount mode c = min (max c 0) (maxCount mode) := by
  unfold clampCount maxCount
  split_ifs <;> dsimp only <;> omega

theorem toNat_ofInt_clampCount (mode : UInt8) (c : ℤ) :
    ((ofInt (clampCount mode c)).toNat : ℤ) = min (max c 0) (maxCount mode) := by
  have hle := maxCount_le mode
  rw [clampCount_eq]
  rw [ofInt, toNat_ofNat']
  omega

theorem storeCount_of_adjustable (hm : Adjustable s.mode) :
    (storeCount s).values = s.valuesWith (ofInt (clampCount s.mode s.count)) ∧
      (storeCount s).running = s.running := by
  have hle := toNat_ofInt_clampCount s.mode s.count
  obtain ⟨v, hv⟩ : ∃ v, ofInt (clampCount s.mode s.count) = v := ⟨_, rfl⟩
  rw [hv] at hle
  unfold storeCount Statics.valuesWith
  rcases hm with hm | hm | hm
  all_goals
    simp only [hm, modes_ne, maxCount, reduceIte] at hle hv ⊢
    rw [hv]
  · rw [setPercentFood, if_pos (lt_iff_toNat_lt.mpr (show v.toNat < 100 by omega))]
    exact ⟨rfl, rfl⟩
  · rw [setPeriodFood, if_pos (le_iff_toNat_le.mpr (show v.toNat ≤ 24 by omega))]
    exact ⟨rfl, rfl⟩
  · rw [setPeriodWater, if_pos (le_iff_toNat_le.mpr (show v.toNat ≤ 24 by omega))]
    exact ⟨rfl, rfl⟩

end Values

/-! ### The count -/

/-- The count stays in the range of the settings. -/
def CountInRange : Prop := 0 ≤ s.count ∧ s.count ≤ 99

theorem CountInRange.handled {s t : Statics} (h : CountInRange s)
    (ht : Adjusted s t ∨ Started s t) : CountInRange t := by
  rcases ht with ht | ht
  · rcases ht.count with hc | hc
    · rw [CountInRange, hc]
      exact h
    · exact hc
  · rw [CountInRange, ht.count]
    omega

theorem step_count {sys sys' : System} {e : Event} (h : CountInRange sys.feeder.toStatics)
    (hs : step sys e = some sys') : CountInRange sys'.feeder.toStatics := by
  rcases step_cases hs with ⟨btkey, -, hf⟩ | ⟨b, rest, r, cmd, val, -, -, -, hf⟩ | ⟨-, hf⟩
  · have hcount : sys'.feeder.count = (keyed btkey sys.feeder).count :=
      congrArg Prod.snd (loopBody_keeps hf)
    rw [CountInRange, hcount]
    refine CountInRange.handled ?_ (pressKey_cases.imp_right And.left)
    exact h
  · rw [hf]
    refine CountInRange.handled ?_ (execCommand_cases.imp_right And.left)
    exact h
  · rw [hf]
    exact h

/-- **The count stays in range** in every interleaving of the two tasks. -/
theorem count_of_run (events : List Event) {sys : System}
    (h : Run.run step {} events = some sys) : CountInRange sys.feeder.toStatics :=
  Run.invariant (P := fun sys => CountInRange sys.feeder.toStatics)
    (fun _ _ _ hs hstep => step_count hs hstep) events
    ⟨show (0 : ℤ) ≤ 0 by decide, show (0 : ℤ) ≤ 99 by decide⟩ h

/-- **The counters stay in range**, so that only `minutes` can overflow. -/
theorem counters_of_run (events : List Event) {sys : System}
    (h : Run.run step {} events = some sys) :
    CountInRange sys.feeder.toStatics ∧ ClockInRange sys.feeder.toStatics :=
  ⟨count_of_run events h, clock_of_run h⟩

/-- A second passes, and then the amount of food is counted up. -/
theorem counters_of_run_key :
    ∃ sys, Run.run step {} (.loop confirmModeKey :: List.replicate 50 (.loop 0) ++
        [.loop percentFoodKey, .loop keyUp]) = some sys ∧
      sys.feeder.count = 51 ∧ sys.feeder.seconds = 1 ∧
      CountInRange sys.feeder.toStatics ∧ ClockInRange sys.feeder.toStatics :=
  Run.exists_eq_some (P := fun sys => sys.feeder.count = 51 ∧ sys.feeder.seconds = 1)
    (by decide) fun _ hr ⟨hcount, hseconds⟩ => ⟨hcount, hseconds, counters_of_run _ hr⟩

/-! ### The comparison -/

/-- The count and the setting give the same when one is added: they are the same, or both are next
to the bound. -/
def UpAgrees : Prop :=
  s.count = s.setting.toNat ∨
    (maxCount s.mode : ℤ) ≤ s.count + 1 ∧ maxCount s.mode ≤ s.setting.toNat + 1

/-- The count and the setting give the same when one is subtracted. -/
def DownAgrees : Prop :=
  s.count = s.setting.toNat ∨ s.count ≤ 1 ∧ s.setting.toNat ≤ 1

end

section Compare

variable {f : Feeder} {s : Statics}

theorem stored_up_iff (h0 : 0 ≤ s.count) (hle : s.setting.toNat ≤ maxCount s.mode) :
    UInt8.ofInt (clampCount s.mode (s.count + 1)) =
        (if s.setting.toNat < maxCount s.mode then s.setting + 1 else s.setting) ↔ UpAgrees s := by
  have hmax := maxCount_le s.mode
  have hstored := toNat_ofInt_clampCount s.mode (s.count + 1)
  rw [← UInt8.toNat_inj, UpAgrees]
  split_ifs with hlt
  · rw [UInt8.toNat_add, show (1 : UInt8).toNat = 1 from rfl]
    omega
  · omega

theorem stored_down_iff (h0 : 0 ≤ s.count) (hle : s.setting.toNat ≤ maxCount s.mode) :
    UInt8.ofInt (clampCount s.mode (s.count - 1)) =
        (if 0 < s.setting.toNat then s.setting - 1 else s.setting) ↔ DownAgrees s := by
  have hpos := maxCount_pos s.mode
  have hvalue : ((UInt8.ofInt (clampCount s.mode (s.count - 1))).toNat : ℤ) =
      if s.count = 0 then 0 else min (s.count - 1) (maxCount s.mode) := by
    rw [toNat_ofInt_clampCount]
    split_ifs with hzero
    · rw [hzero]
      exact Int.min_eq_left (Int.natCast_nonneg _)
    · rw [Int.max_eq_left (by omega)]
  rw [← UInt8.toNat_inj, DownAgrees]
  split_ifs with hlt
  · have hone : (1 : UInt8) ≤ s.setting := UInt8.le_iff_toNat_le.mpr hlt
    rw [UInt8.toNat_sub_of_le _ _ hone, show (1 : UInt8).toNat = 1 from rfl]
    split_ifs at hvalue <;> omega
  · split_ifs at hvalue <;> omega

/-- An iteration of a paused feeder in which the count is changed: it is stored. -/
theorem loopBody_of_count (btkey : UInt8) (c : ℤ) (hc : ClockInRange f.toStatics)
    (hr : f.running = 0) (hm : Adjustable f.mode) (hkey : btkey ≠ 0)
    (hselect : selectKey btkey { f.toStatics with writes := [] } =
      { f.toStatics with count := c, writes := [] }) :
    ∃ g, loopBody btkey f = some g ∧
      g.values = f.valuesWith (ofInt (clampCount f.mode c)) := by
  have hkeyed : keyed btkey f = storeCount { f.toStatics with count := c, writes := [] } := by
    rw [keyed, pressKey, if_neg hkey, hselect]
    exact if_pos hr
  obtain ⟨hvalues, hrunning⟩ :=
    storeCount_of_adjustable (s := { f.toStatics with count := c, writes := [] }) hm
  have hr' : (keyed btkey f).running = 0 := by
    rw [hkeyed, hrunning]
    exact hr
  refine ⟨_, (loopBody_of_paused (keyed_clock btkey hc) hr').1, ?_⟩
  rw [driveMotor_toStatics, driveValve_toStatics]
  rw [hkeyed, hvalues]
  rfl

end Compare

/-- **Keys and commands adjust the same way exactly when the count agrees with the setting**: in
every reachable state in which the feeder is paused and a setting is selected, an iteration with the
key up leaves the settings that `increase_value` leaves if and only if they agree for that, and so
for the key down. -/
theorem keys_adjust_iff (events : List Event) (sys : System)
    (hrun : Run.run step {} events = some sys) (hpaused : sys.feeder.running = 0)
    (hmode : Adjustable sys.feeder.mode) :
    (∃ g, loopBody keyUp sys.feeder = some g ∧
      (g.values = (increaseValue sys.feeder.toStatics).values ↔
        UpAgrees sys.feeder.toStatics)) ∧
    ∃ g, loopBody keyDown sys.feeder = some g ∧
      (g.values = (decreaseValue sys.feeder.toStatics).values ↔
        DownAgrees sys.feeder.toStatics) := by
  have hclock := clock_of_run hrun
  have hcount := count_of_run events hrun
  have hle := setting_le (run_inRange inRange_init hrun)
  have hincr : incInt sys.feeder.count = sys.feeder.count + 1 :=
    incInt_of_lt hcount.1 (by have := hcount.2; omega)
  constructor
  · obtain ⟨g, hg, hvalues⟩ := loopBody_of_count keyUp (sys.feeder.count + 1) hclock hpaused hmode
      (by decide) (by rw [← hincr]; exact if_pos hpaused)
    refine ⟨g, hg, ?_⟩
    rw [hvalues, values_increaseValue hpaused hmode, valuesWith_inj]
    exact stored_up_iff hcount.1 hle
  · obtain ⟨g, hg, hvalues⟩ := loopBody_of_count keyDown (sys.feeder.count - 1) hclock hpaused hmode
      (by decide) (if_pos hpaused)
    refine ⟨g, hg, ?_⟩
    rw [hvalues, values_decreaseValue hpaused hmode, valuesWith_inj]
    exact stored_down_iff hcount.1 hle

/-- The key for the amount of food is pressed, and then the keys up and down agree with the
commands. -/
theorem keys_adjust_after_key :
    ∃ sys, Run.run step {} [.loop percentFoodKey] = some sys ∧
      (∃ g, loopBody keyUp sys.feeder = some g ∧
        (g.values = (increaseValue sys.feeder.toStatics).values ↔
          UpAgrees sys.feeder.toStatics)) ∧
      ∃ g, loopBody keyDown sys.feeder = some g ∧
        (g.values = (decreaseValue sys.feeder.toStatics).values ↔
          DownAgrees sys.feeder.toStatics) := by
  refine ⟨_, rfl, ?_⟩
  exact keys_adjust_iff [.loop percentFoodKey] _ rfl (by decide) (.inl (by decide))

/-- **A key after a command**: the key for the amount of food is pressed, the client sends thirty,
and the key up leaves fifty-one where `increase_value` leaves thirty-one. -/
theorem key_up_after_command :
    ∃ sys g, Run.run step {} [.loop percentFoodKey, .recv [65, 51, 48], .serve, .serve, .serve] =
        some sys ∧
      sys.feeder.running = 0 ∧ sys.feeder.mode = percentFoodKey ∧
      loopBody keyUp sys.feeder = some g ∧
      g.percentFood = 51 ∧ (increaseValue sys.feeder.toStatics).percentFood = 31 := by
  refine ⟨_, _, rfl, ?_, ?_, rfl, ?_, ?_⟩ <;> decide

end GreenboneFeeder.Dogfeed
