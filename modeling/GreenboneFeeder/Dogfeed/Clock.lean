import GreenboneFeeder.Dogfeed.System

/-!
# The clock of the feeder

The counters of the main loop stand below 50 milliseconds and 60 seconds, so together they are one
number below 3000, the *ticks* since the last minute roll-over. An iteration of a running feeder
adds one tick (`Dogfeed.ticked_of_loopBody`), an iteration of a paused feeder none. Everything said
about time is read off these two facts.
-/

namespace GreenboneFeeder.Dogfeed

/-! ### Ticks -/

/-- The counters as they stand between two iterations. -/
structure ClockInRange (s : Statics) : Prop where
  miliseconds : 0 ≤ s.miliseconds ∧ s.miliseconds < 50
  seconds : 0 ≤ s.seconds ∧ s.seconds < 60

/-- The iterations since the last minute roll-over, as the two counters hold them. -/
def ticks (s : Statics) : ℤ := s.seconds * 50 + s.miliseconds

/-- The iterations of a minute. -/
def ticksPerMinute : ℤ := 3000

section Iteration

variable {btkey : UInt8} {f g : Feeder}

section

variable (hc : ClockInRange (keyed btkey f))

include hc

theorem beforeMinute_of_paused (hr : (keyed btkey f).running = 0) :
    beforeMinute btkey f = { f with toStatics := keyed btkey f } := by
  have hmili : countMiliseconds { f with toStatics := keyed btkey f } =
      { f with toStatics := keyed btkey f } := if_neg (not_not.mpr hr)
  rw [beforeMinute, hmili]
  exact countSeconds_of_lt hc.miliseconds.2

/-- **The counters of a running feeder advance by one tick**, before the test of the
seconds. -/
theorem beforeMinute_of_running (hr : (keyed btkey f).running ≠ 0) :
    ∃ ms sec ws b, beforeMinute btkey f =
        { f with
          toStatics := { keyed btkey f with miliseconds := ms, seconds := sec, writes := ws }
          blink := b } ∧
      sec * 50 + ms = ticks (keyed btkey f) + 1 ∧ (0 ≤ ms ∧ ms < 50) ∧ 0 ≤ sec ∧ sec ≤ 60 := by
  obtain ⟨⟨hms0, hms⟩, hsec0, hsec⟩ := hc
  have hincms : incInt (keyed btkey f).miliseconds = (keyed btkey f).miliseconds + 1 :=
    incInt_of_lt hms0 (by omega)
  have hincsec : incInt (keyed btkey f).seconds = (keyed btkey f).seconds + 1 :=
    incInt_of_lt hsec0 (by omega)
  have hmili : countMiliseconds { f with toStatics := keyed btkey f } =
      { f with toStatics :=
        { keyed btkey f with miliseconds := (keyed btkey f).miliseconds + 1 } } := by
    rw [countMiliseconds, if_pos hr, hincms]
  rw [beforeMinute, hmili]
  rcases Int.lt_or_le ((keyed btkey f).miliseconds + 1) 50 with hlt | hge
  · rw [countSeconds_of_lt hlt]
    refine ⟨_, _, (keyed btkey f).writes, f.blink, rfl, ?_, ?_, hsec0, by omega⟩
    · rw [ticks]
      omega
    · omega
  · obtain ⟨ws, b, heq⟩ := countSeconds_of_ge (f := { f with toStatics :=
        { keyed btkey f with miliseconds := (keyed btkey f).miliseconds + 1 } }) hge
    rw [heq]
    refine ⟨0, _, ws, b, rfl, ?_, by omega, ?_, ?_⟩
    · rw [ticks, hincsec]
      omega
    · rw [hincsec]
      omega
    · rw [hincsec]
      omega

theorem loopBody_of_paused (hr : (keyed btkey f).running = 0) :
    loopBody btkey f = some (driveMotor (driveValve { f with toStatics := keyed btkey f })) ∧
      ¬RollsOver btkey f := by
  have hsec : (keyed btkey f).seconds < 60 := hc.seconds.2
  rw [loopBody, RollsOver, beforeMinute_of_paused hc hr, countMinutes_of_lt hsec]
  exact ⟨rfl, Int.not_le.mpr hsec⟩

section

variable (hr : (keyed btkey f).running ≠ 0)

include hr

theorem loopBody_of_running (ht : ticks (keyed btkey f) + 1 < ticksPerMinute) :
    ∃ ms sec ws b, loopBody btkey f = some (driveMotor (driveValve
        { f with
          toStatics := { keyed btkey f with miliseconds := ms, seconds := sec, writes := ws }
          blink := b })) ∧
      sec * 50 + ms = ticks (keyed btkey f) + 1 ∧ (0 ≤ ms ∧ ms < 50) ∧ (0 ≤ sec ∧ sec < 60) ∧
      ¬RollsOver btkey f := by
  obtain ⟨ms, sec, ws, b, heq, hticks, hms, hsec0, hsec⟩ := beforeMinute_of_running hc hr
  have hsec' : sec < 60 := by
    rw [ticksPerMinute] at ht
    omega
  refine ⟨ms, sec, ws, b, ?_, hticks, hms, ⟨hsec0, hsec'⟩, ?_⟩
  · rw [loopBody, heq, countMinutes_of_lt hsec']
    rfl
  · rw [RollsOver, heq, Int.not_le]
    exact hsec'

variable (ht : ticks (keyed btkey f) + 1 = ticksPerMinute)

include ht

theorem beforeMinute_of_last :
    ∃ ws b, beforeMinute btkey f =
      { f with
        toStatics := { keyed btkey f with miliseconds := 0, seconds := 60, writes := ws }
        blink := b } := by
  obtain ⟨ms, sec, ws, b, heq, hticks, hms, hsec0, hsec⟩ := beforeMinute_of_running hc hr
  rw [ht, ticksPerMinute] at hticks
  obtain rfl : sec = 60 := by omega
  obtain rfl : ms = 0 := by omega
  exact ⟨ws, b, heq⟩

theorem loopBody_of_last
    (hw : (keyed btkey f).periodWater ≠ 0) (hf : (keyed btkey f).periodFood ≠ 0) :
    ∃ ws b, loopBody btkey f = some (driveMotor (driveValve
      { f with
        toStatics := { keyed btkey f with
          miliseconds := 0, seconds := 0, minutes := incInt (keyed btkey f).minutes, writes := ws }
        blink := b
        valveEnterEnabled :=
          if Int.tmod (incInt (keyed btkey f).minutes) (keyed btkey f).periodWater.toNat = 0 then 1
          else f.valveEnterEnabled
        motorEnabled :=
          if Int.tmod (incInt (keyed btkey f).minutes) (keyed btkey f).periodFood.toNat = 0 then 1
          else f.motorEnabled })) := by
  obtain ⟨ws, b, heq⟩ := beforeMinute_of_last hc hr ht
  obtain ⟨ws', heq'⟩ := countMinutes_of_ge (f := { f with
    toStatics := { keyed btkey f with miliseconds := 0, seconds := 60, writes := ws }
    blink := b }) (Int.le_refl 60) hw hf
  refine ⟨ws', b, ?_⟩
  rw [loopBody, heq, heq']
  rfl

/-- **The minute roll-over with a zero period divides by zero.** -/
theorem loopBody_eq_none (hz : (keyed btkey f).periodWater = 0 ∨ (keyed btkey f).periodFood = 0) :
    loopBody btkey f = none := by
  obtain ⟨ws, b, heq⟩ := beforeMinute_of_last hc hr ht
  rw [loopBody, heq, countMinutes_eq_none (Int.le_refl 60) hz]
  rfl

theorem periods_ne_zero (h : loopBody btkey f = some g) :
    (keyed btkey f).periodWater ≠ 0 ∧ (keyed btkey f).periodFood ≠ 0 := by
  refine not_or.mp fun hz => ?_
  rw [loopBody_eq_none hc hr ht hz] at h
  cases h

end

theorem last_of_not_lt (h : ¬ticks (keyed btkey f) + 1 < ticksPerMinute) :
    ticks (keyed btkey f) + 1 = ticksPerMinute := by
  obtain ⟨hms, hsec⟩ := hc
  rw [ticks, ticksPerMinute] at *
  omega

/-- An iteration divides by zero only in a running feeder with a zero period. -/
theorem loopBody_eq_some (h : (keyed btkey f).running ≠ 0 →
      (keyed btkey f).periodFood ≠ 0 ∧ (keyed btkey f).periodWater ≠ 0) :
    ∃ g, loopBody btkey f = some g := by
  by_cases hr : (keyed btkey f).running = 0
  · exact ⟨_, (loopBody_of_paused hc hr).1⟩
  by_cases hlt : ticks (keyed btkey f) + 1 < ticksPerMinute
  · obtain ⟨_, _, _, _, heq, -⟩ := loopBody_of_running hc hr hlt
    exact ⟨_, heq⟩
  · obtain ⟨_, _, heq⟩ := loopBody_of_last hc hr (last_of_not_lt hc hlt) (h hr).2 (h hr).1
    exact ⟨_, heq⟩

end

theorem ticks_lt (s : Statics) (hc : ClockInRange s) : 0 ≤ ticks s ∧ ticks s < ticksPerMinute := by
  obtain ⟨hms, hsec⟩ := hc
  rw [ticks, ticksPerMinute]
  omega

/-- Only a running feeder rolls over, and only from the last tick of a minute. -/
theorem running_of_rollsOver (hc : ClockInRange (keyed btkey f)) (h : RollsOver btkey f) :
    (keyed btkey f).running ≠ 0 ∧ ticks (keyed btkey f) + 1 = ticksPerMinute := by
  by_cases hr : (keyed btkey f).running = 0
  · exact absurd h (loopBody_of_paused hc hr).2
  · refine ⟨hr, ?_⟩
    refine last_of_not_lt hc fun hlt => ?_
    obtain ⟨-, -, -, -, -, -, -, -, hno⟩ := loopBody_of_running hc hr hlt
    exact hno h

/-- **One tick**: what an iteration of a running feeder does when no key and no
roll-over interferes. -/
structure Ticked (f g : Feeder) : Prop where
  settings : g.settings = f.settings
  minutes : g.minutes = f.minutes
  clock : ClockInRange g.toStatics
  ticks : ticks g.toStatics = ticks f.toStatics + 1
  valveEnabled : g.valveEnterEnabled =
    if (f.percentFood.toNat : ℤ) < g.seconds then 0 else f.valveEnterEnabled
  valveWritten : g.valveWritten =
    if f.valveEnterEnabled = 0 then none else some g.valveEnterEnabled
  motorEnabled : g.motorEnabled =
    if (f.percentFood.toNat : ℤ) < g.seconds * 2 then 0 else f.motorEnabled
  motorWritten : g.motorWritten = if f.motorEnabled = 0 then none else some g.motorEnabled

theorem ticked_of_loopBody (hk : keyed btkey f = { f.toStatics with writes := [] })
    (hc : ClockInRange f.toStatics) (hr : f.running ≠ 0)
    (ht : ticks f.toStatics + 1 < ticksPerMinute) :
    ∃ g, loopBody btkey f = some g ∧ Ticked f g ∧ ¬RollsOver btkey f := by
  have hc' : ClockInRange (keyed btkey f) := by
    rw [hk]
    exact ⟨hc.miliseconds, hc.seconds⟩
  have hr' : (keyed btkey f).running ≠ 0 := by
    rw [hk]
    exact hr
  have hticks : ticks (keyed btkey f) = ticks f.toStatics := by rw [hk]; rfl
  obtain ⟨ms, sec, ws, b, heq, hsum, hms, hsec, hno⟩ :=
    loopBody_of_running hc' hr' (hticks ▸ ht)
  refine ⟨_, heq, ?_, hno⟩
  rw [hk]
  constructor
  · simp [Statics.settings]
  · simp
  · simpa using ⟨hms, hsec⟩
  · rw [hticks] at hsum
    simpa [ticks] using hsum
  · simp [driveValve_valveEnterEnabled]
  · simp [driveValve_valveWritten]
  · simp [driveMotor_motorEnabled]
  · simp [driveMotor_motorWritten]

variable (hc : ClockInRange (keyed btkey f))

include hc

theorem loopBody_clock (h : loopBody btkey f = some g) :
    ClockInRange g.toStatics := by
  by_cases hr : (keyed btkey f).running = 0
  · rw [(loopBody_of_paused hc hr).1] at h
    rw [← Option.some.inj h]
    simpa using hc
  · by_cases hlt : ticks (keyed btkey f) + 1 < ticksPerMinute
    · obtain ⟨ms, sec, ws, b, heq, -, hms, hsec, -⟩ := loopBody_of_running hc hr hlt
      rw [heq] at h
      rw [← Option.some.inj h]
      simpa using ⟨hms, hsec⟩
    · have hlast := last_of_not_lt hc hlt
      obtain ⟨hw, hf⟩ := periods_ne_zero hc hr hlast h
      obtain ⟨ws, b, heq⟩ := loopBody_of_last hc hr hlast hw hf
      rw [heq] at h
      rw [← Option.some.inj h]
      constructor <;> simp

theorem ticks_of_rollsOver (hover : RollsOver btkey f) (h : loopBody btkey f = some g) :
    ticks g.toStatics = 0 ∧ g.settings = (keyed btkey f).settings := by
  obtain ⟨hr, hlast⟩ := running_of_rollsOver hc hover
  obtain ⟨hw, hf⟩ := periods_ne_zero hc hr hlast h
  obtain ⟨ws, b, heq⟩ := loopBody_of_last hc hr hlast hw hf
  refine ⟨?_, loopBody_settings h⟩
  rw [heq] at h
  rw [← Option.some.inj h]
  simp [ticks]

theorem rollsOver_of_last (hr : (keyed btkey f).running ≠ 0)
    (ht : ticks (keyed btkey f) + 1 = ticksPerMinute) : RollsOver btkey f := by
  obtain ⟨ws, b, heq⟩ := beforeMinute_of_last hc hr ht
  exact Int.le_of_eq (by rw [heq])

end Iteration

/-! ### Keys and commands that leave the clock alone -/

section Keys

variable {btkey : UInt8} {s : Statics}

/-- The keys that stop a running feeder: the three that adjust a setting, and the one that confirms,
which restarts it with the clock reset. -/
def IsPausingKey (btkey : UInt8) : Prop :=
  btkey = percentFoodKey ∨ btkey = periodFoodKey ∨ btkey = periodWaterKey ∨
    btkey = confirmModeKey

instance (btkey : UInt8) : Decidable (IsPausingKey btkey) :=
  inferInstanceAs (Decidable (_ ∨ _))

/-- **A running feeder ignores every other key.** -/
theorem pressKey_of_running (hr : s.running ≠ 0) (hk : ¬IsPausingKey btkey) :
    pressKey btkey s = s := by
  simp only [IsPausingKey, not_or] at hk
  have hsel : selectKey btkey s = s := by
    simp [selectKey, hk, hr]
  simp [pressKey, hsel, hr]

theorem ClockInRange.congr {t : Statics} (hc : ClockInRange s)
    (hms : t.miliseconds = s.miliseconds) (hsec : t.seconds = s.seconds) : ClockInRange t :=
  ⟨hms ▸ hc.miliseconds, hsec ▸ hc.seconds⟩

theorem ClockInRange.handled {t : Statics} (hc : ClockInRange s) (ht : Adjusted s t ∨ Started s t) :
    ClockInRange t := by
  rcases ht with ht | ht
  · exact hc.congr ht.miliseconds ht.seconds
  · constructor <;> simp [ht.clock]

theorem keyed_clock (btkey : UInt8) {f : Feeder} (hc : ClockInRange f.toStatics) :
    ClockInRange (keyed btkey f) := by
  have hc' : ClockInRange { f.toStatics with writes := [] } := hc.congr rfl rfl
  exact hc'.handled (pressKey_cases.imp_right And.left)

end Keys

section Commands

variable {cmd : UInt8} {val : ℤ} {s : Statics}

/-- The commands that stop a running feeder: the three that set a value in range. -/
def IsPausingCommand (cmd : UInt8) (val : ℤ) : Prop :=
  cmd = 65 ∨ ((cmd = 66 ∨ cmd = 67) ∧ 0 ≤ val ∧ val ≤ 24)

/-- **A running feeder ignores every other command**, apart from its reply. -/
theorem execCommand_of_running (hr : s.running ≠ 0) (hc : ¬IsPausingCommand cmd val) :
    ∃ ws, execCommand cmd val s = { s with writes := ws } := by
  simp only [IsPausingCommand, not_or, not_and] at hc
  obtain ⟨hA, hBC⟩ := hc
  unfold execCommand
  rw [if_neg hA]
  split
  · next hB =>
    rw [if_neg (fun h => hBC (.inl hB) h.1 h.2)]
    exact ⟨s.writes, rfl⟩
  split
  · next hC =>
    rw [if_neg (fun h => hBC (.inr hC) h.1 h.2)]
    exact ⟨s.writes, rfl⟩
  split
  · exact ⟨s.writes, setConfirmMode_of_running hr⟩
  split
  · exact ⟨_, rfl⟩
  split
  · exact ⟨_, rfl⟩
  split
  · exact ⟨_, rfl⟩
  split
  · exact ⟨s.writes, if_pos hr⟩
  split
  · exact ⟨s.writes, if_pos hr⟩
  · exact ⟨s.writes, rfl⟩

theorem execCommand_clock (cmd : UInt8) (val : ℤ) (hc : ClockInRange s) :
    ClockInRange (execCommand cmd val s) :=
  hc.handled (execCommand_cases.imp_right And.left)

end Commands

/-- **Every event keeps the counters in range.** -/
theorem step_clock {sys sys' : System} {e : Event} (hc : ClockInRange sys.feeder.toStatics)
    (hs : step sys e = some sys') : ClockInRange sys'.feeder.toStatics := by
  rcases step_cases hs with ⟨btkey, -, hf⟩ | ⟨b, rest, r, cmd, val, -, -, -, hf⟩ | ⟨-, hf⟩
  · exact loopBody_clock (keyed_clock btkey hc) hf
  · rw [hf]
    exact execCommand_clock cmd val (hc.congr rfl rfl)
  · rw [hf]
    exact hc.congr rfl rfl

theorem clock_of_run {events : List Event} {sys : System}
    (h : Run.run step {} events = some sys) : ClockInRange sys.feeder.toStatics := by
  refine Run.invariant (P := fun sys => ClockInRange sys.feeder.toStatics)
    (fun _ _ _ hc hs => step_clock hc hs) events ?_ h
  constructor <;> decide

/-! ### Iterations without a key -/

theorem keyed_zero {f : Feeder} : keyed 0 f = { f.toStatics with writes := [] } := by
  rw [keyed, pressKey, if_pos rfl]

/-- The event of an iteration in which no key is pressed. -/
abbrev idle : Event := .loop 0

/-- **A running feeder that is left alone advances tick by tick** up to the end of the
minute. -/
theorem run_idle {sys : System} (hc : ClockInRange sys.feeder.toStatics)
    (hr : sys.feeder.running ≠ 0) (n : ℕ) (ht : ticks sys.feeder.toStatics + n < ticksPerMinute) :
    ∃ sys', Run.run step sys (List.replicate n idle) = some sys' ∧
      ClockInRange sys'.feeder.toStatics ∧
      sys'.feeder.settings = sys.feeder.settings ∧
      sys'.feeder.minutes = sys.feeder.minutes ∧
      ticks sys'.feeder.toStatics = ticks sys.feeder.toStatics + n ∧
      sys'.pending = sys.pending := by
  induction n generalizing sys with
  | zero => exact ⟨sys, rfl, hc, rfl, rfl, by omega, rfl⟩
  | succ n ih =>
    obtain ⟨g, hg, htick, -⟩ := ticked_of_loopBody keyed_zero hc hr (by omega)
    have hsettings := htick.settings
    have hticks := htick.ticks
    simp only [Statics.settings, Prod.mk.injEq] at hsettings
    obtain ⟨sys', hrun, hc', hs', hm', ht', hp'⟩ :=
      @ih { sys with feeder := g } htick.clock
        (by rw [hsettings.2.2.2.1]; exact hr)
        (by change ticks g.toStatics + n < _; omega)
    refine ⟨sys', ?_, hc', hs'.trans htick.settings, hm'.trans htick.minutes, ?_, hp'⟩
    · exact Run.run_cons_eq_some.mpr ⟨_, step_loop hg, hrun⟩
    · rw [ht']
      change ticks g.toStatics + n = _
      omega

end GreenboneFeeder.Dogfeed
