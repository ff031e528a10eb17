import GreenboneFeeder.Dogfeed.Clock

/-!
# The valve and the motor

A minute roll-over can open the valve and start the motor; the seconds that follow close and stop
them. The valve is closed by the first second above the percentage, so with 59 or more it is not
closed before the next roll-over (`Dogfeed.valve_closes_iff`). The motor counts each second twice
and is stopped within 2500 iterations, unless a pause stops the clock and leaves it on
(`Dogfeed.motorStops_of_noPause`). Left alone, it is on for an exact number of iterations
(`Dogfeed.food_dose_exact`).
-/

namespace GreenboneFeeder.Dogfeed

open Run

/-! ### Runs without keys and commands -/

/-- A run of the main loop in which the feeder is running and no key and no command
arrives: `r n` is the state before iteration `n`. -/
structure IdleRun (r : ℕ → Feeder) : Prop where
  step : ∀ n, loopBody 0 (r n) = some (r (n + 1))
  clock : ClockInRange (r 0).toStatics
  running : (r 0).running = 1

/-- The run of the main loop from a state. -/
def idleRun (f : Feeder) : ℕ → Feeder
  | 0 => f
  | n + 1 => (loopBody 0 (idleRun f n)).getD f

section IdleRun

variable {r : ℕ → Feeder}

theorem IdleRun.clockAt (h : IdleRun r) (n : ℕ) : ClockInRange (r n).toStatics := by
  induction n with
  | zero => exact h.clock
  | succ n ih => exact loopBody_clock (keyed_clock 0 ih) (h.step n)

theorem IdleRun.settingsAt (h : IdleRun r) (n : ℕ) : (r n).settings = (r 0).settings := by
  induction n with
  | zero => rfl
  | succ n ih =>
    rw [loopBody_settings (h.step n), ← ih]
    rfl

theorem IdleRun.runningAt (h : IdleRun r) (n : ℕ) : (r n).running ≠ 0 := by
  have hs := h.settingsAt n
  simp only [Statics.settings, Prod.mk.injEq] at hs
  rw [hs.2.2.2.1, h.running]
  decide

theorem IdleRun.percentAt (h : IdleRun r) (n : ℕ) : (r n).percentFood = (r 0).percentFood := by
  have hs := h.settingsAt n
  simp only [Statics.settings, Prod.mk.injEq] at hs
  exact hs.1

theorem IdleRun.ticked (h : IdleRun r) {n : ℕ} (ht : ticks (r n).toStatics + 1 < ticksPerMinute) :
    Ticked (r n) (r (n + 1)) ∧ ¬RollsOver 0 (r n) := by
  obtain ⟨g, hg, htick, hno⟩ :=
    ticked_of_loopBody keyed_zero (h.clockAt n) (h.runningAt n) ht
  rw [h.step n] at hg
  rw [Option.some.inj hg]
  exact ⟨htick, hno⟩

theorem idleRun_isIdleRun {f : Feeder} (hc : ClockInRange f.toStatics) (hr : f.running = 1)
    (hw : f.periodWater ≠ 0) (hf : f.periodFood ≠ 0) : IdleRun (idleRun f) := by
  have hstep : ∀ n, ClockInRange (idleRun f n).toStatics →
      (idleRun f n).settings = f.settings →
      loopBody 0 (idleRun f n) = some (idleRun f (n + 1)) := by
    intro n hcn hsn
    simp only [Statics.settings, Prod.mk.injEq] at hsn
    obtain ⟨g, hg⟩ := loopBody_eq_some (keyed_clock 0 hcn) fun _ => by
      exact ⟨hsn.2.1 ▸ hf, hsn.2.2.1 ▸ hw⟩
    rw [idleRun, hg]
    rfl
  have key : ∀ n, ClockInRange (idleRun f n).toStatics ∧
      (idleRun f n).settings = f.settings ∧
      loopBody 0 (idleRun f n) = some (idleRun f (n + 1)) := by
    intro n
    induction n with
    | zero => exact ⟨hc, rfl, hstep 0 hc rfl⟩
    | succ n ih =>
      obtain ⟨hcn, hsn, hn⟩ := ih
      have hc' := loopBody_clock (keyed_clock 0 hcn) hn
      have hs' : (idleRun f (n + 1)).settings = f.settings := by
        rw [loopBody_settings hn, ← hsn]
        rfl
      exact ⟨hc', hs', hstep (n + 1) hc' hs'⟩
  exact ⟨fun n => (key n).2.2, hc, hr⟩

end IdleRun

/-! ### The valve -/

/-- The iteration from `f` to `g` opens the valve: it rolls over a minute, leaves the
valve enabled and writes 1 to it. -/
structure OpensValve (f g : Feeder) : Prop where
  rollsOver : RollsOver 0 f
  enabled : g.valveEnterEnabled = 1
  written : g.valveWritten = some 1

/-- The valve that iteration `k` opened is closed again: an iteration after it and
before the next roll-over writes 0 to the valve. -/
def ValveCloses (r : ℕ → Feeder) (k : ℕ) : Prop :=
  ∃ m, k < m ∧ (r (m + 1)).valveWritten = some 0 ∧ ∀ j, k < j → j ≤ m → ¬RollsOver 0 (r j)

section Valve

variable {r : ℕ → Feeder} {k : ℕ}

theorem IdleRun.ticksAfter (h : IdleRun r) (hover : RollsOver 0 (r k)) (n : ℕ)
    (hn : (n : ℤ) < ticksPerMinute) : ticks (r (k + 1 + n)).toStatics = n := by
  induction n with
  | zero => exact (ticks_of_rollsOver (keyed_clock 0 (h.clockAt k)) hover (h.step k)).1
  | succ n ih =>
    have ih := ih (by omega)
    have htick := (h.ticked (by rw [ih]; exact hn)).1.ticks
    rw [← Nat.add_assoc, htick, ih]
    rfl

theorem IdleRun.rollsOver_next (h : IdleRun r) (hover : RollsOver 0 (r k)) :
    RollsOver 0 (r (k + 1 + 2999)) := by
  refine rollsOver_of_last (keyed_clock 0 (h.clockAt _)) ?_ ?_
  · exact h.runningAt _
  · have := h.ticksAfter hover 2999 (by decide)
    change ticks (r (k + 1 + 2999)).toStatics + 1 = _
    rw [this]
    rfl

theorem seconds_eq {s : Statics} {n : ℕ} (hc : ClockInRange s) (ht : ticks s = n) :
    s.seconds = (n / 50 : ℕ) := by
  obtain ⟨hms, hsec⟩ := hc
  rw [ticks] at ht
  omega

theorem IdleRun.tickedAfter (h : IdleRun r) (hover : RollsOver 0 (r k)) {n : ℕ} (hn : n < 2999) :
    Ticked (r (k + 1 + n)) (r (k + 1 + n + 1)) ∧ ¬RollsOver 0 (r (k + 1 + n)) ∧
      (r (k + 1 + n + 1)).seconds = ((n + 1) / 50 : ℕ) := by
  obtain ⟨htick, hno⟩ := @IdleRun.ticked _ h (k + 1 + n) (by
    rw [h.ticksAfter hover n (by rw [ticksPerMinute]; omega), ticksPerMinute]
    omega)
  exact ⟨htick, hno, seconds_eq htick.clock
    (h.ticksAfter hover (n + 1) (by rw [ticksPerMinute]; omega))⟩

/-- A valve that is closed before the next roll-over was closed by a second above the
percentage, and no minute has more than 59. -/
theorem percentFood_lt_of_valveCloses (h : IdleRun r) (hover : RollsOver 0 (r k))
    (hclose : ValveCloses r k) : (r 0).percentFood < 59 := by
  obtain ⟨m, hkm, hwritten, hno⟩ := hclose
  obtain ⟨n, rfl⟩ : ∃ n, m = k + 1 + n := ⟨m - (k + 1), by omega⟩
  have hn : n < 2999 := by
    by_contra hge
    exact hno (k + 1 + 2999) (by omega) (by omega) (h.rollsOver_next hover)
  have htick := (h.tickedAfter hover hn).1
  have hlt : ((r (k + 1 + n)).percentFood.toNat : ℤ) < (r (k + 1 + n + 1)).seconds := by
    by_contra hge
    have henabled := htick.valveEnabled
    have hw := htick.valveWritten
    rw [if_neg hge] at henabled
    rw [hwritten, henabled] at hw
    by_cases hz : (r (k + 1 + n)).valveEnterEnabled = 0
    · rw [if_pos hz] at hw
      exact absurd hw (by simp)
    · rw [if_neg hz] at hw
      exact hz (Option.some.inj hw).symm
  rw [h.percentAt] at hlt
  have hsec := htick.clock.seconds.2
  change (r 0).percentFood.toNat < 59
  omega

theorem valve_open_until (h : IdleRun r) (hopen : OpensValve (r k) (r (k + 1))) :
    ∀ n : ℕ, n < 50 * ((r 0).percentFood.toNat + 1) → n ≤ 2999 →
      (r (k + 1 + n)).valveEnterEnabled = 1
  | 0, _, _ => hopen.enabled
  | n + 1, hn, hle => by
    have ih := valve_open_until h hopen n (by omega) (by omega)
    obtain ⟨htick, -, hsec⟩ := h.tickedAfter hopen.rollsOver (n := n) (by omega)
    have henabled := htick.valveEnabled
    rw [if_neg (by rw [h.percentAt]; omega), ih] at henabled
    exact henabled

theorem valveCloses_of_percentFood_lt (h : IdleRun r) (hopen : OpensValve (r k) (r (k + 1)))
    (hp : (r 0).percentFood < 59) : ValveCloses r k := by
  have hp' : (r 0).percentFood.toNat < 59 := by
    exact hp
  obtain ⟨n, hn⟩ : ∃ n, n + 1 = 50 * ((r 0).percentFood.toNat + 1) :=
    ⟨_, Nat.sub_add_cancel (by omega)⟩
  refine ⟨k + 1 + n, by omega, ?_, fun j hj hjm => ?_⟩
  · -- the first second above the percentage
    have hvalve := valve_open_until h hopen n (by omega) (by omega)
    obtain ⟨htick, -, hsec⟩ := h.tickedAfter hopen.rollsOver (n := n) (by omega)
    have henabled := htick.valveEnabled
    rw [if_pos (by rw [h.percentAt]; omega)] at henabled
    rw [htick.valveWritten, hvalve, henabled]
    rfl
  · obtain ⟨i, rfl⟩ : ∃ i, j = k + 1 + i := ⟨j - (k + 1), by omega⟩
    exact (h.tickedAfter hopen.rollsOver (by omega)).2.1

/-- **The valve closes again before the next roll-over exactly when the percentage is below 59**,
while the feeder keeps running and no key and no command arrives. -/
theorem valve_closes_iff (r : ℕ → Feeder) (h : IdleRun r) (k : ℕ)
    (hopen : OpensValve (r k) (r (k + 1))) : ValveCloses r k ↔ (r 0).percentFood < 59 :=
  ⟨percentFood_lt_of_valveCloses h hopen.rollsOver, valveCloses_of_percentFood_lt h hopen⟩

end Valve

/-- The state before a minute roll-over that opens the valve, with the given
percentage. -/
def beforeOpening (percent : UInt8) : Feeder :=
  { percentFood := percent, periodWater := 1, periodFood := 1, mode := confirmModeKey,
    seconds := 59, miliseconds := 49 }

theorem beforeOpening_isIdleRun (percent : UInt8) : IdleRun (idleRun (beforeOpening percent)) :=
  idleRun_isIdleRun ⟨by simp [beforeOpening], by simp [beforeOpening]⟩ rfl
    (by simp [beforeOpening]) (by simp [beforeOpening])

theorem valve_closes_iff_ten :
    ValveCloses (idleRun (beforeOpening 10)) 0 ↔ (10 : UInt8) < 59 :=
  valve_closes_iff (idleRun (beforeOpening 10)) (beforeOpening_isIdleRun 10) 0
    ⟨by decide, by decide, by decide⟩

/-- At a percentage of 60 the valve is opened and not closed before the next
roll-over. -/
theorem valve_stays_open :
    IdleRun (idleRun (beforeOpening 60)) ∧
      OpensValve (idleRun (beforeOpening 60) 0) (idleRun (beforeOpening 60) 1) ∧
      ¬ValveCloses (idleRun (beforeOpening 60)) 0 := by
  have hrun := beforeOpening_isIdleRun 60
  have hopen : OpensValve (idleRun (beforeOpening 60) 0) (idleRun (beforeOpening 60) 1) :=
    ⟨by decide, by decide, by decide⟩
  refine ⟨hrun, hopen, fun hc => ?_⟩
  exact absurd (percentFood_lt_of_valveCloses hrun hopen.rollsOver hc) (by decide)

/-! ### The dose -/

/-- The iteration from `f` to `g` enables the motor: it rolls over a minute whose number the food
period divides. -/
structure EnablesMotor (f g : Feeder) : Prop where
  rollsOver : RollsOver 0 f
  divides : Int.tmod g.minutes g.periodFood.toNat = 0

section Dose

variable {r : ℕ → Feeder} {k : ℕ}

/-- What a roll-over leaves of the motor: seconds that are zero stop nothing. -/
theorem IdleRun.motor_of_rollsOver (h : IdleRun r) (hover : RollsOver 0 (r k)) :
    (r (k + 1)).motorEnabled =
        (if Int.tmod (r (k + 1)).minutes (r (k + 1)).periodFood.toNat = 0 then 1
        else (r k).motorEnabled) ∧
      (r (k + 1)).motorWritten =
        if (r (k + 1)).motorEnabled = 0 then none else some (r (k + 1)).motorEnabled := by
  have hc := keyed_clock 0 (h.clockAt k)
  obtain ⟨hr, hlast⟩ := running_of_rollsOver hc hover
  have hstep := h.step k
  obtain ⟨hw, hf⟩ := periods_ne_zero hc hr hlast hstep
  obtain ⟨ws, b, heq⟩ := loopBody_of_last hc hr hlast hw hf
  rw [heq] at hstep
  rw [← Option.some.inj hstep]
  have hpercent : ¬((keyed 0 (r k)).percentFood.toNat : ℤ) < 0 := by omega
  constructor
  · simp [driveMotor_motorEnabled, hpercent]
  · simp [driveMotor_motorWritten, driveMotor_motorEnabled, hpercent]

/-- An iteration with a motor that is off does nothing to it, unless it enables the motor. -/
theorem IdleRun.motor_off (h : IdleRun r) (hoff : (r k).motorEnabled = 0)
    (hno : ¬EnablesMotor (r k) (r (k + 1))) :
    (r (k + 1)).motorEnabled = 0 ∧ (r (k + 1)).motorWritten = none := by
  by_cases hover : RollsOver 0 (r k)
  · obtain ⟨henabled, hwritten⟩ := h.motor_of_rollsOver hover
    rw [if_neg fun hdiv => hno ⟨hover, hdiv⟩, hoff] at henabled
    rw [if_pos henabled] at hwritten
    exact ⟨henabled, hwritten⟩
  · have ht : ticks (r k).toStatics + 1 < ticksPerMinute := by
      by_contra hge
      refine hover (rollsOver_of_last (keyed_clock 0 (h.clockAt k)) ?_ ?_)
      · exact h.runningAt k
      · refine last_of_not_lt (keyed_clock 0 (h.clockAt k)) ?_
        exact hge
    have htick := (h.ticked ht).1
    have henabled := htick.motorEnabled
    have hwritten := htick.motorWritten
    rw [hoff, ite_self] at henabled
    rw [if_pos hoff] at hwritten
    exact ⟨henabled, hwritten⟩

theorem IdleRun.motor_on (h : IdleRun r) (hstart : EnablesMotor (r k) (r (k + 1))) :
    ∀ n : ℕ, n < 50 * ((r 0).percentFood.toNat / 2 + 1) → n ≤ 2999 →
      (r (k + 1 + n)).motorEnabled = 1 ∧ (r (k + 1 + n)).motorWritten = some 1
  | 0, _, _ => by
    obtain ⟨henabled, hwritten⟩ := h.motor_of_rollsOver hstart.rollsOver
    rw [if_pos hstart.divides] at henabled
    rw [henabled] at hwritten
    exact ⟨henabled, hwritten⟩
  | n + 1, hn, hle => by
    have ih := (h.motor_on hstart n (by omega) (by omega)).1
    obtain ⟨htick, -, hsec⟩ := h.tickedAfter hstart.rollsOver (n := n) (by omega)
    have henabled := htick.motorEnabled
    have hwritten := htick.motorWritten
    -- twice the seconds are not above the percentage yet
    rw [if_neg (by rw [h.percentAt]; omega), ih] at henabled
    rw [ih, henabled] at hwritten
    exact ⟨henabled, hwritten⟩

theorem IdleRun.motor_stops (h : IdleRun r) (hstart : EnablesMotor (r k) (r (k + 1)))
    (hp : (r 0).percentFood ≤ 99) :
    (r (k + 1 + 50 * ((r 0).percentFood.toNat / 2 + 1))).motorEnabled = 0 ∧
      (r (k + 1 + 50 * ((r 0).percentFood.toNat / 2 + 1))).motorWritten = some 0 := by
  have hp' : (r 0).percentFood.toNat ≤ 99 := UInt8.le_iff_toNat_le.mp hp
  obtain ⟨n, hn⟩ : ∃ n, n + 1 = 50 * ((r 0).percentFood.toNat / 2 + 1) :=
    ⟨_, Nat.sub_add_cancel (by omega)⟩
  have hon := (h.motor_on hstart n (by omega) (by omega)).1
  obtain ⟨htick, -, hsec⟩ := h.tickedAfter hstart.rollsOver (n := n) (by omega)
  have henabled := htick.motorEnabled
  have hwritten := htick.motorWritten
  rw [if_pos (by rw [h.percentAt]; omega)] at henabled
  rw [hon, henabled] at hwritten
  rw [← hn]
  exact ⟨henabled, hwritten⟩

theorem IdleRun.motor_stays_off (h : IdleRun r) (hoff : (r k).motorEnabled = 0) (n : ℕ)
    (hno : ∀ j ≤ n, ¬EnablesMotor (r (k + j)) (r (k + j + 1))) :
    (r (k + n + 1)).motorEnabled = 0 ∧ (r (k + n + 1)).motorWritten = none := by
  induction n with
  | zero => exact h.motor_off hoff (hno 0 (Nat.le_refl 0))
  | succ n ih =>
    have hprev := (ih fun j hj => hno j (by omega)).1
    exact h.motor_off hprev (hno (n + 1) (Nat.le_refl _))

end Dose

/-- **The dose is exact.** From every state, with settings in range, in which the feeder is running,
the main loop goes on without end, and after every iteration that enables the motor it writes 1 to
the motor in `50 * (percent_food / 2 + 1)` iterations, of which this is the first, then 0 once, and
nothing more until the motor is enabled again. -/
theorem food_dose_exact (f : Feeder) (hclock : ClockInRange f.toStatics) (hrunning : f.running = 1)
    (hpercent : f.percentFood ≤ 99) (hfood : 1 ≤ f.periodFood ∧ f.periodFood ≤ 24)
    (hwater : 1 ≤ f.periodWater ∧ f.periodWater ≤ 24) :
    (∀ n, loopBody 0 (idleRun f n) = some (idleRun f (n + 1))) ∧
      ∀ k, EnablesMotor (idleRun f k) (idleRun f (k + 1)) →
        (∀ n < 50 * (f.percentFood.toNat / 2 + 1),
          (idleRun f (k + 1 + n)).motorWritten = some 1) ∧
        (idleRun f (k + 1 + 50 * (f.percentFood.toNat / 2 + 1))).motorWritten = some 0 ∧
        ∀ n > 50 * (f.percentFood.toNat / 2 + 1),
          (∀ j, k < j → j ≤ k + n → ¬EnablesMotor (idleRun f j) (idleRun f (j + 1))) →
          (idleRun f (k + 1 + n)).motorWritten = none := by
  have hrun := idleRun_isIdleRun hclock hrunning (UInt8.pos_iff_ne_zero.mp hwater.1)
    (UInt8.pos_iff_ne_zero.mp hfood.1)
  have hp : f.percentFood.toNat ≤ 99 := UInt8.le_iff_toNat_le.mp hpercent
  refine ⟨hrun.step, fun k hstart => ⟨fun n hn => ?_, ?_, fun n hn hno => ?_⟩⟩
  · exact (hrun.motor_on hstart n hn (by omega)).2
  · exact (hrun.motor_stops hstart hpercent).2
  · obtain ⟨d, rfl⟩ := Nat.exists_eq_add_of_lt hn
    have hoff := (hrun.motor_stops hstart hpercent).1
    have hlast := hrun.motor_stays_off hoff d fun j hj => hno _ (by omega) (by
      change k + 1 + 50 * (f.percentFood.toNat / 2 + 1) + j ≤ _
      omega)
    rw [← Nat.add_assoc, ← Nat.add_assoc]
    exact hlast.2

/-- With a percentage of 10 the motor is on for 300 iterations. -/
theorem food_dose_exact_ten :
    (idleRun (beforeOpening 10) 300).motorWritten = some 1 ∧
      (idleRun (beforeOpening 10) 301).motorWritten = some 0 := by
  have hdose := (food_dose_exact (beforeOpening 10) ⟨by decide, by decide⟩ rfl (by decide)
    ⟨by decide, by decide⟩ ⟨by decide, by decide⟩).2 0 ⟨by decide, by decide⟩
  exact ⟨hdose.1 299 (by decide), hdose.2.1⟩

/-! ### The motor -/

/-- The event stops the clock of a running feeder, or resets it: one of the four keys
that pause, or a command that sets a value. -/
def Pauses (sys : System) : Event → Prop
  | .loop btkey => IsPausingKey btkey
  | .recv _ => False
  | .serve => ∃ b rest r cmd val, sys.pending = b :: rest ∧
      rxByte b sys.rx = (r, some (cmd, val)) ∧ IsPausingCommand cmd val

/-- Some event of the run writes 0 to the motor. -/
def MotorStops : System → List Event → Prop
  | _, [] => False
  | sys, e :: es => ∃ sys', step sys e = some sys' ∧
      (sys'.feeder.motorWritten = some 0 ∨ MotorStops sys' es)

/-- No event pauses the feeder before one writes 0 to the motor. -/
def NoPauseUntilStop : System → List Event → Prop
  | _, [] => True
  | sys, e :: es => ¬Pauses sys e ∧
      ∀ sys', step sys e = some sys' → sys'.feeder.motorWritten ≠ some 0 →
        NoPauseUntilStop sys' es

/-- The iterations of the main loop among the events. -/
def loops : List Event → ℕ
  | [] => 0
  | .loop _ :: es => loops es + 1
  | .recv _ :: es => loops es
  | .serve :: es => loops es

/-- The motor is running, `t` iterations after the roll-over that started it. -/
structure MotorRunning (t : ℕ) (sys : System) : Prop where
  running : sys.feeder.running ≠ 0
  clock : ClockInRange sys.feeder.toStatics
  ticks : ticks sys.feeder.toStatics = t
  enabled : sys.feeder.motorEnabled ≠ 0
  percent : sys.feeder.percentFood ≤ 99
  bound : t < 2500

variable {sys sys' : System}

/-- An iteration without a pause writes 0 to the motor or is one more of those it
runs for. -/
theorem motorRunning_loop {t : ℕ} {btkey : UInt8} (h : MotorRunning t sys)
    (hk : ¬IsPausingKey btkey) :
    ∃ sys', step sys (.loop btkey) = some sys' ∧
      (sys'.feeder.motorWritten = some 0 ∨ MotorRunning (t + 1) sys') := by
  have hkeyed : keyed btkey sys.feeder = { sys.feeder.toStatics with writes := [] } :=
    pressKey_of_running h.running hk
  have hbound := h.bound
  obtain ⟨g, hg, htick, -⟩ := ticked_of_loopBody hkeyed h.clock h.running
    (by rw [h.ticks, ticksPerMinute]; omega)
  have hsettings := htick.settings
  simp only [Statics.settings, Prod.mk.injEq] at hsettings
  refine ⟨{ sys with feeder := g }, step_loop hg, ?_⟩
  have hwritten := htick.motorWritten
  rw [if_neg h.enabled] at hwritten
  by_cases hlt : (sys.feeder.percentFood.toNat : ℤ) < g.seconds * 2
  · have henabled := htick.motorEnabled
    rw [if_pos hlt] at henabled
    exact .inl (by rw [hwritten, henabled])
  · have henabled := htick.motorEnabled
    rw [if_neg hlt] at henabled
    have hticks := htick.ticks
    rw [h.ticks] at hticks
    have hpercent : sys.feeder.percentFood.toNat ≤ 99 := UInt8.le_iff_toNat_le.mp h.percent
    refine .inr ⟨hsettings.2.2.2.1 ▸ h.running, htick.clock, by rw [hticks]; rfl,
      henabled ▸ h.enabled, hsettings.1 ▸ h.percent, ?_⟩
    -- the seconds are at most 49, or the motor would have been stopped
    have hms := htick.clock.miliseconds.2
    rw [Dogfeed.ticks] at hticks
    omega

theorem motorRunning_congr {t : ℕ} {ws : List DeviceWrite}
    (hf : sys'.feeder = { quiet sys.feeder with writes := ws }) (h : MotorRunning t sys) :
    MotorRunning t sys' ∧ sys'.feeder.motorWritten ≠ some 0 := by
  obtain ⟨f', r', p'⟩ := sys'
  obtain rfl : f' = _ := hf
  exact ⟨{ h with clock := ⟨h.clock.miliseconds, h.clock.seconds⟩ }, by simp [quiet]⟩

theorem motorRunning_server {t : ℕ} {e : Event} (h : MotorRunning t sys)
    (he : ∀ k, e ≠ .loop k) (hp : ¬Pauses sys e) :
    ∃ sys', step sys e = some sys' ∧ MotorRunning t sys' ∧
      sys'.feeder.motorWritten ≠ some 0 := by
  obtain ⟨sys', hs⟩ := step_eq_some_of_ne_loop sys he
  refine ⟨sys', hs, ?_⟩
  rcases step_cases hs with ⟨k, rfl, -⟩ | ⟨b, rest, r, cmd, val, rfl, hpend, hrx, hf⟩ | ⟨-, hf⟩
  · exact absurd rfl (he k)
  · have hcmd : ¬IsPausingCommand cmd val :=
      fun hc => hp ⟨b, rest, r, cmd, val, hpend, hrx, hc⟩
    obtain ⟨ws, hexec⟩ :=
      execCommand_of_running (s := (quiet sys.feeder).toStatics) h.running hcmd
    rw [hexec] at hf
    exact motorRunning_congr hf h
  · exact motorRunning_congr hf h

theorem motorStops_of_motorRunning :
    ∀ (es : List Event) {t : ℕ} {sys : System}, MotorRunning t sys → NoPauseUntilStop sys es →
      2500 ≤ t + loops es → MotorStops sys es
  | [], t, _, h, _, hlen => by
    have hbound := h.bound
    rw [loops] at hlen
    omega
  | e :: es, t, sys, h, hno, hlen => by
    by_cases he : ∀ k, e ≠ .loop k
    · obtain ⟨sys', hs, h', hw⟩ := motorRunning_server h he hno.1
      have hlen' : 2500 ≤ t + loops es := by
        cases e with
        | loop k => exact absurd rfl (he k)
        | recv _ | serve => exact hlen
      exact ⟨sys', hs, .inr (motorStops_of_motorRunning es h' (hno.2 sys' hs hw) hlen')⟩
    · obtain ⟨k, rfl⟩ : ∃ k, e = .loop k := by
        by_contra hc
        exact he fun k hk => hc ⟨k, hk⟩
      obtain ⟨sys', hs, hstop | h'⟩ := motorRunning_loop h hno.1
      · exact ⟨sys', hs, .inl hstop⟩
      · by_cases hw : sys'.feeder.motorWritten = some 0
        · exact ⟨sys', hs, .inl hw⟩
        · refine ⟨sys', hs, .inr (motorStops_of_motorRunning es h' (hno.2 sys' hs hw) ?_)⟩
          rw [loops] at hlen
          omega

/-- The iteration from `sys` to `sys'` starts the motor: it rolls over a minute, and
writes 1 to the motor. -/
structure StartsMotor (btkey : UInt8) (sys sys' : System) : Prop where
  step : step sys (.loop btkey) = some sys'
  rollsOver : RollsOver btkey sys.feeder
  written : sys'.feeder.motorWritten = some 1

theorem motorRunning_of_startsMotor {pre : List Event} {btkey : UInt8}
    (hrun : run Dogfeed.step {} pre = some sys) (h : StartsMotor btkey sys sys') :
    MotorRunning 0 sys' := by
  obtain ⟨g, hg, rfl⟩ := Option.map_eq_some_iff.mp h.step
  have hc := keyed_clock btkey (clock_of_run hrun)
  have hpre : run Dogfeed.step {} (pre ++ [.loop btkey]) = some { sys with feeder := g } := by
    rw [run_append, hrun]
    exact run_cons_eq_some.mpr ⟨_, h.step, rfl⟩
  have hrange := invariant
    (fun _ _ _ hs hstep => step_inRange hs hstep) (pre ++ [.loop btkey])
    (by constructor <;> decide) hpre
  obtain ⟨hticks, hsettings⟩ := ticks_of_rollsOver hc h.rollsOver hg
  simp only [Statics.settings, Prod.mk.injEq] at hsettings
  refine ⟨?_, loopBody_clock hc hg, hticks, ?_, hrange.percentFood, by omega⟩
  · rw [hsettings.2.2.2.1]
    exact (running_of_rollsOver hc h.rollsOver).1
  · -- the byte written is the flag the iteration leaves
    have hwritten := h.written
    obtain ⟨m, -, rfl⟩ := Option.map_eq_some_iff.mp hg
    rw [driveMotor_motorWritten] at hwritten
    split at hwritten
    · exact absurd hwritten (by simp)
    · rw [Option.some.inj hwritten]
      decide

/-- **The motor does not run away as long as nothing pauses the feeder**: in every interleaving,
after an iteration that starts the motor, `50 * 51` further iterations contain one that writes 0 to
it, unless the feeder is paused before. -/
theorem motorStops_of_noPause (pre es : List Event) (btkey : UInt8) (sys sys' : System)
    (hrun : run step {} pre = some sys) (hstart : StartsMotor btkey sys sys')
    (hno : NoPauseUntilStop sys' es) (hlen : 50 * 51 ≤ loops es) : MotorStops sys' es :=
  motorStops_of_motorRunning es (motorRunning_of_startsMotor hrun hstart) hno (by omega)

/-- The bytes of a buffer, received and processed. -/
def receive (bytes : List UInt8) : List Event :=
  .recv bytes :: bytes.map fun _ => .serve

/-- The commands `B01` and `D00`: feed every minute, confirmed. -/
def feedEveryMinute : List Event := receive [66, 48, 49, 68, 48, 48]

theorem startsMotor_of_feedEveryMinute :
    ∃ sys sys', run step {} (feedEveryMinute ++ List.replicate 2999 idle) = some sys ∧
      StartsMotor 0 sys sys' ∧ sys'.pending = [] ∧ sys'.feeder.seconds = 0 := by
  obtain ⟨sys₀, hrun₀, hc₀, hr₀, hfood₀, hwater₀, hmin₀, hticks₀, hpend₀⟩ :
      ∃ sys, run step {} feedEveryMinute = some sys ∧ ClockInRange sys.feeder.toStatics ∧
        sys.feeder.running = 1 ∧ sys.feeder.periodFood = 1 ∧ sys.feeder.periodWater = 21 ∧
        sys.feeder.minutes = 0 ∧ ticks sys.feeder.toStatics = 0 ∧ sys.pending = [] :=
    ⟨_, rfl, ⟨by decide, by decide⟩, rfl, rfl, rfl, rfl, rfl, rfl⟩
  obtain ⟨sys, hrun, hc, hs, hmin, hticks, hpend⟩ :=
    run_idle hc₀ (by rw [hr₀]; decide) 2999 (by rw [hticks₀]; decide)
  simp only [Statics.settings, Prod.mk.injEq] at hs
  have hck := keyed_clock 0 hc
  have hrk : (keyed 0 sys.feeder).running ≠ 0 := by
    change sys.feeder.running ≠ 0
    rw [hs.2.2.2.1, hr₀]
    decide
  have hlast : ticks (keyed 0 sys.feeder) + 1 = ticksPerMinute := by
    change ticks sys.feeder.toStatics + 1 = _
    rw [hticks, hticks₀]
    rfl
  have hfood : (keyed 0 sys.feeder).periodFood = 1 := by
    exact hs.2.1.trans hfood₀
  have hwater : (keyed 0 sys.feeder).periodWater = 21 := by
    exact hs.2.2.1.trans hwater₀
  have hminutes : (keyed 0 sys.feeder).minutes = 0 := by
    exact hmin.trans hmin₀
  obtain ⟨ws, b, hloop⟩ := loopBody_of_last hck hrk hlast (by rw [hwater]; decide)
    (by rw [hfood]; decide)
  refine ⟨sys, _, ?_, ⟨step_loop hloop, rollsOver_of_last hck hrk hlast, ?_⟩,
    hpend.trans hpend₀, by simp⟩
  · rw [run_append, hrun₀]
    exact hrun
  · simp [driveMotor_motorWritten, driveMotor_motorEnabled, hfood, hminutes, incInt]

theorem noPauseUntilStop_idle (n : ℕ) (sys : System) :
    NoPauseUntilStop sys (List.replicate n idle) := by
  induction n generalizing sys with
  | zero => trivial
  | succ n ih => exact ⟨show ¬IsPausingKey 0 by decide, fun sys' _ _ => ih sys'⟩

theorem motorStops_of_noPause_idle :
    ∃ sys sys', run step {} (feedEveryMinute ++ List.replicate 2999 idle) = some sys ∧
      StartsMotor 0 sys sys' ∧ MotorStops sys' (List.replicate 2550 idle) := by
  obtain ⟨sys, sys', hrun, hstart, -, -⟩ := startsMotor_of_feedEveryMinute
  have hloops : ∀ n, loops (List.replicate n idle) = n := by
    intro n
    induction n with
    | zero => rfl
    | succ n ih => exact congrArg (· + 1) ih
  exact ⟨sys, sys', hrun, hstart, motorStops_of_noPause _ _ 0 sys sys' hrun hstart
    (noPauseUntilStop_idle 2550 sys') (Nat.le_of_eq (hloops 2550).symm)⟩

/-- The feeder is paused with the motor on, and stopped at a second that does not stop
the motor. -/
structure MotorStuck (sys : System) : Prop where
  paused : sys.feeder.running = 0
  clock : ClockInRange sys.feeder.toStatics
  enabled : sys.feeder.motorEnabled ≠ 0
  seconds : sys.feeder.seconds * 2 ≤ sys.feeder.percentFood.toNat

theorem motorStuck_idle (h : MotorStuck sys) :
    ∃ sys', step sys idle = some sys' ∧ MotorStuck sys' ∧ sys'.feeder.motorWritten ≠ some 0 := by
  have hc : ClockInRange (keyed 0 sys.feeder) := keyed_clock 0 h.clock
  have hr : (keyed 0 sys.feeder).running = 0 := by
    exact h.paused
  obtain ⟨hloop, -⟩ := loopBody_of_paused hc hr
  refine ⟨_, step_loop hloop, ?_⟩
  rw [keyed_zero] at hc ⊢
  have hlt : ¬(sys.feeder.percentFood.toNat : ℤ) < sys.feeder.seconds * 2 := by
    have := h.seconds
    omega
  refine ⟨⟨by simpa using h.paused, by simpa using hc, ?_, by simpa using h.seconds⟩, ?_⟩
  · simpa [driveMotor_motorEnabled, hlt] using h.enabled
  · simp [driveMotor_motorWritten, driveMotor_motorEnabled, hlt, h.enabled]

/-- **A paused feeder never stops its motor**, however long it is left alone. -/
theorem not_motorStops_of_motorStuck (n : ℕ) (h : MotorStuck sys) :
    (∃ sys', run step sys (List.replicate n idle) = some sys') ∧
      ¬MotorStops sys (List.replicate n idle) := by
  induction n generalizing sys with
  | zero => exact ⟨⟨sys, rfl⟩, id⟩
  | succ n ih =>
    obtain ⟨sys', hs, h', hw⟩ := motorStuck_idle h
    obtain ⟨⟨sys'', hrun⟩, hno⟩ := ih h'
    refine ⟨⟨sys'', run_cons_eq_some.mpr ⟨sys', hs, hrun⟩⟩, ?_⟩
    rintro ⟨mid, hmid, hstop⟩
    obtain rfl : sys' = mid := Option.some.inj (hs.symm.trans hmid)
    exact hstop.elim hw hno

/-- The command `A50` pauses the feeder. -/
def pauseFeeder : List Event := receive [65, 53, 48]

theorem motorStops_server {e : Event} {es : List Event}
    (he : ∀ k, e ≠ .loop k) (hs : step sys e = some sys') (h : MotorStops sys (e :: es)) :
    MotorStops sys' es := by
  obtain ⟨mid, hmid, hstop⟩ := h
  obtain rfl : sys' = mid := Option.some.inj (hs.symm.trans hmid)
  have hw : sys'.feeder.motorWritten = none := by
    rcases step_cases hs with ⟨k, hk, -⟩ | ⟨_, _, _, _, _, -, -, -, hf⟩ | ⟨-, hf⟩
    · exact absurd hk (he k)
    · rw [hf]
      rfl
    · rw [hf]
      rfl
  rw [hw] at hstop
  exact hstop.resolve_left (by simp)

/-- The command `A50` in the first second after the motor was started leaves it on. -/
theorem motorStuck_of_pauseFeeder {f : Feeder} {r : Rx} (hc : ClockInRange f.toStatics)
    (henabled : f.motorEnabled ≠ 0) (hsec : f.seconds = 0) :
    ∃ sys', run step ⟨f, r, []⟩ pauseFeeder = some sys' ∧ MotorStuck sys' ∧
      ∀ es, MotorStops ⟨f, r, []⟩ (pauseFeeder ++ es) → MotorStops sys' es := by
  let s : Statics := { f.toStatics with writes := [] }
  have hexec : ∃ ws, execCommand 65 50 s =
      { s with percentFood := 50, running := 0, mode := percentFoodKey, writes := ws } := by
    obtain ⟨ws, hmode⟩ := setMode_eq (.inl rfl) (setRunning 0 s)
    refine ⟨ws ++ [.display 50], ?_⟩
    change setPercentFood 50 (setMode percentFoodKey (setRunning 0 s)) = _
    rw [hmode]
    rfl
  refine ⟨⟨{ quiet f with toStatics := execCommand 65 50 s }, ⟨0, true, 53⟩, []⟩, rfl, ?_, ?_⟩
  · obtain ⟨ws, hexec⟩ := hexec
    constructor
    · rw [hexec]
    · exact execCommand_clock 65 50 (hc.congr rfl rfl)
    · exact henabled
    · change f.seconds * 2 ≤ 50
      omega
  · intro es h
    have h₁ : MotorStops ⟨quiet f, ⟨0, true, r.value0⟩, [65, 53, 48]⟩ _ :=
      motorStops_server (by simp) rfl h
    have h₂ : MotorStops ⟨quiet f, ⟨65, true, r.value0⟩, [53, 48]⟩ _ :=
      motorStops_server (by simp) rfl h₁
    have h₃ : MotorStops ⟨quiet f, ⟨65, false, 53⟩, [48]⟩ _ :=
      motorStops_server (by simp) rfl h₂
    exact motorStops_server (by simp) rfl h₃

/-- **A pause lets the motor run away**: the motor is started, the command `A50` arrives, and no
number of further iterations writes 0 to it. -/
theorem motor_runs_away :
    ∃ sys sys', run step {} (feedEveryMinute ++ List.replicate 2999 idle) = some sys ∧
      StartsMotor 0 sys sys' ∧
      ∀ n, (∃ sys'', run step sys' (pauseFeeder ++ List.replicate n idle) = some sys'') ∧
        ¬MotorStops sys' (pauseFeeder ++ List.replicate n idle) := by
  obtain ⟨sys, ⟨f, r, p⟩, hrun, hstart, hpend, hsec⟩ := startsMotor_of_feedEveryMinute
  have hmotor := motorRunning_of_startsMotor hrun hstart
  obtain rfl : p = [] := hpend
  obtain ⟨stuck, hpauserun, hstuck, hpause⟩ :=
    motorStuck_of_pauseFeeder hmotor.clock hmotor.enabled hsec
  refine ⟨sys, _, hrun, hstart, fun n => ?_⟩
  obtain ⟨⟨sys'', hidle⟩, hno⟩ := not_motorStops_of_motorStuck n hstuck
  refine ⟨⟨sys'', ?_⟩, fun hstop => hno (hpause _ hstop)⟩
  rw [run_append, hpauserun]
  exact hidle

end GreenboneFeeder.Dogfeed
