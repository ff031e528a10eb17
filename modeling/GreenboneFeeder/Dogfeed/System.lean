import GreenboneFeeder.Lib.Run
import GreenboneFeeder.Dogfeed.MainLoop
import GreenboneFeeder.Dogfeed.Server

/-!
# The two tasks of the feeder

The main loop and the command server run as two tasks over the same statics. A run is a sequence of
events in any order: an iteration of the main loop with whatever the buttons read, a buffer that
arrives in `recv`, and one received byte that the server processes. An iteration and the execution
of one command are atomic. The settings stay in range, whatever arrives
(`Dogfeed.settingsInRange_of_run`).
-/

namespace GreenboneFeeder.Dogfeed

/-! ### Events -/

/-- The state of both tasks: `pending` holds the bytes of the current buffer that
the server has not processed yet. -/
structure System where
  feeder : Feeder := {}
  rx : Rx := {}
  pending : List UInt8 := []
  deriving DecidableEq, Repr

/-- What can happen next. -/
inductive Event where
  /-- An iteration of the main loop in which the buttons read `btkey`. -/
  | loop (btkey : UInt8)
  /-- `recv` returns these bytes. -/
  | recv (bytes : List UInt8)
  /-- The server processes the next byte of its buffer. -/
  | serve
  deriving DecidableEq, Repr

/-- The feeder at the start of a step of the server, which writes nothing to the valve or to the
motor. -/
def quiet (f : Feeder) : Feeder :=
  { f with writes := [], valveWritten := none, motorWritten := none }

/-- The server processes one byte, and executes the command it completes. -/
def serveByte (b : UInt8) (rest : List UInt8) (sys : System) : System :=
  match rxByte b sys.rx with
  | (r, none) => { feeder := quiet sys.feeder, rx := r, pending := rest }
  | (r, some (cmd, val)) =>
      { feeder := { quiet sys.feeder with
          toStatics := execCommand cmd val (quiet sys.feeder).toStatics }
        rx := r
        pending := rest }

/-- **One event.** A buffer of at most `RXBUFFER_SIZE` bytes arrives only while the server waits for
one; the receiving loop then starts afresh. There is no result when the iteration divides by zero.
-/
def step (sys : System) : Event → Option System
  | .loop btkey => (loopBody btkey sys.feeder).map fun f => { sys with feeder := f }
  | .recv bytes =>
      match sys.pending with
      | [] => some
          { feeder := quiet sys.feeder
            rx := { sys.rx with dogCmd := 0, firstDigit := true }
            pending := bytes.take rxBufferSize }
      | _ :: _ => some { sys with feeder := quiet sys.feeder }
  | .serve =>
      match sys.pending with
      | [] => some { sys with feeder := quiet sys.feeder }
      | b :: rest => some (serveByte b rest sys)

theorem step_loop {sys : System} {btkey : UInt8} {f : Feeder}
    (h : loopBody btkey sys.feeder = some f) :
    step sys (.loop btkey) = some { sys with feeder := f } := by
  rw [step, h]
  rfl

/-- What an event can do to the feeder: an iteration that does not divide by zero, the execution of
a command, or nothing. -/
theorem step_cases {sys sys' : System} {e : Event} (h : step sys e = some sys') :
    (∃ btkey, e = .loop btkey ∧ loopBody btkey sys.feeder = some sys'.feeder) ∨
    (∃ b rest r cmd val, e = .serve ∧ sys.pending = b :: rest ∧
      rxByte b sys.rx = (r, some (cmd, val)) ∧
      sys'.feeder = { quiet sys.feeder with
        toStatics := execCommand cmd val (quiet sys.feeder).toStatics }) ∨
    (∀ k, e ≠ .loop k) ∧ sys'.feeder = quiet sys.feeder := by
  cases e with
  | loop btkey =>
    obtain ⟨f, hf, rfl⟩ := Option.map_eq_some_iff.mp h
    exact .inl ⟨btkey, rfl, hf⟩
  | recv bytes =>
    refine .inr (.inr ⟨by simp, ?_⟩)
    cases hp : sys.pending with
    | nil | cons b rest =>
      simp only [step, hp] at h
      rw [← Option.some.inj h]
  | serve =>
    cases hp : sys.pending with
    | nil =>
      simp only [step, hp] at h
      exact .inr (.inr ⟨by simp, by rw [← Option.some.inj h]⟩)
    | cons b rest =>
      simp only [step, hp, serveByte] at h
      rcases hr : rxByte b sys.rx with ⟨r, _ | ⟨cmd, val⟩⟩
      · rw [hr] at h
        exact .inr (.inr ⟨by simp, by rw [← Option.some.inj h]⟩)
      · rw [hr] at h
        exact .inr (.inl ⟨b, rest, r, cmd, val, rfl, rfl, hr, by rw [← Option.some.inj h]⟩)

theorem step_eq_some_of_ne_loop {e : Event} (sys : System) (h : ∀ k, e ≠ .loop k) :
    ∃ sys', step sys e = some sys' := by
  cases e with
  | loop k => exact absurd rfl (h k)
  | recv bytes | serve => cases hp : sys.pending <;> exact ⟨_, by simp only [step, hp]; rfl⟩

/-! ### What a key and a command can do -/

/-- The mode selects a setting. -/
def Adjustable (mode : UInt8) : Prop :=
  mode = percentFoodKey ∨ mode = periodFoodKey ∨ mode = periodWaterKey

theorem Adjustable.ne_confirm {key : UInt8} (h : Adjustable key) : key ≠ confirmModeKey := by
  rcases h with rfl | rfl | rfl <;> decide

/-- **An adjustment**: the settings keep their bounds, and the feeder goes on as it was or is paused
in a mode that selects a setting. -/
structure Adjusted (s t : Statics) : Prop where
  miliseconds : t.miliseconds = s.miliseconds
  seconds : t.seconds = s.seconds
  percentFood : t.percentFood ≤ 99 ∨ t.percentFood ≤ s.percentFood
  periodFood : t.periodFood ≤ 24 ∨ t.periodFood ≤ s.periodFood
  periodWater : t.periodWater ≤ 24 ∨ t.periodWater ≤ s.periodWater
  count : t.count = s.count ∨ 0 ≤ t.count ∧ t.count ≤ 99
  mode : t.running = s.running ∧ t.mode = s.mode ∨ t.running = 0 ∧ Adjustable t.mode
  periods : t.running ≠ 0 → t.periodFood = s.periodFood ∧ t.periodWater = s.periodWater

/-- **A start** of the feeder, with the clock and the count reset. -/
structure Started (s t : Statics) : Prop where
  clock : t.miliseconds = 0 ∧ t.seconds = 0
  percentFood : t.percentFood = s.percentFood
  periods : t.periodFood = s.periodFood ∧ t.periodWater = s.periodWater
  count : t.count = 0
  running : t.running = 1
  mode : t.mode = s.mode ∨ t.mode = confirmModeKey

section Changes

variable {s t : Statics}

theorem adjusted_count {c : ℤ} (hc : c = s.count ∨ 0 ≤ c ∧ c ≤ 99) (ws : List DeviceWrite) :
    Adjusted s { s with count := c, writes := ws } :=
  ⟨rfl, rfl, .inr (UInt8.le_refl _), .inr (UInt8.le_refl _), .inr (UInt8.le_refl _), hc,
    .inl ⟨rfl, rfl⟩, fun _ => ⟨rfl, rfl⟩⟩

theorem adjusted_writes (s : Statics) (ws : List DeviceWrite) :
    Adjusted s { s with writes := ws } :=
  adjusted_count (.inl rfl) ws

theorem Adjusted.pause (h : Adjusted s t) {key : UInt8} (hkey : Adjustable key) :
    Adjusted s { t with mode := key, running := 0 } :=
  { h with mode := .inr ⟨rfl, hkey⟩, periods := absurd rfl }

/-- The setters check the bounds. -/
theorem Adjusted.setters (h : Adjusted s t) (hr : t.running = 0) (v : UInt8) :
    Adjusted s (setPercentFood v t) ∧ Adjusted s (setPeriodFood v t) ∧
      Adjusted s (setPeriodWater v t) := by
  unfold setPercentFood setPeriodFood setPeriodWater writeDisplay
  refine ⟨?_, ?_, ?_⟩ <;> split
  · exact { h with percentFood := .inl (by grind) }
  · exact h
  · exact { h with periodFood := .inl ‹_›, periods := absurd hr }
  · exact h
  · exact { h with periodWater := .inl ‹_›, periods := absurd hr }
  · exact h

theorem adjusted_step (s : Statics) : Adjusted s (increaseValue s) ∧
    Adjusted s (decreaseValue s) := by
  have h := adjusted_writes s s.writes
  unfold increaseValue decreaseValue writeDisplay
  constructor <;> split_ifs with hr
  all_goals first | exact h | rw [not_not] at hr
  all_goals first
    | exact { h with percentFood := by grind }
    | exact { h with periodFood := by grind, periods := absurd hr }
    | exact { h with periodWater := by grind, periods := absurd hr }

theorem clampCount_mem (lmode : UInt8) (c : ℤ) :
    0 ≤ clampCount lmode c ∧ clampCount lmode c ≤ 99 := by
  unfold clampCount
  dsimp only
  split_ifs <;> omega

theorem storeCount_of_confirm (hr : s.running = 0) (hm : s.mode = confirmModeKey) :
    ∃ ws, storeCount s =
      { s with miliseconds := 0, seconds := 0, minutes := 0, count := 0, running := 1,
               writes := ws } := by
  obtain ⟨ws, hw⟩ := setConfirmMode_of_paused
    (s := { s with count := clampCount s.mode s.count }) hr
  refine ⟨ws, ?_⟩
  rw [← hw]
  simp +decide [storeCount, hm]

theorem Adjusted.storeCount (h : ∀ c, 0 ≤ c ∧ c ≤ 99 → Adjusted s { t with count := c })
    (hr : t.running = 0) (hm : t.mode ≠ confirmModeKey) : Adjusted s (storeCount t) := by
  have h := h _ (clampCount_mem t.mode t.count)
  have hset := h.setters hr (UInt8.ofInt (clampCount t.mode t.count))
  unfold Dogfeed.storeCount
  dsimp only
  split_ifs
  · exact hset.1
  · exact hset.2.1
  · exact hset.2.2
  · exact h

/-- A key selects a mode, or changes at most the count of a paused feeder. -/
theorem selectKey_cases {btkey : UInt8} :
    (∃ c ws, (Adjustable btkey ∨ btkey = confirmModeKey) ∧ selectKey btkey s =
      { s with mode := btkey, running := 0, count := c, writes := ws }) ∨
    ∃ c, selectKey btkey s = { s with count := c } ∧ (s.running ≠ 0 → c = s.count) := by
  by_cases hkey : Adjustable btkey ∨ btkey = confirmModeKey
  · obtain ⟨ws, hw⟩ := @setMode_eq btkey (by rw [Adjustable] at hkey; tauto) s
    refine .inl ⟨(selectKey btkey s).count, ws, hkey, ?_⟩
    rcases hkey with (rfl | rfl | rfl) | rfl <;> simp +decide [selectKey, hw]
  · simp only [Adjustable, not_or] at hkey
    unfold selectKey
    rw [if_neg hkey.1.1, if_neg hkey.1.2.1, if_neg hkey.1.2.2, if_neg hkey.2]
    split_ifs with _ hr _ hr
    · exact .inr ⟨_, rfl, absurd hr⟩
    · exact .inr ⟨_, rfl, fun _ => rfl⟩
    · exact .inr ⟨_, rfl, absurd hr⟩
    all_goals exact .inr ⟨_, rfl, fun _ => rfl⟩

/-- **What a key does.** -/
theorem pressKey_cases {btkey : UInt8} :
    Adjusted s (pressKey btkey s) ∨ Started s (pressKey btkey s) ∧
      (btkey = confirmModeKey ∨ s.running = 0 ∧ s.mode = confirmModeKey) := by
  unfold pressKey
  dsimp only
  split_ifs with hzero hr
  · exact .inl (adjusted_writes s s.writes)
  · rcases selectKey_cases with ⟨c, ws, hkey | hkey, heq⟩ | ⟨c, heq, -⟩
    · rw [heq]
      refine .inl (.storeCount (fun c hc => (adjusted_count (.inr hc) ws).pause hkey) rfl ?_)
      exact hkey.ne_confirm
    · obtain ⟨ws', hw'⟩ := storeCount_of_confirm hr (by rw [heq]; exact hkey)
      rw [hw', heq]
      exact .inr ⟨⟨⟨rfl, rfl⟩, rfl, ⟨rfl, rfl⟩, rfl, rfl, .inr hkey⟩, .inl hkey⟩
    · rw [heq] at hr ⊢
      by_cases hm : s.mode = confirmModeKey
      · obtain ⟨ws, hw⟩ := storeCount_of_confirm hr hm
        rw [hw]
        exact .inr ⟨⟨⟨rfl, rfl⟩, rfl, ⟨rfl, rfl⟩, rfl, rfl, .inl rfl⟩, .inr ⟨hr, hm⟩⟩
      · exact .inl (.storeCount (fun c hc => adjusted_count (.inr hc) s.writes) hr hm)
  · rcases selectKey_cases with ⟨c, ws, -, heq⟩ | ⟨c, heq, hsame⟩
    · rw [heq] at hr
      exact absurd rfl hr
    · rw [heq] at hr ⊢
      exact .inl (adjusted_count (.inl (hsame hr)) s.writes)

/-- **What a command does.** -/
theorem execCommand_cases {cmd : UInt8} {val : ℤ} :
    Adjusted s (execCommand cmd val s) ∨
      Started s (execCommand cmd val s) ∧ cmd = 68 ∧ s.running = 0 := by
  have h := adjusted_writes s s.writes
  have hpause : ∀ key, Adjustable key → Adjusted s (setMode key (setRunning 0 s)) ∧
      (setMode key (setRunning 0 s)).running = 0 := fun key hkey => by
    obtain ⟨ws, hw⟩ := setMode_eq (hkey.imp_right (Or.imp_right .inl)) (setRunning 0 s)
    rw [hw]
    exact ⟨(adjusted_writes s ws).pause hkey, rfl⟩
  unfold execCommand
  split_ifs with hA hB _ hC _ hD
  · obtain ⟨hp, hr⟩ := hpause percentFoodKey (.inl rfl)
    exact .inl (hp.setters hr _).1
  · obtain ⟨hp, hr⟩ := hpause periodFoodKey (.inr (.inl rfl))
    exact .inl (hp.setters hr _).2.1
  · exact .inl h
  · obtain ⟨hp, hr⟩ := hpause periodWaterKey (.inr (.inr rfl))
    exact .inl (hp.setters hr _).2.2
  · exact .inl h
  · by_cases hr : s.running = 0
    · obtain ⟨ws, hw⟩ := setConfirmMode_of_paused hr
      rw [hw]
      exact .inr ⟨⟨⟨rfl, rfl⟩, rfl, ⟨rfl, rfl⟩, rfl, rfl, .inl rfl⟩, hD, hr⟩
    · rw [setConfirmMode_of_running hr]
      exact .inl h
  iterate 3 exact .inl (adjusted_writes s _)
  · exact .inl (adjusted_step s).1
  · exact .inl (adjusted_step s).2
  · exact .inl h

end Changes

/-! ### The settings stay in range -/

/-- The settings among the statics. -/
def Statics.settings (s : Statics) : UInt8 × UInt8 × UInt8 × UInt8 × UInt8 :=
  (s.percentFood, s.periodFood, s.periodWater, s.running, s.mode)

/-- **What both tasks keep of the settings**: the bounds the setters check, and that
a paused feeder always has a mode to adjust. -/
structure SettingsInRange (s : Statics) : Prop where
  percentFood : s.percentFood ≤ 99
  periodFood : s.periodFood ≤ 24
  periodWater : s.periodWater ≤ 24
  running : s.running = 0 ∨ s.running = 1
  mode : s.mode = 0 ∨ s.mode = percentFoodKey ∨ s.mode = periodFoodKey ∨
    s.mode = periodWaterKey ∨ s.mode = confirmModeKey
  paused : s.running = 0 → s.mode ≠ 0

section InRange

variable {s t : Statics}

theorem SettingsInRange.congr (h : SettingsInRange s) (heq : t.settings = s.settings) :
    SettingsInRange t := by
  simp only [Statics.settings, Prod.mk.injEq] at heq
  obtain ⟨h1, h2, h3, h4, h5⟩ := heq
  exact ⟨h1 ▸ h.percentFood, h2 ▸ h.periodFood, h3 ▸ h.periodWater, h4 ▸ h.running,
    h5 ▸ h.mode, by rw [h4, h5]; exact h.paused⟩

/-- Pausing selects a mode to adjust. -/
theorem SettingsInRange.handled (h : SettingsInRange s) (ht : Adjusted s t ∨ Started s t) :
    SettingsInRange t := by
  rcases ht with ht | ht
  · have hpercent := ht.percentFood.elim id (UInt8.le_trans · h.percentFood)
    have hfood := ht.periodFood.elim id (UInt8.le_trans · h.periodFood)
    have hwater := ht.periodWater.elim id (UInt8.le_trans · h.periodWater)
    rcases ht.mode with ⟨hr, hm⟩ | ⟨hr, hm⟩
    · exact ⟨hpercent, hfood, hwater, hr ▸ h.running, hm ▸ h.mode, by rw [hr, hm]; exact h.paused⟩
    · refine ⟨hpercent, hfood, hwater, .inl hr, .inr (hm.imp_right (Or.imp_right .inl)),
        fun _ => ?_⟩
      rcases hm with hm | hm | hm <;> rw [hm] <;> decide
  · refine ⟨ht.percentFood ▸ h.percentFood, ht.periods.1 ▸ h.periodFood,
      ht.periods.2 ▸ h.periodWater, .inr ht.running, ?_, fun hr => ?_⟩
    · rcases ht.mode with hm | hm
      · rw [hm]
        exact h.mode
      · simp [hm]
    · rw [ht.running] at hr
      cases hr

end InRange

/-- The counters leave the settings and the count alone. -/
theorem loopBody_keeps {btkey : UInt8} {f g : Feeder} (h : loopBody btkey f = some g) :
    (g.settings, g.count) = ((keyed btkey f).settings, (keyed btkey f).count) := by
  have hseconds : ∀ f : Feeder, ((countSeconds f).settings, (countSeconds f).count) =
      (f.settings, f.count) := fun f => by
    rcases Int.lt_or_le f.miliseconds 50 with hlt | hge
    · rw [countSeconds_of_lt hlt]
    · obtain ⟨ws, b, heq⟩ := countSeconds_of_ge hge
      rw [heq]
      rfl
  have hmili : ∀ f : Feeder, ((countMiliseconds f).settings, (countMiliseconds f).count) =
      (f.settings, f.count) := fun f => by
    unfold countMiliseconds
    split <;> rfl
  obtain ⟨m, hm, rfl⟩ := Option.map_eq_some_iff.mp h
  have hmin : (m.settings, m.count) =
      ((beforeMinute btkey f).settings, (beforeMinute btkey f).count) := by
    rcases countMinutes_cases hm with ⟨-, rfl⟩ | ⟨-, -, -, ws, rfl⟩ <;> rfl
  rw [driveMotor_toStatics, driveValve_toStatics, hmin, beforeMinute, hseconds, hmili]

theorem loopBody_settings {btkey : UInt8} {f g : Feeder} (h : loopBody btkey f = some g) :
    g.settings = (keyed btkey f).settings :=
  congrArg Prod.fst (loopBody_keeps h)

theorem step_inRange {sys sys' : System} {e : Event} (h : SettingsInRange sys.feeder.toStatics)
    (hs : step sys e = some sys') : SettingsInRange sys'.feeder.toStatics := by
  rcases step_cases hs with ⟨btkey, -, hf⟩ | ⟨b, rest, r, cmd, val, -, -, -, hf⟩ | ⟨-, hf⟩
  · refine SettingsInRange.congr (.handled ?_ (pressKey_cases.imp_right And.left))
      (loopBody_settings hf)
    exact h.congr rfl
  · rw [hf]
    refine .handled ?_ (execCommand_cases.imp_right And.left)
    exact h.congr rfl
  · rw [hf]
    exact h.congr rfl

theorem run_inRange {sys sys' : System} {events : List Event}
    (h : SettingsInRange sys.feeder.toStatics) (hr : Run.run step sys events = some sys') :
    SettingsInRange sys'.feeder.toStatics :=
  Run.invariant (P := fun sys => SettingsInRange sys.feeder.toStatics)
    (fun _ _ _ hs hstep => step_inRange hs hstep) events h hr

theorem inRange_init : SettingsInRange ({} : System).feeder.toStatics := by
  constructor <;> decide

/-- **The settings stay in range**, in every interleaving of the two tasks, with any button bytes
and any bytes from the network. -/
theorem settingsInRange_of_run (events : List Event) (sys : System)
    (h : Run.run step {} events = some sys) : SettingsInRange sys.feeder.toStatics :=
  run_inRange inRange_init h

/-- The run that confirms the food period `05` set over the network. -/
theorem settingsInRange_of_run_serve :
    SettingsInRange ((Run.run step {} [.recv [66, 48, 53], .serve, .serve, .serve, .loop 8]).getD
      {}).feeder.toStatics :=
  settingsInRange_of_run [.recv [66, 48, 53], .serve, .serve, .serve, .loop 8] _ (by decide)

end GreenboneFeeder.Dogfeed
