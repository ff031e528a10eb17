import GreenboneFeeder.Dogfeed.Clock

/-!
# Division by a period

The minute roll-over takes the minutes modulo the two periods, and both can be set to zero, by the
`DOWN` key or by commands. All of these pause the feeder or are refused while it runs. It divides
only after it has been started again by a *confirmation*: the confirm key, or the command `D` from a
pause.

So a run can be continued forever without dividing by zero exactly when each of its confirmations
was made with two non-zero periods (`Dogfeed.divides_iff_confirmed_zero`).
-/

namespace GreenboneFeeder.Dogfeed

/-! ### Confirmations -/

/-- The event is a confirmation that takes effect: the confirm key, or a command `D`
that reaches a paused feeder. -/
def Confirms (sys : System) : Event → Prop
  | .loop btkey => btkey = confirmModeKey
  | .recv _ => False
  | .serve => sys.feeder.running = 0 ∧
      ∃ b rest r val, sys.pending = b :: rest ∧ rxByte b sys.rx = (r, some (68, val))

/-- Both periods can be divided by. -/
def Statics.NonzeroPeriods (s : Statics) : Prop := s.periodFood ≠ 0 ∧ s.periodWater ≠ 0

/-- A confirmation is made with two periods that can be divided by. -/
def ConfirmOk (sys : System) (e : Event) : Prop :=
  Confirms sys e → sys.feeder.NonzeroPeriods

/-- A running feeder has two non-zero periods, and a paused one is in a mode that a
key other than the confirm key cannot confirm. -/
structure SafeToDivide (s : Statics) : Prop where
  running : s.running ≠ 0 → s.NonzeroPeriods
  paused : s.running = 0 →
    s.mode = percentFoodKey ∨ s.mode = periodFoodKey ∨ s.mode = periodWaterKey

section Steps

variable {s t : Statics} {btkey : UInt8}

theorem SafeToDivide.congr (h : SafeToDivide s) (heq : t.settings = s.settings) :
    SafeToDivide t := by
  simp only [Statics.settings, Prod.mk.injEq] at heq
  obtain ⟨-, h2, h3, h4, h5⟩ := heq
  refine ⟨fun hr => ?_, fun hr => ?_⟩
  · rw [Statics.NonzeroPeriods, h2, h3]
    exact h.running (h4 ▸ hr)
  · rw [h5]
    exact h.paused (h4 ▸ hr)

theorem SafeToDivide.of_nonzero (hr : s.running ≠ 0) (h : s.NonzeroPeriods) : SafeToDivide s :=
  ⟨fun _ => h, fun h' => absurd h' hr⟩

theorem SafeToDivide.handled (h : SafeToDivide s)
    (ht : Adjusted s t ∨ Started s t ∧ s.NonzeroPeriods) : SafeToDivide t := by
  rcases ht with ht | ⟨ht, hs⟩
  · refine ⟨fun hr => ?_, fun hr => ?_⟩
    · obtain ⟨hrs, -⟩ := ht.mode.resolve_right fun hc => hr hc.1
      rw [Statics.NonzeroPeriods, (ht.periods hr).1, (ht.periods hr).2]
      exact h.running (hrs ▸ hr)
    · rcases ht.mode with ⟨hrs, hm⟩ | ⟨-, hm⟩
      · rw [hm]
        exact h.paused (hrs ▸ hr)
      · exact hm
  · refine .of_nonzero (by rw [ht.running]; decide) ?_
    rw [Statics.NonzeroPeriods, ht.periods.1, ht.periods.2]
    exact hs

/-- **The confirm key starts the feeder**, with the clock reset and the periods as
they are. -/
theorem pressKey_confirm (s : Statics) :
    ∃ ws, pressKey confirmModeKey s =
      { s with miliseconds := 0, seconds := 0, minutes := 0, count := 0, running := 1,
               mode := confirmModeKey, writes := ws } := by
  obtain ⟨ws, hw⟩ := @setMode_eq confirmModeKey (by simp) s
  have hsel : selectKey confirmModeKey s =
      { s with running := 0, mode := confirmModeKey, writes := ws } := by
    change { setMode confirmModeKey s with running := 0 } = _
    rw [hw]
  have hpress : pressKey confirmModeKey s = storeCount (selectKey confirmModeKey s) := by
    rw [pressKey, if_neg (by decide), if_pos (by rw [hsel])]
  rw [hpress, hsel]
  exact storeCount_of_confirm rfl rfl

theorem pressKey_safe (h : SafeToDivide s)
    (hok : btkey = confirmModeKey → s.NonzeroPeriods) : SafeToDivide (pressKey btkey s) := by
  refine h.handled (pressKey_cases.imp_right (And.imp_right fun hc => ?_))
  rcases hc with hc | ⟨hr, hm⟩
  · exact hok hc
  · exact absurd hm (Adjustable.ne_confirm (h.paused hr))

theorem execCommand_safe (cmd : UInt8) (val : ℤ) (h : SafeToDivide s)
    (hok : cmd = 68 → s.running = 0 → s.NonzeroPeriods) :
    SafeToDivide (execCommand cmd val s) :=
  h.handled (execCommand_cases.imp_right (And.imp_right fun hc => hok hc.1 hc.2))

end Steps

/-! ### Runs -/

/-- What a run keeps while every confirmation is made with non-zero periods. -/
structure NeverDivides (sys : System) : Prop where
  clock : ClockInRange sys.feeder.toStatics
  safe : SafeToDivide sys.feeder.toStatics

variable {sys : System}

/-- **Every event can be taken**, unless it confirms a zero period. -/
theorem neverDivides_step {e : Event} (h : NeverDivides sys)
    (hok : ConfirmOk sys e) : ∃ sys', step sys e = some sys' ∧ NeverDivides sys' := by
  have hsome : ∃ sys', step sys e = some sys' := by
    by_cases he : ∀ k, e ≠ .loop k
    · exact step_eq_some_of_ne_loop sys he
    · obtain ⟨k, rfl⟩ : ∃ k, e = .loop k := by
        by_contra hc
        exact he fun k hk => hc ⟨k, hk⟩
      have hkeyed : SafeToDivide (keyed k sys.feeder) := pressKey_safe (h.safe.congr rfl) hok
      obtain ⟨g, hg⟩ := loopBody_eq_some (keyed_clock k h.clock) hkeyed.running
      exact ⟨_, step_loop hg⟩
  obtain ⟨sys', hs⟩ := hsome
  refine ⟨sys', hs, step_clock h.clock hs, ?_⟩
  rcases step_cases hs with ⟨k, rfl, hf⟩ | ⟨b, rest, r, cmd, val, rfl, hp, hrx, hf⟩ | ⟨-, hf⟩
  · have hkeyed : SafeToDivide (keyed k sys.feeder) := pressKey_safe (h.safe.congr rfl) hok
    exact hkeyed.congr (loopBody_settings hf)
  · rw [hf]
    refine execCommand_safe cmd val (h.safe.congr rfl) fun hD hr => ?_
    rw [hD] at hrx
    exact hok ⟨hr, b, rest, r, val, hp, hrx⟩
  · rw [hf]
    exact h.safe.congr rfl

theorem confirms_step {e : Event} (hc : ClockInRange sys.feeder.toStatics) (h : Confirms sys e) :
    ∃ sys', step sys e = some sys' ∧ ClockInRange sys'.feeder.toStatics ∧
      sys'.feeder.running ≠ 0 ∧ sys'.feeder.periodFood = sys.feeder.periodFood ∧
      sys'.feeder.periodWater = sys.feeder.periodWater := by
  cases e with
  | recv bytes => exact h.elim
  | loop k =>
    obtain rfl : k = confirmModeKey := h
    obtain ⟨ws, hw⟩ := pressKey_confirm { sys.feeder.toStatics with writes := [] }
    have hkeyed : keyed confirmModeKey sys.feeder = _ := hw
    have hr : (keyed confirmModeKey sys.feeder).running ≠ 0 := by
      exact show (1 : UInt8) ≠ 0 by decide
    have ht : ticks (keyed confirmModeKey sys.feeder) + 1 < ticksPerMinute := by
      rw [hkeyed, ticksPerMinute, ticks]
      dsimp only
      omega
    obtain ⟨_, _, _, _, hloop, -⟩ := loopBody_of_running (keyed_clock _ hc) hr ht
    have hs := step_loop hloop
    have hset := loopBody_settings hloop
    simp only [Statics.settings, Prod.mk.injEq] at hset
    refine ⟨_, hs, step_clock hc hs, hset.2.2.2.1 ▸ hr, ?_, ?_⟩
    · exact hset.2.1.trans (by rw [hkeyed])
    · exact hset.2.2.1.trans (by rw [hkeyed])
  | serve =>
    obtain ⟨hr, b, rest, r, val, hp, hrx⟩ := h
    obtain ⟨ws, hw⟩ := setConfirmMode_of_paused (s := (quiet sys.feeder).toStatics) hr
    have hexec : execCommand 68 val (quiet sys.feeder).toStatics = _ := hw
    have hs : step sys .serve = some (serveByte b rest sys) := by
      rw [step, hp]
    refine ⟨_, hs, step_clock hc hs, ?_⟩
    rw [serveByte, hrx]
    dsimp only
    rw [hexec]
    exact ⟨show (1 : UInt8) ≠ 0 by decide, rfl, rfl⟩

/-- **A running feeder with a zero period divides by zero** at the end of the minute,
if it is left alone. -/
theorem divides_of_zero (hc : ClockInRange sys.feeder.toStatics)
    (hr : sys.feeder.running ≠ 0) (hz : ¬sys.feeder.NonzeroPeriods) :
    ∃ n, Run.run step sys (List.replicate n idle) = none := by
  obtain ⟨n, hn⟩ : ∃ n : ℕ, ticks sys.feeder.toStatics + n + 1 = ticksPerMinute :=
    ⟨(ticksPerMinute - 1 - ticks sys.feeder.toStatics).toNat, by
      have := ticks_lt _ hc
      omega⟩
  obtain ⟨sys', hrun, hc', hs', -, ht', -⟩ := run_idle hc hr n (by omega)
  simp only [Statics.settings, Prod.mk.injEq] at hs'
  have htrap : loopBody 0 sys'.feeder = none := by
    refine loopBody_eq_none (keyed_clock 0 hc') ?_ ?_ ?_
    · exact hs'.2.2.2.1 ▸ hr
    · change ticks sys'.feeder.toStatics + 1 = _
      rw [ht', hn]
    · change sys'.feeder.periodWater = 0 ∨ sys'.feeder.periodFood = 0
      rw [hs'.2.1, hs'.2.2.1]
      rw [Statics.NonzeroPeriods] at hz
      tauto
  refine ⟨n + 1, ?_⟩
  rw [List.replicate_succ', Run.run_append, hrun]
  change Run.run step sys' [idle] = none
  rw [Run.run_cons, step, htrap]
  rfl

/-- The events of the run, and of the run cut short after any of its events and left
alone for any time, never divide by zero. -/
def SafeWhenLeftAlone (sys : System) (events : List Event) : Prop :=
  ∀ pre, pre <+: events → ∀ n, Run.run step sys (pre ++ List.replicate n idle) ≠ none

theorem confirmOk_of_safeWhenLeftAlone :
    ∀ (events : List Event) {sys : System}, ClockInRange sys.feeder.toStatics →
      SafeWhenLeftAlone sys events → Run.AllSteps step ConfirmOk sys events
  | [], _, _, _ => trivial
  | e :: es, sys, hc, hsafe => by
    refine ⟨fun hconfirm => ?_, fun sys' hs => ?_⟩
    · by_contra hz
      obtain ⟨sys', hs, hc', hr', hfood, hwater⟩ := confirms_step hc hconfirm
      have hz' : ¬sys'.feeder.NonzeroPeriods := by
        rw [Statics.NonzeroPeriods, hfood, hwater]
        exact hz
      obtain ⟨n, hn⟩ := divides_of_zero hc' hr' hz'
      refine hsafe [e] ⟨es, rfl⟩ n ?_
      rw [List.singleton_append, Run.run_cons, hs]
      exact hn
    · refine confirmOk_of_safeWhenLeftAlone es (step_clock hc hs) fun pre hpre n hnone => ?_
      refine hsafe (e :: pre) (List.cons_prefix_cons.mpr ⟨rfl, hpre⟩) n ?_
      rw [List.cons_append, Run.run_cons, hs]
      exact hnone

theorem allSteps_cutShort {events pre : List Event} (hpre : pre <+: events) (n : ℕ)
    (h : Run.AllSteps step ConfirmOk sys events) :
    Run.AllSteps step ConfirmOk sys (pre ++ List.replicate n idle) := by
  induction pre generalizing events sys with
  | nil =>
    -- iterations without a key confirm nothing
    clear h hpre
    induction n generalizing sys with
    | zero => exact trivial
    | succ n ih => exact ⟨fun hc => absurd hc (show (0 : UInt8) ≠ 8 by decide), fun _ _ => ih⟩
  | cons e pre ih =>
    obtain ⟨rest, rfl⟩ := hpre
    exact ⟨h.1, fun sys' hs => ih ⟨rest, rfl⟩ (h.2 sys' hs)⟩

/-- **A run never divides by zero, and never will when it is left alone, exactly when every
confirmation is made with two non-zero periods.** -/
theorem divides_iff_confirmed_zero (events : List Event) :
    SafeWhenLeftAlone {} events ↔ Run.AllSteps step ConfirmOk {} events := by
  refine ⟨confirmOk_of_safeWhenLeftAlone events ⟨by decide, by decide⟩, ?_⟩
  intro hok pre hpre n hnone
  have hinit : NeverDivides {} :=
    ⟨⟨by decide, by decide⟩, .of_nonzero (by decide) ⟨by decide, by decide⟩⟩
  obtain ⟨sys', hrun, -⟩ := Run.progress (fun _ _ => neverDivides_step) _ hinit
    (allSteps_cutShort hpre n hok)
  rw [hnone] at hrun
  exact absurd hrun (by simp)

/-- The commands `B00` and `D00` arrive, and a minute later the feeder divides by
zero. -/
theorem divides_by_zero :
    ∃ n, Run.run step {} ([.recv [66, 48, 48, 68, 48, 48], .serve, .serve, .serve, .serve,
      .serve, .serve] ++ List.replicate n idle) = none := by
  obtain ⟨sys, hrun, hc, hr, hz⟩ : ∃ sys, Run.run step {} [.recv [66, 48, 48, 68, 48, 48],
        .serve, .serve, .serve, .serve, .serve, .serve] = some sys ∧
      ClockInRange sys.feeder.toStatics ∧ sys.feeder.running ≠ 0 ∧
      sys.feeder.periodFood = 0 :=
    ⟨_, rfl, ⟨by decide, by decide⟩, by decide, by decide⟩
  obtain ⟨n, hn⟩ := divides_of_zero hc hr fun h => h.1 hz
  refine ⟨n, ?_⟩
  rw [Run.run_append, hrun]
  exact hn

end GreenboneFeeder.Dogfeed
