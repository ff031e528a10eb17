import Mathlib.Tactic.Common

/-!
# Runs of a partial step function

A system that moves by events is a function `step : σ → ε → Option σ`: the state after an event, or
nothing when the event traps. A run feeds it a list of events. What every event preserves holds
after every run (`Run.invariant`), and when every event that meets a condition can be taken and
preserves a property, a run whose events all meet it (`Run.AllSteps`) never traps (`Run.progress`).
-/

namespace GreenboneFeeder.Run

variable {σ ε : Type*} (step : σ → ε → Option σ)

/-- The state after the events, taken one after another. -/
def run (s : σ) (events : List ε) : Option σ := events.foldlM step s

/-- Every event of the run meets the condition `C` in the state it is taken in. -/
def AllSteps (C : σ → ε → Prop) : σ → List ε → Prop
  | _, [] => True
  | s, e :: es => C s e ∧ ∀ s', step s e = some s' → AllSteps C s' es

variable {step} {C : σ → ε → Prop} {P : σ → Prop} {s s' : σ} {e : ε} {es es' : List ε}
  {D : σ → ε → Prop}

@[simp] theorem run_nil : run step s [] = some s := rfl

theorem run_cons : run step s (e :: es) = (step s e).bind fun s' => run step s' es := rfl

theorem run_cons_eq_some :
    run step s (e :: es) = some s' ↔ ∃ mid, step s e = some mid ∧ run step mid es = some s' := by
  rw [run_cons, Option.bind_eq_some_iff]

theorem run_append :
    run step s (es ++ es') = (run step s es).bind fun mid => run step mid es' :=
  List.foldlM_append

theorem allSteps_cons :
    AllSteps step C s (e :: es) ↔ C s e ∧ ∀ s', step s e = some s' → AllSteps step C s' es :=
  .rfl

theorem allSteps_cons_of_none (hs : step s e = none) :
    AllSteps step C s (e :: es) ↔ C s e := by
  simp [allSteps_cons, hs]

theorem allSteps_cons_of_some (hs : step s e = some s') :
    AllSteps step C s (e :: es) ↔ C s e ∧ AllSteps step C s' es := by
  simp [allSteps_cons, hs]

/-- The condition on the events can be evaluated along the run. -/
instance decidableAllSteps [∀ s e, Decidable (C s e)] :
    ∀ (s : σ) (es : List ε), Decidable (AllSteps step C s es)
  | _, [] => isTrue trivial
  | s, e :: es =>
    match hs : step s e with
    | none => decidable_of_iff (C s e) (allSteps_cons_of_none hs).symm
    | some s' =>
      haveI := decidableAllSteps s' es
      decidable_of_iff (C s e ∧ AllSteps step C s' es) (allSteps_cons_of_some hs).symm

/-- **What every event meeting its condition preserves holds after every run of such
events.** -/
theorem invariant_of_allSteps (hstep : ∀ s e s', P s → C s e → step s e = some s' → P s') :
    ∀ (es : List ε) {s s' : σ}, P s → AllSteps step C s es → run step s es = some s' → P s'
  | [], _, _, h, _, hr => by
    cases hr
    exact h
  | e :: es, s, s', h, hc, hr => by
    obtain ⟨mid, hs, hr⟩ := run_cons_eq_some.mp hr
    exact invariant_of_allSteps hstep es (hstep s e mid h hc.1 hs) (hc.2 mid hs) hr

theorem AllSteps.mono (h : ∀ s e, C s e → D s e) :
    ∀ (es : List ε) {s : σ}, AllSteps step C s es → AllSteps step D s es
  | [], _, _ => trivial
  | e :: es, s, hc => ⟨h s e hc.1, fun s' hs => AllSteps.mono h es (hc.2 s' hs)⟩

theorem AllSteps.of_invariant (hstep : ∀ s e s', P s → C s e → step s e = some s' → P s')
    (h : ∀ s e, P s → C s e → D s e) :
    ∀ (es : List ε) {s : σ}, P s → AllSteps step C s es → AllSteps step D s es
  | [], _, _, _ => trivial
  | e :: es, s, hs, hc => ⟨h s e hs hc.1, fun s' hs' =>
      AllSteps.of_invariant hstep h es (hstep s e s' hs hc.1 hs') (hc.2 s' hs')⟩

theorem allSteps_of_forall_mem :
    ∀ (es : List ε) (s : σ), (∀ e ∈ es, ∀ s, C s e) → AllSteps step C s es
  | [], _, _ => trivial
  | e :: es, s, h => ⟨h e List.mem_cons_self s,
      fun s' _ => allSteps_of_forall_mem es s' fun e he => h e (List.mem_cons_of_mem _ he)⟩

/-- **What every event preserves holds after every run.** -/
theorem invariant (hstep : ∀ s e s', P s → step s e = some s' → P s') (es : List ε)
    (h : P s) (hr : run step s es = some s') : P s' :=
  invariant_of_allSteps (fun s e s' hs _ => hstep s e s' hs) es h
    (allSteps_of_forall_mem es s fun _ _ _ => trivial) hr

/-- **A run of events that can all be taken never traps**, and keeps the property
that lets them be taken. -/
theorem progress (hstep : ∀ s e, P s → C s e → ∃ s', step s e = some s' ∧ P s') :
    ∀ (es : List ε) {s : σ}, P s → AllSteps step C s es → ∃ s', run step s es = some s' ∧ P s'
  | [], s, h, _ => ⟨s, rfl, h⟩
  | e :: es, s, h, hc => by
    obtain ⟨mid, hs, hmid⟩ := hstep s e h hc.1
    obtain ⟨s', hr, hs'⟩ := progress hstep es hmid (hc.2 mid hs)
    exact ⟨s', run_cons_eq_some.mpr ⟨mid, hs, hr⟩, hs'⟩

/-- What was shown of a result holds of the result. -/
theorem of_eq_some {o : Option σ} (ho : ∃ s, o = some s ∧ P s) (hs : o = some s') : P s' := by
  obtain ⟨s, hs₀, h⟩ := ho
  exact Option.some.inj (hs₀.symm.trans hs) ▸ h

/-- **What a run evaluates to**: a state with a property that is decided of it, and with what
follows from that. -/
theorem exists_eq_some {o : Option σ} {Q : σ → Prop} [DecidablePred P]
    (h : o.any (fun s => decide (P s)) = true) (hQ : ∀ s, o = some s → P s → Q s) :
    ∃ s, o = some s ∧ Q s := by
  obtain ⟨s, hs, hP⟩ := (Option.any_eq_true _ _).mp h
  exact ⟨s, hs, hQ s hs (of_decide_eq_true hP)⟩

/-- **What two runs evaluate to**, of which the second one begins where the first one ends. -/
theorem exists_eq_some_both {ρ : Type*} {o : Option σ} {f : σ → Option ρ} {P Q : σ → ρ → Prop}
    [∀ s r, Decidable (P s r)] (h : o.any (fun s => (f s).any fun r => decide (P s r)) = true)
    (hQ : ∀ s r, o = some s → f s = some r → P s r → Q s r) :
    ∃ s r, o = some s ∧ f s = some r ∧ Q s r := by
  obtain ⟨s, hs, hf⟩ := (Option.any_eq_true _ _).mp h
  obtain ⟨r, hr, hQr⟩ := exists_eq_some hf fun r hr hP => hQ s r hs hr hP
  exact ⟨s, r, hs, hr, hQr⟩

/-- **A loop over a list**: an invariant of the elements passed so far, which every iteration can be
taken from and preserves, holds at the end. -/
theorem foldlM_invariant {α : Type*} {f : σ → α → Option σ} {P : List α → σ → Prop} :
    ∀ (l : List α) {s : σ}, P [] s →
      (∀ pre a post, l = pre ++ a :: post → ∀ s, P pre s →
        ∃ s', f s a = some s' ∧ P (pre ++ [a]) s') →
      ∃ s', l.foldlM f s = some s' ∧ P l s'
  | [], s, h, _ => ⟨s, rfl, h⟩
  | a :: l, s, h, hstep => by
    obtain ⟨mid, hmid, hP⟩ := hstep [] a l rfl s h
    obtain ⟨s', hs', hl⟩ := foldlM_invariant l hP
      fun pre b post hsplit s hs => hstep (a :: pre) b post (by rw [hsplit]; rfl) s hs
    exact ⟨s', by rw [List.foldlM_cons, hmid]; exact hs', hl⟩

end GreenboneFeeder.Run
