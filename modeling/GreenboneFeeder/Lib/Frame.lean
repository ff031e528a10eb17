import Mathlib.Order.Defs.Unbundled

/-!
# Calls and what they leave alone

A call that may fail to return is a state transformer `StateT σ Option α`. What it leaves alone is a
preorder on the states (`Frame.Keeps`). The rules follow the shape of the call, so that a function
that only calls others keeps what they keep.
-/

namespace GreenboneFeeder.Frame

variable {σ α β : Type} {R : σ → σ → Prop} {m : StateT σ Option α} {f : α → StateT σ Option β}

/-- **Two calls, one after the other**, return what the second does from where the first
leaves off. -/
theorem bind_eq_some {s s' : σ} {b : β} :
    (m >>= f) s = some (b, s') ↔ ∃ a mid, m s = some (a, mid) ∧ f a mid = some (b, s') := by
  constructor
  · intro h
    obtain ⟨⟨a, mid⟩, hmid, hb⟩ := Option.bind_eq_some_iff.mp h
    exact ⟨a, mid, hmid, hb⟩
  · rintro ⟨a, mid, hmid, hb⟩
    exact Option.bind_eq_some_iff.mpr ⟨(a, mid), hmid, hb⟩

/-- **Where the call returns, it has kept `R`.** -/
def Keeps (R : σ → σ → Prop) (m : StateT σ Option α) : Prop :=
  ∀ s a s', m s = some (a, s') → R s s'

theorem keeps_pure [Std.Refl R] {a : α} : Keeps R (pure a : StateT σ Option α) := by
  rintro s b s' h
  obtain ⟨-, rfl⟩ := Prod.mk.inj (Option.some.inj h)
  exact refl_of R s

theorem keeps_get [Std.Refl R] : Keeps R (get : StateT σ Option σ) := by
  rintro s b s' h
  obtain ⟨-, rfl⟩ := Prod.mk.inj (Option.some.inj h)
  exact refl_of R s

theorem keeps_none : Keeps R (fun _ => none : StateT σ Option α) := fun _ _ _ h => nomatch h

theorem keeps_modify {f : σ → σ} (hf : ∀ s, R s (f s)) :
    Keeps R (modify f : StateT σ Option Unit) := by
  rintro s b s' h
  obtain ⟨-, rfl⟩ := Prod.mk.inj (Option.some.inj h)
  exact hf s

theorem Keeps.bind [IsTrans σ R]
    (hm : Keeps R m) (hf : ∀ a, Keeps R (f a)) : Keeps R (m >>= f) := by
  rintro s b s' h
  obtain ⟨a, mid, hmid, hb⟩ := bind_eq_some.mp h
  exact trans_of R (hm s a mid hmid) (hf a mid b s' hb)

/-- A call that only computes its result behind another one. -/
theorem Keeps.ret [IsTrans σ R] [Std.Refl R] {g : α → β} (hm : Keeps R m) :
    Keeps R (m >>= fun a => pure (g a)) := hm.bind fun _ => keeps_pure

/-- A call that is given up where the first part fails. -/
theorem Keeps.bindOk [IsTrans σ R] [Std.Refl R] {ε : Type} {m : StateT σ Option (Except ε α)}
    {f : Except ε α → StateT σ Option β} {g : ε → β} (hm : Keeps R m)
    (herr : (fun e => f (.error e)) = fun e => pure (g e)) (hok : ∀ a, Keeps R (f (.ok a))) :
    Keeps R (m >>= f) := by
  refine hm.bind fun r => ?_
  cases r with
  | error e =>
    rw [congrFun herr e]
    exact keeps_pure
  | ok a => exact hok a

theorem Keeps.ite {c : Prop} [Decidable c] {m' : StateT σ Option α} (h : Keeps R m)
    (h' : Keeps R m') : Keeps R (if c then m else m') := by
  split <;> assumption

theorem Keeps.mono {S : σ → σ → Prop} (hm : Keeps R m) (h : ∀ s s', R s s' → S s s') : Keeps S m :=
  fun s a s' hs => h s s' (hm s a s' hs)

end GreenboneFeeder.Frame
