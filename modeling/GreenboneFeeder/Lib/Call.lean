import Mathlib.Data.Int.Notation
import Mathlib.Tactic.Common

/-!
# Calls that may fail

A function of C that changes a state and returns a value or a negative error number is a `Call`.
Where it does not return, it has no result. That a call returns a value is `Call.Returns`; the rules
`Returns.bind_iff` and its companions take off the first call of a sequence that returns.
-/

namespace GreenboneFeeder

/-- **A call** on a state: it returns a value or an error number, or does not return. -/
def Call (σ α : Type) : Type := σ → Option (Except ℤ α × σ)

namespace Call

variable {σ τ α β : Type}

instance : Monad (Call σ) where
  pure a := fun s => some (.ok a, s)
  bind x f := fun s =>
    match x s with
    | none => none
    | some (.ok a, s') => f a s'
    | some (.error e, s') => some (.error e, s')

/-- The call returns an error number. -/
def error (e : ℤ) : Call σ α := fun s => some (.error e, s)

/-- The call does not return. -/
def diverge : Call σ α := fun _ => none

/-- The state is read. -/
def get : Call σ σ := fun s => some (.ok s, s)

/-- The state is changed. -/
def modify (f : σ → σ) : Call σ Unit := fun s => some (.ok (), f s)

/-- A call on a part of the state. -/
def zoom (part : σ → τ) (put : σ → τ → σ) (x : Call τ α) : Call σ α :=
  fun s => (x (part s)).map fun r => (r.1, put s r.2)

/-- Whatever error number the call returns, this one is returned. -/
def orError (e : ℤ) (x : Call σ α) : Call σ α := fun s =>
  match x s with
  | none => none
  | some (.ok a, s') => some (.ok a, s')
  | some (.error _, s') => some (.error e, s')

/-- The result of the call as the number that C returns, an error or not. -/
def number (x : Call σ ℕ) : Call σ ℤ := fun s =>
  match x s with
  | none => none
  | some (.ok n, s') => some (.ok n, s')
  | some (.error e, s') => some (.ok e, s')

/-- Errors of the call are ignored. -/
def ignore (x : Call σ Unit) : Call σ Unit := fun s =>
  match x s with
  | none => none
  | some (_, s') => some (.ok (), s')

/-- **The call returns a value**, in a state. -/
def Returns (x : Call σ α) (s : σ) (a : α) (s' : σ) : Prop := x s = some (.ok a, s')

variable {x : Call σ α} {f : α → Call σ β} {s s' s'' : σ} {a a' : α} {b : β}

theorem Returns.bind_eq (h : Returns x s a s') : (x >>= f) s = f a s' := by
  change (match x s with
    | none => none
    | some (.ok a, s') => f a s'
    | some (.error e, s') => some (.error e, s')) = f a s'
  rw [h]

theorem Returns.bind_iff (h : Returns x s a s') :
    Returns (x >>= f) s b s'' ↔ Returns (f a) s' b s'' := by
  rw [Returns, h.bind_eq]
  rfl

theorem Returns.of_bind (h : Returns (x >>= f) s b s'') :
    ∃ a s', Returns x s a s' ∧ Returns (f a) s' b s'' := by
  change (match x s with
    | none => none
    | some (.ok a, s') => f a s'
    | some (.error e, s') => some (.error e, s')) = some (.ok b, s'') at h
  split at h
  · cases h
  · exact ⟨_, _, ‹_›, h⟩
  · cases h

theorem returns_pure : Returns (pure a) s a s := rfl

@[simp] theorem returns_pure_iff : Returns (pure a') s a s' ↔ a' = a ∧ s = s' := by
  change some (Except.ok a', s) = some (Except.ok a, s') ↔ _
  rw [Option.some.injEq, Prod.mk.injEq, Except.ok.injEq]

@[simp] theorem returns_get_bind_iff {f : σ → Call σ β} :
    Returns (get >>= f) s b s' ↔ Returns (f s) s b s' := .rfl

@[simp] theorem returns_modify_bind_iff {f : Unit → Call σ β} {g : σ → σ} :
    Returns (modify g >>= f) s b s' ↔ Returns (f ()) (g s) b s' := .rfl

theorem returns_modify {g : σ → σ} : Returns (modify g) s () (g s) := rfl

theorem Returns.zoom {part : σ → τ} {put : σ → τ → σ} {y : Call τ α} {t : τ}
    (h : Returns y (part s) a t) : Returns (Call.zoom part put y) s a (put s t) := by
  change (y (part s)).map _ = _
  rw [h]
  rfl

theorem Returns.orError {e : ℤ} (h : Returns x s a s') : Returns (Call.orError e x) s a s' := by
  rw [Returns] at h ⊢
  unfold Call.orError
  rw [h]

theorem Returns.number {y : Call σ ℕ} {n : ℕ} (h : Returns y s n s') :
    Returns (Call.number y) s (n : ℤ) s' := by
  rw [Returns] at h ⊢
  unfold Call.number
  rw [h]

theorem returns_ignore_of_error {y : Call σ Unit} {e : ℤ} (h : y s = some (.error e, s')) :
    Returns (Call.ignore y) s () s' := by
  rw [Returns]
  unfold Call.ignore
  rw [h]

theorem Returns.ignore {y : Call σ Unit} (h : Returns y s () s') :
    Returns (Call.ignore y) s () s' := by
  rw [Returns] at h ⊢
  unfold Call.ignore
  rw [h]

end Call

end GreenboneFeeder
