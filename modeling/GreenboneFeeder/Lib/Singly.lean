import Mathlib.Tactic.Common

/-!
# Singly linked lists

A cell has a link to the next one, or none. `Singly.Seg` says that the links lead from a pointer
along the cells of a list to another pointer; `Singly.Path` is the case where they end. A list reads
the links of its cells only (`Singly.Seg.congr`). The edits are taking a cell out
(`Singly.Path.unlink`) and putting a list behind another (`Singly.Path.link`).
-/

namespace GreenboneFeeder.Singly

variable {α : Type*} {next next' : α → Option α} {p q : Option α} {a b : α} {l l₁ l₂ : List α}

/-- **The links lead from `p` along the list to `q`.** -/
def Seg (next : α → Option α) : Option α → List α → Option α → Prop
  | p, [], q => p = q
  | p, a :: l, q => p = some a ∧ Seg next (next a) l q

/-- **The links lead from `p` along the list, and end there.** -/
def Path (next : α → Option α) (p : Option α) (l : List α) : Prop := Seg next p l none

/-- The cells that the links lead to, at most `fuel` of them. -/
def follow (next : α → Option α) : ℕ → Option α → List α
  | 0, _ => []
  | _ + 1, none => []
  | fuel + 1, some a => a :: follow next fuel (next a)

theorem seg_cons : Seg next p (a :: l) q ↔ p = some a ∧ Seg next (next a) l q := .rfl

theorem seg_append : Seg next p (l₁ ++ l₂) q ↔ ∃ m, Seg next p l₁ m ∧ Seg next m l₂ q := by
  induction l₁ generalizing p with
  | nil =>
    exact ⟨fun h => ⟨p, rfl, h⟩, fun ⟨m, hm, h⟩ => hm ▸ h⟩
  | cons a l₁ ih =>
    rw [List.cons_append, seg_cons, ih]
    exact ⟨fun ⟨hp, m, hm, h⟩ => ⟨m, ⟨hp, hm⟩, h⟩, fun ⟨m, ⟨hp, hm⟩, h⟩ => ⟨hp, m, hm, h⟩⟩

theorem Seg.congr (h : Seg next p l q) (heq : ∀ a ∈ l, next' a = next a) : Seg next' p l q := by
  induction l generalizing p with
  | nil => exact h
  | cons a l ih =>
    refine ⟨h.1, ?_⟩
    rw [heq a List.mem_cons_self]
    exact ih h.2 fun b hb => heq b (List.mem_cons_of_mem _ hb)

namespace Path

theorem nil_iff : Path next p [] ↔ p = none := .rfl

theorem cons_iff : Path next p (a :: l) ↔ p = some a ∧ Path next (next a) l := .rfl

theorem congr (h : Path next p l) (heq : ∀ a ∈ l, next' a = next a) : Path next' p l :=
  Seg.congr h heq

theorem head?_eq (h : Path next p l) : l.head? = p := by
  cases l with
  | nil => exact (nil_iff.mp h).symm
  | cons a l => exact h.1.symm

theorem follow_eq {fuel : ℕ} (h : Path next p l) (hfuel : l.length ≤ fuel) :
    follow next fuel p = l := by
  induction l generalizing p fuel with
  | nil =>
    obtain rfl := nil_iff.mp h
    cases fuel <;> rfl
  | cons a l ih =>
    obtain ⟨rfl, hrest⟩ := cons_iff.mp h
    obtain ⟨fuel, rfl⟩ := Nat.exists_eq_add_one.mpr (Nat.lt_of_lt_of_le (Nat.succ_pos _) hfuel)
    rw [follow, ih hrest (Nat.le_of_succ_le_succ hfuel)]

theorem of_append (l₁ : List α) (h : Path next p (l₁ ++ a :: l₂)) :
    next a = l₂.head? ∧ Path next l₂.head? l₂ := by
  obtain ⟨m, -, hm⟩ := seg_append.mp h
  have hrest : Path next (next a) l₂ := hm.2
  rw [← hrest.head?_eq] at hrest
  exact ⟨(head?_eq hm.2).symm, hrest⟩

variable [DecidableEq α]

/-- **A list is put behind the last cell of another.** -/
theorem link (h : Path next p (l₁ ++ a :: l₂)) (hnodup : (l₁ ++ [a]).Nodup) (hl : Path next q l)
    (ha : a ∉ l) : Path (Function.update next a q) p (l₁ ++ a :: l) := by
  obtain ⟨m, hm, hrest⟩ := seg_append.mp h
  have ha₁ : a ∉ l₁ := fun hmem =>
    (List.nodup_append.mp hnodup).2.2 a hmem a List.mem_cons_self rfl
  refine seg_append.mpr ⟨m, hm.congr fun b hb => Function.update_of_ne ?_ .., hrest.1, ?_⟩
  · rintro rfl
    exact ha₁ hb
  · rw [Function.update_self]
    refine hl.congr fun b hb => Function.update_of_ne ?_ ..
    rintro rfl
    exact ha hb

/-- **A cell is taken out** behind another one. -/
theorem unlink (h : Path next p (l₁ ++ a :: b :: l₂)) (hnodup : (l₁ ++ a :: l₂).Nodup) :
    Path (Function.update next a l₂.head?) p (l₁ ++ a :: l₂) := by
  have hrest : Path next l₂.head? l₂ :=
    (of_append (l₁ ++ [a]) (by rw [List.append_assoc]; exact h)).2
  obtain ⟨-, h₂, -⟩ := List.nodup_append.mp hnodup
  refine link h ?_ hrest (List.nodup_cons.mp h₂).1
  exact hnodup.sublist ((List.singleton_sublist.mpr List.mem_cons_self).append_left l₁)

end Path

end GreenboneFeeder.Singly
