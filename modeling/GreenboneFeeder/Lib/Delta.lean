import Mathlib.Data.List.TakeWhile
import Mathlib.Algebra.Order.Group.Int

/-!
# Delta lists

A list of keys with *lags*: each is due some time after the one in front of it. The list stands for
the times at which its keys are due (`Delta.dues`). Putting a key in and taking one out each change
the lag of one neighbour, and leave the times of all other keys alone.

On the times, putting a key in is an insertion behind all keys that are not due later
(`Delta.insertDue`). Time goes by with `Delta.advance`, which takes off the keys that have become
due; two steps in sequence are one step of their sum (`Delta.advance_add`).
-/

namespace GreenboneFeeder.Delta

open List

variable {κ : Type} {t x y : ℤ} {k : κ} {l l' before after : List (κ × ℤ)} {a : κ × ℤ}

/-- **The times at which the keys are due**, the first one counted from `t`. -/
def dues : ℤ → List (κ × ℤ) → List (κ × ℤ)
  | _, [] => []
  | t, (k, lag) :: l => (k, t + lag) :: dues (t + lag) l

/-- The time from the beginning of the list to the last key. -/
def span : List (κ × ℤ) → ℤ
  | [] => 0
  | a :: l => a.2 + span l

/-- The lag of the first key grows by `x`. -/
def carry (x : ℤ) : List (κ × ℤ) → List (κ × ℤ)
  | [] => []
  | (k, lag) :: l => (k, lag + x) :: l

/-- The lags are not negative. -/
def Nonneg (l : List (κ × ℤ)) : Prop := ∀ a ∈ l, 0 ≤ a.2

/-- A key is put behind all those that are not due later. -/
def insertDue (a : κ × ℤ) (l : List (κ × ℤ)) : List (κ × ℤ) :=
  l.takeWhile (fun b => b.2 ≤ a.2) ++ a :: l.dropWhile (fun b => b.2 ≤ a.2)

/-! ### Reading the times -/

@[simp] theorem dues_nil : dues t ([] : List (κ × ℤ)) = [] := rfl

@[simp] theorem dues_cons {lag : ℤ} : dues t ((k, lag) :: l) = (k, t + lag) :: dues (t + lag) l :=
  rfl

@[simp] theorem span_nil : span ([] : List (κ × ℤ)) = 0 := rfl

@[simp] theorem span_cons : span (a :: l) = a.2 + span l := rfl

theorem span_append : span (l ++ l') = span l + span l' := by
  induction l with
  | nil => simp
  | cons a l ih => simp [ih, Int.add_assoc]

theorem dues_append : dues t (l ++ l') = dues t l ++ dues (t + span l) l' := by
  induction l generalizing t with
  | nil => simp
  | cons a l ih =>
    obtain ⟨k, lag⟩ := a
    simp [ih, Int.add_assoc]

theorem map_fst_dues : (dues t l).map Prod.fst = l.map Prod.fst := by
  induction l generalizing t with
  | nil => rfl
  | cons a l ih =>
    obtain ⟨k, lag⟩ := a
    simp [ih]

theorem dues_add : dues (t + x) l = (dues t l).map fun a => (a.1, a.2 + x) := by
  induction l generalizing t with
  | nil => rfl
  | cons a l ih =>
    rw [dues_cons, dues_cons, map_cons, ← ih, Int.add_right_comm]

theorem dues_carry : dues t (carry x l) = dues (t + x) l := by
  rcases l with - | ⟨⟨k, lag⟩, l⟩
  · rfl
  · rw [carry, dues_cons, dues_cons, Int.add_right_comm, Int.add_assoc t lag x]

theorem map_fst_carry : (carry x l).map Prod.fst = l.map Prod.fst := by
  rcases l with - | ⟨⟨k, lag⟩, l⟩ <;> rfl

/-! ### Lags that are not negative -/

theorem Nonneg.append (h : Nonneg l) (h' : Nonneg l') : Nonneg (l ++ l') := fun a ha =>
  (mem_append.mp ha).elim (h a) (h' a)

theorem Nonneg.of_append (h : Nonneg (l ++ l')) : Nonneg l ∧ Nonneg l' :=
  ⟨fun a ha => h a (mem_append_left _ ha), fun a ha => h a (mem_append_right _ ha)⟩

theorem Nonneg.cons (ha : 0 ≤ a.2) (h : Nonneg l) : Nonneg (a :: l) := by
  rintro b hb
  rcases mem_cons.mp hb with rfl | hb
  · exact ha
  · exact h b hb

theorem Nonneg.of_cons (h : Nonneg (a :: l)) : 0 ≤ a.2 ∧ Nonneg l :=
  ⟨h a mem_cons_self, fun b hb => h b (mem_cons_of_mem a hb)⟩

theorem Nonneg.span_nonneg (h : Nonneg l) : 0 ≤ span l := by
  induction l with
  | nil => exact Int.le_refl 0
  | cons a l ih =>
    obtain ⟨ha, hl⟩ := h.of_cons
    exact Int.add_nonneg ha (ih hl)

theorem Nonneg.dues_mem (h : Nonneg l) (ha : a ∈ dues t l) :
    t ≤ a.2 ∧ a.2 ≤ t + span l := by
  induction l generalizing t with
  | nil => exact absurd ha not_mem_nil
  | cons b l ih =>
    obtain ⟨hlag, hl⟩ := h.of_cons
    have hspan := hl.span_nonneg
    rw [span_cons]
    rcases mem_cons.mp ha with rfl | ha
    · omega
    · have hm := ih hl ha
      omega

theorem Nonneg.sorted_dues (h : Nonneg l) : (dues t l).Pairwise fun a b => a.2 ≤ b.2 := by
  induction l generalizing t with
  | nil => exact Pairwise.nil
  | cons b l ih =>
    obtain ⟨hlag, hl⟩ := h.of_cons
    exact pairwise_cons.mpr ⟨fun a ha => (hl.dues_mem ha).1, ih hl⟩

/-! ### Putting in and taking out -/

/-- **Putting a key in**: what is behind it gives up its lag. -/
theorem dues_insert : dues t (before ++ (k, x) :: carry (-x) after) =
    dues t before ++ (k, t + span before + x) :: dues (t + span before) after := by
  rw [dues_append, dues_cons, dues_carry, Int.add_neg_cancel_right]

/-- **Taking a key out**: what is behind it takes over its lag. -/
theorem dues_remove : dues t (before ++ carry x after) =
    dues t before ++ dues (t + span before + x) after := by
  rw [dues_append, dues_carry]

theorem insertDue_append (h : ∀ b ∈ l, b.2 ≤ a.2) (h' : ∀ b ∈ l', a.2 < b.2) :
    insertDue a (l ++ l') = l ++ a :: l' := by
  have hl : ∀ b ∈ l, decide (b.2 ≤ a.2) = true := fun b hb => decide_eq_true (h b hb)
  rw [insertDue, takeWhile_append_of_pos hl, dropWhile_append_of_pos hl]
  rcases l' with - | ⟨b, l'⟩
  · simp
  · have hb : ¬ b.2 ≤ a.2 := Int.not_le.mpr (h' b mem_cons_self)
    simp [hb]

/-- In a list by time, a key is put between what is not due later and what is. -/
theorem insertDue_split (a : κ × ℤ) (hs : l.Pairwise fun a b => a.2 ≤ b.2) :
    ∃ l₁ l₂, l = l₁ ++ l₂ ∧ insertDue a l = l₁ ++ a :: l₂ ∧ (∀ b ∈ l₁, b.2 ≤ a.2) ∧
      ∀ b ∈ l₂, a.2 < b.2 := by
  have hsplit : ∃ l₁ l₂, l = l₁ ++ l₂ ∧ (∀ b ∈ l₁, b.2 ≤ a.2) ∧ ∀ b ∈ l₂, a.2 < b.2 := by
    induction l with
    | nil => exact ⟨[], [], rfl, fun _ hb => absurd hb not_mem_nil,
        fun _ hb => absurd hb not_mem_nil⟩
    | cons c l ih =>
      obtain ⟨hc, hl⟩ := pairwise_cons.mp hs
      rcases lt_or_ge a.2 c.2 with hlt | hle
      · refine ⟨[], c :: l, rfl, fun _ hb => absurd hb not_mem_nil, ?_⟩
        rintro b hb
        rcases mem_cons.mp hb with rfl | hb
        · exact hlt
        · exact Int.lt_of_lt_of_le hlt (hc b hb)
      · obtain ⟨l₁, l₂, rfl, h₁, h₂⟩ := ih hl
        refine ⟨c :: l₁, l₂, rfl, ?_, h₂⟩
        rintro b hb
        rcases mem_cons.mp hb with rfl | hb
        · exact hle
        · exact h₁ b hb
  obtain ⟨l₁, l₂, rfl, h₁, h₂⟩ := hsplit
  exact ⟨l₁, l₂, rfl, insertDue_append h₁ h₂, h₁, h₂⟩

/-- A relation holds along a list by time after a key is put in, if it relates what is not due later
to the key and the key to what is. -/
theorem pairwise_insertDue {R : κ × ℤ → κ × ℤ → Prop} (hs : l.Pairwise fun a b => a.2 ≤ b.2)
    (hR : l.Pairwise R) (hfront : ∀ b ∈ l, b.2 ≤ a.2 → R b a) (hback : ∀ b ∈ l, a.2 < b.2 → R a b) :
    (insertDue a l).Pairwise R := by
  obtain ⟨l₁, l₂, rfl, hins, h₁, h₂⟩ := insertDue_split a hs
  rw [hins]
  rw [pairwise_append] at hR ⊢
  refine ⟨hR.1, pairwise_cons.mpr ⟨fun b hb => ?_, hR.2.1⟩, fun b hb c hc => ?_⟩
  · exact hback b (mem_append_right _ hb) (h₂ b hb)
  · rcases mem_cons.mp hc with rfl | hc
    · exact hfront b (mem_append_left _ hb) (h₁ b hb)
    · exact hR.2.2 b hb c hc

theorem insertDue_perm (a : κ × ℤ) (l : List (κ × ℤ)) : (insertDue a l).Perm (a :: l) := by
  refine perm_middle.trans ?_
  rw [takeWhile_append_dropWhile]

@[simp] theorem mem_insertDue {b : κ × ℤ} : b ∈ insertDue a l ↔ b = a ∨ b ∈ l := by
  rw [(insertDue_perm a l).mem_iff, mem_cons]

/-! ### Letting time go by -/

/-- The keys that are due within the time, and what is left of the list then. -/
def advance : ℤ → List (κ × ℤ) → List κ × List (κ × ℤ)
  | _, [] => ([], [])
  | n, (k, lag) :: l =>
    if n < lag then ([], (k, lag - n) :: l)
    else (k :: (advance (n - lag) l).1, (advance (n - lag) l).2)

/-- **Time goes by in steps.** -/
theorem advance_add {m n : ℤ} (hn : 0 ≤ n) :
    advance (m + n) l =
      ((advance m l).1 ++ (advance n (advance m l).2).1, (advance n (advance m l).2).2) := by
  induction l generalizing m with
  | nil => rfl
  | cons a l ih =>
    obtain ⟨k, lag⟩ := a
    by_cases hm : m < lag
    · rw [advance, advance, if_pos hm]
      rw [advance]
      split_ifs
      · rw [nil_append, Int.sub_sub]
      · omega
      · omega
      · rw [show m + n - lag = n - (lag - m) by omega, nil_append]
    · rw [advance, advance, if_neg hm, if_neg (by omega),
        show m + n - lag = m - lag + n by omega, ih]
      rfl

/-- What is left is not due, and no lag has become longer. -/
theorem advance_left {n : ℤ} {b : ℤ} (hn : 0 ≤ n) (hl : ∀ a ∈ l, 0 ≤ a.2 ∧ a.2 ≤ b) :
    (advance n l).2.length ≤ l.length ∧ (∀ a ∈ (advance n l).2, 0 ≤ a.2 ∧ a.2 ≤ b) ∧
      ∀ a ∈ (advance n l).2.head?, 0 < a.2 := by
  induction l generalizing n with
  | nil => simp [advance]
  | cons a l ih =>
    obtain ⟨k, lag⟩ := a
    obtain ⟨ha, hl⟩ := forall_mem_cons.mp hl
    rw [advance]
    split_ifs with hlt
    · refine ⟨le_rfl, forall_mem_cons.mpr ⟨?_, hl⟩, ?_⟩
      · omega
      · intro a ha
        cases ha
        exact Int.sub_pos.mpr hlt
    · obtain ⟨hlength, hrest⟩ := ih (n := n - lag) (by omega) hl
      exact ⟨Nat.le_succ_of_le hlength, hrest⟩

end GreenboneFeeder.Delta
