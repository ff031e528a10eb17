import Mathlib.Algebra.BigOperators.Intervals
import Mathlib.Order.Interval.Finset.Nat

/-!
# Chains in a table of successors

A table has an entry for every cell from `lo` to `n`: `0` if the cell is free, the cell that comes
after it, or a number too large for a cell at the end of a chain. `Successors.Chain` says that the
entries link the cells of a list. A free cell can be put at the end (`Successors.Chain.extend`); no
other one stops being free (`Successors.free_extend`).
-/

namespace GreenboneFeeder.Successors

open List

/-- **The entries link the cells of the list**, and the last one is the end of the chain. -/
structure Chain (lo n : ℕ) (T : ℕ → ℕ) (l : List ℕ) : Prop where
  range : ∀ c ∈ l, lo ≤ c ∧ c < n
  nodup : l.Nodup
  next : ∀ i c d, l[i]? = some c → l[i + 1]? = some d → T c = d
  last : ∀ c, l.getLast? = some c → n ≤ T c

/-- The cells that are free. -/
def free (lo n : ℕ) (T : ℕ → ℕ) : Finset ℕ := {c ∈ Finset.Ico lo n | T c = 0}

variable {lo n e c d i : ℕ} {T T' : ℕ → ℕ} {l : List ℕ}

theorem mem_free : c ∈ free lo n T ↔ (lo ≤ c ∧ c < n) ∧ T c = 0 := by
  rw [free, Finset.mem_filter, Finset.mem_Ico]

theorem free_congr (h : ∀ c, lo ≤ c → c < n → T' c = T c) : free lo n T' = free lo n T := by
  ext c
  rw [mem_free, mem_free]
  refine and_congr_right fun hc => ?_
  rw [h c hc.1 hc.2]

namespace Chain

theorem congr (h : Chain lo n T l) (hT : ∀ c, lo ≤ c → c < n → T' c = T c) :
    Chain lo n T' l where
  range := h.range
  nodup := h.nodup
  next i c d hc hd := by
    have hrange := h.range c (mem_of_getElem? hc)
    rw [hT c hrange.1 hrange.2]
    exact h.next i c d hc hd
  last c hc := by
    have hrange := h.range c (mem_of_getLast? hc)
    rw [hT c hrange.1 hrange.2]
    exact h.last c hc

theorem lt_or_eq_last (hi : l[i]? = some c) :
    (∃ d, l[i + 1]? = some d) ∨ l.getLast? = some c ∧ i + 1 = l.length := by
  obtain ⟨hlt, -⟩ := List.getElem?_eq_some_iff.mp hi
  rcases Nat.lt_or_ge (i + 1) l.length with hlt' | hge
  · exact .inl ⟨_, getElem?_eq_getElem hlt'⟩
  · have hlast : i + 1 = l.length := by omega
    refine .inr ⟨?_, hlast⟩
    rw [getLast?_eq_getElem?, ← hlast]
    exact hi

theorem entry_ne_zero (h : Chain lo n T l) (hlo : 0 < lo) (hc : c ∈ l) : T c ≠ 0 := by
  have hrange := h.range c hc
  obtain ⟨i, hi⟩ := getElem?_of_mem hc
  rcases lt_or_eq_last hi with ⟨d, hd⟩ | ⟨hlast, -⟩
  · have hd' := h.range d (mem_of_getElem? hd)
    rw [h.next i c d hi hd]
    omega
  · have := h.last c hlast
    omega

theorem notMem_of_free (h : Chain lo n T l) (hlo : 0 < lo) (hd : d ∈ free lo n T) : d ∉ l :=
  fun hmem => h.entry_ne_zero hlo hmem (mem_free.mp hd).2

/-- **A free cell is put at the end of a chain.** -/
theorem extend (h : Chain lo n T l) (hlo : 0 < lo) (hd : d ∈ free lo n T) (he : n ≤ e)
    (hT : ∀ c, lo ≤ c → c < n →
      T' c = if c = d then e else if l.getLast? = some c then d else T c) :
    Chain lo n T' (l ++ [d]) := by
  have hrange := (mem_free.mp hd).1
  have hnotMem := h.notMem_of_free hlo hd
  refine ⟨fun c hc => ?_, ?_, fun i c x hc hx => ?_, fun c hc => ?_⟩
  · rcases mem_append.mp hc with hc | hc
    · exact h.range c hc
    · rw [mem_singleton.mp hc]
      exact hrange
  · rw [nodup_append]
    refine ⟨h.nodup, nodup_singleton d, fun a ha b hb => ?_⟩
    rw [mem_singleton.mp hb]
    exact fun heq => hnotMem (heq ▸ ha)
  · -- the cell is one of the chain, and the next one is in it, too, or the new one
    have hlt : i + 1 < (l ++ [d]).length := (List.getElem?_eq_some_iff.mp hx).1
    rw [length_append, length_singleton] at hlt
    rw [getElem?_append_left (by omega)] at hc
    have hmem := mem_of_getElem? hc
    have hne : c ≠ d := fun heq => hnotMem (heq ▸ hmem)
    have hc' := h.range c hmem
    rw [hT c hc'.1 hc'.2, if_neg hne]
    rcases lt_or_eq_last hc with ⟨x', hx'⟩ | ⟨hlast, hlen⟩
    · have hlt' := (List.getElem?_eq_some_iff.mp hx').1
      rw [getElem?_append_left hlt'] at hx
      have hnot : l.getLast? ≠ some c := by
        intro hlast
        rw [getLast?_eq_getElem?, ← hc] at hlast
        have := (getElem?_inj (by omega) h.nodup).mp hlast
        omega
      rw [if_neg hnot]
      exact h.next i c x hc hx
    · rw [hlen, getElem?_append_right (Nat.le_refl _), Nat.sub_self] at hx
      rw [if_pos hlast]
      exact Option.some.inj hx
  · rw [getLast?_append, getLast?_singleton] at hc
    rw [← Option.some.inj hc, hT d hrange.1 hrange.2, if_pos rfl]
    exact he

end Chain

/-- **The cell is not free any more**, and no other one changes. -/
theorem free_extend (h : Chain lo n T l) (hlo : 0 < lo) (hd : d ∈ free lo n T) (he : n ≤ e)
    (hT : ∀ c, lo ≤ c → c < n →
      T' c = if c = d then e else if l.getLast? = some c then d else T c) :
    free lo n T' = (free lo n T).erase d := by
  have hrange := (mem_free.mp hd).1
  ext c
  rw [Finset.mem_erase, mem_free, mem_free]
  constructor
  · rintro ⟨hc, hzero⟩
    rw [hT c hc.1 hc.2] at hzero
    split_ifs at hzero with hcd hlast
    · omega
    · omega
    · exact ⟨hcd, hc, hzero⟩
  · rintro ⟨hcd, hc, hzero⟩
    refine ⟨hc, ?_⟩
    have hlast : l.getLast? ≠ some c := fun hlast =>
      h.entry_ne_zero hlo (mem_of_getLast? hlast) hzero
    rw [hT c hc.1 hc.2, if_neg hcd, if_neg hlast]
    exact hzero

/-! ### Following the entries -/

/-- **The cell is reached** by following the entries of cells. -/
def Reaches (lo n : ℕ) (T : ℕ → ℕ) : ℕ → ℕ → Prop :=
  Relation.ReflTransGen fun a b => (lo ≤ a ∧ a < n) ∧ T a = b

/-- **The entry of a cell is erased**: what is reached from the cell is reached without it, too. -/
theorem reaches_iff (hlo : 0 < lo) (hc : lo ≤ c ∧ c < n) (hd : lo ≤ d ∧ d < n)
    (hT : ∀ a, lo ≤ a → a < n → T' a = if a = c then 0 else T a) :
    Reaches lo n T c d ↔ d = c ∨ Reaches lo n T' (T c) d := by
  have hzero : ¬Reaches lo n T 0 d := fun h => by
    rcases h.cases_head with rfl | ⟨b, ⟨hrange, -⟩, -⟩ <;> omega
  constructor
  · intro h
    -- a path that comes back to the cell begins again at its entry
    have key : ∀ x, Reaches lo n T x d → Reaches lo n T' x d ∨ Reaches lo n T' (T c) d := by
      intro x hx
      induction hx using Relation.ReflTransGen.head_induction_on with
      | refl => exact .inl .refl
      | @head a b hab _ ih =>
        obtain ⟨ha, rfl⟩ := hab
        rcases eq_or_ne a c with rfl | hne
        · exact .inr (ih.elim id id)
        · exact ih.imp_left (.head ⟨ha, (hT a ha.1 ha.2).trans (if_neg hne)⟩)
    rcases h.cases_head with heq | ⟨b, ⟨-, rfl⟩, hb⟩
    · exact .inl heq.symm
    · exact .inr ((key _ hb).elim id id)
  · have key : ∀ x, Reaches lo n T' x d → Reaches lo n T x d := by
      intro x hx
      induction hx using Relation.ReflTransGen.head_induction_on with
      | refl => exact .refl
      | @head a b hab _ ih =>
        obtain ⟨ha, rfl⟩ := hab
        rw [hT a ha.1 ha.2] at ih
        split_ifs at ih with hac
        · exact absurd ih hzero
        · exact .head ⟨ha, rfl⟩ ih
    rintro (rfl | h)
    · exact .refl
    · exact .head ⟨hc, rfl⟩ (key _ h)

theorem card_free_erase (hc : lo ≤ c ∧ c < n) (hne : T c ≠ 0)
    (hT : ∀ a, lo ≤ a → a < n → T' a = if a = c then 0 else T a) :
    (free lo n T').card = (free lo n T).card + 1 := by
  rw [← Finset.card_insert_of_notMem fun hmem => hne (mem_free.mp hmem).2]
  congr 1
  ext a
  rw [Finset.mem_insert, mem_free, mem_free]
  by_cases hac : a = c
  · subst hac
    exact iff_of_true ⟨hc, (hT a hc.1 hc.2).trans (if_pos rfl)⟩ (.inl rfl)
  · refine Iff.trans (and_congr_right fun ha => ?_) (or_iff_right hac).symm
    rw [hT a ha.1 ha.2, if_neg hac]

theorem card_free_le : (free lo n T).card ≤ n - lo :=
  (Finset.card_filter_le _ _).trans (Nat.card_Ico lo n).le

theorem card_free_succ (hlo : lo < n) :
    (free lo n T).card = (if T lo = 0 then 1 else 0) + (free (lo + 1) n T).card := by
  rw [free, free, Finset.card_filter, Finset.card_filter, Finset.sum_eq_sum_Ico_succ_bot hlo]

/-- **The entries lead along the list**, from a number on to one that is no cell. -/
def Leads (lo n : ℕ) (T : ℕ → ℕ) : ℕ → List ℕ → Prop
  | c, [] => ¬(lo ≤ c ∧ c < n)
  | c, d :: l => d = c ∧ (lo ≤ c ∧ c < n) ∧ Leads lo n T (T c) l

theorem Leads.congr (h : ∀ a ∈ l, lo ≤ a → a < n → T' a = T a) (hl : Leads lo n T c l) :
    Leads lo n T' c l := by
  induction l generalizing c with
  | nil => exact hl
  | cons d l ih =>
    obtain ⟨rfl, hd, hl⟩ := hl
    refine ⟨rfl, hd, ?_⟩
    rw [h d mem_cons_self hd.1 hd.2]
    exact ih (fun a ha => h a (mem_cons_of_mem d ha)) hl

end GreenboneFeeder.Successors
