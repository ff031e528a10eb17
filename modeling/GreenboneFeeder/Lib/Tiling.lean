import Mathlib.Algebra.Group.Nat.Defs
import Mathlib.Data.List.Chain

/-!
# Tilings of an interval

A stretch of memory that is divided into pieces is a list of pieces, each with its size and with a
flag. Where a piece lies, and how large the one before it is, follows from the list
(`Tiling.place`), so a change to the division is a change to a part of the list.

A list of pieces that is put together from two is placed piece by piece (`Tiling.place_append`).
This is how one piece is singled out and replaced. No two pieces overlap (`Tiling.pairwise_place`).
-/

namespace GreenboneFeeder.Tiling

open List

/-- A piece of a tiling. -/
@[ext]
structure Piece where
  size : ℕ
  taken : Bool
deriving DecidableEq, Repr

/-- A piece in its place, with the size of the piece before it. -/
@[ext]
structure Placed where
  addr : ℕ
  size : ℕ
  before : ℕ
  taken : Bool
deriving DecidableEq, Repr

/-- The size of all pieces together. -/
def total : List Piece → ℕ
  | [] => 0
  | c :: l => c.size + total l

/-- The size of the last piece, or `p` if there is none. -/
def lastSize : ℕ → List Piece → ℕ
  | p, [] => p
  | _, c :: l => lastSize c.size l

/-- The pieces in their places, from the address `a` on and behind a piece of the size
`p`. -/
def place : ℕ → ℕ → List Piece → List Placed
  | _, _, [] => []
  | a, p, c :: l => ⟨a, c.size, p, c.taken⟩ :: place (a + c.size) c.size l

variable {a p k : ℕ} {c : Piece} {l l₁ l₂ mid mid' r : List Piece} {n : Placed}

@[simp] theorem total_nil : total [] = 0 := rfl

@[simp] theorem total_cons : total (c :: l) = c.size + total l := rfl

@[simp] theorem total_append : total (l₁ ++ l₂) = total l₁ + total l₂ := by
  induction l₁ with
  | nil => simp
  | cons c l₁ ih =>
    rw [cons_append, total_cons, total_cons]
    omega

theorem size_le_total (hc : c ∈ l) : c.size ≤ total l := by
  obtain ⟨l₁, l₂, rfl⟩ := append_of_mem hc
  rw [total_append, total_cons]
  omega

@[simp] theorem lastSize_nil : lastSize p [] = p := rfl

@[simp] theorem lastSize_cons : lastSize p (c :: l) = lastSize c.size l := rfl

@[simp] theorem lastSize_append : lastSize p (l₁ ++ l₂) = lastSize (lastSize p l₁) l₂ := by
  induction l₁ generalizing p with
  | nil => rfl
  | cons c l₁ ih => exact ih

@[simp] theorem place_nil : place a p [] = [] := rfl

@[simp] theorem place_cons :
    place a p (c :: l) = ⟨a, c.size, p, c.taken⟩ :: place (a + c.size) c.size l := rfl

theorem place_append :
    place a p (l₁ ++ l₂) = place a p l₁ ++ place (a + total l₁) (lastSize p l₁) l₂ := by
  induction l₁ generalizing a p with
  | nil => rfl
  | cons c l₁ ih =>
    rw [cons_append, place_cons, place_cons, cons_append, ih, total_cons, lastSize_cons,
      Nat.add_assoc]

/-- A piece in its place has a part of the list before it, and another one behind it. -/
theorem exists_split_of_mem_place (hn : n ∈ place a p l) :
    ∃ l₁ c l₂, l = l₁ ++ c :: l₂ ∧ n = ⟨a + total l₁, c.size, lastSize p l₁, c.taken⟩ := by
  induction l generalizing a p with
  | nil => cases hn
  | cons d l ih =>
    rcases mem_cons.mp hn with rfl | hn
    · exact ⟨[], d, l, rfl, rfl⟩
    · obtain ⟨l₁, c, l₂, rfl, rfl⟩ := ih hn
      refine ⟨d :: l₁, c, l₂, rfl, ?_⟩
      rw [total_cons, lastSize_cons, Nat.add_assoc]

theorem bounds_of_mem_place (hn : n ∈ place a p l) :
    a ≤ n.addr ∧ n.addr + n.size ≤ a + total l := by
  obtain ⟨l₁, c, l₂, rfl, rfl⟩ := exists_split_of_mem_place hn
  simp only [total_append, total_cons]
  omega

theorem piece_of_mem_place (hn : n ∈ place a p l) : (⟨n.size, n.taken⟩ : Piece) ∈ l := by
  obtain ⟨l₁, c, l₂, rfl, rfl⟩ := exists_split_of_mem_place hn
  exact mem_append_right _ mem_cons_self

theorem map_place : (place a p l).map (fun n => (⟨n.size, n.taken⟩ : Piece)) = l := by
  induction l generalizing a p with
  | nil => rfl
  | cons c l ih => rw [place_cons, map_cons, ih]

theorem total_mod (h : ∀ c ∈ l, c.size % k = 0) : total l % k = 0 := by
  induction l with
  | nil => exact Nat.zero_mod k
  | cons c l ih =>
    rw [total_cons, Nat.add_mod, h c mem_cons_self,
      ih fun d hd => h d (mem_cons_of_mem _ hd), Nat.zero_mod]

theorem pairwise_place : (place a p l).Pairwise fun x y => x.addr + x.size ≤ y.addr := by
  induction l generalizing a p with
  | nil => exact List.Pairwise.nil
  | cons c l ih =>
    refine pairwise_cons.mpr ⟨fun y hy => ?_, ih⟩
    exact (bounds_of_mem_place hy).1

theorem isChain_place_of_isChain {R : Piece → Piece → Prop} (h : l.IsChain R) :
    (place a p l).IsChain fun x y => (y.addr = x.addr + x.size ∧ y.before = x.size) ∧
      R ⟨x.size, x.taken⟩ ⟨y.size, y.taken⟩ := by
  induction l generalizing a p with
  | nil => exact isChain_nil
  | cons c l ih =>
    rw [isChain_cons] at h
    refine isChain_cons.mpr ⟨fun y hy => ?_, ih h.2⟩
    cases l with
    | nil => cases hy
    | cons d l =>
      obtain rfl : _ = y := Option.some.inj hy
      exact ⟨⟨rfl, rfl⟩, h.1 d rfl⟩

theorem length_le_total (h : ∀ c ∈ l, 0 < c.size) : l.length ≤ total l := by
  induction l with
  | nil => exact Nat.le_refl 0
  | cons c l ih =>
    have hc := h c mem_cons_self
    have hl := ih fun d hd => h d (mem_cons_of_mem c hd)
    rw [length_cons, total_cons]
    omega

end GreenboneFeeder.Tiling
