import Mathlib.Tactic.Common

/-!
# Parts of a list

A store of cells is a list. `Overlay.slice` reads a part of it and `Overlay.overwrite` replaces one.
A part that is disjoint from what was overwritten is the same
(`Overlay.slice_overwrite_of_disjoint`), what was overwritten is read back
(`Overlay.slice_overwrite_self`), and neighbouring parts are put together (`Overlay.slice_add`,
`Overlay.overwrite_append`).
-/

namespace GreenboneFeeder.Overlay

open List

variable {β : Type*} {l src src' : List β} {i j k m n : ℕ}

/-- The `n` cells from the `i`-th on. -/
def slice (l : List β) (i n : ℕ) : List β := (l.drop i).take n

/-- The cells from the `i`-th on are replaced by those of `src`. -/
def overwrite (l : List β) (i : ℕ) (src : List β) : List β :=
  l.take i ++ src ++ l.drop (i + src.length)

/-! ### Cell by cell -/

theorem getElem?_slice : (slice l i n)[k]? = if k < n then l[i + k]? else none := by
  rw [slice, getElem?_take]
  split_ifs
  · rw [getElem?_drop]
  · rfl

theorem getElem?_overwrite (h : i ≤ l.length) :
    (overwrite l i src)[k]? = if i ≤ k ∧ k < i + src.length then src[k - i]? else l[k]? := by
  have htake : (l.take i).length = i := length_take_of_le h
  rw [overwrite, append_assoc]
  by_cases hlow : k < i
  · rw [getElem?_append_left (by omega), getElem?_take_of_lt hlow, if_neg (by omega)]
  · rw [getElem?_append_right (by omega), htake]
    by_cases hmid : k < i + src.length
    · rw [getElem?_append_left (by omega), if_pos (by omega)]
    · rw [getElem?_append_right (by omega), getElem?_drop, if_neg (by omega)]
      congr 1
      omega

/-! ### Lengths -/

theorem length_slice (h : i + n ≤ l.length) : (slice l i n).length = n := by
  rw [slice, length_take, length_drop]
  omega

theorem length_overwrite (h : i + src.length ≤ l.length) :
    (overwrite l i src).length = l.length := by
  rw [overwrite, length_append, length_append, length_take, length_drop]
  omega

/-! ### Parts -/

@[simp] theorem slice_zero : slice l i 0 = [] := rfl

theorem slice_add : slice l i (m + n) = slice l i m ++ slice l (i + m) n := by
  rw [slice, slice, slice, ← drop_drop, take_add]

@[simp] theorem overwrite_nil : overwrite l i [] = l := by
  rw [overwrite, append_nil, length_nil, Nat.add_zero, take_append_drop]

theorem slice_overwrite_of_disjoint (hi : i ≤ l.length)
    (h : j + n ≤ i ∨ i + src.length ≤ j) : slice (overwrite l i src) j n = slice l j n := by
  refine ext_getElem? fun k => ?_
  rw [getElem?_slice, getElem?_slice]
  split_ifs with hk
  · rw [getElem?_overwrite hi, if_neg (by omega)]
  · rfl

theorem slice_overwrite_self (hi : i ≤ l.length) :
    slice (overwrite l i src) i src.length = src := by
  refine ext_getElem? fun k => ?_
  rw [getElem?_slice, getElem?_overwrite hi]
  by_cases hk : k < src.length
  · rw [if_pos hk, if_pos (by omega), Nat.add_sub_cancel_left]
  · rw [if_neg hk, getElem?_eq_none (by omega)]

theorem overwrite_append (h : i + src.length ≤ l.length) :
    overwrite (overwrite l i src) (i + src.length) src' = overwrite l i (src ++ src') := by
  refine ext_getElem? fun k => ?_
  rw [getElem?_overwrite (by rw [length_overwrite h]; exact h), getElem?_overwrite (by omega),
    getElem?_overwrite (by omega), length_append]
  by_cases hsrc : i ≤ k ∧ k < i + src.length
  · rw [if_neg (by omega), if_pos hsrc, if_pos (by omega), getElem?_append_left (by omega)]
  · by_cases hsrc' : i + src.length ≤ k ∧ k < i + src.length + src'.length
    · rw [if_pos hsrc', if_pos (by omega), getElem?_append_right (by omega)]
      congr 1
      omega
    · rw [if_neg hsrc', if_neg hsrc, if_neg (by omega)]

theorem overwrite_overwrite_slice (h : i + n ≤ l.length) (hsrc : j + src.length ≤ n) :
    overwrite l i (overwrite (slice l i n) j src) = overwrite l (i + j) src := by
  have hslice := length_slice h
  refine ext_getElem? fun k => ?_
  rw [getElem?_overwrite (by omega), length_overwrite (by omega), hslice,
    getElem?_overwrite (by omega), getElem?_slice, getElem?_overwrite (by omega)]
  by_cases hk : i + j ≤ k ∧ k < i + j + src.length
  · rw [if_pos (by omega), if_pos (by omega), if_pos hk, Nat.sub_sub]
  · rw [if_neg hk]
    split_ifs with hin
    · omega
    · rw [Nat.add_sub_cancel' hin.1]
    · omega
    · rfl

end GreenboneFeeder.Overlay
