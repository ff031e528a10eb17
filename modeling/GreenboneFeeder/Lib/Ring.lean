import Mathlib.Tactic.Common

/-!
# A circular buffer

A buffer of `N` cells with the index of the next cell to read and of the next cell to write. The
buffer is empty when the two are the same, so one cell always stays free. What it holds is a list
(`Ring.content`): writing appends to it and reading takes its head.

The `i`-th element of the content is in the `i`-th cell from the index of the next read on
(`Ring.slot`). The cell to write next is none of these (`Ring.slot_ne`), so a write does not destroy
what is still to be read.
-/

namespace GreenboneFeeder.Ring

open List

variable {α : Type*} {N rd wr : ℕ} {buf : ℕ → α}

/-- The index behind an index. -/
def next (N i : ℕ) : ℕ := if N ≤ i + 1 then 0 else i + 1

/-- The number of cells that hold something. -/
def used (N rd wr : ℕ) : ℕ := if rd ≤ wr then wr - rd else wr + N - rd

/-- The `i`-th cell from an index on. -/
def slot (N rd i : ℕ) : ℕ := if rd + i < N then rd + i else rd + i - N

/-- What the buffer holds, oldest first. -/
def content (N : ℕ) (buf : ℕ → α) (rd wr : ℕ) : List α :=
  (range (used N rd wr)).map fun i => buf (slot N rd i)

@[simp] theorem length_content : (content N buf rd wr).length = used N rd wr := by
  simp [content]

theorem next_lt (hN : 0 < N) {i : ℕ} : next N i < N := by
  rw [next]
  split <;> omega

theorem used_lt (hrd : rd < N) (hwr : wr < N) : used N rd wr < N := by
  rw [used]
  split <;> omega

theorem content_self : content N buf rd rd = [] := by
  simp [content, used]

theorem used_next (hrd : rd < N) (hwr : wr < N) (h : next N wr ≠ rd) :
    used N rd (next N wr) = used N rd wr + 1 := by
  rw [next] at *
  simp only [used]
  split_ifs at * <;> omega

theorem slot_used (hrd : rd < N) (hwr : wr < N) : slot N rd (used N rd wr) = wr := by
  rw [slot, used]
  split_ifs <;> omega

theorem slot_ne {i : ℕ} (hrd : rd < N) (hi : i < used N rd wr) : slot N rd i ≠ wr := by
  rw [used] at hi
  rw [slot]
  split_ifs at * <;> omega

/-- **Writing appends.** -/
theorem content_push (hrd : rd < N) (hwr : wr < N) (h : next N wr ≠ rd) (a : α) :
    content N (Function.update buf wr a) rd (next N wr) = content N buf rd wr ++ [a] := by
  rw [content, used_next hrd hwr h, range_succ, map_append, map_singleton,
    slot_used hrd hwr, Function.update_self]
  congr 1
  refine map_congr_left fun i hi => ?_
  exact Function.update_of_ne (slot_ne hrd (mem_range.mp hi)) ..

/-- **Reading takes the head.** -/
theorem content_pop (hrd : rd < N) (hwr : wr < N) (h : wr ≠ rd) :
    content N buf rd wr = buf rd :: content N buf (next N rd) wr := by
  have hused : used N rd wr = used N (next N rd) wr + 1 := by
    rw [next]
    simp only [used]
    split_ifs <;> omega
  have hslot : ∀ i ∈ range (used N (next N rd) wr),
      slot N rd (i + 1) = slot N (next N rd) i := by
    intro i hi
    have hi := mem_range.mp hi
    simp only [slot, used] at *
    split_ifs at * <;> omega
  rw [content, hused, range_succ_eq_map, map_cons, map_map]
  congr 1
  · rw [slot, Nat.add_zero, if_pos hrd]
  · exact map_congr_left fun i hi => congrArg buf (hslot i hi)

end GreenboneFeeder.Ring
