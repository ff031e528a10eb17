import Mathlib.Tactic.Common

/-!
# Strings in a block of memory

A block of memory is the list of what it holds. A string in it goes on up to a terminator
(`CString.strlen`). What is behind a string is moved down over it, one after the other
(`CString.moveDown`), and a string is written into the block (`CString.writeAt`). There is no result
outside of the block.
-/

namespace GreenboneFeeder.CString

open List

variable {α : Type*} [DecidableEq α] {m : List α}

/-- The number of characters in front of the terminator. -/
def strlen (nul : α) : List α → Option ℕ
  | [] => none
  | c :: cs => if c = nul then some 0 else (strlen nul cs).map (· + 1)

theorem strlen_append {nul : α} {s rest : List α} (h : nul ∉ s) :
    strlen nul (s ++ nul :: rest) = some s.length := by
  induction s with
  | nil => exact if_pos rfl
  | cons c s ih =>
    have hc : c ≠ nul := fun hc => h (hc ▸ mem_cons_self)
    rw [cons_append, strlen, if_neg hc, ih fun hmem => h (mem_cons_of_mem _ hmem)]
    rfl

omit [DecidableEq α]

/-- The loop that copies `count` characters from `src` on to `dest` on. -/
def moveDown : ℕ → ℕ → ℕ → List α → Option (List α)
  | 0, _, _, m => some m
  | count + 1, src, dest, m => do
    let c ← m[src]?
    if dest < m.length then moveDown count (src + 1) (dest + 1) (m.set dest c) else none

/-- **Moving down** gives what was at `src`, even where the two places overlap: the loop has read a
character before it is overwritten. -/
theorem moveDown_eq (count : ℕ) {src dest : ℕ} (hle : dest ≤ src) (hlen : src + count ≤ m.length) :
    moveDown count src dest m =
      some (m.take dest ++ (m.drop src).take count ++ m.drop (dest + count)) := by
  induction count generalizing src dest m with
  | zero => simp [moveDown]
  | succ count ih =>
    have hsrc : src < m.length := by omega
    have hset : dest + 1 + count = dest + (count + 1) := by omega
    rw [moveDown, getElem?_eq_getElem hsrc, Option.bind_eq_bind, Option.bind_some,
      if_pos (by omega), ih (by omega) (by rw [length_set]; omega)]
    have htake : (m.set dest m[src]).take (dest + 1) = m.take dest ++ [m[src]] := by
      rw [take_succ_eq_append_getElem (by rw [length_set]; omega), getElem_set_self,
        take_set_of_le (Nat.le_refl _)]
    rw [htake, drop_set_of_lt (by omega), drop_set_of_lt (by omega), hset,
      append_assoc, append_assoc, append_assoc, drop_eq_getElem_cons hsrc]
    rfl

theorem exists_moveDown {count : ℕ} {src dest : ℕ} (hle : dest ≤ src)
    (hlen : src + count ≤ m.length) :
    ∃ m', moveDown count src dest m = some m' ∧ m'.length = m.length := by
  refine ⟨_, moveDown_eq count hle hlen, ?_⟩
  simp only [length_append, length_take, length_drop]
  omega

theorem moveDown_append (a b c : List α) :
    moveDown c.length (a.length + b.length) a.length (a ++ (b ++ c)) =
      some (a ++ c ++ (b ++ c).drop c.length) := by
  rw [moveDown_eq _ (Nat.le_add_right ..) (by simp [Nat.add_assoc]), take_left, ← drop_drop,
    drop_left, drop_left, take_length, ← drop_drop, drop_left]

/-- The characters `l` are written from the place `i` on. -/
def writeAt (m : List α) (i : ℕ) (l : List α) : Option (List α) :=
  if i + l.length ≤ m.length then some (m.take i ++ l ++ m.drop (i + l.length)) else none

theorem writeAt_append {a b l : List α} (h : b.length = l.length) :
    writeAt (a ++ b) a.length l = some (a ++ l) := by
  rw [writeAt, if_pos (by simp [h]), take_left, ← h, ← length_append, drop_length, append_nil]

theorem exists_writeAt {l : List α} {i : ℕ} (h : i + l.length ≤ m.length) :
    ∃ m', writeAt m i l = some m' ∧ m'.length = m.length := by
  refine ⟨_, if_pos h, ?_⟩
  simp only [length_append, length_take, length_drop]
  omega

/-- The `n` characters from the place `i` on. -/
def readAt (m : List α) (i n : ℕ) : Option (List α) :=
  if i + n ≤ m.length then some ((m.drop i).take n) else none

theorem exists_readAt {i n : ℕ} (h : i + n ≤ m.length) :
    ∃ l, readAt m i n = some l ∧ l.length = n := by
  refine ⟨_, if_pos h, ?_⟩
  simp only [length_take, length_drop]
  omega

end GreenboneFeeder.CString
