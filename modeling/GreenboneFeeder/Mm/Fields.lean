import GreenboneFeeder.Mm.Model
import Mathlib.Data.Nat.Bitwise
import Mathlib.Data.Nat.Log

/-!
# Sizes and fields

What the arithmetic of the memory manager amounts to, and how its fields interfere. The nodes of the
list have 16 bytes each; so two of their fields are at the same place only if they are the same
field of the same node (`Mm.Heap.get_set`).
-/

namespace GreenboneFeeder.Mm

open Nat

/-! ### Sizes -/

variable {a b n p q s t : ℕ} {c : Bool}

theorem add32_of_lt (h : a + b < 2 ^ 32) : add32 a b = a + b := mod_eq_of_lt h

theorem sub32_of_le (h : b ≤ a) (ha : a < 2 ^ 32) : sub32 a b = a - b := by
  rw [sub32]
  omega

theorem and_highMask {k : ℕ} (hk : k ≤ 32) (ha : a < 2 ^ 32) :
    a &&& (2 ^ 32 - 1 - (2 ^ k - 1)) = a / 2 ^ k * 2 ^ k := by
  have hpos : 0 < 2 ^ k := Nat.two_pow_pos k
  have hsplit : 2 ^ 32 = 2 ^ (32 - k) * 2 ^ k := by rw [← Nat.pow_add, Nat.sub_add_cancel hk]
  have hmask : 2 ^ 32 - 1 - (2 ^ k - 1) = (2 ^ (32 - k) - 1) <<< k := by
    rw [Nat.shiftLeft_eq, Nat.sub_mul]
    omega
  have hshift : a &&& (2 ^ 32 - 1 - (2 ^ k - 1)) = ((a >>> k) &&& (2 ^ (32 - k) - 1)) <<< k := by
    rw [hmask]
    refine eq_of_testBit_eq fun i => ?_
    simp only [testBit_and, testBit_shiftLeft, testBit_shiftRight]
    by_cases hi : k ≤ i
    · rw [show k + (i - k) = i by omega]
      cases a.testBit i <;> simp [hi]
    · simp [hi]
  have hlt : a / 2 ^ k < 2 ^ (32 - k) := by
    rw [div_lt_iff_lt_mul hpos, ← hsplit]
    exact ha
  rw [hshift, and_two_pow_sub_one_eq_mod, shiftLeft_eq, shiftRight_eq_div_pow,
    mod_eq_of_lt hlt]

theorem and_alignMask (ha : a < 2 ^ 32) : a &&& alignMask = a / 16 * 16 :=
  and_highMask (k := 4) (by decide) ha

theorem alignUp_of_lt (h : a + 15 < 2 ^ 32) : alignUp a = (a + 15) / 16 * 16 := by
  have hadd : add32 a granMask = a + 15 := add32_of_lt h
  rw [alignUp, hadd, and_alignMask h]

theorem alignDown_eq (h : a < 2 ^ 32) : alignDown a = a / 16 * 16 := and_alignMask h

/-- The size of a request, rounded up together with the header. -/
def rounded (n : ℕ) : ℕ := (n + 23) / 16 * 16

theorem alignUp_add32 (h : n + 23 < 2 ^ 32) : alignUp (add32 n sizeofAllocNode) = rounded n := by
  have hadd : add32 n sizeofAllocNode = n + 8 := add32_of_lt (by rw [sizeofAllocNode]; omega)
  rw [hadd, alignUp_of_lt (by omega), rounded]

/-- A size together with the flag, as in the field `preceding`. -/
def tagged (p : ℕ) (c : Bool) : ℕ := if c then p + 2 ^ 31 else p

variable (h : p < 2 ^ 31)

include h

@[simp] theorem or_allocBit : p ||| allocBit = tagged p true := by
  have hor := two_pow_add_eq_or_of_lt h 1
  rw [Nat.or_comm]
  rw [mul_one] at hor
  rw [show allocBit = 2 ^ 31 from rfl, ← hor, tagged, if_pos rfl, add_comm]

theorem tagged_and_allocBit :
    tagged p c &&& allocBit = if c then allocBit else 0 := by
  rw [show allocBit = 2 ^ 31 from rfl, and_two_pow, tagged]
  cases c with
  | false => simp [testBit_lt_two_pow h]
  | true =>
    rw [if_pos rfl, add_comm, testBit_two_pow_add_eq, testBit_lt_two_pow h]
    simp

omit h in
@[simp] theorem or_tagged_and_allocBit (hp : p < 2 ^ 31) (hq : q < 2 ^ 31) :
    q ||| (tagged p c &&& allocBit) = tagged q c := by
  rw [tagged_and_allocBit hp]
  cases c with
  | false => simp [tagged]
  | true => exact or_allocBit hq

@[simp] theorem tagged_or_allocBit : tagged p c ||| allocBit = tagged p true := by
  cases c with
  | false => exact or_allocBit h
  | true => rw [← or_allocBit h, Nat.or_assoc, Nat.or_self]

theorem tagged_and_sizeMask : tagged p c &&& sizeMask = p := by
  rw [show sizeMask = 2 ^ 31 - 1 from rfl, and_two_pow_sub_one_eq_mod, tagged]
  cases c with
  | false => exact mod_eq_of_lt h
  | true =>
    rw [if_pos rfl, add_mod_right]
    exact mod_eq_of_lt h

theorem tagged_lt : tagged p c < 2 ^ 32 := by
  rw [tagged]
  split <;> omega

theorem tagged_mod : tagged p c % 2 ^ 32 = tagged p c :=
  mod_eq_of_lt (tagged_lt h)

omit h

@[simp] theorem tagged_false : tagged p false = p := rfl

theorem shiftDown_eq (h : s < 2 ^ (n + 1)) : shiftDown n p s = p + log 2 s := by
  induction n generalizing p s with
  | zero =>
    rw [shiftDown, log_of_lt (by omega), add_zero]
  | succ n ih =>
    rw [shiftDown]
    split
    · next hs =>
      have hhalf : s >>> 1 = s / 2 := by rw [shiftRight_eq_div_pow]
      have hlog : log 2 s = log 2 (s / 2) + 1 := log_of_one_lt_of_le (by omega) hs
      rw [hhalf, ih (by omega)]
      omega
    · next hs => rw [log_of_lt (by omega), add_zero]

theorem size2ndx_eq (h : s < 2 ^ 22) : size2ndx s = log 2 (s / 16) := by
  have hmax : ¬s ≥ maxChunk := by
    have : maxChunk = 2 ^ 22 := rfl
    omega
  have hshift : s >>> minShift = s / 16 := shiftRight_eq_div_pow s 4
  rw [size2ndx, if_neg hmax, hshift, shiftDown_eq (by omega), zero_add]

theorem size2ndx_of_le (h : 2 ^ 22 ≤ s) : size2ndx s = 18 := if_pos h

theorem size2ndx_lt : size2ndx s < nnodes := by
  have hn : nnodes = 19 := rfl
  rcases lt_or_ge s (2 ^ 22) with hs | hs
  · have : log 2 (s / 16) < 18 := log_lt_of_lt_pow' (by omega) (by omega)
    rw [size2ndx_eq hs]
    omega
  · rw [size2ndx_of_le hs]
    omega

theorem size2ndx_mono (h : s ≤ t) : size2ndx s ≤ size2ndx t := by
  have hn : nnodes = 19 := rfl
  rcases lt_or_ge t (2 ^ 22) with ht | ht
  · rw [size2ndx_eq ht, size2ndx_eq (by omega)]
    exact Nat.log_mono_right (Nat.div_le_div_right h)
  · have := size2ndx_lt (s := s)
    rw [size2ndx_of_le ht]
    omega

/-! ### Fields -/

namespace Field

variable {f g : Field}

theorem offset_le (f : Field) : f.offset ≤ 12 ∧ f.offset % 4 = 0 := by
  cases f <;> decide

theorem offset_ne (h : f ≠ g) : f.offset ≠ g.offset := by
  cases f <;> cases g <;> first | exact absurd rfl h | decide

end Field

namespace Heap

variable {h h' : Heap} {f g : Field} {v x i : ℕ}

theorem get_lt : h.get a f < 2 ^ 32 := Bytes.load_lt

theorem get_congr (hmem : ∀ x, a + f.offset ≤ x → x < a + f.offset + 4 → h'.mem x = h.mem x) :
    h'.get a f = h.get a f := Bytes.load_congr hmem

theorem get_set_self : (h.set a f v).get a f = v % 2 ^ 32 := Bytes.load_store_self

@[simp] theorem get_set_of_lt (hv : v < 2 ^ 32) : (h.set a f v).get a f = v :=
  get_set_self.trans (mod_eq_of_lt hv)

@[simp] theorem get_set_tagged (hp : p < 2 ^ 31) :
    (h.set a f (tagged p c)).get a f = tagged p c := get_set_of_lt (tagged_lt hp)

theorem get_set_of_apart (hd : a + f.offset + 4 ≤ b + g.offset ∨ b + g.offset + 4 ≤ a + f.offset) :
    (h.set b g v).get a f = h.get a f := Bytes.load_store_of_disjoint hd

theorem mem_set_of_outside (hx : x < a + f.offset ∨ a + f.offset + 4 ≤ x) :
    (h.set a f v).mem x = h.mem x := Bytes.store_apply_of_outside hx

/-! ### The fields of a header -/

@[simp] theorem get_size_set_size (hab : a + 8 ≤ b ∨ b + 8 ≤ a) :
    (h.set b .size v).get a .size = h.get a .size :=
  get_set_of_apart (by omega)

@[simp] theorem get_size_set_preceding (hab : a = b ∨ a + 8 ≤ b ∨ b + 8 ≤ a) :
    (h.set b .preceding v).get a .size = h.get a .size :=
  get_set_of_apart (by simp only [Field.offset]; omega)

@[simp] theorem get_preceding_set_size (hab : a = b ∨ a + 8 ≤ b ∨ b + 8 ≤ a) :
    (h.set b .size v).get a .preceding = h.get a .preceding :=
  get_set_of_apart (by simp only [Field.offset]; omega)

@[simp] theorem get_preceding_set_preceding (hab : a + 8 ≤ b ∨ b + 8 ≤ a) :
    (h.set b .preceding v).get a .preceding = h.get a .preceding :=
  get_set_of_apart (by omega)

/-! ### The fields of the nodes of the list -/

/-- Two nodes are the same, or each one has 16 bytes of its own. -/
def Spaced (a b : ℕ) : Prop := a = b ∨ a + 16 ≤ b ∨ b + 16 ≤ a

theorem Spaced.symm (hs : Spaced a b) : Spaced b a := by
  unfold Spaced at hs ⊢
  omega

/-- **Two fields are the same, or they are apart.** -/
theorem get_set (hs : Spaced a b) :
    (h.set b g v).get a f = if a = b ∧ f = g then v % 2 ^ 32 else h.get a f := by
  split
  · next heq =>
    obtain ⟨rfl, rfl⟩ := heq
    exact get_set_self
  · next hne =>
    refine get_set_of_apart ?_
    have hf := f.offset_le
    have hg := g.offset_le
    rcases hs with rfl | hs | hs
    · have hfg := Field.offset_ne fun hc => hne ⟨rfl, hc⟩
      omega
    · omega
    · omega

end Heap

end GreenboneFeeder.Mm
