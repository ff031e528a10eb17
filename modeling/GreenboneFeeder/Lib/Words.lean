import Mathlib.Algebra.Group.Int.Defs
import Mathlib.Algebra.Group.Nat.Defs
import Mathlib.Tactic.Common

/-!
# Machine words

The value of a number that is converted to an integer type of C: `Words.int32`, `Words.uint32`,
`Words.int64`, `Words.int16`, `Words.uint16`. Numbers in the range of the type are not changed.
Masks take the low bits of a word (`Words.and_low`) or the high ones (`Words.and_high`).
-/

namespace GreenboneFeeder.Words

/-- A number with a sign, of 32 bits. -/
def int32 (n : ℤ) : ℤ := Int.bmod n (2 ^ 32)

/-- A number with a sign, of 64 bits. -/
def int64 (n : ℤ) : ℤ := Int.bmod n (2 ^ 64)

/-- A number with a sign, of 16 bits. -/
def int16 (n : ℤ) : ℤ := Int.bmod n (2 ^ 16)

/-- A number without a sign, of 32 bits. -/
def uint32 (n : ℤ) : ℕ := (n % 2 ^ 32).toNat

/-- A number without a sign, of 16 bits. -/
def uint16 (n : ℤ) : ℕ := (n % 2 ^ 16).toNat

variable {n : ℤ} {k : ℕ}

theorem int32_of_lt (h : 0 ≤ n) (hn : n < 2 ^ 31) : int32 n = n := by
  refine Int.bmod_eq_of_le ?_ ?_ <;> omega

theorem int32_natCast (h : k < 2 ^ 31) : int32 k = k := int32_of_lt (by omega) (by omega)

theorem int64_of_lt (h : 0 ≤ n) (hn : n < 2 ^ 63) : int64 n = n := by
  refine Int.bmod_eq_of_le ?_ ?_ <;> omega

theorem int16_of_lt (h : 0 ≤ n) (hn : n < 2 ^ 15) : int16 n = n := by
  refine Int.bmod_eq_of_le ?_ ?_ <;> omega

theorem uint32_of_lt (h : 0 ≤ n) (hn : n < 2 ^ 32) : uint32 n = n.toNat := by
  rw [uint32]
  omega

theorem uint32_natCast (h : k < 2 ^ 32) : uint32 k = k := by
  rw [uint32]
  omega

/-! ### Masks -/

theorem and_low (x i : ℕ) : x &&& (2 ^ i - 1) = x % 2 ^ i := Nat.and_two_pow_sub_one_eq_mod x i

theorem and_high {x i j : ℕ} (h : x < 2 ^ (i + j)) :
    x &&& 2 ^ i * (2 ^ j - 1) = 2 ^ i * (x / 2 ^ i) := by
  refine Nat.eq_of_testBit_eq fun k => ?_
  rw [Nat.testBit_and, Nat.testBit_two_pow_mul, Nat.testBit_two_pow_mul, Nat.testBit_div_two_pow]
  by_cases hk : i ≤ k
  · rw [Nat.sub_add_cancel hk]
    by_cases hj : k - i < j
    · simp [hj, hk]
    · have : x.testBit k = false := by
        refine Nat.testBit_lt_two_pow (Nat.lt_of_lt_of_le h (Nat.pow_le_pow_right (by decide) ?_))
        omega
      simp [this]
  · simp [hk]

theorem high_or_low {a b i : ℕ} (h : b < 2 ^ i) : 2 ^ i * a ||| b = 2 ^ i * a + b :=
  (Nat.two_pow_add_eq_or_of_lt h a).symm

end GreenboneFeeder.Words
