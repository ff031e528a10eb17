import Mathlib.Algebra.GroupWithZero.Nat
import Mathlib.Tactic.Common

/-!
# Addition with end-around carry

The one's complement sum of words of a fixed size: what is carried out at the top is added at the
bottom. With `m` the largest word, the numbers from `1` to `m` are the remainders modulo `m` under
this addition, with `m` in the place of `0`, and the sum of words is the remainder of their sum
(`EndAround.foldl_add`).
-/

namespace GreenboneFeeder.EndAround

variable {m a b n : ℕ}

/-- The sum of two words, the largest word being `m`. -/
def add (m a b : ℕ) : ℕ := if m < a + b then a + b - m else a + b

/-- The word that a number is worth: `0` for itself, and for other numbers the remainder
modulo `m` that lies between `1` and `m`. -/
def residue (m n : ℕ) : ℕ := if n = 0 then 0 else (n - 1) % m + 1

theorem residue_of_pos (h : 0 < n) : residue m n = (n - 1) % m + 1 := if_neg (by omega)

theorem residue_of_le (h : n ≤ m) : residue m n = n := by
  rcases Nat.eq_zero_or_pos n with rfl | hn
  · rfl
  · rw [residue_of_pos hn, Nat.mod_eq_of_lt (by omega)]
    omega

theorem residue_le (hm : 0 < m) : residue m n ≤ m := by
  rcases Nat.eq_zero_or_pos n with rfl | hn
  · exact Nat.zero_le m
  · rw [residue_of_pos hn]
    exact Nat.mod_lt _ hm

theorem residue_eq_zero_iff : residue m n = 0 ↔ n = 0 := by
  constructor
  · intro h
    by_contra hn
    rw [residue_of_pos (Nat.pos_of_ne_zero hn)] at h
    exact absurd h (Nat.succ_ne_zero _)
  · rintro rfl
    rfl

/-- **A residue may be taken early.** -/
theorem residue_residue_add : residue m (residue m a + b) = residue m (a + b) := by
  rcases Nat.eq_zero_or_pos a with rfl | ha
  · rfl
  · rw [residue_of_pos ha, residue_of_pos (by omega), residue_of_pos (by omega),
      show (a - 1) % m + 1 + b - 1 = (a - 1) % m + b by omega, Nat.mod_add_mod,
      show a - 1 + b = a + b - 1 by omega]

theorem add_eq_residue (ha : a ≤ m) (hb : b ≤ m) : add m a b = residue m (a + b) := by
  rw [add]
  split
  · -- taking `m` away once brings the sum between `1` and `m`
    rw [residue_of_pos (by omega), show a + b - 1 = (a + b - 1 - m) + m by omega,
      Nat.add_mod_right, Nat.mod_eq_of_lt (by omega)]
    omega
  · rw [residue_of_le (by omega)]

/-- **The sum of words is the residue of their sum.** -/
theorem foldl_add (hm : 0 < m) :
    ∀ {l : List ℕ} {s : ℕ}, s ≤ m → (∀ x ∈ l, x ≤ m) → l.foldl (add m) s = residue m (s + l.sum)
  | [], s, hs, _ => (residue_of_le hs).symm
  | x :: l, s, hs, hl => by
    have hx : x ≤ m := hl x List.mem_cons_self
    rw [List.foldl_cons, List.sum_cons, add_eq_residue hs hx,
      foldl_add hm (residue_le hm) fun y hy => hl y (List.mem_cons_of_mem x hy),
      residue_residue_add, Nat.add_assoc]

/-- **A sum and its complement make the largest word.** -/
theorem residue_add_complement (hm : 0 < m) : residue m (a + (m - residue m a)) = m := by
  have hle : residue m a ≤ m := residue_le hm
  rw [← residue_residue_add, Nat.add_sub_cancel' hle, residue_of_le (Nat.le_refl m)]

end GreenboneFeeder.EndAround
