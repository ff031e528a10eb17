import Mathlib.Tactic.Common

/-!
# Bitmaps in words of 32 bits

A table of 32-bit words is read as one sequence of bits, the low bit of each word first. The bits of
an interval lie in one word or in two, and are set or cleared with a mask for each, which is said
bit by bit (`Bitmap.bit_mark`, `Bitmap.bit_clear`). A search slides a window over two words
(`Bitmap.Window`).
-/

namespace GreenboneFeeder.Bitmap

open Function BitVec

/-- The bit of a table at an index. -/
def bit (f : ℕ → BitVec 32) (i : ℕ) : Bool := (f (i / 32)).getLsbD (i % 32)

/-! ### Masks -/

/-- The `n` low bits. -/
def low (n : ℕ) : BitVec 32 := allOnes 32 >>> (32 - n)

theorem getLsbD_low {n j : ℕ} (hn : n ≤ 32) : (low n).getLsbD j = decide (j < n) := by
  rw [low, getLsbD_ushiftRight, getLsbD_allOnes]
  congr 1
  exact propext ⟨fun h => by omega, fun h => by omega⟩

theorem getLsbD_high {k j : ℕ} :
    (allOnes 32 <<< k).getLsbD j = (decide (k ≤ j) && decide (j < 32)) := by
  rw [getLsbD_shiftLeft, getLsbD_allOnes]
  by_cases hk : k ≤ j
  · by_cases hj : j < 32
    · simp [hk, hj, Nat.not_lt.mpr hk, Nat.lt_of_le_of_lt (Nat.sub_le j k) hj]
    · simp [hj]
  · simp [hk, Nat.lt_of_not_le hk]

theorem getLsbD_low_shiftLeft {n k j : ℕ} (hn : n ≤ 32) :
    (low n <<< k).getLsbD j = (decide (k ≤ j) && decide (j < 32) && decide (j < k + n)) := by
  rw [getLsbD_shiftLeft, getLsbD_low hn]
  by_cases hk : k ≤ j
  · have hsub : j - k < n ↔ j < k + n := by omega
    by_cases hj : j < 32 <;> simp [hk, hj, Nat.not_lt.mpr hk, hsub]
  · simp [hk, Nat.lt_of_not_le hk]

theorem and_low_eq_zero_iff {w : BitVec 32} {n : ℕ} (hn : n ≤ 32) :
    w &&& low n = 0#32 ↔ ∀ j < n, w.getLsbD j = false := by
  rw [zero_iff_eq_false]
  simp only [getLsbD_and, getLsbD_low hn]
  constructor
  · intro h j hj
    simpa [hj] using h j
  · intro h j
    by_cases hj : j < n
    · simp [h j hj]
    · simp [hj]

theorem and_low_eq_low_iff {w : BitVec 32} {n : ℕ} (hn : n ≤ 32) :
    w &&& low n = low n ↔ ∀ j < n, w.getLsbD j = true := by
  constructor
  · intro h j hj
    have hbit := congrArg (BitVec.getLsbD · j) h
    simpa [getLsbD_low hn, hj] using hbit
  · intro h
    refine eq_of_getLsbD_eq fun j _ => ?_
    rw [getLsbD_and, getLsbD_low hn]
    by_cases hj : j < n
    · simp [hj, h j hj]
    · simp [hj]

/-! ### Intervals -/

/-- The bits of an interval, in a table whose words are combined with masks by `g`: in one
word, or in the word of the first bit and the next one. -/
def onInterval (g : BitVec 32 → BitVec 32 → BitVec 32) (i n : ℕ) (f : ℕ → BitVec 32) :
    ℕ → BitVec 32 :=
  if n > 32 - i % 32 then
    update
      (update f (i / 32) (g (f (i / 32)) (allOnes 32 <<< (i % 32))))
      (i / 32 + 1) (g (f (i / 32 + 1)) (low (n - (32 - i % 32))))
  else update f (i / 32) (g (f (i / 32)) (low n <<< (i % 32)))

variable {f : ℕ → BitVec 32} {g : BitVec 32 → BitVec 32 → BitVec 32} {i j n : ℕ}

/-- **A table is known by its bits.** -/
theorem ext_bit {f' : ℕ → BitVec 32} (h : ∀ i, bit f i = bit f' i) : f = f' := by
  refine funext fun k => BitVec.eq_of_getLsbD_eq fun j hj => ?_
  have hk := h (32 * k + j)
  rwa [bit, bit, Nat.mul_add_div (by decide), Nat.mul_add_mod, Nat.div_eq_of_lt hj,
    Nat.mod_eq_of_lt hj] at hk

/-- **What is done to the masks is done to the bits of the interval.** -/
theorem bit_onInterval (op : Bool → Bool → Bool)
    (hg : ∀ x m k, k < 32 → (g x m).getLsbD k = op (x.getLsbD k) (m.getLsbD k))
    (hop : ∀ b, op b false = b) (hn : n ≤ 32) :
    bit (onInterval g i n f) j = op (bit f j) (decide (i ≤ j ∧ j < i + n)) := by
  have hj : j % 32 < 32 := Nat.mod_lt j (by decide)
  unfold bit onInterval
  split
  · -- the interval ends in the next word
    rcases eq_or_ne (j / 32) (i / 32 + 1) with hnext | hnext
    · rw [hnext, update_self, hg _ _ _ hj, getLsbD_low (by omega)]
      congr 1
      exact decide_eq_decide.mpr ⟨fun h => by omega, fun h => by omega⟩
    rw [update_of_ne hnext]
    rcases eq_or_ne (j / 32) (i / 32) with hsame | hsame
    · rw [hsame, update_self, hg _ _ _ hj, getLsbD_high]
      congr 1
      rw [← Bool.decide_and]
      exact decide_eq_decide.mpr ⟨fun h => by omega, fun h => by omega⟩
    · rw [update_of_ne hsame, decide_eq_false (by omega), hop]
  · rcases eq_or_ne (j / 32) (i / 32) with hsame | hsame
    · rw [hsame, update_self, hg _ _ _ hj, getLsbD_low_shiftLeft hn]
      congr 1
      rw [← Bool.decide_and, ← Bool.decide_and]
      exact decide_eq_decide.mpr ⟨fun h => by omega, fun h => by omega⟩
    · rw [update_of_ne hsame, decide_eq_false (by omega), hop]

/-- **The bits of an interval are set.** -/
theorem bit_mark (hn : n ≤ 32) :
    bit (onInterval (· ||| ·) i n f) j = (bit f j || decide (i ≤ j ∧ j < i + n)) :=
  bit_onInterval or (fun _ _ _ _ => getLsbD_or) (fun b => Bool.or_false b) hn

/-- **The bits of an interval are cleared.** -/
theorem bit_clear (hn : n ≤ 32) :
    bit (onInterval (fun x m => x &&& ~~~m) i n f) j =
      (bit f j && !decide (i ≤ j ∧ j < i + n)) := by
  refine bit_onInterval (fun b c => b && !c) (fun x m k hk => ?_)
    (fun b => Bool.and_true b) hn
  simp [hk]

/-! ### A window on two words -/

/-- The pair of words shows the bits from `b` on, as far as there are any. -/
structure Window (bits : ℕ → Bool) (b : ℕ) (curr next : BitVec 32) : Prop where
  curr : ∀ j < 32, curr.getLsbD j = bits (b + j)
  next : ∀ j, next.getLsbD j = bits (b + 32 + j)

/-- The bits of two words, with zeros behind them. -/
def pair (curr next : BitVec 32) (j : ℕ) : Bool :=
  if j < 32 then curr.getLsbD j else next.getLsbD (j - 32)

theorem window_pair (curr next : BitVec 32) : Window (pair curr next) 0 curr next where
  curr j hj := by rw [pair, Nat.zero_add, if_pos hj]
  next j := by rw [pair, if_neg (by omega), Nat.add_sub_cancel_left]

/-- **Shifting the pair moves the window.** -/
theorem Window.shift {bits : ℕ → Bool} {b k : ℕ} {curr next : BitVec 32}
    (h : Window bits b curr next) (hk : k ≤ 32) :
    Window bits (b + k) ((curr >>> k) ||| (next <<< (32 - k))) (next >>> k) where
  curr j hj := by
    rw [getLsbD_or, getLsbD_ushiftRight, getLsbD_shiftLeft]
    by_cases hjk : k + j < 32
    · rw [h.curr _ hjk, decide_eq_true (show j < 32 - k by omega), Nat.add_assoc]
      simp
    · rw [getLsbD_of_ge _ _ (Nat.not_lt.mp hjk), decide_eq_true hj,
        decide_eq_false (show ¬j < 32 - k by omega), h.next]
      simp only [Bool.not_false, Bool.and_self, Bool.true_and, Bool.false_or]
      congr 1
      omega
  next j := by
    rw [getLsbD_ushiftRight, h.next]
    congr 1
    omega

end GreenboneFeeder.Bitmap
