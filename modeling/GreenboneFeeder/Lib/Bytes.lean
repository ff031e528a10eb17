import Mathlib.Algebra.Group.Nat.Defs
import Mathlib.Tactic.Common

/-!
# A memory of bytes

A memory is a function from addresses to bytes; numbers are stored with the least significant byte
first. A load sees what the last store to the same place put there (`Bytes.load_store_self`), and
does not see stores elsewhere (`Bytes.load_store_of_disjoint`). A copy goes from the first byte to
the last one, so it may overlap its source if it moves the bytes down (`Bytes.copy_apply`).
-/

namespace GreenboneFeeder

/-- A byte at every address. -/
abbrev Bytes := ℕ → UInt8

namespace Bytes

variable {m m' : Bytes} {n k a b v x i dest src : ℕ}

/-- The byte `c` is written at the address `a`. -/
def write (m : Bytes) (a : ℕ) (c : UInt8) : Bytes := Function.update m a c

/-- The number in the `n` bytes from the address `a` on. -/
def load (m : Bytes) : ℕ → ℕ → ℕ
  | 0, _ => 0
  | n + 1, a => (m a).toNat + 256 * m.load n (a + 1)

/-- The number `v` is stored in the `n` bytes from the address `a` on. -/
def store (m : Bytes) : ℕ → ℕ → ℕ → Bytes
  | 0, _, _ => m
  | n + 1, a, v => (m.store n (a + 1) (v / 256)).write a (UInt8.ofNat v)

/-- The `n` bytes from `src` on are copied to `dest`, one after the other. -/
def copy (m : Bytes) : ℕ → ℕ → ℕ → Bytes
  | _, _, 0 => m
  | dest, src, n + 1 => (m.write dest (m src)).copy (dest + 1) (src + 1) n

/-- The `n` bytes from `a` on are set to zero. -/
def clear (m : Bytes) (a n : ℕ) : Bytes :=
  fun x => if a ≤ x ∧ x < a + n then 0 else m x

/-- The `n` bytes from `a` on are replaced by those of another memory. -/
def blit (m : Bytes) (a n : ℕ) (src : Bytes) : Bytes :=
  fun x => if a ≤ x ∧ x < a + n then src (x - a) else m x

/-- A list of bytes as a memory. -/
def ofList (l : List UInt8) : Bytes := fun x => l.getD x 0

/-- The `n` bytes from the address `a` on. -/
def slice (m : Bytes) (a n : ℕ) : List UInt8 := (List.range n).map fun i => m (a + i)

/-! ### Slices -/

theorem slice_add : m.slice a (n + k) = m.slice a n ++ m.slice (a + n) k := by
  simp [slice, List.range_add, Nat.add_assoc]

@[simp] theorem length_slice : (m.slice a n).length = n := by
  simp [slice]

theorem slice_congr (h : ∀ x, a ≤ x → x < a + n → m' x = m x) : m'.slice a n = m.slice a n := by
  refine List.map_congr_left fun i hi => h _ (Nat.le_add_right a i) ?_
  have := List.mem_range.mp hi
  omega

/-! ### Loading and storing -/

theorem write_self {c : UInt8} : m.write a c a = c := Function.update_self ..

theorem write_of_ne {c : UInt8} (h : x ≠ a) : m.write a c x = m x := Function.update_of_ne h ..

theorem write_apply {c : UInt8} : m.write a c x = if x = a then c else m x :=
  Function.update_apply ..

theorem store_apply_of_outside (hx : x < a ∨ a + n ≤ x) : m.store n a v x = m x := by
  induction n generalizing a v with
  | zero => rfl
  | succ n ih =>
    rw [store, write_of_ne (by omega)]
    exact ih (by omega)

theorem store_apply_congr (h : m' x = m x) : m'.store n a v x = m.store n a v x := by
  induction n generalizing a v with
  | zero => exact h
  | succ n ih => rw [store, store, write_apply, write_apply, ih]

theorem load_congr (h : ∀ x, a ≤ x → x < a + n → m' x = m x) : m'.load n a = m.load n a := by
  induction n generalizing a with
  | zero => rfl
  | succ n ih =>
    rw [load, load, h a (Nat.le_refl a) (by omega), ih fun x hx hx' => h x (by omega) (by omega)]

theorem load_eq_of_forall (h : ∀ i < n, m' (b + i) = m (a + i)) : m'.load n b = m.load n a := by
  induction n generalizing a b with
  | zero => rfl
  | succ n ih =>
    have hrest : m'.load n (b + 1) = m.load n (a + 1) := ih fun i hi => by
      rw [Nat.add_right_comm, Nat.add_right_comm a]
      exact h (i + 1) (by omega)
    have hfirst : m' b = m a := h 0 (Nat.zero_lt_succ n)
    rw [load, load, hrest, hfirst]

theorem load_store_of_disjoint (h : a + n ≤ b ∨ b + k ≤ a) :
    (m.store k b v).load n a = m.load n a :=
  load_congr fun _ hx hx' => store_apply_of_outside (by omega)

theorem load_store_self : (m.store n a v).load n a = v % 256 ^ n := by
  induction n generalizing a v with
  | zero => simp [load, Nat.mod_one]
  | succ n ih =>
    have hrest : (m.store (n + 1) a v).load n (a + 1) = v / 256 % 256 ^ n := by
      rw [← ih]
      exact load_congr fun x hx _ => write_of_ne (by omega)
    have hbyte : (UInt8.ofNat v).toNat = v % 256 := UInt8.toNat_ofNat'
    rw [load, hrest, store, write_self, hbyte, pow_succ', Nat.mod_mul]

theorem load_lt : m.load n a < 256 ^ n := by
  induction n generalizing a with
  | zero => simp [load]
  | succ n ih =>
    have hbyte := (m a).toNat_lt
    have hrest := ih (a := a + 1)
    rw [load]
    omega

/-! ### Copying -/

theorem copy_apply_of_outside (hx : x < dest ∨ dest + n ≤ x) : m.copy dest src n x = m x := by
  induction n generalizing m dest src with
  | zero => rfl
  | succ n ih =>
    have hne : x ≠ dest := by omega
    rw [copy, ih (by omega), write_of_ne hne]

/-- **A copy that does not overtake its source** copies. -/
theorem copy_apply (h : dest ≤ src ∨ src + n ≤ dest) (hi : i < n) :
    m.copy dest src n (dest + i) = m (src + i) := by
  induction n generalizing m dest src i with
  | zero => exact absurd hi (Nat.not_lt_zero i)
  | succ n ih =>
    rw [copy]
    cases i with
    | zero =>
      rw [copy_apply_of_outside (by omega)]
      exact write_self
    | succ i =>
      have hi' : i < n := by omega
      -- the byte has not been overwritten by the one that has just been copied
      have hne : src + 1 + i ≠ dest := by omega
      rw [show dest + (i + 1) = dest + 1 + i by omega, ih (by omega) hi', write_of_ne hne,
        show src + 1 + i = src + (i + 1) by omega]

theorem blit_of_inside (hx : a ≤ x) (hx' : x < a + n) :
    m.blit a n m' x = m' (x - a) := if_pos ⟨hx, hx'⟩

theorem blit_of_outside (hx : x < a ∨ a + n ≤ x) : m.blit a n m' x = m x :=
  if_neg (by omega)

theorem blit_blocks (hi : i < k) :
    m.blit (a * k) (n * k) m' (b * k + i) =
      if a ≤ b ∧ b < a + n then m' ((b - a) * k + i) else m (b * k + i) := by
  split_ifs with h
  · obtain ⟨d, rfl⟩ := Nat.exists_eq_add_of_le h.1
    have hend : (d + 1) * k ≤ n * k := Nat.mul_le_mul_right k (by omega)
    rw [Nat.add_mul] at hend
    rw [Nat.add_mul, blit_of_inside (by omega) (by omega), Nat.add_sub_cancel_left]
    congr 1
    omega
  · refine blit_of_outside ?_
    rcases Nat.lt_or_ge b a with hlt | hge
    · have hend : (b + 1) * k ≤ a * k := Nat.mul_le_mul_right k hlt
      rw [Nat.add_mul] at hend
      omega
    · have hend : (a + n) * k ≤ b * k := Nat.mul_le_mul_right k (by omega)
      rw [Nat.add_mul] at hend
      omega

theorem clear_apply_of_outside (hx : x < a ∨ a + n ≤ x) : m.clear a n x = m x :=
  if_neg (by omega)

theorem load_clear (ha : a ≤ b) (hb : b + k ≤ a + n) : (m.clear a n).load k b = 0 := by
  induction k generalizing b with
  | zero => rfl
  | succ k ih =>
    rw [load, ih (by omega) (by omega), clear, if_pos (by omega)]
    rfl

end Bytes

end GreenboneFeeder
