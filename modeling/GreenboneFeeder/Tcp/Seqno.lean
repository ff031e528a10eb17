import Mathlib.Algebra.Group.Nat.Defs
import Mathlib.Tactic.Common

/-!
# Sequence numbers as the connection keeps them

A sequence number is four bytes in network order. `net/tcp/tcp_seqno.c` reads and writes them as one
32-bit number (`Tcp.Seqno.getsequence_setsequence`), and `net_incr32` of `net/utils/net_chksum.c`
adds a 16-bit number to the bytes in place, carrying by hand (`Tcp.Seqno.getsequence_netIncr32`).
-/

namespace GreenboneFeeder.Tcp

/-- Four bytes in network order, `uint8_t seqno[4]`. -/
@[ext]
structure Seqno where
  b0 : UInt8
  b1 : UInt8
  b2 : UInt8
  b3 : UInt8
  deriving DecidableEq, Repr

namespace Seqno

/-- `tcp_setsequence`: the bytes of a number. -/
def setsequence (value : UInt32) : Seqno where
  b0 := (value >>> 24).toUInt8
  b1 := ((value >>> 16) &&& 0xff).toUInt8
  b2 := ((value >>> 8) &&& 0xff).toUInt8
  b3 := (value &&& 0xff).toUInt8

variable (s : Seqno)

/-- `tcp_getsequence`: the number the bytes spell. -/
def getsequence : UInt32 :=
  s.b0.toUInt32 <<< 24 ||| s.b1.toUInt32 <<< 16 ||| s.b2.toUInt32 <<< 8 ||| s.b3.toUInt32

/-- `tcp_addsequence`. -/
def addsequence (len : UInt16) : UInt32 := s.getsequence + len.toUInt32

/-- The carry into the second byte that `net_carry32` makes. -/
def carry1 : Seqno :=
  let s := { s with b1 := s.b1 + 1 }
  if s.b1 = 0 then { s with b0 := s.b0 + 1 } else s

/-- The carry into the third byte that `net_carry32` makes. -/
def carry2 : Seqno :=
  let s := { s with b2 := s.b2 + 1 }
  if s.b2 = 0 then s.carry1 else s

/-- `net_carry32`: a byte that is below what was added to it has wrapped. -/
def netCarry32 (op16 : UInt16) : Seqno :=
  let s := if s.b2 < (op16 >>> 8).toUInt8 then s.carry1 else s
  if s.b3 < (op16 &&& 0xff).toUInt8 then s.carry2 else s

/-- `net_incr32`. -/
def netIncr32 (op16 : UInt16) : Seqno :=
  netCarry32
    { s with b3 := s.b3 + (op16 &&& 0xff).toUInt8, b2 := s.b2 + (op16 >>> 8).toUInt8 } op16

/-! ### The number behind the bytes -/

/-- The number the bytes spell, in base 256. -/
def toNat (s : Seqno) : ℕ :=
  s.b0.toNat * 0x1000000 + s.b1.toNat * 0x10000 + s.b2.toNat * 0x100 + s.b3.toNat

variable (s : Seqno)

theorem toNat_lt : s.toNat < 0x100000000 := by
  have h0 := s.b0.toNat_lt
  have h1 := s.b1.toNat_lt
  have h2 := s.b2.toNat_lt
  have h3 := s.b3.toNat_lt
  simp only [toNat]
  omega

/-- Disjoint bits: joining a number below the bits of the other is adding it. -/
theorem shiftLeft_or_eq_add (a b i : ℕ) (hb : b < 2 ^ i) : a <<< i ||| b = a * 2 ^ i + b := by
  rw [← Nat.shiftLeft_add_eq_or_of_lt hb, Nat.shiftLeft_eq]

@[simp]
theorem toNat_getsequence : s.getsequence.toNat = s.toNat := by
  have h0 := s.b0.toNat_lt
  have h1 := s.b1.toNat_lt
  have h2 := s.b2.toNat_lt
  have h3 := s.b3.toNat_lt
  -- each shifted byte stays within the 32 bits
  have e0 : s.b0.toNat <<< 24 % 4294967296 = s.b0.toNat <<< 24 :=
    Nat.mod_eq_of_lt (by omega)
  have e1 : s.b1.toNat <<< 16 % 4294967296 = s.b1.toNat <<< 16 :=
    Nat.mod_eq_of_lt (by omega)
  have e2 : s.b2.toNat <<< 8 % 4294967296 = s.b2.toNat <<< 8 :=
    Nat.mod_eq_of_lt (by omega)
  have hval : s.getsequence.toNat
      = s.b0.toNat <<< 24 ||| (s.b1.toNat <<< 16 ||| (s.b2.toNat <<< 8 ||| s.b3.toNat)) := by
    simp [getsequence, e0, e1, e2, Nat.or_assoc]
  rw [hval, shiftLeft_or_eq_add _ _ 8 (by omega), shiftLeft_or_eq_add _ _ 16 (by omega),
    shiftLeft_or_eq_add _ _ 24 (by omega), toNat]
  omega

theorem getsequence_eq_iff {s : Seqno} {v : UInt32} : s.getsequence = v ↔ s.toNat = v.toNat := by
  rw [← UInt32.toNat_inj, toNat_getsequence]

theorem toNat_setsequence (v : UInt32) : (setsequence v).toNat = v.toNat := by
  have hv := v.toNat_lt
  have hand : ∀ n : ℕ, n &&& 255 = n % 256 := fun n => Nat.and_two_pow_sub_one_eq_mod n 8
  simp only [toNat, setsequence, UInt32.toNat_toUInt8, UInt32.toNat_shiftRight,
    UInt32.toNat_and, UInt32.reduceToNat, Nat.reduceMod, hand, Nat.shiftRight_eq_div_pow]
  omega

/-- **What is set is read back.** -/
@[simp]
theorem getsequence_setsequence {v : UInt32} : (setsequence v).getsequence = v :=
  getsequence_eq_iff.mpr (toNat_setsequence v)

theorem getsequence_injective : Function.Injective getsequence := by
  intro s t h
  have h := congrArg UInt32.toNat h
  rw [toNat_getsequence, toNat_getsequence, toNat, toNat] at h
  have s1 := s.b1.toNat_lt
  have s2 := s.b2.toNat_lt
  have s3 := s.b3.toNat_lt
  have t1 := t.b1.toNat_lt
  have t2 := t.b2.toNat_lt
  have t3 := t.b3.toNat_lt
  ext <;> omega

@[simp]
theorem getsequence_inj {s t : Seqno} : s.getsequence = t.getsequence ↔ s = t :=
  getsequence_injective.eq_iff

/-! ### The addition on the bytes -/

theorem byte_eq_zero_iff (b : UInt8) : b = 0 ↔ b.toNat = 0 := by
  rw [← UInt8.toNat_inj]
  rfl

theorem toNat_carry1 :
    s.carry1.toNat = (s.toNat + 0x10000) % 0x100000000 := by
  have h0 := s.b0.toNat_lt
  have h1 := s.b1.toNat_lt
  have h2 := s.b2.toNat_lt
  have h3 := s.b3.toNat_lt
  rw [carry1]
  simp only [byte_eq_zero_iff, UInt8.toNat_add]
  split <;> rename_i h <;>
    simp only [toNat, UInt8.toNat_add, UInt8.toNat_one] at h ⊢ <;> omega

theorem toNat_carry2 :
    s.carry2.toNat = (s.toNat + 0x100) % 0x100000000 := by
  have h0 := s.b0.toNat_lt
  have h1 := s.b1.toNat_lt
  have h2 := s.b2.toNat_lt
  have h3 := s.b3.toNat_lt
  rw [carry2]
  simp only [byte_eq_zero_iff, UInt8.toNat_add]
  split <;> rename_i h
  · rw [toNat_carry1]
    simp only [toNat, UInt8.toNat_add, UInt8.toNat_one] at h ⊢
    omega
  · simp only [toNat, UInt8.toNat_add, UInt8.toNat_one] at h ⊢
    omega

@[simp]
theorem carry1_b3 : s.carry1.b3 = s.b3 := by
  rw [carry1]
  split <;> rfl

/-- **A byte that is below what was added to it has wrapped.** -/
theorem add_lt_iff (b c : UInt8) : b + c < c ↔ 0x100 ≤ b.toNat + c.toNat := by
  have hb := b.toNat_lt
  rw [UInt8.lt_iff_toNat_lt, UInt8.toNat_add]
  omega

theorem toNat_add_b2 (hi : UInt8) :
    (if s.b2 + hi < hi then carry1 { s with b2 := s.b2 + hi }
      else { s with b2 := s.b2 + hi }).toNat
      = (s.toNat + hi.toNat * 0x100) % 0x100000000 := by
  have h0 := s.b0.toNat_lt
  have h1 := s.b1.toNat_lt
  have h2 := s.b2.toNat_lt
  have h3 := s.b3.toNat_lt
  have hhi := hi.toNat_lt
  simp only [add_lt_iff]
  split
  · rw [toNat_carry1]
    simp only [toNat, UInt8.toNat_add]
    omega
  · simp only [toNat, UInt8.toNat_add]
    omega

/-- **The hand-made carry is the addition modulo `2 ^ 32`.** -/
theorem toNat_netIncr32 (n : UInt16) :
    (s.netIncr32 n).toNat = (s.toNat + n.toNat) % 0x100000000 := by
  have hn := n.toNat_lt
  have hand : ∀ m : ℕ, m &&& 255 = m % 256 := fun m => Nat.and_two_pow_sub_one_eq_mod m 8
  have hlo : (n &&& 0xff).toUInt8.toNat = n.toNat % 0x100 := by
    simp [hand]
  have hhi : (n >>> 8).toUInt8.toNat = n.toNat / 0x100 := by
    simp only [UInt16.toNat_toUInt8, UInt16.toNat_shiftRight, UInt16.reduceToNat, Nat.reduceMod,
      Nat.shiftRight_eq_div_pow]
    omega
  have h3 := s.b3.toNat_lt
  rw [netIncr32, netCarry32]
  generalize (n &&& 0xff).toUInt8 = lo at *
  generalize (n >>> 8).toUInt8 = hi at *
  have hsum := toNat_add_b2 { s with b3 := s.b3 + lo } hi
  generalize hu : (if s.b2 + hi < hi then carry1 { s with b3 := s.b3 + lo, b2 := s.b2 + hi }
    else { s with b3 := s.b3 + lo, b2 := s.b2 + hi }) = u at *
  have hu3 : u.b3 = s.b3 + lo := by
    rw [← hu]
    split <;> simp
  simp only [hu3, add_lt_iff]
  split
  · rw [toNat_carry2, hsum]
    simp only [toNat, UInt8.toNat_add]
    omega
  · rw [hsum]
    simp only [toNat, UInt8.toNat_add]
    omega

@[simp]
theorem getsequence_netIncr32 (n : UInt16) :
    (s.netIncr32 n).getsequence = s.getsequence + n.toUInt32 := by
  rw [getsequence_eq_iff, toNat_netIncr32]
  simp

end Seqno

end GreenboneFeeder.Tcp
