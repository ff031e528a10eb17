import GreenboneFeeder.Lib.Words
import Mathlib.Algebra.Order.Floor.Div

/-!
# Deadlines in ticks

`clock_abstime2ticks` and `clock_time2ticks` of `sched/clock`, with `CONFIG_HAVE_LONG_LONG`: the
time left to a deadline is rounded up to ticks. Seconds are a `uint32_t`, nanoseconds a `long` of 32
bits, the nanoseconds to wait an `int64_t`, and the result is an `int`.

The result is the least number of ticks exactly when that is one of an `int`
(`Clock.abstime2ticks_iff`). The conversion to `int` is not checked, so a later deadline is taken
for one of the past, or for one that comes soon.
-/

namespace GreenboneFeeder.Clock

open Words

/-! ### The code -/

/-- `EINVAL`. -/
def einval : ℤ := 22

/-- `NSEC_PER_SEC`. -/
def nsecPerSec : ℤ := 1000000000

/-- `struct timespec`. -/
structure Timespec where
  tvSec : UInt32
  tvNsec : ℤ
  deriving DecidableEq, Repr

/-- The length of a tick, `NSEC_PER_TICK`: an `int` greater than zero. -/
structure Tick where
  nsec : ℕ
  pos : 0 < nsec
  lt_int : nsec < 2 ^ 31

/-- **`compare_timespec`.** -/
def compareTimespec (a b : Timespec) : ℤ :=
  if a.tvSec < b.tvSec then -1
  else if b.tvSec < a.tvSec then 1
  else int32 (a.tvNsec - b.tvNsec)

/-- **`clock_time2ticks`.** -/
def clockTime2ticks (tick : Tick) (reltime : Timespec) : ℤ :=
  let relnsec := int64 (int64 (reltime.tvSec.toNat * nsecPerSec) + reltime.tvNsec)
  int32 (Int.tdiv (int64 (relnsec + tick.nsec - 1)) tick.nsec)

/-- The time between two times, with a second that is borrowed for the nanoseconds. -/
def relativeTime (abstime currtime : Timespec) : Timespec :=
  let reltime : Timespec :=
    { tvSec := abstime.tvSec - currtime.tvSec
      tvNsec := int32 (abstime.tvNsec - currtime.tvNsec) }
  if reltime.tvNsec < 0 then
    { tvSec := reltime.tvSec - 1
      tvNsec := int32 (reltime.tvNsec + nsecPerSec) }
  else reltime

/-- **`clock_abstime2ticks`**, with the answer of `clock_gettime`: nothing if that fails. -/
def clockAbstime2ticks (tick : Tick) (gettime : Option Timespec) (abstime : Timespec) :
    Except ℤ ℤ :=
  match gettime with
  | none => .error einval
  | some currtime =>
    if compareTimespec abstime currtime < 0 then .ok (-1)
    else .ok (clockTime2ticks tick (relativeTime abstime currtime))

/-! ### Times as numbers -/

/-- The nanoseconds are less than a second. -/
def Timespec.Normalised (t : Timespec) : Prop := 0 ≤ t.tvNsec ∧ t.tvNsec < nsecPerSec

instance (t : Timespec) : Decidable t.Normalised := inferInstanceAs (Decidable (_ ∧ _))

/-- A time in nanoseconds. -/
def Timespec.nsec (t : Timespec) : ℤ := t.tvSec.toNat * nsecPerSec + t.tvNsec

/-- The numbers of ticks that are at least as long as a time. -/
def Enough (tick : Tick) (time : ℤ) : Set ℕ := {t | time ≤ t * tick.nsec}

section Times

variable {a b : Timespec}

variable (ha : a.Normalised)

include ha

theorem nsec_nonneg : 0 ≤ a.nsec := by
  have h := ha.1
  rw [Timespec.nsec, nsecPerSec]
  omega

theorem int32_tvNsec_sub (hb : b.Normalised) :
    int32 (a.tvNsec - b.tvNsec) = a.tvNsec - b.tvNsec := by
  obtain ⟨ha0, ha1⟩ := ha
  obtain ⟨hb0, hb1⟩ := hb
  rw [nsecPerSec] at ha1 hb1
  refine Int.bmod_eq_of_le ?_ ?_ <;> omega

theorem compareTimespec_neg_iff (hb : b.Normalised) :
    compareTimespec a b < 0 ↔ a.nsec < b.nsec := by
  have hsub := int32_tvNsec_sub ha hb
  obtain ⟨ha0, ha1⟩ := ha
  obtain ⟨hb0, hb1⟩ := hb
  rw [compareTimespec, Timespec.nsec, Timespec.nsec]
  rw [nsecPerSec] at ha1 hb1 ⊢
  split_ifs with hlt hgt
  · have := UInt32.lt_iff_toNat_lt.mp hlt
    omega
  · have := UInt32.lt_iff_toNat_lt.mp hgt
    omega
  · rw [UInt32.lt_iff_toNat_lt] at hlt hgt
    omega

theorem relativeTime_spec (hb : b.Normalised) (h : b.nsec ≤ a.nsec) :
    (relativeTime a b).Normalised ∧ (relativeTime a b).nsec = a.nsec - b.nsec := by
  have hsub := int32_tvNsec_sub ha hb
  obtain ⟨ha0, ha1⟩ := ha
  obtain ⟨hb0, hb1⟩ := hb
  rw [Timespec.nsec, Timespec.nsec] at h
  rw [relativeTime]
  unfold Timespec.Normalised Timespec.nsec
  rw [nsecPerSec] at *
  dsimp only
  have hle : b.tvSec ≤ a.tvSec := UInt32.le_iff_toNat_le.mpr (by omega)
  have hsec : (a.tvSec - b.tvSec).toNat = a.tvSec.toNat - b.tvSec.toNat :=
    UInt32.toNat_sub_of_le _ _ hle
  split_ifs with hneg
  · -- a second is borrowed, so the seconds are different
    have hone : (1 : UInt32) ≤ a.tvSec - b.tvSec :=
      UInt32.le_iff_toNat_le.mpr (by change 1 ≤ _; omega)
    have hborrow : (a.tvSec - b.tvSec - 1).toNat = a.tvSec.toNat - b.tvSec.toNat - 1 := by
      rw [UInt32.toNat_sub_of_le _ _ hone, hsec]
      rfl
    dsimp only
    rw [int32_of_lt (by omega) (by omega)]
    omega
  · dsimp only
    omega

theorem clockTime2ticks_eq (tick : Tick) :
    clockTime2ticks tick a = int32 ((a.nsec.toNat ⌈/⌉ tick.nsec : ℕ) : ℤ) := by
  have hpos := tick.pos
  have hlt := tick.lt_int
  have hsec := a.tvSec.toNat_lt
  obtain ⟨time, htime⟩ := Int.eq_ofNat_of_zero_le (nsec_nonneg ha)
  have htime' : a.tvSec.toNat * nsecPerSec + a.tvNsec = time := htime
  obtain ⟨ha0, ha1⟩ := ha
  rw [nsecPerSec] at ha1
  have hprod : int64 (a.tvSec.toNat * nsecPerSec) = a.tvSec.toNat * nsecPerSec := by
    rw [nsecPerSec]
    exact int64_of_lt (by omega) (by omega)
  have hsum : int64 (a.tvSec.toNat * nsecPerSec + a.tvNsec) = time := by
    rw [htime']
    rw [nsecPerSec] at htime'
    exact int64_of_lt (by omega) (by omega)
  have hround : int64 (time + tick.nsec - 1) = ((time + tick.nsec - 1 : ℕ) : ℤ) := by
    rw [nsecPerSec] at htime'
    rw [int64_of_lt (by omega) (by omega)]
    omega
  rw [clockTime2ticks, htime, Int.toNat_natCast, Nat.ceilDiv_eq_add_pred_div]
  rw [hprod, hsum, hround, Int.natCast_ediv, Int.tdiv_eq_ediv_of_nonneg (Int.natCast_nonneg _)]

omit ha

end Times

theorem isLeast_ceilDiv (tick : Tick) (time : ℕ) :
    IsLeast (Enough tick time) (time ⌈/⌉ tick.nsec) := by
  have henough : ∀ t : ℕ, t ∈ Enough tick time ↔ time ⌈/⌉ tick.nsec ≤ t := fun t => by
    rw [ceilDiv_le_iff_le_mul tick.pos, Nat.mul_comm, Enough]
    norm_cast
  exact ⟨(henough _).mpr (Nat.le_refl _), fun t ht => (henough t).mp ht⟩

/-! ### The result -/

/-- **The result is the least number of ticks that is long enough** if and only if the time to wait
is at most `INT_MAX` ticks; for a deadline in the past it is less than zero. -/
theorem abstime2ticks_iff (tick : Tick) (now abstime : Timespec) (hnow : now.Normalised)
    (habs : abstime.Normalised) :
    (now.nsec ≤ abstime.nsec →
      ((∃ t : ℕ, clockAbstime2ticks tick (some now) abstime = .ok t ∧
          IsLeast (Enough tick (abstime.nsec - now.nsec)) t) ↔
        abstime.nsec - now.nsec ≤ (2 ^ 31 - 1) * tick.nsec)) ∧ (abstime.nsec < now.nsec →
      ∃ t < 0, clockAbstime2ticks tick (some now) abstime = .ok t) := by
  have hcompare := compareTimespec_neg_iff habs hnow
  constructor
  · intro hle
    obtain ⟨hnorm, hnsec⟩ := relativeTime_spec habs hnow hle
    obtain ⟨time, htime⟩ := Int.eq_ofNat_of_zero_le (nsec_nonneg hnorm)
    rw [hnsec] at htime
    have hleast := isLeast_ceilDiv tick time
    have hfits : ((time : ℕ) : ℤ) ≤ (2 ^ 31 - 1) * tick.nsec ↔ time ⌈/⌉ tick.nsec < 2 ^ 31 := by
      rw [← Nat.le_sub_one_iff_lt (by decide), ceilDiv_le_iff_le_mul tick.pos]
      omega
    have hticks : clockAbstime2ticks tick (some now) abstime =
        .ok (int32 ((time ⌈/⌉ tick.nsec : ℕ) : ℤ)) := by
      rw [clockAbstime2ticks, if_neg (hcompare.not.mpr (Int.not_lt.mpr hle)),
        clockTime2ticks_eq hnorm tick, hnsec, htime,
        Int.toNat_natCast]
    rw [htime, hfits, hticks]
    constructor
    · rintro ⟨t, ht, hmin⟩
      -- there is only one least number of ticks, and it has been converted to an `int`
      obtain rfl := hmin.unique hleast
      have hlt : int32 ((time ⌈/⌉ tick.nsec : ℕ) : ℤ) < 2 ^ 31 := Int.bmod_lt (by decide)
      rw [Except.ok.inj ht] at hlt
      omega
    · intro hlt
      exact ⟨_, by rw [int32_natCast hlt], hleast⟩
  · intro hlt
    refine ⟨-1, by decide, ?_⟩
    exact if_pos (hcompare.mpr hlt)

/-- A deadline in a second and a half, with ticks of ten milliseconds. -/
theorem abstime2ticks_second :
    ∃ t : ℕ, clockAbstime2ticks ⟨10000000, by decide, by decide⟩ (some ⟨10, 700000000⟩)
        ⟨12, 200000000⟩ = .ok t ∧
      IsLeast (Enough ⟨10000000, by decide, by decide⟩
        (Timespec.nsec ⟨12, 200000000⟩ - Timespec.nsec ⟨10, 700000000⟩)) t :=
  ((abstime2ticks_iff ⟨10000000, by decide, by decide⟩ ⟨10, 700000000⟩ ⟨12, 200000000⟩ (by decide)
    (by decide)).1 (by decide)).mpr (by decide)

/-- **A deadline in 249 days** is taken for one of the past, and one twice as far away for one that
comes in four ticks, with ticks of 10 ms. -/
theorem far_deadline :
    clockAbstime2ticks ⟨10000000, by decide, by decide⟩ (some ⟨0, 0⟩) ⟨21474837, 0⟩ =
        .ok (-2147483596) ∧
      clockAbstime2ticks ⟨10000000, by decide, by decide⟩ (some ⟨0, 0⟩) ⟨42949673, 0⟩ = .ok 4 := by
  constructor <;> decide

end GreenboneFeeder.Clock
