import GreenboneFeeder.Clock.Ticks

/-!
# Arithmetic on times

`sched_timespec_add` and `sched_timespec_subtract` of `sched/sched/sched_timerexpiration.c`, and
`clock_systimespec` of `sched/clock`. The difference is computed with the sum of the seconds, so it
is right only if there are no seconds to subtract (`Clock.timespec_laws`).
-/

namespace GreenboneFeeder.Clock

open Words

/-! ### Sums and differences -/

/-- What `sched_timespec_add` computes. -/
def timespecAdd (ts1 ts2 : Timespec) : Timespec :=
  let sec := ts1.tvSec + ts2.tvSec
  let nsec := int32 (ts1.tvNsec + ts2.tvNsec)
  if nsecPerSec ≤ nsec then ⟨sec + 1, int32 (nsec - nsecPerSec)⟩ else ⟨sec, nsec⟩

/-- What `sched_timespec_subtract` computes. -/
def timespecSubtract (ts1 ts2 : Timespec) : Timespec :=
  if ts1.tvSec < ts2.tvSec then ⟨0, 0⟩
  else if ts1.tvSec = ts2.tvSec ∧ ts1.tvNsec ≤ ts2.tvNsec then ⟨0, 0⟩
  else
    let sec := ts1.tvSec + ts2.tvSec
    if ts1.tvNsec < ts2.tvNsec then
      ⟨sec - 1, int32 (int32 (ts1.tvNsec + nsecPerSec) - ts2.tvNsec)⟩
    else ⟨sec, int32 (ts1.tvNsec - ts2.tvNsec)⟩

/-- **`sched_timespec_add`**, in a memory of times. -/
def schedTimespecAdd {α : Type} [DecidableEq α] (m : α → Timespec) (ts1 ts2 ts3 : α) :
    α → Timespec :=
  Function.update m ts3 (timespecAdd (m ts1) (m ts2))

/-- **`sched_timespec_subtract`.** -/
def schedTimespecSubtract {α : Type} [DecidableEq α] (m : α → Timespec) (ts1 ts2 ts3 : α) :
    α → Timespec :=
  Function.update m ts3 (timespecSubtract (m ts1) (m ts2))

variable {a b : Timespec}

theorem timespecAdd_spec (ha : a.Normalised) (hb : b.Normalised)
    (hsum : a.nsec + b.nsec < 2 ^ 32 * nsecPerSec) :
    (timespecAdd a b).Normalised ∧ (timespecAdd a b).nsec = a.nsec + b.nsec := by
  unfold Timespec.Normalised Timespec.nsec at *
  rw [nsecPerSec] at *
  rw [timespecAdd, int32_of_lt (by omega) (by omega), nsecPerSec]
  split_ifs with hcarry
  · rw [int32_of_lt (by omega) (by omega)]
    dsimp only
    rw [UInt32.toNat_add, UInt32.toNat_add, UInt32.toNat_one]
    omega
  · dsimp only
    rw [UInt32.toNat_add]
    omega

/-- **The difference is right** if it is not positive, and otherwise exactly if adding the seconds
is subtracting them. -/
theorem timespecSubtract_spec (ha : a.Normalised) (hb : b.Normalised) :
    (timespecSubtract a b).Normalised ∧
      ((timespecSubtract a b).nsec = max (a.nsec - b.nsec) 0 ↔
        a.nsec ≤ b.nsec ∨ b.tvSec = 0 ∨ b.tvSec = 0x80000000) := by
  have hasec := a.tvSec.toNat_lt
  obtain ⟨ha0, ha1⟩ := ha
  obtain ⟨hb0, hb1⟩ := hb
  unfold Timespec.Normalised Timespec.nsec
  rw [nsecPerSec] at *
  have hzero : b.tvSec = 0 ↔ b.tvSec.toNat = 0 := UInt32.toNat_inj.symm
  have hhalf : b.tvSec = 0x80000000 ↔ b.tvSec.toNat = 0x80000000 := UInt32.toNat_inj.symm
  rw [timespecSubtract, nsecPerSec, hzero, hhalf]
  split_ifs with hlt heq hborrow
  all_goals
    dsimp only
    rw [UInt32.lt_iff_toNat_lt] at hlt
  · rw [UInt32.toNat_zero]
    omega
  all_goals rw [← UInt32.toNat_inj] at heq
  · rw [UInt32.toNat_zero]
    omega
  · rw [int32_of_lt (n := a.tvNsec + 1000000000) (by omega) (by omega),
      int32_of_lt (by omega) (by omega), UInt32.toNat_sub, UInt32.toNat_add, UInt32.toNat_one]
    omega
  · rw [int32_of_lt (by omega) (by omega), UInt32.toNat_add]
    omega

theorem Timespec.eq_of_nsec (ha : a.Normalised) (hb : b.Normalised) (h : a.nsec = b.nsec) :
    a = b := by
  obtain ⟨bsec, bnsec⟩ := b
  unfold Timespec.Normalised Timespec.nsec at *
  rw [nsecPerSec] at *
  dsimp only at *
  rw [Timespec.mk.injEq, ← UInt32.toNat_inj]
  omega

/-- **Sums and differences of times**, also if the result is stored over an argument. The difference
is right if it is not positive, and otherwise exactly if adding the seconds is subtracting them; and
so is the difference of a sum and one of its parts. -/
theorem timespec_laws {α : Type} [DecidableEq α] (m : α → Timespec) (ts1 ts2 ts3 : α)
    (h1 : (m ts1).Normalised) (h2 : (m ts2).Normalised)
    (hsum : (m ts1).nsec + (m ts2).nsec < 2 ^ 32 * nsecPerSec) :
    ((schedTimespecAdd m ts1 ts2 ts3 ts3).Normalised ∧
      (schedTimespecAdd m ts1 ts2 ts3 ts3).nsec = (m ts1).nsec + (m ts2).nsec) ∧
    ((schedTimespecSubtract m ts1 ts2 ts3 ts3).Normalised ∧
      ((schedTimespecSubtract m ts1 ts2 ts3 ts3).nsec = max ((m ts1).nsec - (m ts2).nsec) 0 ↔
        (m ts1).nsec ≤ (m ts2).nsec ∨ (m ts2).tvSec = 0 ∨ (m ts2).tvSec = 0x80000000)) ∧
    (timespecSubtract (timespecAdd (m ts1) (m ts2)) (m ts2) = m ts1 ↔
      (m ts1).nsec = 0 ∨ (m ts2).tvSec = 0 ∨ (m ts2).tvSec = 0x80000000) := by
  rw [schedTimespecAdd, schedTimespecSubtract, Function.update_self, Function.update_self]
  have hadd := timespecAdd_spec h1 h2 hsum
  refine ⟨hadd, timespecSubtract_spec h1 h2, ?_⟩
  have hpos := nsec_nonneg h1
  obtain ⟨hnorm, hiff⟩ := timespecSubtract_spec hadd.1 h2
  rw [hadd.2] at hiff
  rw [show (m ts1).nsec = 0 ↔ (m ts1).nsec + (m ts2).nsec ≤ (m ts2).nsec by omega, ← hiff,
    show max ((m ts1).nsec + (m ts2).nsec - (m ts2).nsec) 0 = (m ts1).nsec by omega]
  exact ⟨congrArg _, Timespec.eq_of_nsec hnorm h1⟩

theorem timespec_laws_small :
    timespecSubtract (timespecAdd ⟨3, 700000000⟩ ⟨0, 500000000⟩) ⟨0, 500000000⟩ =
      ⟨3, 700000000⟩ :=
  (timespec_laws (fun i : Bool => if i then ⟨3, 700000000⟩ else ⟨0, 500000000⟩) true false true
    (by decide) (by decide) (by decide)).2.2.mpr (by decide)

/-- **Two seconds less one second** are three seconds. -/
theorem two_less_one :
    schedTimespecSubtract (fun i : Bool => if i then ⟨2, 0⟩ else ⟨1, 0⟩) true false true true =
      ⟨3, 0⟩ := by
  decide

/-! ### The system time -/

/-- `clock_systimer`: the last 32 bits of `g_system_timer`. -/
def clockSystimer (timer : ℕ) : ℕ := timer % 2 ^ 32

/-- `TICK2MSEC`, of a `uint32_t`. -/
def tick2msec (usecPerTick tick : ℕ) : ℕ :=
  if usecPerTick / 1000 * 1000 = usecPerTick then tick * (usecPerTick / 1000) % 2 ^ 32
  else tick * usecPerTick % 2 ^ 32 / 1000

/-- **`clock_systimespec`.** -/
def clockSystimespec (haveLongLong : Bool) (usecPerTick timer : ℕ) : Timespec :=
  if haveLongLong ∧ usecPerTick % 1000 ≠ 0 then
    -- milliseconds, though the source takes them for microseconds
    let usecs := tick2msec usecPerTick (clockSystimer timer)
    let secs := usecs / 1000000
    ⟨.ofNat secs, ((usecs - secs * 1000000) * 1000 : ℕ)⟩
  else
    let msecs := tick2msec usecPerTick (clockSystimer timer)
    let secs := msecs / 1000
    ⟨.ofNat secs, ((msecs - secs * 1000) * 1000000 : ℕ)⟩

/-- When the system time is the one of the ticks. -/
def Exact (haveLongLong : Bool) (usecPerTick timer : ℕ) : Prop :=
  if usecPerTick % 1000 = 0 then timer * (usecPerTick / 1000) < 2 ^ 32
  else if haveLongLong then timer = 0
  else timer * usecPerTick < 2 ^ 32 ∧ timer * usecPerTick % 1000 = 0

instance (haveLongLong : Bool) (usecPerTick timer : ℕ) :
    Decidable (Exact haveLongLong usecPerTick timer) := by
  unfold Exact
  infer_instance

variable (haveLongLong : Bool) (usecPerTick timer : ℕ)

theorem tick2msec_clockSystimer :
    tick2msec usecPerTick (clockSystimer timer) =
      if usecPerTick % 1000 = 0 then timer * (usecPerTick / 1000) % 2 ^ 32
      else timer * usecPerTick % 2 ^ 32 / 1000 := by
  rw [tick2msec, clockSystimer, Nat.mod_mul_mod, Nat.mod_mul_mod]
  exact if_congr (by omega) rfl rfl

theorem clockSystimespec_normalised :
    (clockSystimespec haveLongLong usecPerTick timer).Normalised := by
  unfold clockSystimespec Timespec.Normalised nsecPerSec
  split_ifs <;> dsimp only <;> omega

theorem nsec_clockSystimespec :
    (clockSystimespec haveLongLong usecPerTick timer).nsec =
      tick2msec usecPerTick (clockSystimer timer) *
        (if haveLongLong ∧ usecPerTick % 1000 ≠ 0 then 1000 else 1000000) := by
  have hlt : tick2msec usecPerTick (clockSystimer timer) < 2 ^ 32 := by
    rw [tick2msec_clockSystimer]
    split_ifs <;> omega
  unfold clockSystimespec Timespec.nsec nsecPerSec
  split_ifs <;> dsimp only <;> rw [UInt32.toNat_ofNat'] <;> omega

theorem nsec_clockSystimespec_spec :
    (clockSystimespec haveLongLong usecPerTick timer).nsec ≤ timer * usecPerTick * 1000 ∧
      ((clockSystimespec haveLongLong usecPerTick timer).nsec = timer * usecPerTick * 1000 ↔
        Exact haveLongLong usecPerTick timer) := by
  rw [nsec_clockSystimespec, tick2msec_clockSystimer, Exact]
  by_cases hmsec : usecPerTick % 1000 = 0
  · have hprod : timer * usecPerTick = timer * (usecPerTick / 1000) * 1000 := by
      rw [Nat.mul_assoc, Nat.div_mul_cancel (Nat.dvd_of_mod_eq_zero hmsec)]
    rw [if_pos hmsec, if_pos hmsec, if_neg fun h => h.2 hmsec]
    omega
  · have hzero : timer * usecPerTick = 0 ↔ timer = 0 := by
      rw [Nat.mul_eq_zero, or_iff_left (by rintro rfl; exact hmsec rfl)]
    rw [if_neg hmsec, if_neg hmsec]
    cases haveLongLong
    · rw [if_neg (by simp), if_neg (by simp)]
      omega
    · rw [if_pos ⟨rfl, hmsec⟩, if_pos rfl]
      have hpos := Nat.zero_le (timer * usecPerTick / 2 ^ 32)
      omega

/-- **The system time follows the ticks** exactly if no product is longer than 32 bits and nothing
is rounded; with 64 bit microseconds, only before the first tick. Up to such a tick it never goes
back. -/
theorem clockSystimespec_iff :
    ((clockSystimespec haveLongLong usecPerTick timer).Normalised ∧
        (clockSystimespec haveLongLong usecPerTick timer).nsec = timer * usecPerTick * 1000 ↔
      Exact haveLongLong usecPerTick timer) ∧
    ∀ earlier ≤ timer, Exact haveLongLong usecPerTick timer →
      (clockSystimespec haveLongLong usecPerTick earlier).nsec ≤
        (clockSystimespec haveLongLong usecPerTick timer).nsec := by
  have hiff := (nsec_clockSystimespec_spec haveLongLong usecPerTick timer).2
  refine ⟨(and_iff_right (clockSystimespec_normalised ..)).trans hiff, fun earlier hle hexact => ?_⟩
  rw [hiff.mpr hexact]
  refine (nsec_clockSystimespec_spec haveLongLong usecPerTick earlier).1.trans ?_
  exact_mod_cast Nat.mul_le_mul_right 1000 (Nat.mul_le_mul_right usecPerTick hle)

theorem clockSystimespec_iff_second :
    (clockSystimespec true 10000 99).nsec ≤ (clockSystimespec true 10000 100).nsec :=
  (clockSystimespec_iff true 10000 100).2 99 (by decide) (by decide)

/-- **With ticks of 10 ms** the milliseconds are too many for 32 bits after 49 days. **With ticks of
16.666 ms**, 60 of them are a millisecond. -/
theorem time_goes_back :
    clockSystimespec true 10000 429496729 = ⟨4294967, 290000000⟩ ∧
      clockSystimespec true 10000 429496730 = ⟨0, 4000000⟩ ∧
      clockSystimespec true 16666 60 = ⟨0, 999000⟩ := by
  decide

end GreenboneFeeder.Clock
