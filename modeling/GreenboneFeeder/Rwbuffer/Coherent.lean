import GreenboneFeeder.Rwbuffer.Model

/-!
# The buffers are coherent

Between two calls, the read-ahead buffer mirrors the device (`Rwbuffer.Mirrors`), and the blocks of
the write buffer, laid over the device, are what a device without buffers would hold
(`Rwbuffer.Buffered`). Every read then copies what was written last, as long as no block is in both
buffers.

But `rwb_read` looks for the blocks it was asked for in the write buffer, and not for the others
that `rwb_rhreload` loads behind them (`Rwbuffer.read_ahead_stale`). And when blocks that are
written do not follow those in the write buffer, `rwb_writebuffer` calls the driver with the wrong
handle. Calls that do neither are safe (`Rwbuffer.Safe`).
-/

namespace GreenboneFeeder.Rwbuffer

open Overlay Words Sys Nat

/-! ### Overlapping -/

variable {β δ : Type} {c : Sizes} {D : Driver β δ} {s s' : Sys β δ} {a data : List β}

theorem disjoint_of_rwbOverlap {b₁ n₁ b₂ n₂ : ℕ} (h₁ : b₁ + n₁ < 2 ^ 31) (h₂ : b₂ + n₂ < 2 ^ 31)
    (h : rwbOverlap b₁ n₁ b₂ n₂ = false) : b₁ + n₁ < b₂ ∨ b₂ + n₂ < b₁ := by
  unfold rwbOverlap at h
  rw [← Int.natCast_add, ← Int.natCast_add, int32_natCast h₁, int32_natCast h₂] at h
  simp only [Bool.not_eq_false', Bool.or_eq_true, decide_eq_true_eq] at h
  omega

/-! ### The invariant -/

/-- **No block is in both buffers.** -/
def Apart (s : Sys β δ) : Prop :=
  s.wrnblocks = 0 ∨ s.rhnblocks = 0 ∨ s.wrblockstart + s.wrnblocks ≤ s.rhblockstart ∨
    s.rhblockstart + s.rhnblocks ≤ s.wrblockstart

variable (c D)

/-- **The read-ahead buffer mirrors the device.** -/
structure Mirrors (s : Sys β δ) : Prop where
  length : s.rhbuffer.length = c.rhmaxblocks
  le : s.rhnblocks ≤ c.rhmaxblocks
  place : 0 < s.rhnblocks → ∃ r : ℕ, s.rhblockstart = r ∧ r + s.rhnblocks ≤ D.nblocks ∧
    slice s.rhbuffer 0 s.rhnblocks = slice (D.blocks s.dev) r s.rhnblocks

/-- **The write buffer, laid over the device**, gives the blocks `a`. -/
structure Buffered (s : Sys β δ) (a : List β) : Prop where
  length : s.wrbuffer.length = c.wrmaxblocks
  le : s.wrnblocks ≤ c.wrmaxblocks
  place : 0 < s.wrnblocks → ∃ w : ℕ, s.wrblockstart = w ∧ w + s.wrnblocks ≤ D.nblocks ∧
    s.wrexpectedblock = w + s.wrnblocks
  content : a = overwrite (D.blocks s.dev) s.wrblockstart.toNat (slice s.wrbuffer 0 s.wrnblocks)

/-- **The invariant** between two calls. -/
structure Coherent (s : Sys β δ) (a : List β) : Prop where
  mirrors : Mirrors c D s
  buffered : Buffered c D s a
  apart : Apart s

variable {c D} {b : ℕ} {b n : ℕ}

variable (h : Buffered c D s a)

include h

theorem Buffered.length_slice :
    (slice s.wrbuffer 0 s.wrnblocks).length = s.wrnblocks :=
  Overlay.length_slice (by rw [h.length, zero_add]; exact h.le)

theorem Buffered.content_of_empty (hempty : s.wrnblocks = 0) :
    a = D.blocks s.dev := by
  rw [h.content, hempty, slice_zero, overwrite_nil]

theorem Buffered.slice_eq
    (hout : ∀ w : ℕ, 0 < s.wrnblocks → s.wrblockstart = w → b + n ≤ w ∨ w + s.wrnblocks ≤ b) :
    slice a b n = slice (D.blocks s.dev) b n := by
  rcases Nat.eq_zero_or_pos s.wrnblocks with hempty | hpos
  · rw [h.content_of_empty hempty]
  · obtain ⟨w, hw, hfit, -⟩ := h.place hpos
    have hlen := D.length_blocks s.dev
    rw [h.content, hw]
    refine slice_overwrite_of_disjoint (by omega) ?_
    rw [h.length_slice]
    exact hout w hpos hw

/-! ### Flushing -/

theorem Buffered.rwbWrflush :
    Buffered c D (s.rwbWrflush D) a ∧ (s.rwbWrflush D).wrnblocks = 0 := by
  unfold Sys.rwbWrflush
  split_ifs with hpos
  · obtain ⟨w, hw, hfit, -⟩ := h.place hpos
    have hflush := (D.wrflush_dev s.wrbuffer w s.wrnblocks s.dev hfit
      (by rw [h.length]; exact h.le)).2
    refine ⟨⟨h.length, Nat.zero_le _, fun hlt => absurd hlt (Nat.lt_irrefl 0), ?_⟩, rfl⟩
    change a = overwrite (D.blocks (D.wrflush .dev s.wrbuffer s.wrblockstart s.wrnblocks s.dev).2)
      _ (slice _ 0 0)
    rw [slice_zero, overwrite_nil, hw, hflush, h.content, hw, Int.toNat_natCast]
  · exact ⟨h, by omega⟩

omit h

theorem log_rwbWrflush : (s.rwbWrflush D).log = s.log := by
  unfold rwbWrflush
  split_ifs <;> rfl

theorem Mirrors.of_overwrite (h : Mirrors c D s)
    (hrh : s'.rhbuffer = s.rhbuffer ∧ s'.rhnblocks = s.rhnblocks ∧
      s'.rhblockstart = s.rhblockstart)
    (hblocks : D.blocks s'.dev = overwrite (D.blocks s.dev) b data) (hb : b ≤ D.nblocks)
    (hout : ∀ r : ℕ, 0 < s.rhnblocks → s.rhblockstart = r →
      r + s.rhnblocks ≤ b ∨ b + data.length ≤ r) : Mirrors c D s' := by
  obtain ⟨hbuffer, hnblocks, hstart⟩ := hrh
  refine ⟨hbuffer ▸ h.length, hnblocks ▸ h.le, fun hpos => ?_⟩
  rw [hnblocks] at hpos ⊢
  obtain ⟨r, hr, hfit, hmirror⟩ := h.place hpos
  refine ⟨r, hstart.trans hr, hfit, ?_⟩
  rw [hbuffer, hblocks, slice_overwrite_of_disjoint (by rw [D.length_blocks]; exact hb)
    (hout r hpos hr), hmirror]

theorem Mirrors.of_empty (h : Mirrors c D s) (hbuffer : s'.rhbuffer = s.rhbuffer)
    (hnblocks : s'.rhnblocks = 0) : Mirrors c D s' where
  length := hbuffer ▸ h.length
  le := hnblocks ▸ zero_le _
  place hpos := absurd hpos (by omega)

theorem Coherent.rwbWrflush (h : Coherent c D s a) : Coherent c D (s.rwbWrflush D) a := by
  obtain ⟨hbuffered, hempty⟩ := h.buffered.rwbWrflush
  refine ⟨?_, hbuffered, .inl hempty⟩
  unfold Sys.rwbWrflush
  split_ifs with hpos
  · obtain ⟨w, hw, hfit, -⟩ := h.buffered.place hpos
    have hflush := (D.wrflush_dev s.wrbuffer w s.wrnblocks s.dev hfit
      (by rw [h.buffered.length]; exact h.buffered.le)).2
    refine h.mirrors.of_overwrite ⟨rfl, rfl, rfl⟩ (hw ▸ hflush) (by omega) fun r hrpos hr => ?_
    rw [h.buffered.length_slice]
    have hapart := h.apart
    unfold Apart at hapart
    omega
  · exact h.mirrors

/-! ### Reading -/

/-- What the loop of `rwb_read` leaves alone. -/
structure SameWr (D : Driver β δ) (s s' : Sys β δ) : Prop where
  wrnblocks : s'.wrnblocks = s.wrnblocks
  wrblockstart : s'.wrblockstart = s.wrblockstart
  wrexpectedblock : s'.wrexpectedblock = s.wrexpectedblock
  wrbuffer : s'.wrbuffer = s.wrbuffer
  log : s'.log = s.log
  blocks : D.blocks s'.dev = D.blocks s.dev

theorem SameWr.rfl : SameWr D s s := ⟨.refl _, .refl _, .refl _, .refl _, .refl _, .refl _⟩

theorem SameWr.trans {s'' : Sys β δ} (h : SameWr D s s') (h' : SameWr D s' s'') :
    SameWr D s s'' where
  wrnblocks := h'.wrnblocks.trans h.wrnblocks
  wrblockstart := h'.wrblockstart.trans h.wrblockstart
  wrexpectedblock := h'.wrexpectedblock.trans h.wrexpectedblock
  wrbuffer := h'.wrbuffer.trans h.wrbuffer
  log := h'.log.trans h.log
  blocks := h'.blocks.trans h.blocks

theorem Buffered.of_sameWr (h : Buffered c D s a) (hsame : SameWr D s s') :
    Buffered c D s' a where
  length := hsame.wrbuffer ▸ h.length
  le := hsame.wrnblocks ▸ h.le
  place := by
    rw [hsame.wrnblocks, hsame.wrblockstart, hsame.wrexpectedblock]
    exact h.place
  content := by
    rw [hsame.wrnblocks, hsame.wrblockstart, hsame.wrbuffer, hsame.blocks]
    exact h.content

/-- The block is in the read-ahead buffer. -/
def Holds (s : Sys β δ) (b : ℕ) : Prop :=
  0 < s.rhnblocks ∧ s.rhblockstart ≤ b ∧ (b : ℤ) < s.rhblockstart + s.rhnblocks

section

variable (hn : D.nblocks < 2 ^ 31)

include hn

theorem rhcount_eq (hb : b < D.nblocks) :
    rhcount c D b = min c.rhmaxblocks (D.nblocks - b) := by
  have hmax := c.rh_lt
  unfold rhcount
  dsimp only
  by_cases hend : b + c.rhmaxblocks < 2 ^ 31
  · rw [← Int.natCast_add, int32_natCast hend, uint32_natCast (by omega), int32_natCast hn]
    split_ifs
    · rw [uint32]
      omega
    · rw [uint32]
      omega
  · -- the end does not fit into `off_t`, but as `size_t` it is beyond the device
    have hwrap : int32 ((b : ℤ) + c.rhmaxblocks) = (b : ℤ) + c.rhmaxblocks - 2 ^ 32 := by
      rw [int32, Int.bmod_def]
      split_ifs <;> omega
    rw [if_pos (by rw [uint32]; omega), int32_natCast hn, uint32]
    omega

theorem rwbRhreload_eq {k : ℕ} (hfit : b + k ≤ D.nblocks) (hpos : 0 < k)
    (hk : rhcount c D b = k) (huint : uint16 k = k) (hle : k ≤ s.rhbuffer.length) :
    ∃ d, D.blocks d = D.blocks s.dev ∧ s.rwbRhreload c D b =
      ((k : ℤ), { s with
        rhbuffer := overwrite s.rhbuffer 0 (slice (D.blocks s.dev) b k)
        rhnblocks := k
        rhblockstart := b
        dev := d }) := by
  obtain ⟨hret, hbuffer, hblocks⟩ := D.rhreload_dev s.rhbuffer b k s.dev hfit hle
  refine ⟨_, hblocks, ?_⟩
  unfold rwbRhreload
  rw [if_neg (by rw [uint32_natCast (by omega)]; omega), hk]
  change (if (D.rhreload .dev s.rhbuffer b k s.dev).1 = k then _ else _) = _
  rw [if_pos hret, huint, ← hbuffer]
  rfl

/-- **Reloading** the read-ahead buffer from a block of the device. -/
theorem Mirrors.rwbRhreload (h : Mirrors c D s) (hb : b < D.nblocks) :
    0 ≤ (s.rwbRhreload c D b).1 ∧ Mirrors c D (s.rwbRhreload c D b).2 ∧
      SameWr D s (s.rwbRhreload c D b).2 ∧ Holds (s.rwbRhreload c D b).2 b ∧
      (s.rwbRhreload c D b).2.rhblockstart = b := by
  have hmax := c.rh_lt
  have hpos := c.rh_pos
  obtain ⟨k, hk⟩ : ∃ k, min c.rhmaxblocks (D.nblocks - b) = k := ⟨_, rfl⟩
  have hle : k ≤ s.rhbuffer.length := by
    rw [h.length]
    omega
  obtain ⟨d, hblocks, heq⟩ := rwbRhreload_eq hn (by omega) (by omega)
    ((rhcount_eq hn hb).trans hk) (mod_eq_of_lt (by omega)) hle
  have hslice : (slice (D.blocks s.dev) b k).length = k :=
    length_slice (by rw [D.length_blocks]; omega)
  rw [heq]
  refine ⟨Int.natCast_nonneg k, ⟨?_, ?_, fun _ => ⟨b, rfl, ?_, ?_⟩⟩,
    ⟨rfl, rfl, rfl, rfl, rfl, hblocks⟩, ⟨?_, Int.le_refl _, ?_⟩, rfl⟩
  · rw [length_overwrite (by rw [hslice, zero_add]; exact hle)]
    exact h.length
  · change k ≤ c.rhmaxblocks
    omega
  · change b + k ≤ D.nblocks
    omega
  · have hself : slice (overwrite s.rhbuffer 0 (slice (D.blocks s.dev) b k)) 0
        (slice (D.blocks s.dev) b k).length = slice (D.blocks s.dev) b k :=
      slice_overwrite_self (zero_le _)
    rw [hslice] at hself
    rw [hself, hblocks]
  · change 0 < k
    omega
  · change (b : ℤ) < b + k
    omega

theorem Mirrors.available_of_not_holds (h : Mirrors c D s)
    (hout : ¬Holds s b) : s.available b n = 0 := by
  refine if_neg fun hin => hout ⟨hin.1, hin.2.1, ?_⟩
  obtain ⟨r, hr, hfit, -⟩ := h.place hin.1
  have hend := hin.2.2
  rw [hr, ← Int.natCast_add, int32_natCast (by omega)] at hend
  omega

/-- **What is taken from the buffer** is what the device holds. -/
theorem Mirrors.bufferread (h : Mirrors c D s)
    (hin : Holds s b) (hpos : 0 < n) :
    0 < s.available b n ∧ s.available b n ≤ n ∧
      s.rwbBufferread b (s.available b n) = slice (D.blocks s.dev) b (s.available b n) := by
  obtain ⟨r, hr, hfit, hmirror⟩ := h.place hin.1
  obtain ⟨hrpos, hlow, hhigh⟩ := hin
  rw [hr] at hlow hhigh
  have havail : s.available b n = min (r + s.rhnblocks - b) n := by
    unfold available
    rw [hr, ← Int.natCast_add, int32_natCast (by omega), if_pos ⟨hrpos, hlow, by omega⟩, uint32]
    omega
  refine ⟨by omega, by omega, ?_⟩
  unfold rwbBufferread
  rw [hr, show ((b : ℤ) - (r : ℤ)).toNat = b - r by omega]
  -- both sides are the same part of what the buffer mirrors
  refine List.ext_getElem? fun k => ?_
  have hcell : (slice s.rhbuffer 0 s.rhnblocks)[b - r + k]? =
      (slice (D.blocks s.dev) r s.rhnblocks)[b - r + k]? := by rw [hmirror]
  rw [getElem?_slice, getElem?_slice] at hcell ⊢
  by_cases hk : k < s.available b n
  · rw [if_pos (by omega), if_pos (by omega), zero_add,
      show r + (b - r + k) = b + k by omega] at hcell
    rw [if_pos hk, if_pos hk]
    exact hcell
  · rw [if_neg hk, if_neg hk]

/-- **What a read loads**: nothing, or blocks from one of those on that are read. -/
def Loads (b n : ℕ) (s s' : Sys β δ) : Prop :=
  s'.rhnblocks = s.rhnblocks ∧ s'.rhblockstart = s.rhblockstart ∨
    b ≤ s'.rhblockstart ∧ s'.rhblockstart < b + n

/-- **The loop of `rwb_read`** copies what the device holds. The first turn may only load blocks;
each other turn takes a block at least. -/
theorem readLoop_spec (fuel : ℕ) :
    ∀ (b n : ℕ) (out : List β) (s : Sys β δ), Mirrors c D s → b + n ≤ D.nblocks →
      n < fuel → (0 < n → n + 1 < fuel ∨ Holds s b) →
      ∃ s', readLoop c D fuel b n out s =
          some (none, out ++ slice (D.blocks s.dev) b n, s') ∧
        Mirrors c D s' ∧ SameWr D s s' ∧ Loads b n s s' := by
  induction fuel with
  | zero => exact fun b n out s _ _ h => absurd h (not_lt_zero n)
  | succ fuel ih =>
    intro b n out s h hfit hfuel hholds
    rcases Nat.eq_zero_or_pos n with rfl | hpos
    · refine ⟨s, ?_, h, .rfl, .inl ⟨rfl, rfl⟩⟩
      rw [readLoop, if_pos rfl, slice_zero, List.append_nil]
    have hturn : ∃ k, s.available b n = k ∧ k ≤ n ∧
        s.rwbBufferread b k = slice (D.blocks s.dev) b k ∧ (0 < k ∨ n + 1 < fuel + 1) := by
      by_cases hin : Holds s b
      · obtain ⟨hkpos, hkle, hread⟩ := h.bufferread hn hin hpos
        exact ⟨_, rfl, hkle, hread, .inl hkpos⟩
      · exact ⟨0, h.available_of_not_holds hn hin, zero_le n, rfl,
          .inr ((hholds hpos).resolve_right hin)⟩
    obtain ⟨k, hk, hkn, hread, hprogress⟩ := hturn
    rw [readLoop, if_neg (by omega)]
    dsimp only
    rw [hk, hread, ← Int.natCast_add, int32_natCast (by omega)]
    have hwhole : slice (D.blocks s.dev) b n =
        slice (D.blocks s.dev) b k ++ slice (D.blocks s.dev) (b + k) (n - k) := by
      rw [← slice_add, Nat.add_sub_cancel' hkn]
    rw [hwhole, ← List.append_assoc]
    split_ifs with hmore herr
    · have hreload := h.rwbRhreload hn (b := b + k) (by omega)
      omega
    · obtain ⟨-, hmirrors, hsame, hin, hstart⟩ := h.rwbRhreload hn (b := b + k) (by omega)
      obtain ⟨s', hloop, hmirrors', hsame', hloads⟩ := ih (b + k) (n - k)
        (out ++ slice (D.blocks s.dev) b k) _ hmirrors (by omega) (by omega) fun _ => .inr hin
      rw [hsame.blocks] at hloop
      refine ⟨s', hloop, hmirrors', hsame.trans hsame', .inr ?_⟩
      unfold Loads at hloads
      omega
    · obtain ⟨s', hloop, hmirrors, hsame, hloads⟩ :=
        ih (b + k) (n - k) _ s h (by omega) (by omega) fun hlt => absurd hlt hmore
      refine ⟨s', hloop, hmirrors, hsame, hloads.imp_right fun hin => ?_⟩
      omega

variable (c) in
/-- **What is read ahead does not reach the write buffer**, which is empty, does not begin behind
the blocks that are read, or begins behind all that can be loaded with them. -/
def Clears (s : Sys β δ) (b n : ℕ) : Prop :=
  s.wrnblocks = 0 ∨ s.wrblockstart ≤ b + n ∨ b + n + c.rhmaxblocks ≤ s.wrblockstart + 1

/-- **`rwb_read`** copies the blocks that were written last. -/
theorem Coherent.rwbRead (h : Coherent c D s a) (hfit : b + n ≤ D.nblocks)
    (hclears : Clears c s b n) :
    ∃ s', s.rwbRead c D b n = some s' ∧ s'.log = (none, slice a b n) :: s.log ∧
      Coherent c D s' a := by
  obtain ⟨t, ht, hcoherent, hlog, hslice, happ⟩ : ∃ t,
      (if rwbOverlap s.wrblockstart s.wrnblocks b n then s.rwbWrflush D else s) = t ∧
        Coherent c D t a ∧ t.log = s.log ∧ slice a b n = slice (D.blocks t.dev) b n ∧
        (t.wrnblocks = 0 ∨ t.wrblockstart + t.wrnblocks ≤ b ∨
          b + n + c.rhmaxblocks ≤ t.wrblockstart + 1) := by
    refine ⟨_, rfl, ?_⟩
    split_ifs with hoverlap
    · refine ⟨h.rwbWrflush, log_rwbWrflush, ?_, .inl h.buffered.rwbWrflush.2⟩
      rw [h.rwbWrflush.buffered.content_of_empty h.buffered.rwbWrflush.2]
    · have hdisjoint : ∀ w : ℕ, 0 < s.wrnblocks → s.wrblockstart = w →
          w + s.wrnblocks < b ∨ b + n < w := fun w hpos hw => by
        obtain ⟨w', hw', hfit', -⟩ := h.buffered.place hpos
        exact disjoint_of_rwbOverlap (by omega) (by omega) (hw ▸ Bool.eq_false_iff.mpr hoverlap)
      refine ⟨h, rfl, h.buffered.slice_eq fun w hpos hw => ?_, ?_⟩
      · have := hdisjoint w hpos hw
        omega
      · rcases Nat.eq_zero_or_pos s.wrnblocks with hempty | hpos
        · exact .inl hempty
        obtain ⟨w, hw, -, -⟩ := h.buffered.place hpos
        have := hdisjoint w hpos hw
        unfold Clears at hclears
        omega
  obtain ⟨s', hloop, hmirrors, hsame, hloads⟩ := readLoop_spec hn (n + 2) b n [] t
    hcoherent.mirrors hfit (by omega) fun _ => .inl (by omega)
  have hread : s.rwbRead c D b n =
      some { s' with log := (none, slice (D.blocks t.dev) b n) :: s'.log } := by
    unfold Sys.rwbRead
    dsimp only
    rw [ht, hloop]
    rfl
  refine ⟨_, hread, ?_, { hmirrors with }, ?_, ?_⟩
  · rw [hsame.log, hlog, hslice]
  · have hbuffered := hcoherent.buffered.of_sameWr hsame
    exact { hbuffered with }
  · -- the read-ahead buffer is as before, or loaded without reaching the write buffer
    have hapart := hcoherent.apart
    have hle := hmirrors.le
    unfold Loads at hloads
    unfold Apart at hapart ⊢
    change s'.wrnblocks = 0 ∨ s'.rhnblocks = 0 ∨ s'.wrblockstart + s'.wrnblocks ≤ s'.rhblockstart ∨
      s'.rhblockstart + s'.rhnblocks ≤ s'.wrblockstart
    rw [hsame.wrnblocks, hsame.wrblockstart]
    omega

/-! ### Writing -/

omit hn in
theorem slice_overwrite_end {buffer : List β} (h : n ≤ buffer.length) :
    slice (overwrite buffer n data) 0 (n + data.length) = slice buffer 0 n ++ data := by
  rw [slice_add, zero_add, slice_overwrite_self h,
    slice_overwrite_of_disjoint h (.inl (by omega))]

omit hn in
theorem wrnblocks_append {b : ℤ} (hroom : s.wrnblocks + data.length ≤ c.wrmaxblocks) :
    (s.append b data).wrnblocks = s.wrnblocks + data.length := by
  have hmax := c.wr_lt
  exact mod_eq_of_lt (by omega)

variable (hnext : s.wrnblocks = 0 ∨ s.wrexpectedblock = b)

include hnext

omit hn in
/-- Where the write buffer starts after blocks were added to it: it is empty, or they follow
those in it. -/
theorem Buffered.append_start (h : Buffered c D s a) (data : List β) :
    ∃ w : ℕ, (s.append b data).wrblockstart = w ∧ w + s.wrnblocks = b ∧
      (0 < s.wrnblocks → s.wrblockstart = w) ∧
      a = overwrite (D.blocks s.dev) w (slice s.wrbuffer 0 s.wrnblocks) := by
  rcases Nat.eq_zero_or_pos s.wrnblocks with hempty | hpos
  · refine ⟨b, if_pos hempty, by omega, fun hpos => absurd hpos (by omega), ?_⟩
    rw [hempty, slice_zero, overwrite_nil]
    exact h.content_of_empty hempty
  · obtain ⟨w, hw, -, hexpected⟩ := h.place hpos
    refine ⟨w, (if_neg (by omega)).trans hw, by omega, fun _ => hw, ?_⟩
    rw [h.content, hw, Int.toNat_natCast]

/-- **The blocks are added to the write buffer.** -/
theorem Buffered.append (h : Buffered c D s a)
    (hfit : b + data.length ≤ D.nblocks) (hroom : s.wrnblocks + data.length ≤ c.wrmaxblocks) :
    Buffered c D (s.append b data) (overwrite a b data) := by
  have hwrnblocks : (s.append b data).wrnblocks = s.wrnblocks + data.length :=
    wrnblocks_append hroom
  have hend : slice (s.append b data).wrbuffer 0 (s.wrnblocks + data.length) =
      slice s.wrbuffer 0 s.wrnblocks ++ data :=
    slice_overwrite_end (by rw [h.length]; omega)
  obtain ⟨w, hw, hwb, -, hcontent⟩ := h.append_start hnext data
  refine ⟨?_, by rw [hwrnblocks]; exact hroom, fun _ => ⟨w, hw, by omega, ?_⟩, ?_⟩
  · change (overwrite s.wrbuffer s.wrnblocks data).length = _
    rw [length_overwrite (by rw [h.length]; exact hroom), h.length]
  · change int32 ((s.append b data).wrblockstart + ((s.append b data).wrnblocks : ℕ)) = _
    rw [hw, ← Int.natCast_add, int32_natCast (by omega)]
  · change _ = overwrite (D.blocks s.dev) _ _
    have hlen := D.length_blocks s.dev
    have hroom' : w + (slice s.wrbuffer 0 s.wrnblocks).length ≤ (D.blocks s.dev).length := by
      rw [h.length_slice]
      omega
    rw [hwrnblocks, hend, hw, Int.toNat_natCast, ← overwrite_append hroom', h.length_slice, hwb,
      ← hcontent]

omit hn in
theorem Coherent.append_apart (h : Coherent c D s a)
    (hroom : s.wrnblocks + data.length ≤ c.wrmaxblocks)
    (hout : ∀ r : ℕ, 0 < s.rhnblocks → s.rhblockstart = r →
      r + s.rhnblocks ≤ b ∨ b + data.length ≤ r) : Apart (s.append b data) := by
  have hwrnblocks : (s.append b data).wrnblocks = s.wrnblocks + data.length :=
    wrnblocks_append hroom
  obtain ⟨w, hw, hwb, hold, -⟩ := h.buffered.append_start hnext data
  rcases Nat.eq_zero_or_pos s.rhnblocks with hrh | hrhpos
  · exact .inr (.inl hrh)
  obtain ⟨r, hr, -, -⟩ := h.mirrors.place hrhpos
  have hdisjoint := hout r hrhpos hr
  have hapart := h.apart
  unfold Apart at hapart ⊢
  change _ ∨ s.rhnblocks = 0 ∨ _ ≤ s.rhblockstart ∨ s.rhblockstart + s.rhnblocks ≤ _
  omega

omit hnext

omit hn in
/-- **The blocks are written to the device at once.** -/
theorem Coherent.direct (h : Coherent c D s a) (hempty : s.wrnblocks = 0)
    (hfit : b + data.length ≤ D.nblocks) (hout : ∀ r : ℕ, 0 < s.rhnblocks → s.rhblockstart = r →
      r + s.rhnblocks ≤ b ∨ b + data.length ≤ r) :
    Coherent c D { s with dev := (D.wrflush .dev data b data.length s.dev).2 }
      (overwrite a b data) := by
  have hflush := (D.wrflush_dev data b data.length s.dev hfit (Nat.le_refl _)).2
  rw [show slice data 0 data.length = data from List.take_length] at hflush
  refine ⟨h.mirrors.of_overwrite ⟨rfl, rfl, rfl⟩ hflush (by omega) hout,
    { h.buffered with content := ?_ }, .inl hempty⟩
  rw [show slice s.wrbuffer 0 s.wrnblocks = [] by rw [hempty, slice_zero], overwrite_nil, hflush,
    h.buffered.content_of_empty hempty]

theorem Coherent.reset (h : Coherent c D s a) (hfit : b + n ≤ D.nblocks) :
    ∃ t, (if rwbOverlap s.rhblockstart s.rhnblocks b n then s.rwbResetrhbuffer else s) = t ∧
      Coherent c D t a ∧ t.wrnblocks = s.wrnblocks ∧ t.wrexpectedblock = s.wrexpectedblock ∧
      t.log = s.log ∧
      ∀ r : ℕ, 0 < t.rhnblocks → t.rhblockstart = r → r + t.rhnblocks ≤ b ∨ b + n ≤ r := by
  refine ⟨_, rfl, ?_⟩
  split_ifs with hoverlap
  · exact ⟨⟨h.mirrors.of_empty rfl rfl, { h.buffered with }, .inr (.inl rfl)⟩, rfl, rfl, rfl,
      fun r hpos => absurd hpos (Nat.lt_irrefl 0)⟩
  · refine ⟨h, rfl, rfl, rfl, fun r hpos hr => ?_⟩
    obtain ⟨r', hr', hfit', -⟩ := h.mirrors.place hpos
    have hdisjoint : r + s.rhnblocks < b ∨ b + n < r :=
      disjoint_of_rwbOverlap (by omega) (by omega) (hr ▸ Bool.eq_false_iff.mpr hoverlap)
    omega

/-- **`rwb_write`**, when the write buffer need not be flushed to make room. -/
theorem Coherent.rwbWrite (h : Coherent c D s a)
    (hfit : b + data.length ≤ D.nblocks) (hhit : c.wrmaxblocks < data.length ∨ ¬s.Misses c b data) :
    Coherent c D (s.rwbWrite c D b data) (overwrite a b data) ∧
      (s.rwbWrite c D b data).log = s.log := by
  obtain ⟨t, ht, hcoherent, hwrnblocks, hexpected, hlog, hout⟩ := h.reset hn hfit
  unfold Sys.rwbWrite
  rw [ht]
  split_ifs with hlarge
  · have hrh : (t.rwbWrflush D).rhnblocks = t.rhnblocks ∧
        (t.rwbWrflush D).rhblockstart = t.rhblockstart := by
      unfold Sys.rwbWrflush
      split_ifs <;> exact ⟨rfl, rfl⟩
    refine ⟨hcoherent.rwbWrflush.direct hcoherent.buffered.rwbWrflush.2 hfit ?_,
      log_rwbWrflush.trans hlog⟩
    rw [hrh.1, hrh.2]
    exact hout
  · have hnot : ¬t.Misses c b data := by
      unfold Sys.Misses at hhit ⊢
      rw [hwrnblocks, hexpected]
      exact hhit.resolve_left hlarge
    rw [rwbWritebuffer, if_neg hnot]
    refine ⟨?_, hlog⟩
    unfold Sys.Misses at hnot
    have hroom : t.wrnblocks + data.length ≤ c.wrmaxblocks := by omega
    have hnext : t.wrnblocks = 0 ∨ t.wrexpectedblock = b := by omega
    exact ⟨{ hcoherent.mirrors with },
      hcoherent.buffered.append hn hnext hfit hroom, hcoherent.append_apart hnext hroom hout⟩

end

/-! ### Sequences of calls -/

variable (c)

/-- **The condition on the calls**: a write that goes to the write buffer follows the blocks in it
and finds room, and a read does not read ahead as far as the write buffer. -/
def Safe (s : Sys β δ) : Event β → Prop
  | .write startblock data => c.wrmaxblocks < data.length ∨ ¬s.Misses c startblock data
  | .read startblock nblocks => Clears c s startblock nblocks
  | .timeout => True

instance (s : Sys β δ) : ∀ e : Event β, Decidable (Safe c s e)
  | .write startblock data =>
    inferInstanceAs (Decidable (c.wrmaxblocks < data.length ∨ ¬s.Misses c startblock data))
  | .read _ _ => inferInstanceAs (Decidable (_ ∨ _))
  | .timeout => isTrue trivial

variable {c}

/-- **The buffers simulate a device without buffers**, call by call. -/
structure Simulates (c : Sizes) (D : Driver β δ) (s : Sys β δ) (d : Device β) : Prop where
  coherent : Coherent c D s d.blocks
  log : s.log = d.log.map (none, ·)

theorem Simulates.step {d : Device β} {e : Event β} (h : Simulates c D s d)
    (hn : D.nblocks < 2 ^ 31) (hinside : e.Inside D.nblocks) (hsafe : Safe c s e) :
    ∃ s', Rwbuffer.step c D s e = some s' ∧ Simulates c D s' (d.step e) := by
  cases e with
  | write b data =>
    obtain ⟨hcoherent, hlog⟩ := h.coherent.rwbWrite hn hinside hsafe
    exact ⟨_, rfl, hcoherent, hlog.trans h.log⟩
  | read b n =>
    obtain ⟨s', hs', hlog, hcoherent⟩ := h.coherent.rwbRead hn hinside hsafe
    refine ⟨s', hs', hcoherent, ?_⟩
    rw [hlog, h.log]
    rfl
  | timeout =>
    exact ⟨_, rfl, h.coherent.rwbWrflush, log_rwbWrflush.trans h.log⟩

theorem Simulates.run (hn : D.nblocks < 2 ^ 31) :
    ∀ (events : List (Event β)) (s : Sys β δ) (d : Device β), Simulates c D s d →
      (∀ e ∈ events, e.Inside D.nblocks) →
      Run.AllSteps (Rwbuffer.step c D) (Safe c) s events →
      ∃ s', Run.run (Rwbuffer.step c D) s events = some s' ∧
        Simulates c D s' (events.foldl Device.step d)
  | [], s, _, h, _, _ => ⟨s, rfl, h⟩
  | e :: events, s, d, h, hinside, hsafe => by
    obtain ⟨mid, hmid, hsim⟩ := h.step hn (hinside e List.mem_cons_self) hsafe.1
    obtain ⟨s', hrun, hsim'⟩ := Simulates.run hn events mid (d.step e) hsim
      (fun e he => hinside e (List.mem_cons_of_mem _ he)) (hsafe.2 mid hmid)
    exact ⟨s', Run.run_cons_eq_some.mpr ⟨mid, hmid, hrun⟩, hsim'⟩

theorem simulates_init {wrbuffer rhbuffer : List β} (dev : δ)
    (hwr : wrbuffer.length = c.wrmaxblocks) (hrh : rhbuffer.length = c.rhmaxblocks) :
    Simulates c D (init wrbuffer rhbuffer dev) ⟨D.blocks dev, []⟩ where
  coherent := ⟨⟨hrh, Nat.zero_le _, fun h => absurd h (Nat.lt_irrefl 0)⟩,
    ⟨hwr, Nat.zero_le _, fun h => absurd h (Nat.lt_irrefl 0), overwrite_nil.symm⟩, .inl rfl⟩
  log := rfl

/-- **The buffers are coherent.** On every device of less than `2 ^ 31` blocks, and for buffers of
all sizes, every sequence of safe calls inside of the device is executed to its end, and all reads
have copied what they copy on a device without buffers, without an error. -/
theorem reads_coherent (c : Sizes) (D : Driver β δ) (hn : D.nblocks < 2 ^ 31)
    (wrbuffer rhbuffer : List β) (hwr : wrbuffer.length = c.wrmaxblocks)
    (hrh : rhbuffer.length = c.rhmaxblocks) (dev : δ) (events : List (Event β))
    (hinside : ∀ e ∈ events, e.Inside D.nblocks)
    (hsafe : Run.AllSteps (step c D) (Safe c) (init wrbuffer rhbuffer dev) events) :
    ∃ s, Run.run (step c D) (init wrbuffer rhbuffer dev) events = some s ∧
      s.log = (events.foldl Device.step ⟨D.blocks dev, []⟩).log.map (none, ·) := by
  obtain ⟨s, hrun, hsim⟩ := Simulates.run hn events _ _ (simulates_init dev hwr hrh) hinside hsafe
  exact ⟨s, hrun, hsim.log⟩

/-! ### A disk in memory -/

/-- A driver for a disk in memory, which fails when it is not given a handle that it knows. -/
def ramDriver (n : ℕ) (known : Handle → Bool) (hdev : known .dev = true) :
    Driver β { l : List β // l.length = n } where
  nblocks := n
  blocks d := d.1
  wrflush handle buffer startblock k d :=
    if h : (known handle = true ∧ startblock.toNat + k ≤ n) ∧ k ≤ buffer.length then
      (k, ⟨overwrite d.1 startblock.toNat (slice buffer 0 k), by
        rw [length_overwrite, d.2]
        rw [length_slice (by omega), d.2]
        exact h.1.2⟩)
    else (-eio, d)
  rhreload handle buffer startblock k d :=
    if (known handle = true ∧ startblock.toNat + k ≤ n) ∧ k ≤ buffer.length then
      (k, overwrite buffer 0 (slice d.1 startblock.toNat k), d)
    else (-eio, buffer, d)
  length_blocks d := d.2
  wrflush_dev buffer b k d hfit hle := by
    rw [dif_pos ⟨⟨hdev, hfit⟩, hle⟩]
    exact ⟨rfl, rfl⟩
  rhreload_dev buffer b k d hfit hle := by
    rw [if_pos ⟨⟨hdev, hfit⟩, hle⟩]
    exact ⟨rfl, rfl, rfl⟩

/-- Buffers of one block and of four blocks. -/
def smallSizes : Sizes := ⟨1, 4, by decide, by decide, by decide, by decide⟩

/-- Eight blocks of zeros. -/
def zeros : { l : List ℕ // l.length = 8 } := ⟨[0, 0, 0, 0, 0, 0, 0, 0], rfl⟩

/-- A block is written and read, and then, after a timeout, another one. -/
theorem reads_coherent_timeout :
    ∃ s, Run.run (step smallSizes (ramDriver 8 (fun _ => true) rfl)) (init [0] [0, 0, 0, 0] zeros)
        [.write 5 [1], .read 5 2, .write 0 [2], .timeout, .read 0 8] = some s ∧
      s.log = [(none, [2, 0, 0, 0, 0, 1, 0, 0]), (none, [1, 0])] :=
  reads_coherent smallSizes (ramDriver 8 (fun _ => true) rfl) (by decide) [0] [0, 0, 0, 0] rfl rfl
    zeros [.write 5 [1], .read 5 2, .write 0 [2], .timeout, .read 0 8] (by decide) (by decide)

/-- **A stale block is read.** A block is in the write buffer while blocks around it are read ahead;
when it is read itself, the write buffer is flushed, but the old block is still in the read-ahead
buffer. -/
theorem read_ahead_stale :
    (Run.run (step smallSizes (ramDriver 8 (fun _ => true) rfl)) (init [0] [0, 0, 0, 0] zeros)
        [.write 3 [1], .read 0 1, .read 3 1]).map Sys.log = some [(none, [0]), (none, [0])] ∧
      (([.write 3 [1], .read 0 1, .read 3 1] : List (Event ℕ)).foldl Device.step
        ⟨zeros.1, []⟩).log = [[1], [0]] := by
  decide

end GreenboneFeeder.Rwbuffer
