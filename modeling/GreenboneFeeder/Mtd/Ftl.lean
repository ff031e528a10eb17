import GreenboneFeeder.Lib.Call
import GreenboneFeeder.Lib.Overlay
import GreenboneFeeder.Lib.Words

/-!
# The flash translation layer

`ftl_flush` of `drivers/mtd/ftl.c` writes blocks to a memory device (MTD) that is erased in erase
blocks of several blocks. Where only a part of an erase block is to be written, all of it is read
first and written back. Nothing changes but what was to be written (`Mtd.ftlFlush_exact`).
-/

namespace GreenboneFeeder.Mtd

open Overlay Words Call List

def eio : ℤ := 5

/-- **A memory device**, with what its operations return. -/
structure Device (β δ : Type) where
  /-- `MTD_BREAD`, with the blocks that were read -/
  bread : ℕ → ℕ → δ → List β × δ
  /-- `MTD_ERASE` of an erase block -/
  erase : ℕ → δ → ℤ × δ
  /-- `MTD_BWRITE`, with the number of blocks that were written -/
  bwrite : ℕ → List β → δ → ℤ × δ

variable {β δ : Type} (M : Device β δ) (blkper : ℕ)

/-! ### The code -/

/-- An erase block is read. -/
def readBlock (rwblock : ℕ) : Call δ (List β) := fun d =>
  let r := M.bread rwblock blkper d
  some (if r.1.length = blkper then .ok r.1 else .error (-eio), r.2)

/-- An erase block is erased and written. -/
def writeBlock (rwblock : ℕ) (eblock : List β) : Call δ Unit := fun d =>
  let r := M.erase (rwblock / blkper) d
  if r.1 < 0 then some (.error r.1, r.2)
  else
    let r := M.bwrite rwblock eblock r.2
    some (if r.1 = blkper then .ok () else .error (-eio), r.2)

/-- A part of an erase block is written. -/
def writePart (rwblock offset : ℕ) (buffer : List β) : Call δ Unit := do
  let eblock ← readBlock M blkper rwblock
  writeBlock M blkper rwblock (overwrite eblock offset buffer)

/-- The loop over full erase blocks, and the last part. -/
def flushAligned : ℕ → ℕ → List β → Call δ Unit
  | 0, _, _ => diverge
  | fuel + 1, alignedblock, buffer =>
    if blkper ≤ buffer.length then do
      writeBlock M blkper alignedblock (buffer.take blkper)
      flushAligned fuel (alignedblock + blkper) (buffer.drop blkper)
    else if 0 < buffer.length then writePart M blkper alignedblock 0 buffer
    else pure ()

/-- The part before the first aligned block, and the rest. -/
def flushBlocks (startblock : ℕ) (buffer : List β) : Call δ Unit :=
  let mask := blkper - 1
  let alignedblock := startblock + mask - ((startblock + mask) &&& mask)
  let offset := startblock &&& mask
  if startblock < alignedblock then do
    let nblocks :=
      if buffer.length < alignedblock - startblock then buffer.length else blkper - offset
    writePart M blkper (startblock - offset) offset (buffer.take nblocks)
    flushAligned M blkper (buffer.length + 1) alignedblock (buffer.drop nblocks)
  else flushAligned M blkper (buffer.length + 1) alignedblock buffer

/-- **`ftl_flush`.** -/
def ftlFlush (startblock : ℕ) (buffer : List β) : Call δ ℕ := do
  flushBlocks M blkper startblock buffer
  pure buffer.length

/-! ### What is written -/

/-- **The device works**: all operations succeed, and an erase block that is erased and then written
holds what was written. -/
structure Device.Works (blocks : δ → List β) : Prop where
  bread : ∀ d b, b + blkper ≤ (blocks d).length →
    ∃ d', M.bread b blkper d = (slice (blocks d) b blkper, d') ∧ blocks d' = blocks d
  bwrite : ∀ d m eblock, blkper * m + blkper ≤ (blocks d).length → eblock.length = blkper →
    ∃ ret d₁ d₂, M.erase m d = (ret, d₁) ∧ 0 ≤ ret ∧
      M.bwrite (blkper * m) eblock d₁ = ((blkper : ℤ), d₂) ∧
      blocks d₂ = overwrite (blocks d) (blkper * m) eblock

variable (blocks : δ → List β)

/-- The call writes these blocks and nothing else. -/
def Writes (x : Call δ Unit) (d : δ) (b : ℕ) (buffer : List β) : Prop :=
  ∃ d', Returns x d () d' ∧ blocks d' = overwrite (blocks d) b buffer

variable {M blkper blocks} {d : δ} {buffer rest : List β} {b m offset fuel : ℕ}

/-- An erase block that begins in the device is in it. -/
theorem block_le {n : ℕ} (h : blkper ∣ n) (hm : blkper * m < n) : blkper * m + blkper ≤ n := by
  obtain ⟨n, rfl⟩ := h
  exact Nat.mul_le_mul_left blkper (Nat.lt_of_mul_lt_mul_left hm)

theorem Writes.append {x y : Call δ Unit} (hx : Writes blocks x d b buffer)
    (hin : b + buffer.length ≤ (blocks d).length)
    (hy : ∀ d', (blocks d').length = (blocks d).length →
      Writes blocks y d' (b + buffer.length) rest) :
    Writes blocks (do x; y) d b (buffer ++ rest) := by
  obtain ⟨d₁, hx, hblocks⟩ := hx
  obtain ⟨d₂, hy, hblocks'⟩ := hy d₁ (by rw [hblocks, length_overwrite hin])
  rw [hblocks, overwrite_append hin] at hblocks'
  exact ⟨d₂, hx.bind_iff.mpr hy, hblocks'⟩

namespace Device.Works

variable (hM : M.Works blkper blocks) (hpos : 0 < blkper)
include hM hpos

theorem writeBlock (hin : blkper * m + blkper ≤ (blocks d).length) (hlen : buffer.length = blkper) :
    Writes blocks (writeBlock M blkper (blkper * m) buffer) d (blkper * m) buffer := by
  obtain ⟨ret, d₁, d₂, herase, hret, hwrite, hblocks⟩ := hM.bwrite d m buffer hin hlen
  refine ⟨d₂, ?_, hblocks⟩
  rw [Returns, Mtd.writeBlock, Nat.mul_div_cancel_left m hpos, herase, if_neg (Int.not_lt.mpr hret),
    hwrite]
  exact congrArg (fun r => some (r, d₂)) (if_pos rfl)

theorem writePart (hin : blkper * m + blkper ≤ (blocks d).length)
    (hlen : offset + buffer.length ≤ blkper) :
    Writes blocks (writePart M blkper (blkper * m) offset buffer) d (blkper * m + offset)
      buffer := by
  obtain ⟨d₁, hread, hsame⟩ := hM.bread d _ hin
  have hslice := length_slice hin
  have hret : Returns (readBlock M blkper (blkper * m)) d (slice (blocks d) (blkper * m) blkper)
      d₁ := by
    rw [Returns, readBlock, hread, if_pos hslice]
  have heblock : (overwrite (slice (blocks d) (blkper * m) blkper) offset buffer).length = blkper :=
    (length_overwrite (by rwa [hslice])).trans hslice
  obtain ⟨d₂, hwrite, hblocks⟩ := hM.writeBlock hpos (by rwa [hsame]) heblock
  rw [hsame, overwrite_overwrite_slice hin hlen] at hblocks
  exact ⟨d₂, hret.bind_iff.mpr hwrite, hblocks⟩

theorem flushAligned (hwhole : blkper ∣ (blocks d).length)
    (hin : blkper * m + buffer.length ≤ (blocks d).length) (hfuel : buffer.length < fuel) :
    Writes blocks (flushAligned M blkper fuel (blkper * m) buffer) d (blkper * m) buffer := by
  induction fuel generalizing d m buffer with
  | zero => omega
  | succ fuel ih =>
    rw [Mtd.flushAligned]
    split_ifs with hfull hpart
    · obtain ⟨front, rest, rfl, rfl⟩ :
          ∃ front rest, buffer = front ++ rest ∧ front.length = blkper :=
        ⟨_, _, (take_append_drop blkper buffer).symm, length_take_of_le hfull⟩
      rw [length_append] at hin hfuel
      rw [take_left, drop_left]
      have hfront : front.length * m + front.length ≤ (blocks d).length := by omega
      refine (hM.writeBlock hpos hfront rfl).append hfront fun d' hlen => ?_
      rw [← Nat.mul_succ]
      exact ih (by rwa [hlen]) (by rw [hlen, Nat.mul_succ]; omega) (by omega)
    · exact hM.writePart hpos (block_le hwhole (by omega)) (by omega)
    · have hnil : buffer = [] := length_eq_zero_iff.mp (by omega)
      rw [hnil]
      exact ⟨d, rfl, overwrite_nil.symm⟩

theorem flushBlocks {k startblock : ℕ} (hk : blkper = 2 ^ k) (hwhole : blkper ∣ (blocks d).length)
    (hin : startblock + buffer.length ≤ (blocks d).length) :
    Writes blocks (flushBlocks M blkper startblock buffer) d startblock buffer := by
  have hlow : ∀ n, n &&& (blkper - 1) = n % blkper := hk ▸ fun n => and_low n k
  obtain ⟨m, offset, rfl, hoffset⟩ :
      ∃ m offset, startblock = blkper * m + offset ∧ offset < blkper :=
    ⟨startblock / blkper, startblock % blkper, (Nat.div_add_mod ..).symm, Nat.mod_lt _ hpos⟩
  unfold Mtd.flushBlocks
  simp only [hlow]
  rw [Nat.mul_add_mod, Nat.mod_eq_of_lt hoffset]
  rcases Nat.eq_zero_or_pos offset with rfl | hpart
  · rw [Nat.add_zero, Nat.mul_add_mod, Nat.mod_eq_of_lt (by omega), Nat.add_sub_cancel,
      if_neg (Nat.lt_irrefl _)]
    exact hM.flushAligned hpos hwhole hin (Nat.lt_succ_self _)
  · have hsucc : blkper * (m + 1) = blkper * m + blkper := Nat.mul_succ ..
    have hstart : blkper * m + offset + (blkper - 1) = blkper * (m + 1) + (offset - 1) := by omega
    have hblock : blkper * m + blkper ≤ (blocks d).length := block_le hwhole (by omega)
    rw [hstart, Nat.mul_add_mod, Nat.mod_eq_of_lt (by omega), Nat.add_sub_cancel, if_pos (by omega),
      Nat.add_sub_cancel]
    split_ifs with hshort
    · obtain ⟨d₁, hwrite, hblocks⟩ : Writes blocks _ d (blkper * m + offset) buffer :=
        hM.writePart hpos hblock (by omega)
      rw [take_length, drop_length]
      refine ⟨d₁, hwrite.bind_iff.mpr ?_, hblocks⟩
      rw [Mtd.flushAligned, length_nil, if_neg (Nat.not_le.mpr hpos), if_neg (Nat.lt_irrefl 0)]
      exact returns_pure
    · obtain ⟨front, rest, rfl, hfront⟩ :
          ∃ front rest, buffer = front ++ rest ∧ front.length = blkper - offset :=
        ⟨_, _, (take_append_drop _ buffer).symm, length_take_of_le (by omega)⟩
      rw [take_left' hfront, drop_left' hfront]
      rw [length_append] at hin ⊢
      refine (hM.writePart hpos hblock (by omega)).append (by omega) fun d' hlen => ?_
      rw [show blkper * m + offset + front.length = blkper * (m + 1) by omega]
      exact hM.flushAligned hpos (by rwa [hlen]) (by omega) (by omega)

end Device.Works

/-- **`ftl_flush` writes exactly the given blocks**: on a device that works, of whole erase
blocks. -/
theorem ftlFlush_exact (k : ℕ) (hM : M.Works (2 ^ k) blocks) (d : δ) (startblock : ℕ)
    (buffer : List β) (hwhole : 2 ^ k ∣ (blocks d).length)
    (hin : startblock + buffer.length ≤ (blocks d).length) :
    ∃ d', Returns (ftlFlush M (2 ^ k) startblock buffer) d buffer.length d' ∧
      ∀ i, (blocks d')[i]? = if startblock ≤ i ∧ i < startblock + buffer.length then
        buffer[i - startblock]? else (blocks d)[i]? := by
  obtain ⟨d', hret, hblocks⟩ := hM.flushBlocks (Nat.two_pow_pos k) rfl hwhole hin
  refine ⟨d', hret.bind_iff.mpr returns_pure, fun i => ?_⟩
  rw [hblocks, getElem?_overwrite (by omega)]

/-- A device in memory, where an erase does nothing. -/
def memory : Device ℕ (List ℕ) where
  bread b n d := (slice d b n, d)
  erase _ d := (0, d)
  bwrite b buffer d := (buffer.length, overwrite d b buffer)

theorem ftlFlush_exact_memory : ∃ d', Returns (ftlFlush memory (2 ^ 1) 1 [7, 8, 9, 10])
    [0, 1, 2, 3, 4, 5] 4 d' ∧ ∀ i, d'[i]? = if 1 ≤ i ∧ i < 1 + 4 then [7, 8, 9, 10][i - 1]? else
      [0, 1, 2, 3, 4, 5][i]? :=
  ftlFlush_exact 1 ⟨fun d b _ => ⟨d, rfl, rfl⟩, fun d m eblock _ hlen =>
    ⟨0, d, _, rfl, Int.le_refl 0, by rw [← hlen]; rfl, rfl⟩⟩
    [0, 1, 2, 3, 4, 5] 1 [7, 8, 9, 10] (by decide) (by decide)

end GreenboneFeeder.Mtd
