import GreenboneFeeder.Lib.Overlay
import GreenboneFeeder.Lib.Run
import GreenboneFeeder.Lib.Words

/-!
# The read-ahead and write buffers of block drivers

`drivers/rwbuffer.c`, with both `CONFIG_DRVR_WRITEBUFFER` and `CONFIG_DRVR_READAHEAD`. Blocks that
are written are collected in a write buffer as long as they are consecutive, and blocks that are
read are taken from a read-ahead buffer, which is loaded with more blocks than are asked for.

A block is a value of any type. The driver's callbacks write and read blocks when they are called
with the driver's own handle (`Rwbuffer.Driver`); nothing is known of what they do with another one.
Block numbers are `off_t`, of 32 bits with a sign; sizes are `size_t` or `uint32_t`, and the numbers
of blocks in the buffers are `uint16_t`.

With both options the `return` statement at the end of `rwb_read` and of `rwb_write` belongs to an
`else`, so that with both buffers in use the functions run off their end and return no number; only
an error of `rwb_rhreload` is returned. So it is the blocks that count here.
-/

namespace GreenboneFeeder.Rwbuffer

open Overlay Words

/-! ### Numbers -/

/-- A number as `uint16_t`. -/
def uint16 (n : ℕ) : ℕ := n % 2 ^ 16

def espipe : ℤ := 29

def eio : ℤ := 5

/-! ### The driver -/

/-- What is passed to the callbacks as their first argument: the handle of the driver, or the
address of the buffers' own structure. -/
inductive Handle where
  | dev
  | rwb
deriving DecidableEq, Repr

/-- **A block driver** with its two callbacks, which return what the C functions return, and the
buffer that was loaded. With the handle of the driver, for blocks of the device, they write and read
blocks and succeed. -/
structure Driver (β δ : Type) where
  /-- the number of blocks of the device, a `size_t` -/
  nblocks : ℕ
  /-- what the device holds -/
  blocks : δ → List β
  wrflush : Handle → List β → ℤ → ℕ → δ → ℤ × δ
  rhreload : Handle → List β → ℤ → ℕ → δ → ℤ × List β × δ
  length_blocks : ∀ d, (blocks d).length = nblocks
  wrflush_dev : ∀ buffer (startblock n : ℕ) d, startblock + n ≤ nblocks → n ≤ buffer.length →
    (wrflush .dev buffer startblock n d).1 = n ∧
      blocks (wrflush .dev buffer startblock n d).2 =
        overwrite (blocks d) startblock (slice buffer 0 n)
  rhreload_dev : ∀ buffer (startblock n : ℕ) d, startblock + n ≤ nblocks → n ≤ buffer.length →
    (rhreload .dev buffer startblock n d).1 = n ∧
      (rhreload .dev buffer startblock n d).2.1 =
        overwrite buffer 0 (slice (blocks d) startblock n) ∧
      blocks (rhreload .dev buffer startblock n d).2.2 = blocks d

/-- **The sizes of the buffers**, in blocks. -/
structure Sizes where
  wrmaxblocks : ℕ
  rhmaxblocks : ℕ
  wr_pos : 0 < wrmaxblocks
  rh_pos : 0 < rhmaxblocks
  wr_lt : wrmaxblocks < 2 ^ 16
  rh_lt : rhmaxblocks < 2 ^ 16

/-! ### The state -/

/-- **The buffers** (`struct rwbuffer_s`), the state of the device, and for each call of `rwb_read`,
the last one first, the number it has returned, if any, and what it has copied. -/
structure Sys (β δ : Type) where
  wrnblocks : ℕ
  wrblockstart : ℤ
  wrexpectedblock : ℤ
  wrbuffer : List β
  rhnblocks : ℕ
  rhblockstart : ℤ
  rhbuffer : List β
  dev : δ
  log : List (Option ℤ × List β)

variable {β δ : Type} (c : Sizes) (D : Driver β δ)

/-- `rwb_overlap`. -/
def rwbOverlap (blockstart1 : ℤ) (nblocks1 : ℕ) (blockstart2 : ℤ) (nblocks2 : ℕ) : Bool :=
  let blockend1 := int32 (blockstart1 + nblocks1)
  let blockend2 := int32 (blockstart2 + nblocks2)
  !(decide (blockend1 < blockstart2) || decide (blockend2 < blockstart1))

namespace Sys

/-! ### The write buffer -/

variable (startblock : ℤ) (nblocks : ℕ) (data : List β) (s : Sys β δ)

/-- `rwb_resetwrbuffer`. -/
def rwbResetwrbuffer : Sys β δ :=
  { s with wrnblocks := 0, wrblockstart := -1, wrexpectedblock := -1 }

/-- `rwb_wrflush`, which is also what `rwb_wrtimeout` does. -/
def rwbWrflush : Sys β δ :=
  if 0 < s.wrnblocks then
    { s with
      dev := (D.wrflush .dev s.wrbuffer s.wrblockstart s.wrnblocks s.dev).2 }.rwbResetwrbuffer
  else s

/-- The end of `rwb_writebuffer`: the blocks are added to the buffer. -/
def append : Sys β δ :=
  let blockstart := if s.wrnblocks = 0 then startblock else s.wrblockstart
  let nblocks := uint16 (s.wrnblocks + data.length)
  { s with
    wrblockstart := blockstart
    wrbuffer := overwrite s.wrbuffer s.wrnblocks data
    wrnblocks := nblocks
    wrexpectedblock := int32 (blockstart + nblocks) }

/-- The buffer is flushed before the blocks are added to it: they do not follow those in the
buffer, or there is not enough room. -/
def Misses : Prop :=
  startblock ≠ s.wrexpectedblock ∧ s.wrnblocks ≠ 0 ∨ c.wrmaxblocks < s.wrnblocks + data.length

instance (startblock : ℤ) (data : List β) (s : Sys β δ) :
    Decidable (s.Misses c startblock data) := by
  unfold Misses
  infer_instance

/-- `rwb_writebuffer`, whose result `rwb_write` drops. -/
def rwbWritebuffer : Sys β δ :=
  if s.Misses c startblock data then
    -- the callback is not given the handle of the driver here; if it fails, the blocks are lost
    let r := D.wrflush .rwb s.wrbuffer s.wrblockstart s.wrnblocks s.dev
    if r.1 < 0 then { s with dev := r.2 }
    else { s with dev := r.2 }.rwbResetwrbuffer.append startblock data
  else s.append startblock data

/-! ### The read-ahead buffer -/

/-- `rwb_resetrhbuffer`. -/
def rwbResetrhbuffer : Sys β δ := { s with rhnblocks := 0, rhblockstart := -1 }

/-- `rwb_bufferread`. -/
def rwbBufferread : List β :=
  slice s.rhbuffer (startblock - s.rhblockstart).toNat nblocks

/-- How many blocks `rwb_rhreload` loads. -/
def rhcount : ℕ :=
  let endblock := int32 (startblock + c.rhmaxblocks)
  let endblock := if D.nblocks < uint32 endblock then int32 D.nblocks else endblock
  uint32 (endblock - startblock)

/-- `rwb_rhreload`. -/
def rwbRhreload : ℤ × Sys β δ :=
  if D.nblocks ≤ uint32 startblock then (-espipe, s)
  else
    let nblocks := rhcount c D startblock
    let s := s.rwbResetrhbuffer
    let r := D.rhreload .dev s.rhbuffer startblock nblocks s.dev
    let s := { s with rhbuffer := r.2.1, dev := r.2.2 }
    if r.1 = nblocks then
      (nblocks, { s with rhnblocks := uint16 nblocks, rhblockstart := startblock })
    else (-eio, s)

/-! ### Reading -/

/-- How many of the blocks are taken from the read-ahead buffer. -/
def available (remaining : ℕ) (s : Sys β δ) : ℕ :=
  let bufferend := int32 (s.rhblockstart + s.rhnblocks)
  if 0 < s.rhnblocks ∧ s.rhblockstart ≤ startblock ∧ startblock < bufferend then
    min (uint32 (bufferend - startblock)) remaining
  else 0

/-- **The loop of `rwb_read`**, with what it has copied so far: the number that is returned in
case of an error, and everything that was copied. -/
def readLoop : ℕ → ℤ → ℕ → List β → Sys β δ → Option (Option ℤ × List β × Sys β δ)
  | 0, _, _, _, _ => none
  | fuel + 1, startblock, remaining, out, s =>
    if remaining = 0 then some (none, out, s)
    else
      let rdblocks := s.available startblock remaining
      let out := out ++ s.rwbBufferread startblock rdblocks
      let startblock := int32 (startblock + rdblocks)
      let remaining := remaining - rdblocks
      if 0 < remaining then
        let r := s.rwbRhreload c D startblock
        if r.1 < 0 then some (some r.1, out, r.2)
        else readLoop fuel startblock remaining out r.2
      else readLoop fuel startblock remaining out s

/-- `rwb_read`: what it returns and copies is put into the log. -/
def rwbRead : Option (Sys β δ) :=
  let s := if rwbOverlap s.wrblockstart s.wrnblocks startblock nblocks then s.rwbWrflush D else s
  (readLoop c D (nblocks + 2) startblock nblocks [] s).map fun r =>
    { r.2.2 with log := (r.1, r.2.1) :: r.2.2.log }

/-! ### Writing -/

/-- `rwb_write`, which returns nothing. -/
def rwbWrite : Sys β δ :=
  let s :=
    if rwbOverlap s.rhblockstart s.rhnblocks startblock data.length then s.rwbResetrhbuffer else s
  if c.wrmaxblocks < data.length then
    let s := s.rwbWrflush D
    { s with dev := (D.wrflush .dev data startblock data.length s.dev).2 }
  else s.rwbWritebuffer c D startblock data

end Sys

/-! ### Sequences of calls -/

/-- What can happen next. -/
inductive Event (β : Type) where
  | write (startblock : ℕ) (data : List β)
  | read (startblock nblocks : ℕ)
  /-- `rwb_wrtimeout` -/
  | timeout

/-- The blocks of a call are inside of a device of this size. -/
def Event.Inside (nblocks : ℕ) : Event β → Prop
  | .write startblock data => startblock + data.length ≤ nblocks
  | .read startblock n => startblock + n ≤ nblocks
  | .timeout => True

instance (nblocks : ℕ) : ∀ e : Event β, Decidable (e.Inside nblocks)
  | .write startblock data => inferInstanceAs (Decidable (startblock + data.length ≤ nblocks))
  | .read startblock n => inferInstanceAs (Decidable (startblock + n ≤ nblocks))
  | .timeout => isTrue trivial

/-- **One call.** -/
def step (s : Sys β δ) : Event β → Option (Sys β δ)
  | .write startblock data => some (s.rwbWrite c D startblock data)
  | .read startblock nblocks => s.rwbRead c D startblock nblocks
  | .timeout => some (s.rwbWrflush D)

/-- The state after `rwb_initialize`, with buffers that hold anything. -/
def init (wrbuffer rhbuffer : List β) (dev : δ) : Sys β δ where
  wrnblocks := 0
  wrblockstart := -1
  wrexpectedblock := -1
  wrbuffer := wrbuffer
  rhnblocks := 0
  rhblockstart := -1
  rhbuffer := rhbuffer
  dev := dev
  log := []

/-! ### A device without buffers -/

/-- **What the buffers are to look like from outside**: a device, and what was read from it. -/
structure Device (β : Type) where
  blocks : List β
  log : List (List β)

/-- One call on such a device. -/
def Device.step (d : Device β) : Event β → Device β
  | .write startblock data => { d with blocks := overwrite d.blocks startblock data }
  | .read startblock nblocks =>
    { d with log := slice d.blocks startblock nblocks :: d.log }
  | .timeout => d

end GreenboneFeeder.Rwbuffer
