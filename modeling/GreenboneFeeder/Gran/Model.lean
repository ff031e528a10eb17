import GreenboneFeeder.Lib.Bitmap
import GreenboneFeeder.Lib.Run
import Mathlib.Algebra.Group.Nat.Defs

/-!
# The granule allocator

A granule heap (`mm/mm_gran`) hands out runs of at most 32 granules, with one bit for each in a
table of 32-bit words. `gran_common_alloc` walks over the table entry by entry; inside an entry it
shifts a window of two words to the right until enough low bits are clear, and moves a candidate
address along. That address, not the position of the window, is marked in the table and returned.
Both calls are critical sections, so a run is a sequence of whole calls.
-/

namespace GreenboneFeeder.Gran

open BitVec

/-- **One granule heap** (`struct gran_s`), lying inside the address space. -/
structure Heap where
  /-- Log base 2 of the size of one granule. -/
  log2gran : ℕ
  /-- The number of granules of the heap. -/
  ngranules : ℕ
  /-- The start of the heap. -/
  heapstart : BitVec 32
  /-- The granule allocation table. -/
  gat : ℕ → BitVec 32
  log2gran_lt : log2gran < 32
  ngranules_pos : 1 ≤ ngranules
  /-- The number of granules is kept in 16 bits. -/
  ngranules_lt : ngranules < 2 ^ 16
  fits : heapstart.toNat + ngranules * 2 ^ log2gran ≤ 2 ^ 32

/-- The number of entries of the table, `SIZEOF_GAT`. -/
def sizeofGat (n : ℕ) : ℕ := (n + 31) / 32

variable (priv : Heap)

/-- The number of granules a size takes. -/
def Heap.granules (size : BitVec 32) : ℕ :=
  ((size + ((1 <<< priv.log2gran) - 1)) >>> priv.log2gran).toNat

/-- The number of the granule at an address. -/
def Heap.granno (addr : BitVec 32) : ℕ :=
  ((addr - priv.heapstart) >>> priv.log2gran).toNat

/-! ### Marking and freeing -/

/-- The heap after granules were marked as allocated, `gran_mark_allocated`. -/
def granMarkAllocated (alloc : BitVec 32) (ngranules : ℕ) : Heap :=
  let granno := priv.granno alloc
  let gatidx := granno / 32
  let gatbit := granno % 32
  let avail := 32 - gatbit
  if ngranules > avail then
    -- the first entry to its end, and what is left from the start of the second one
    { priv with
      gat := Function.update
        (Function.update priv.gat gatidx (priv.gat gatidx ||| (allOnes 32 <<< gatbit)))
        (gatidx + 1)
        (priv.gat (gatidx + 1) ||| (allOnes 32 >>> (32 - (ngranules - avail)))) }
  else
    { priv with
      gat := Function.update priv.gat gatidx
        (priv.gat gatidx ||| ((allOnes 32 >>> (32 - ngranules)) <<< gatbit)) }

/-- The heap after granules were returned, `gran_common_free`. -/
def granCommonFree (memory size : BitVec 32) : Heap :=
  let granno := priv.granno memory
  let gatidx := granno / 32
  let gatbit := granno % 32
  let ngranules := priv.granules size
  let avail := 32 - gatbit
  if ngranules > avail then
    { priv with
      gat := Function.update
        (Function.update priv.gat gatidx (priv.gat gatidx &&& ~~~(allOnes 32 <<< gatbit)))
        (gatidx + 1)
        (priv.gat (gatidx + 1) &&& ~~~(allOnes 32 >>> (32 - (ngranules - avail)))) }
  else
    { priv with
      gat := Function.update priv.gat gatidx
        (priv.gat gatidx &&& ~~~((allOnes 32 >>> (32 - ngranules)) <<< gatbit)) }

/-! ### The search -/

/-- The variables of the search inside one entry. -/
structure Scan where
  /-- The candidate address. -/
  alloc : BitVec 32
  /-- The low word of the window. -/
  curr : BitVec 32
  /-- The high word of the window. -/
  next : BitVec 32
  /-- How far the window was shifted. -/
  bitidx : ℕ
deriving DecidableEq

/-- The next shift of the window; none when the allocation can start here. -/
def shiftOf (mask curr : BitVec 32) : Option ℕ :=
  if curr &&& 0xffff#32 = 0xffff#32 then some 16
  else if curr &&& 0xff#32 = 0xff#32 then some 8
  else if curr &&& 0xf#32 = 0xf#32 then some 4
  else if curr &&& 0x3#32 = 0x3#32 then some 2
  else if curr &&& mask = 0#32 then none
  else some 1

/-- The window and the candidate address, moved together. -/
def Scan.advance (log2gran shift : ℕ) (s : Scan) : Scan where
  alloc := s.alloc + (BitVec.ofNat 32 shift <<< log2gran)
  curr := (s.curr >>> shift) ||| (s.next <<< (32 - shift))
  next := s.next >>> shift
  bitidx := s.bitidx + shift

/-- **The search inside the entry** that holds the granules from `granidx` on, and whether it found
a place. Each round shifts by one bit at least, so 32 rounds are enough. -/
def searchEntry (priv : Heap) (ngranules granidx : ℕ) (mask : BitVec 32) : ℕ → Scan → Scan × Bool
  | 0, s => (s, false)
  | rounds + 1, s =>
    if s.bitidx < 32 ∧ granidx + s.bitidx + ngranules ≤ priv.ngranules then
      -- all of the zero bits may have been shifted out
      if s.curr = allOnes 32 then (s, false)
      else
        match shiftOf mask s.curr with
        | none => (s, true)
        | some shift =>
          searchEntry priv ngranules granidx mask rounds (s.advance priv.log2gran shift)
    else (s, false)

/-- The word read behind an entry. The source means to take ones behind the last entry, but its test
always holds there, so it reads the word behind the table: `beyond`. -/
def Heap.wordAfter (beyond : BitVec 32) (gatidx : ℕ) : BitVec 32 :=
  if gatidx + 1 < sizeofGat priv.ngranules then priv.gat (gatidx + 1) else beyond

/-- The search inside the entry at `granidx`, from its first bit. -/
def Heap.searchAt (beyond : BitVec 32) (ngranules granidx : ℕ) (alloc : BitVec 32) :
    Scan × Bool :=
  searchEntry priv ngranules granidx (allOnes 32 >>> (32 - ngranules)) 32
    { alloc, curr := priv.gat (granidx / 32), next := priv.wordAfter beyond (granidx / 32),
      bitidx := 0 }

/-- **The search over the entries** of the table, from the one at `granidx` on. -/
def searchTable (priv : Heap) (beyond : BitVec 32) (ngranules : ℕ) :
    ℕ → ℕ → BitVec 32 → Option (BitVec 32)
  | 0, _, _ => none
  | entries + 1, granidx, alloc =>
    if granidx < priv.ngranules then
      if priv.gat (granidx / 32) = allOnes 32 then
        searchTable priv beyond ngranules entries (granidx + 32)
          (alloc + (32#32 <<< priv.log2gran))
      else
        match priv.searchAt beyond ngranules granidx alloc with
        | (s, true) => some s.alloc
        -- the candidate address stays where the search of the entry left it
        | (s, false) => searchTable priv beyond ngranules entries (granidx + 32) s.alloc
    else none

/-- **An allocation** of at most 32 granules, `gran_common_alloc`: the address and the heap
after it. -/
def granCommonAlloc (beyond size : BitVec 32) : Option (BitVec 32 × Heap) :=
  if size = 0#32 then none
  else
    let ngranules := priv.granules size
    (searchTable priv beyond ngranules (sizeofGat priv.ngranules) 0 priv.heapstart).map
      fun alloc => (alloc, granMarkAllocated priv alloc ngranules)

/-! ### Runs -/

/-- A range handed out and not yet freed: its address and the size that was asked for. -/
structure Range where
  addr : BitVec 32
  size : BitVec 32
deriving DecidableEq

/-- The allocator with the ranges that are currently allocated. -/
structure Sys where
  priv : Heap
  live : List Range

/-- A call. The word that lies behind the table in memory is not under the allocator's control. -/
inductive Event where
  | alloc (size beyond : BitVec 32)
  | free (r : Range)

/-- What a call does. Sizes take from 1 to 32 granules, and what is freed is a range that is
allocated, with its address and its size. -/
def step (s : Sys) : Event → Option Sys
  | .alloc size beyond =>
    if 1 ≤ s.priv.granules size ∧ s.priv.granules size ≤ 32 then
      match granCommonAlloc s.priv beyond size with
      | some (addr, priv) => some { priv, live := ⟨addr, size⟩ :: s.live }
      | none => some s
    else none
  | .free r =>
    if r ∈ s.live then
      some { priv := granCommonFree s.priv r.addr r.size, live := s.live.erase r }
    else none

/-- A heap with nothing allocated. -/
def emptyHeap (log2gran ngranules : ℕ) (heapstart : BitVec 32)
    (hgran : log2gran < 32) (hpos : 1 ≤ ngranules) (hlt : ngranules < 2 ^ 16)
    (hfits : heapstart.toNat + ngranules * 2 ^ log2gran ≤ 2 ^ 32) : Heap where
  log2gran := log2gran
  ngranules := ngranules
  heapstart := heapstart
  gat := fun _ => 0#32
  log2gran_lt := hgran
  ngranules_pos := hpos
  ngranules_lt := hlt
  fits := hfits

end GreenboneFeeder.Gran
