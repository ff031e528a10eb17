import GreenboneFeeder.Lib.Bytes

/-!
# The memory manager

The heap of `mm/mm_heap`, for 32-bit sizes and pointers. The memory is a memory of bytes: the
headers of the chunks, the links of the free ones and the array `mm_nodelist` are read and written
as the code does, and the user's bytes lie between them.

A `size_t` is a number below `2 ^ 32`, and arithmetic on it wraps; what is stored in a field is cut
by the store. A loop over more nodes than there are addresses has been to some node twice and does
not end, which is `none`. The semaphore of the heap is left out: a call is one step.
-/

namespace GreenboneFeeder.Mm

/-! ### Sizes -/

/-- `SIZEOF_MM_ALLOCNODE`. -/
def sizeofAllocNode : ℕ := 8

/-- `SIZEOF_MM_FREENODE`. -/
def sizeofFreeNode : ℕ := 16

/-- `MM_MIN_SHIFT`. -/
def minShift : ℕ := 4

/-- `MM_MAX_SHIFT`. -/
def maxShift : ℕ := 22

/-- `MM_MAX_CHUNK`. -/
def maxChunk : ℕ := 1 <<< maxShift

/-- `MM_NNODES`. -/
def nnodes : ℕ := maxShift - minShift + 1

/-- `MM_ALLOC_BIT`. -/
def allocBit : ℕ := 0x80000000

/-- `~MM_ALLOC_BIT`. -/
def sizeMask : ℕ := 0x7fffffff

/-- `MM_GRAN_MASK`. -/
def granMask : ℕ := 0xf

/-- `~MM_GRAN_MASK`. -/
def alignMask : ℕ := 0xfffffff0

/-- The sum of two numbers of 32 bits. -/
def add32 (a b : ℕ) : ℕ := (a + b) % 2 ^ 32

/-- The difference of two numbers of 32 bits. -/
def sub32 (a b : ℕ) : ℕ := (a + 2 ^ 32 - b) % 2 ^ 32

/-- `MM_ALIGN_UP`. -/
def alignUp (a : ℕ) : ℕ := add32 a granMask &&& alignMask

/-- `MM_ALIGN_DOWN`. -/
def alignDown (a : ℕ) : ℕ := a &&& alignMask

/-- The loop of `mm_size2ndx`; a number of 32 bits is at most `1` after 31 shifts. -/
def shiftDown : ℕ → ℕ → ℕ → ℕ
  | 0, ndx, _ => ndx
  | n + 1, ndx, size => if size > 1 then shiftDown n (ndx + 1) (size >>> 1) else ndx

/-- `mm_size2ndx`. -/
def size2ndx (size : ℕ) : ℕ :=
  if size ≥ maxChunk then nnodes - 1 else shiftDown 31 0 (size >>> minShift)

/-! ### The heap -/

/-- The members of `struct mm_freenode_s`; the first two are those of
`struct mm_allocnode_s`. -/
inductive Field where
  | size
  | preceding
  | flink
  | blink
deriving DecidableEq, Repr

/-- The offset of a member. -/
def Field.offset : Field → ℕ
  | .size => 0
  | .preceding => 4
  | .flink => 8
  | .blink => 12

/-- `struct mm_heap_s`, with the memory it lies in. The array `mm_nodelist` is in the memory, at the
address `nodelist`. There are as many entries in `mm_heapstart` and `mm_heapend` as there are
regions. -/
structure Heap where
  mem : Bytes
  nodelist : ℕ
  heapsize : ℕ
  heapstart : List ℕ
  heapend : List ℕ
  /-- The sizes of the chunks that `mm_addfreechunk` was called for, the last one first. The
  code does not keep them. -/
  passed : List ℕ

namespace Heap

variable (h : Heap)

variable (node : ℕ)

/-- A member of the node at an address. -/
def get (f : Field) : ℕ := h.mem.load 4 (node + f.offset)

/-- A member of the node at an address is set. -/
@[simps -fullyApplied]
def set (f : Field) (v : ℕ) : Heap :=
  { h with mem := h.mem.store 4 (node + f.offset) v }

/-- `&heap->mm_nodelist[ndx]`. -/
def header (ndx : ℕ) : ℕ := h.nodelist + sizeofFreeNode * ndx

/-- A node is taken out of the list, as in `mm_malloc`, `mm_free`, `mm_shrinkchunk` and
`mm_realloc`. There may not be a successor. -/
def unlink : Heap :=
  let h := h.set (h.get node .blink) .flink (h.get node .flink)
  if h.get node .flink ≠ 0 then h.set (h.get node .flink) .blink (h.get node .blink) else h

/-- The number of addresses. -/
def fuel : ℕ := 2 ^ 32

/-- The loop of `mm_addfreechunk`. -/
def skipSmaller (h : Heap) (size : ℕ) : ℕ → ℕ → ℕ → Option (ℕ × ℕ)
  | 0, _, _ => none
  | n + 1, prev, next =>
      if next ≠ 0 ∧ h.get next .size ≠ 0 ∧ h.get next .size < size then
        skipSmaller h size n next (h.get next .flink)
      else some (prev, next)

/-- What `mm_addfreechunk` does at the place that it has found. -/
def linkBetween (prev node next : ℕ) : Heap :=
  let h := ((h.set prev .flink node).set node .blink prev).set node .flink next
  if next ≠ 0 then h.set next .blink node else h

/-- `mm_addfreechunk`. -/
def addFreeChunk : Option Heap := do
  let h := { h with passed := h.get node .size :: h.passed }
  let ndx := size2ndx (h.get node .size)
  let (prev, next) ← h.skipSmaller (h.get node .size) fuel (h.header ndx)
    (h.get (h.header ndx) .flink)
  some (h.linkBetween prev node next)

/-- The `preceding` field of a node gets another size, and keeps the flag. -/
def setPrecedingSize (node size : ℕ) : Heap :=
  h.set node .preceding (size ||| (h.get node .preceding &&& allocBit))

/-- The flag of a node is clear. -/
def IsFree : Prop := h.get node .preceding &&& allocBit = 0

instance (h : Heap) (node : ℕ) : Decidable (h.IsFree node) :=
  inferInstanceAs (Decidable (_ = _))

/-! ### Regions -/

/-- `mm_addregion`. -/
def addRegion (heapstart heapsize : ℕ) : Option Heap :=
  let heapbase := alignUp heapstart
  let heapend := alignDown (add32 heapstart heapsize)
  let heapsize := sub32 heapend heapbase
  let first := heapbase
  let node := heapbase + sizeofAllocNode
  let last := sub32 heapend sizeofAllocNode
  let h := { h with
    heapsize := add32 h.heapsize heapsize
    heapstart := h.heapstart ++ [first]
    heapend := h.heapend ++ [last] }
  let h := (h.set first .size sizeofAllocNode).set first .preceding allocBit
  let h := (h.set node .size (sub32 heapsize (2 * sizeofAllocNode))).set node .preceding
    sizeofAllocNode
  let h := h.set last .size sizeofAllocNode
  let h := h.set last .preceding (h.get node .size ||| allocBit)
  h.addFreeChunk node

/-- The loop of `mm_initialize`, for the entries from `i` on. -/
def linkHeaders (h : Heap) : ℕ → ℕ → Heap
  | 0, _ => h
  | n + 1, i =>
      let h := (h.set (h.header (i - 1)) .flink (h.header i)).set (h.header i) .blink
        (h.header (i - 1))
      linkHeaders h n (i + 1)

/-- What `mm_initialize` does before it adds the first region. -/
def prepare (mem : Bytes) (nodelist : ℕ) : Heap :=
  linkHeaders ⟨mem.clear nodelist (sizeofFreeNode * nnodes), nodelist, 0, [], [], []⟩ (nnodes - 1) 1

/-- `mm_initialize`, in a memory in which the array `mm_nodelist` lies at `nodelist`. -/
def mmInitialize (mem : Bytes) (nodelist heapstart heapsize : ℕ) : Option Heap :=
  (prepare mem nodelist).addRegion heapstart heapsize

/-! ### Allocating and freeing -/

/-- The search of `mm_malloc`. -/
def search (h : Heap) (size : ℕ) : ℕ → ℕ → Option ℕ
  | 0, _ => none
  | n + 1, node =>
      if node ≠ 0 ∧ h.get node .size < size then search h size n (h.get node .flink)
      else some node

/-- The remainder of a free node is made a node of its own. -/
def split (node size remaining : ℕ) : Option Heap :=
  let next := node + h.get node .size
  let remainder := node + size
  let h := (h.set remainder .size remaining).set remainder .preceding size
  let h := h.set node .size size
  let h := h.setPrecedingSize next remaining
  h.addFreeChunk remainder

/-- What `mm_malloc` does with the node that it has found. -/
def takeNode (node size : ℕ) : Option Heap := do
  let h := h.unlink node
  let remaining := h.get node .size - size
  let h ← if remaining ≥ sizeofFreeNode then h.split node size remaining else some h
  some (h.set node .preceding (h.get node .preceding ||| allocBit))

/-- `mm_malloc`; the result is `0` for `NULL`. -/
def malloc (size : ℕ) : Option (Heap × ℕ) :=
  if size < 1 then some (h, 0)
  else do
    let size := alignUp (add32 size sizeofAllocNode)
    let ndx := if size ≥ maxChunk then nnodes - 1 else size2ndx size
    let node ← h.search size fuel (h.get (h.header ndx) .flink)
    if node ≠ 0 then
      let h ← h.takeNode node size
      some (h, node + sizeofAllocNode)
    else some (h, 0)

/-- Two adjacent chunks become one, as in `mm_free`. -/
def merge (node next andbeyond : ℕ) : Heap :=
  let h := h.set node .size (h.get node .size + h.get next .size)
  h.setPrecedingSize andbeyond (h.get node .size)

/-- `mm_free` merges the following node if it is free; the second result is the node
behind. -/
def mergeNext : Heap × ℕ :=
  let next := node + h.get node .size
  if h.IsFree next then
    let andbeyond := next + h.get next .size
    ((h.unlink next).merge node next andbeyond, andbeyond)
  else (h, next)

/-- `mm_free` merges the preceding node if it is free; the second result is the merged
node. -/
def mergePrev (node next : ℕ) : Heap × ℕ :=
  let prev := node - h.get node .preceding
  if h.IsFree prev then ((h.unlink prev).merge prev node next, prev)
  else (h, node)

/-- `mm_free`. -/
def free (mem : ℕ) : Option Heap :=
  if mem = 0 then some h
  else
    let node := mem - sizeofAllocNode
    let h := h.set node .preceding (h.get node .preceding &&& sizeMask)
    let (h, next) := h.mergeNext node
    let (h, node) := h.mergePrev node next
    h.addFreeChunk node

/-- `mm_extend`, for memory directly behind a region. Without this region there is no node to extend
from, and no result. -/
def mmExtend (mem size region : ℕ) : Option Heap := do
  let blockend := add32 mem size
  let oldnode ← h.heapend[region]?
  let h := h.set oldnode .size size
  let newnode := sub32 blockend sizeofAllocNode
  let h := h.set newnode .size sizeofAllocNode
  let h := h.set newnode .preceding (h.get oldnode .size ||| allocBit)
  { h with heapend := h.heapend.set region newnode }.free mem

/-! ### Reallocating -/

/-- `mm_shrinkchunk`. -/
def shrinkChunk (node size : ℕ) : Option Heap :=
  let next := node + h.get node .size
  let newnode := node + size
  if h.IsFree next then
    let andbeyond := next + h.get next .size
    let h := h.unlink next
    let h := h.set newnode .size (h.get next .size + h.get node .size - size)
    let h := (h.set newnode .preceding size).set node .size size
    let h := h.setPrecedingSize andbeyond (h.get newnode .size)
    h.addFreeChunk newnode
  else if h.get node .size ≥ add32 size sizeofFreeNode then
    let h := h.set newnode .size (h.get node .size - size)
    let h := (h.set newnode .preceding size).set node .size size
    let h := h.set next .preceding (h.get newnode .size ||| allocBit)
    h.addFreeChunk newnode
  else some h

/-- How much `mm_realloc` takes from the previous chunk, and how much from the next
one. -/
def takes (needed prevsize nextsize : ℕ) : ℕ × ℕ :=
  if prevsize > 0 ∧ (nextsize ≥ prevsize ∨ nextsize < 1) then
    if needed > prevsize then (prevsize, needed - prevsize) else (needed, 0)
  else if nextsize > 0 ∧ needed ≠ 0 then
    if needed > nextsize then (needed - nextsize, nextsize) else (0, needed)
  else (0, 0)

/-- `mm_realloc` extends the chunk into the previous one and moves the user's bytes down.
The results are the node and its size. -/
def takePrev (oldnode oldsize prev prevsize next takeprev : ℕ) :
    Option (Heap × ℕ × ℕ) := do
  let h := h.unlink prev
  let newnode := oldnode - takeprev
  let h ← if takeprev < prevsize then do
      let h := h.set prev .size (h.get prev .size - takeprev)
      let h := h.set newnode .size (oldsize + takeprev)
      let h := h.set newnode .preceding (h.get prev .size ||| allocBit)
      let h := h.setPrecedingSize next (h.get newnode .size)
      h.addFreeChunk prev
    else
      let h := h.set newnode .size (h.get newnode .size + oldsize)
      let h := h.set newnode .preceding (h.get newnode .preceding ||| allocBit)
      some (h.setPrecedingSize next (h.get newnode .size))
  let oldmem := oldnode + sizeofAllocNode
  let newmem := newnode + sizeofAllocNode
  let size := h.get newnode .size
  some ({ h with mem := h.mem.copy newmem oldmem (size - sizeofAllocNode) }, newnode, size)

/-- `mm_realloc` extends the chunk into the next one. -/
def takeNext (oldnode oldsize next nextsize takenext : ℕ) : Option Heap :=
  let andbeyond := next + nextsize
  let h := h.unlink next
  let h := h.set oldnode .size (oldsize + takenext)
  let newnode := oldnode + h.get oldnode .size
  if takenext < nextsize then
    let h := h.set newnode .size (nextsize - takenext)
    let h := h.set newnode .preceding (h.get oldnode .size)
    let h := h.setPrecedingSize andbeyond (h.get newnode .size)
    h.addFreeChunk newnode
  else some (h.setPrecedingSize andbeyond (h.get oldnode .size))

/-- `mm_realloc` extends the chunk in place; the second result is the new address of the
user's bytes. -/
def extend (oldnode oldsize prev prevsize next nextsize size : ℕ) :
    Option (Heap × ℕ) := do
  let (takeprev, takenext) := takes (size - oldsize) prevsize nextsize
  let (h, oldnode, oldsize) ←
    if takeprev ≠ 0 then h.takePrev oldnode oldsize prev prevsize next takeprev
    else some (h, oldnode, oldsize)
  let h ← if takenext ≠ 0 then h.takeNext oldnode oldsize next nextsize takenext else some h
  some (h, oldnode + sizeofAllocNode)

/-- `mm_realloc` allocates another chunk, copies, and frees the old one. -/
def move (oldmem oldsize size : ℕ) : Option (Heap × ℕ) := do
  let (h, newmem) ← h.malloc size
  if newmem ≠ 0 then
    let h ← { h with mem := h.mem.copy newmem oldmem oldsize }.free oldmem
    some (h, newmem)
  else some (h, 0)

/-- `mm_realloc`; the result is `0` for `NULL`. -/
def realloc (oldmem size : ℕ) : Option (Heap × ℕ) :=
  if oldmem = 0 then h.malloc size
  else if size < 1 then (h.free oldmem).map (·, 0)
  else
    let size := alignUp (add32 size sizeofAllocNode)
    let oldnode := oldmem - sizeofAllocNode
    let oldsize := h.get oldnode .size
    if size ≤ oldsize then do
      let h ← if size < oldsize then h.shrinkChunk oldnode size else some h
      some (h, oldmem)
    else
      let next := oldnode + h.get oldnode .size
      let nextsize := if h.IsFree next then h.get next .size else 0
      let prev := oldnode - (h.get oldnode .preceding &&& sizeMask)
      let prevsize := if h.IsFree prev then h.get prev .size else 0
      if add32 (add32 nextsize prevsize) oldsize ≥ size then
        h.extend oldnode oldsize prev prevsize next nextsize size
      else h.move oldmem oldsize size

/-! ### Aligning and clearing -/

/-- `mm_memalign` gives the front of the chunk at `node` back: the node of the aligned part, its
address for the user, and how many bytes the user has from there. -/
def cutFront (node alignedchunk alignment : ℕ) : Option (Heap × ℕ × ℕ × ℕ) := do
  let next := node + h.get node .size
  let alignedchunk :=
    if alignedchunk - sizeofAllocNode - node < sizeofFreeNode then alignedchunk + alignment
    else alignedchunk
  let newnode := alignedchunk - sizeofAllocNode
  let precedingsize := newnode - node
  let h := h.set newnode .size (next - newnode)
  let h := h.set newnode .preceding (precedingsize ||| allocBit)
  let h := h.set node .size precedingsize
  let h := h.set node .preceding (h.get node .preceding &&& sizeMask)
  let h := h.setPrecedingSize next (h.get newnode .size)
  let allocsize := h.get newnode .size - sizeofAllocNode
  let h ← h.addFreeChunk node
  some (h, newnode, alignedchunk, allocsize)

/-- `mm_memalign`; the alignment is a power of two. -/
def memalign (alignment size : ℕ) : Option (Heap × ℕ) :=
  if alignment ≤ 1 <<< minShift then h.malloc size
  else do
    let mask := alignment - 1
    let size := alignUp size
    let allocsize := add32 size (2 * alignment)
    let (h, rawchunk) ← h.malloc allocsize
    if rawchunk = 0 then some (h, 0)
    else
      let node := rawchunk - sizeofAllocNode
      let alignedchunk := add32 rawchunk mask &&& (2 ^ 32 - 1 - mask)
      let (h, node, alignedchunk, allocsize) ←
        if alignedchunk ≠ rawchunk then h.cutFront node alignedchunk alignment
        else some (h, node, alignedchunk, allocsize)
      let h ← if allocsize > size then h.shrinkChunk node (add32 size sizeofAllocNode) else some h
      some (h, alignedchunk)

/-- `mm_zalloc`. -/
def zalloc (size : ℕ) : Option (Heap × ℕ) := do
  let (h, alloc) ← h.malloc size
  some (if alloc ≠ 0 then { h with mem := h.mem.clear alloc size } else h, alloc)

/-- `mm_calloc`. -/
def calloc (n elemSize : ℕ) : Option (Heap × ℕ) :=
  if n > 0 ∧ elemSize > 0 then h.zalloc (n * elemSize % 2 ^ 32) else some (h, 0)

end Heap

end GreenboneFeeder.Mm
