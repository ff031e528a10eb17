import GreenboneFeeder.Lib.Tiling
import GreenboneFeeder.Mm.FreeList

/-!
# The chunks in the memory

A region is tiled by its chunks, with a guard at either end. `Mm.Heap.Holds` says that the memory
has the header of every chunk, and that certain free chunks are in the list. The operations are
sequences of three moves that keep this: a chunk is taken out of the list (`Mm.Heap.Holds.unlink`)
or put into it (`Mm.Heap.Holds.add`), and a part of the tiling without chunks of the list is divided
in another way (`Mm.Heap.Holds.retile`). The chunks of the other users stay where they are, with all
of their bytes (`Mm.Heap.Evolves`).
-/

namespace GreenboneFeeder.Mm

open List

open Tiling

/-! ### Regions -/

/-- The guard at either end of a region. -/
def guard : Piece := ⟨8, true⟩

/-- The size of a chunk. The chunks are multiples of 16 bytes as long as none of them is aligned by
`mm_memalign`. -/
structure IsChunk (coarse : Bool) (c : Piece) : Prop where
  le : 16 ≤ c.size
  mod : c.size % 8 = 0
  mod_of_coarse : coarse = true → c.size % 16 = 0

namespace IsChunk

variable {coarse t t' t'' : Bool} {s s' : ℕ}

theorem add (h : IsChunk coarse ⟨s, t⟩) (h' : IsChunk coarse ⟨s', t'⟩) :
    IsChunk coarse ⟨s + s', t''⟩ := by
  have hle : 16 ≤ s := h.le
  have hmod : s % 8 = 0 := h.mod
  have hmod' : s' % 8 = 0 := h'.mod
  refine ⟨Nat.le_add_right_of_le hle, ?_, fun hcoarse => ?_⟩
  · dsimp only
    omega
  · have hfine : s % 16 = 0 := h.mod_of_coarse hcoarse
    have hfine' : s' % 16 = 0 := h'.mod_of_coarse hcoarse
    dsimp only
    omega

theorem left (h : IsChunk coarse ⟨s + s', t⟩) (h' : IsChunk coarse ⟨s, t'⟩) (hle : 16 ≤ s') :
    IsChunk coarse ⟨s', t''⟩ := by
  have hmod : (s + s') % 8 = 0 := h.mod
  have hmod' : s % 8 = 0 := h'.mod
  refine ⟨hle, ?_, fun hcoarse => ?_⟩
  · dsimp only
    omega
  · have hfine : (s + s') % 16 = 0 := h.mod_of_coarse hcoarse
    have hfine' : s % 16 = 0 := h'.mod_of_coarse hcoarse
    dsimp only
    omega

end IsChunk

/-- A region, with its address and what it is divided into. -/
structure Region where
  base : ℕ
  pieces : List Piece

namespace Region

/-- The address behind a region. -/
def limit (r : Region) : ℕ := r.base + total r.pieces

/-- The guards and the chunks of a region, in their places. -/
def nodes (r : Region) : List Placed := place r.base 0 r.pieces

/-- A region that the memory manager can work with. -/
structure Valid (coarse : Bool) (r : Region) : Prop where
  chunks : ∃ chunks, r.pieces = guard :: (chunks ++ [guard]) ∧ ∀ c ∈ chunks, IsChunk coarse c
  aligned : r.base % 16 = 0
  small : total r.pieces < 2 ^ 31 + 16
  fits : r.limit ≤ 2 ^ 32

theorem Valid.le_limit {coarse : Bool} {r : Region} (hr : r.Valid coarse) :
    r.base + 16 ≤ r.limit := by
  obtain ⟨chunks, hpieces, -⟩ := hr.chunks
  rw [Region.limit, hpieces]
  simp only [total_cons, total_append, total_nil, guard]
  omega

end Region

/-- All guards and chunks. -/
def placed (σ : List Region) : List Placed := σ.flatMap Region.nodes

/-- **The regions are apart** from each other, and from the array `mm_nodelist` at the address
`n`. -/
structure Geometry (coarse : Bool) (n : ℕ) (σ : List Region) : Prop where
  array : 0 < n ∧ n + 16 * nnodes ≤ 2 ^ 32
  valid : ∀ r ∈ σ, r.Valid coarse
  apart : σ.Pairwise fun r s => r.limit ≤ s.base ∨ s.limit ≤ r.base
  clear : ∀ r ∈ σ, r.limit ≤ n ∨ n + 16 * nnodes ≤ r.base

/-! ### A part of a tiling -/

/-- **What is around a part of a tiling.** -/
structure Site where
  before : List Region
  after : List Region
  base : ℕ
  left : List Piece
  right : List Piece

namespace Site

/-- The regions, with a part filled in. -/
def fill (z : Site) (mid : List Piece) : List Region :=
  z.before ++ ⟨z.base, z.left ++ (mid ++ z.right)⟩ :: z.after

/-- Where the part begins. -/
def addr (z : Site) : ℕ := z.base + total z.left

/-- The size of the piece in front of the part. -/
def prev (z : Site) : ℕ := lastSize 0 z.left

/-- The part is between the guards. -/
structure Inner (z : Site) : Prop where
  left : z.left ≠ []
  right : z.right ≠ []

variable {z : Site} {mid mid' r : List Piece} {c : Piece} {m : Placed} {coarse : Bool} {n : ℕ}

theorem placed_fill : placed (z.fill mid) = placed z.before ++ (place z.base 0 z.left ++
    (place z.addr z.prev mid ++ place (z.addr + total mid) (lastSize z.prev mid) z.right)) ++
      placed z.after := by
  rw [fill, placed, flatMap_append, flatMap_cons, Region.nodes, place_append, place_append,
    ← append_assoc]
  rfl

theorem mem_placed_of_mid (hm : m ∈ place z.addr z.prev mid) : m ∈ placed (z.fill mid) := by
  rw [placed_fill]
  exact mem_append_left _ (mem_append_right _ (mem_append_right _
    (mem_append_left _ hm)))

theorem mem_placed_one {s : ℕ} {t : Bool} :
    (⟨z.addr, s, z.prev, t⟩ : Placed) ∈ placed (z.fill [⟨s, t⟩]) := mem_placed_of_mid (by simp)

/-- The places of the piece behind the part. -/
def next (z : Site) (mid : List Piece) (c : Piece) : Placed :=
  ⟨z.addr + total mid, c.size, lastSize z.prev mid, c.taken⟩

theorem mem_placed_fill (hright : z.right = c :: r) :
    m ∈ placed (z.fill mid) ↔ m ∈ placed z.before ∨ m ∈ place z.base 0 z.left ∨
      m ∈ place z.addr z.prev mid ∨ m = z.next mid c ∨
      m ∈ place (z.addr + total mid + c.size) c.size r ∨ m ∈ placed z.after := by
  rw [placed_fill, hright, place_cons]
  simp only [mem_append, mem_cons]
  tauto

end Site

/-! ### What is known of a place -/

/-- What the geometry says of a guard or a chunk in its place. -/
structure Located (n : ℕ) (m : Placed) : Prop where
  eight_le : 8 ≤ m.size
  size_lt : m.size < 2 ^ 31
  before_lt : m.before < 2 ^ 31
  fits : m.addr + m.size ≤ 2 ^ 32
  clear : m.addr + m.size ≤ n ∨ n + 16 * nnodes ≤ m.addr
  addr_mod : m.addr % 8 = 0

namespace Geometry

variable {coarse : Bool} {n b : ℕ} {σ : List Region} {z : Site} {l mid mid' r : List Piece}
  {c : Piece}
  {m : Placed}

theorem lastSize_lt {p k : ℕ} (hp : p < k) (hl : ∀ c ∈ l, c.size < k) :
    lastSize p l < k := by
  induction l generalizing p with
  | nil => exact hp
  | cons c l ih =>
    exact ih (hl c mem_cons_self) fun d hd => hl d (mem_cons_of_mem c hd)

theorem piece_cases (hr : Region.Valid coarse ⟨b, l⟩) (hc : c ∈ l) : c = guard ∨
    IsChunk coarse c := by
  obtain ⟨chunks, hl, hchunks⟩ := hr.chunks
  dsimp only at hl
  rw [hl] at hc
  simp only [mem_cons, mem_append, not_mem_nil, or_false] at hc
  rcases hc with hc | hc | hc
  · exact .inl hc
  · exact .inr (hchunks c hc)
  · exact .inl hc

theorem size_lt_of_mem (hr : Region.Valid coarse ⟨b, l⟩) (hc : c ∈ l) : c.size < 2 ^ 31 := by
  obtain ⟨chunks, hl, hchunks⟩ := hr.chunks
  dsimp only at hl
  have hsmall := hr.small
  rw [hl] at hsmall hc
  simp only [total_cons, total_append, total_nil, guard] at hsmall
  simp only [mem_cons, mem_append, not_mem_nil, or_false] at hc
  rcases hc with rfl | hc | rfl
  · decide
  · obtain ⟨l₁, l₂, rfl⟩ := append_of_mem hc
    rw [total_append, total_cons] at hsmall
    omega
  · decide

/-- **A guard or a chunk in its place.** -/
theorem located (hg : Geometry coarse n σ) (hm : m ∈ placed σ) : Located n m := by
  obtain ⟨⟨b, l⟩, hr, hm⟩ := mem_flatMap.mp hm
  have hvalid := hg.valid _ hr
  obtain ⟨l₁, c, l₂, rfl, rfl⟩ := exists_split_of_mem_place hm
  have hbounds := bounds_of_mem_place hm
  have hc : c ∈ l₁ ++ c :: l₂ := by simp
  have hfits := hvalid.fits
  have hclear := hg.clear _ hr
  have haligned := hvalid.aligned
  rw [Region.limit] at hfits hclear
  dsimp only at hbounds hfits hclear haligned
  have hmod : total l₁ % 8 = 0 := total_mod fun d hd => by
    rcases piece_cases hvalid (mem_append_left _ hd) with rfl | hd
    · rfl
    · exact hd.mod
  refine ⟨?_, size_lt_of_mem hvalid hc, ?_, ?_, ?_, ?_⟩
  · rcases piece_cases hvalid hc with rfl | hc
    · exact Nat.le_refl 8
    · have := hc.le
      dsimp only
      omega
  · exact lastSize_lt (by decide) fun d hd => size_lt_of_mem hvalid (mem_append_left _ hd)
  · dsimp only
    omega
  · dsimp only
    omega
  · dsimp only
    omega

theorem isChunk (hg : Geometry coarse n σ) (hm : m ∈ placed σ)
    (hguard : m.taken = false ∨ 16 ≤ m.size) : IsChunk coarse ⟨m.size, m.taken⟩ := by
  obtain ⟨⟨b, l⟩, hr, hm⟩ := mem_flatMap.mp hm
  refine (piece_cases (hg.valid _ hr) (piece_of_mem_place hm)).resolve_left fun hc => ?_
  rw [guard, Piece.mk.injEq] at hc
  rcases hguard with hguard | hguard
  · rw [hguard] at hc
    exact absurd hc.2 (by decide)
  · omega

/-- **The pieces do not overlap.** -/
theorem disjoint {m' : Placed} (hg : Geometry coarse n σ) (hm : m ∈ placed σ) (hm' : m' ∈ placed σ)
    (hne : m ≠ m') : m.addr + m.size ≤ m'.addr ∨ m'.addr + m'.size ≤ m.addr := by
  have hpairwise : (placed σ).Pairwise fun x y => x.addr + x.size ≤ y.addr ∨
      y.addr + y.size ≤ x.addr := by
    rw [placed, pairwise_flatMap]
    refine ⟨fun r hr => pairwise_place.imp .inl, hg.apart.imp fun {r s} hrs x hx y hy => ?_⟩
    have hx := bounds_of_mem_place hx
    have hy := bounds_of_mem_place hy
    rw [Region.limit, Region.limit] at hrs
    omega
  have : Std.Symm fun x y : Placed => x.addr + x.size ≤ y.addr ∨ y.addr + y.size ≤ x.addr :=
    ⟨fun _ _ => Or.symm⟩
  exact hpairwise.forall hm hm' hne

theorem ne_nil_of_ne_guard {l₁ l₂ : List Piece} (hr : Region.Valid coarse ⟨b, l₁ ++ c :: l₂⟩)
    (hc : c ≠ guard) : l₁ ≠ [] ∧ l₂ ≠ [] := by
  obtain ⟨chunks, hl, -⟩ := hr.chunks
  constructor
  · rintro rfl
    exact hc (cons_eq_cons.mp hl).1
  · rintro rfl
    rw [← cons_append] at hl
    exact hc (singleton_inj.mp (append_inj' hl rfl).2)

theorem valid_fill (hg : Geometry coarse n (z.fill mid)) :
    Region.Valid coarse ⟨z.base, z.left ++ (mid ++ z.right)⟩ :=
  hg.valid _ (mem_append_right _ mem_cons_self)

theorem exists_site (hg : Geometry coarse n σ) (hm : m ∈ placed σ)
    (hguard : m.taken = false ∨ 16 ≤ m.size) :
    ∃ z : Site, σ = z.fill [⟨m.size, m.taken⟩] ∧ z.addr = m.addr ∧ z.Inner := by
  obtain ⟨⟨b, l⟩, hr, hplace⟩ := mem_flatMap.mp hm
  obtain ⟨σ₁, σ₂, rfl⟩ := append_of_mem hr
  obtain ⟨l₁, c, l₂, rfl, rfl⟩ := exists_split_of_mem_place hplace
  have hc : c ≠ guard := by
    rintro rfl
    rcases hguard with hguard | hguard <;> exact absurd hguard (by simp [guard])
  obtain ⟨hleft, hright⟩ := ne_nil_of_ne_guard (hg.valid _ hr) hc
  exact ⟨⟨σ₁, σ₂, b, l₁, l₂⟩, rfl, rfl, hleft, hright⟩

theorem eight_le_addr (hg : Geometry coarse n σ) (hm : m ∈ placed σ)
    (hguard : m.taken = false ∨ 16 ≤ m.size) : 8 ≤ m.addr := by
  obtain ⟨z, rfl, haddr, hinner⟩ := hg.exists_site hm hguard
  obtain ⟨c, left, hleft⟩ := exists_cons_of_ne_nil hinner.left
  have hsize : 8 ≤ c.size := by
    rcases piece_cases (c := c) hg.valid_fill (by simp [hleft]) with rfl | hc
    · exact Nat.le_refl 8
    · have := hc.le
      omega
  rw [← haddr, Site.addr, hleft, total_cons]
  omega

section

variable (hg : Geometry coarse n (z.fill mid))

include hg

/-- **The chunks around a part** are before it or behind it; the part may be taken together with
some pieces behind it. -/
theorem outside {w : List Piece} {p : ℕ} (hright : z.right = w ++ r)
    (hm : m ∈ placed z.before ∨ m ∈ place z.base 0 z.left ∨
      m ∈ place (z.addr + total mid + total w) p r ∨ m ∈ placed z.after) :
    m.addr + m.size ≤ z.addr ∨ z.addr + total mid + total w ≤ m.addr := by
  have hapart := hg.apart
  rw [Site.fill, pairwise_append, pairwise_cons] at hapart
  have hlimit : (⟨z.base, z.left ++ (mid ++ z.right)⟩ : Region).limit =
      z.addr + total mid + total w + total r := by
    rw [Region.limit, hright, Site.addr]
    simp only [total_append]
    omega
  have hbase : z.base ≤ z.addr := Nat.le_add_right ..
  rcases hm with hm | hm | hm | hm
  · obtain ⟨r', hr', hm⟩ := mem_flatMap.mp hm
    have hbounds := bounds_of_mem_place hm
    have hrel := hapart.2.2 r' hr' _ mem_cons_self
    rw [Region.limit] at hrel
    dsimp only at hrel
    omega
  · have hbounds := bounds_of_mem_place hm
    exact .inl hbounds.2
  · exact .inr (bounds_of_mem_place hm).1
  · obtain ⟨r', hr', hm⟩ := mem_flatMap.mp hm
    have hbounds := bounds_of_mem_place hm
    have hrel := hapart.2.1.1 r' hr'
    rw [hlimit, Region.limit] at hrel
    dsimp only at hrel
    omega

theorem exists_chunks (hinner : z.Inner) :
    ∃ left right, z.left = guard :: left ∧ z.right = right ++ [guard] ∧
      ∀ c ∈ left ++ (mid ++ right), IsChunk coarse c := by
  obtain ⟨chunks, hl, hchunks⟩ := hg.valid_fill.chunks
  obtain ⟨c, left, hleft⟩ := exists_cons_of_ne_nil hinner.left
  obtain ⟨right, d, hright⟩ := (eq_nil_or_concat' z.right).resolve_left hinner.right
  rw [hleft, hright, ← append_assoc, ← append_assoc] at hl
  obtain ⟨rfl, hinit⟩ := cons_eq_cons.mp hl
  obtain ⟨rfl, hd⟩ := append_inj' hinit rfl
  refine ⟨left, right, hleft, ?_, ?_⟩
  · rw [hright, hd]
  · rw [← append_assoc]
    exact hchunks

theorem isChunk_mid (hinner : z.Inner) (hc : c ∈ mid) :
    IsChunk coarse c := by
  obtain ⟨left, right, -, -, hchunks⟩ := hg.exists_chunks hinner
  exact hchunks c (mem_append_right _ (mem_append_left _ hc))

/-- **The part is divided in another way.** -/
theorem retile (hinner : z.Inner)
    (htotal : total mid' = total mid) (hmid : ∀ c ∈ mid', IsChunk coarse c) :
    Geometry coarse n (z.fill mid') := by
  have hlimit : (⟨z.base, z.left ++ (mid' ++ z.right)⟩ : Region).limit =
      (⟨z.base, z.left ++ (mid ++ z.right)⟩ : Region).limit := by
    simp only [Region.limit, total_append, htotal]
  have hvalid : Region.Valid coarse ⟨z.base, z.left ++ (mid' ++ z.right)⟩ := by
    have hold := hg.valid_fill
    obtain ⟨left, right, hleft, hright, hchunks⟩ := hg.exists_chunks hinner
    refine ⟨⟨left ++ (mid' ++ right), ?_, fun c hc => ?_⟩, hold.aligned, ?_, ?_⟩
    · rw [hleft, hright]
      simp
    · simp only [mem_append] at hc hchunks
      rcases hc with hc | hc | hc
      · exact hchunks c (.inl hc)
      · exact hmid c hc
      · exact hchunks c (.inr (.inr hc))
    · have hsmall := hold.small
      simp only [total_append, htotal] at hsmall ⊢
      exact hsmall
    · rw [hlimit]
      exact hold.fits
  have hapart := hg.apart
  refine ⟨hg.array, fun r hr => ?_, ?_, fun r hr => ?_⟩
  · simp only [Site.fill, mem_append, mem_cons] at hr
    rcases hr with hr | rfl | hr
    · exact hg.valid r (mem_append_left _ hr)
    · exact hvalid
    · exact hg.valid r (mem_append_right _ (mem_cons_of_mem _ hr))
  · rw [Site.fill, pairwise_append, pairwise_cons] at hapart ⊢
    refine ⟨hapart.1, ⟨fun r hr => ?_, hapart.2.1.2⟩, fun s hs r hr => ?_⟩
    · rw [hlimit]
      exact hapart.2.1.1 r hr
    · rcases mem_cons.mp hr with rfl | hr
      · rw [hlimit]
        exact hapart.2.2 s hs _ mem_cons_self
      · exact hapart.2.2 s hs r (mem_cons_of_mem _ hr)
  · simp only [Site.fill, mem_append, mem_cons] at hr
    rcases hr with hr | rfl | hr
    · exact hg.clear r (mem_append_left _ hr)
    · rw [hlimit]
      exact hg.clear ⟨z.base, z.left ++ (mid ++ z.right)⟩
        (mem_append_right _ mem_cons_self)
    · exact hg.clear r (mem_append_right _ (mem_cons_of_mem _ hr))

end

end Geometry

namespace Heap

variable {coarse : Bool} {h h' h'' : Heap} {σ σ' σ'' : List Region} {L L' W : Set ℕ} {z : Site}
  {mid mid' r : List Piece} {c : Piece} {m : Placed} {a x : ℕ} {bins : ℕ → List ℕ}

/-! ### The chunks in the memory -/

/-- The memory has the header of a guard or a chunk. -/
structure HeadOf (h : Heap) (m : Placed) : Prop where
  size : h.get m.addr .size = m.size
  preceding : h.get m.addr .preceding = tagged m.before m.taken

/-- The heap is the same but for the memory. -/
structure SameHeap (h h' : Heap) : Prop where
  nodelist : h'.nodelist = h.nodelist
  heapsize : h'.heapsize = h.heapsize
  heapstart : h'.heapstart = h.heapstart
  heapend : h'.heapend = h.heapend

theorem SameHeap.refl (h : Heap) : SameHeap h h := ⟨rfl, rfl, rfl, rfl⟩

theorem SameHeap.trans (hs : SameHeap h h') (hs' : SameHeap h' h'') : SameHeap h h'' :=
  ⟨hs'.nodelist.trans hs.nodelist, hs'.heapsize.trans hs.heapsize, hs'.heapstart.trans hs.heapstart,
    hs'.heapend.trans hs.heapend⟩

theorem SameHeap.write {mem : Bytes} : SameHeap h { h with mem := mem } := ⟨rfl, rfl, rfl, rfl⟩

/-- **The memory holds the chunks**, and the free ones at the addresses in `L` are in the list. -/
structure Holds (coarse : Bool) (h : Heap) (σ : List Region) (L : Set ℕ) : Prop where
  list : ∃ bins, FreeList h bins ∧ ∀ a, a ∈ L ↔ ∃ i < nnodes, a ∈ bins i
  heads : ∀ m ∈ placed σ, HeadOf h m
  geometry : Geometry coarse h.nodelist σ
  listed : ∀ a ∈ L, ∃ m ∈ placed σ, m.addr = a ∧ m.taken = false
  heapstart : h.heapstart = σ.map Region.base
  heapend : h.heapend = σ.map fun r => r.limit - 8

/-- **What an operation leaves alone.** Allocated chunks stay where they are and keep their bytes,
but for those in `W`. The chunks put into the list can hold its links. -/
structure Evolves (W : Set ℕ) (h : Heap) (σ : List Region) (h' : Heap) (σ' : List Region) :
    Prop where
  stays : ∀ m ∈ placed σ, m.taken = true → m.addr ∉ W →
    ∃ m' ∈ placed σ', m'.addr = m.addr ∧ m'.size = m.size ∧ m'.taken = true
  bytes : ∀ m ∈ placed σ, m.taken = true → m.addr ∉ W → ∀ x, m.addr + 8 ≤ x → x < m.addr + m.size →
    h'.mem x = h.mem x
  passed : ∀ s ∈ h'.passed, s ∈ h.passed ∨ 16 ≤ s

namespace Evolves

theorem refl (W : Set ℕ) (h : Heap) (σ : List Region) : Evolves W h σ h σ :=
  ⟨fun m hm htaken _ => ⟨m, hm, rfl, rfl, htaken⟩, fun _ _ _ _ _ _ _ => rfl, fun _ => .inl⟩

/-- Two steps, of which the second one works on chunks that were not there in the beginning. -/
theorem trans_of_outside (he : Evolves W h σ h' σ') (he' : Evolves L h' σ' h'' σ'')
    (hW : ∀ m ∈ placed σ, m.taken = true → m.addr ∉ W → m.addr ∉ L) : Evolves W h σ h'' σ'' := by
  refine ⟨fun m hm htaken hmW => ?_, fun m hm htaken hmW x hx hx' => ?_, fun s hs => ?_⟩
  · obtain ⟨m', hm', haddr, hsize, htaken'⟩ := he.stays m hm htaken hmW
    obtain ⟨m'', hm'', haddr', hsize', htaken''⟩ :=
      he'.stays m' hm' htaken' (haddr ▸ hW m hm htaken hmW)
    exact ⟨m'', hm'', haddr'.trans haddr, hsize'.trans hsize, htaken''⟩
  · obtain ⟨m', hm', haddr, hsize, htaken'⟩ := he.stays m hm htaken hmW
    rw [he'.bytes m' hm' htaken' (haddr ▸ hW m hm htaken hmW) x (haddr ▸ hx) (by omega),
      he.bytes m hm htaken hmW x hx hx']
  · rcases he'.passed s hs with hs | hs
    · exact he.passed s hs
    · exact .inr hs

theorem trans (he : Evolves W h σ h' σ') (he' : Evolves W h' σ' h'' σ'') : Evolves W h σ h'' σ'' :=
  he.trans_of_outside he' fun _ _ _ hW => hW

theorem mono (he : Evolves W h σ h' σ') (hsub : W ⊆ L) : Evolves L h σ h' σ' :=
  ⟨fun m hm htaken hL => he.stays m hm htaken fun hW => hL (hsub hW),
    fun m hm htaken hL => he.bytes m hm htaken fun hW => hL (hsub hW), he.passed⟩

end Evolves

/-! ### Moving chunks in and out of the list -/

namespace Holds

theorem log (hh : Holds coarse h σ L) (l : List ℕ) : Holds coarse { h with passed := l } σ L := by
  obtain ⟨bins, hlist, hiff⟩ := hh.list
  exact { hh with
    list := ⟨bins, hlist.congr rfl (fun _ _ => rfl) (fun _ _ => rfl) fun _ _ => rfl, hiff⟩
    heads := fun m hm => { hh.heads m hm with } }

theorem mem_nodes_cases (hg : Geometry coarse h.nodelist σ)
    (hiff : ∀ a, a ∈ L ↔ ∃ i < nnodes, a ∈ bins i)
    (hlisted : ∀ a ∈ L, ∃ m ∈ placed σ, m.addr = a ∧ m.taken = false)
    (ha : a ∈ nodes h.nodelist bins) :
    (h.nodelist ≤ a ∧ a + 16 ≤ h.nodelist + 16 * nnodes) ∨
      ∃ m ∈ placed σ, m.addr = a ∧ m.taken = false ∧ 16 ≤ m.size ∧ a ∈ L := by
  obtain ⟨i, hi, rfl | ha⟩ := mem_nodes.mp ha
  · exact .inl (by omega)
  · have haL := (hiff a).mpr ⟨i, hi, ha⟩
    obtain ⟨m, hm, haddr, hfree⟩ := hlisted a haL
    exact .inr ⟨m, hm, haddr, hfree, (hg.isChunk hm (.inl hfree)).le, haL⟩

/-- **Only links change.** The headers are not touched, nor are the allocated chunks. -/
theorem of_linksOnly (hh : Holds coarse h σ L) (hlist : FreeList h' bins)
    (hiff : ∀ a, a ∈ L' ↔ ∃ i < nnodes, a ∈ bins i)
    (hlisted : ∀ a ∈ L', ∃ m ∈ placed σ, m.addr = a ∧ m.taken = false)
    (honly : LinksOnly (nodes h.nodelist bins) h h') :
    Holds coarse h' σ L' ∧ SameHeap h h' ∧ Evolves ∅ h σ h' σ := by
  have hcases := fun b hb => mem_nodes_cases (a := b) hh.geometry hiff hlisted hb
  have hclear : ∀ m ∈ placed σ, ∀ b ∈ nodes h.nodelist bins, m.addr ≤ b ∨ b + 16 ≤ m.addr := by
    intro m hm b hb
    have hloc := hh.geometry.located hm
    have := hloc.clear
    rcases hcases b hb with hb | ⟨m', hm', haddr, -, hsize, -⟩
    · omega
    · by_cases hne : m = m'
      · rw [hne]
        omega
      · have := hh.geometry.disjoint hm hm' hne
        omega
  have hsame := honly.same
  refine ⟨⟨⟨bins, hlist, hiff⟩, fun m hm => ⟨?_, ?_⟩, ?_, hlisted, ?_, ?_⟩,
    ⟨honly.nodelist, by rw [hsame], by rw [hsame], by rw [hsame]⟩,
    fun m hm htaken _ => ⟨m, hm, rfl, rfl, htaken⟩, fun m hm htaken _ x hx hx' => ?_,
    fun s hs => .inl (by rwa [hsame] at hs)⟩
  · rw [honly.get_eq (hclear m hm) (.inl rfl)]
    exact (hh.heads m hm).size
  · rw [honly.get_eq (hclear m hm) (.inr rfl)]
    exact (hh.heads m hm).preceding
  · rw [honly.nodelist]
    exact hh.geometry
  · rw [hsame]
    exact hh.heapstart
  · rw [hsame]
    exact hh.heapend
  · refine honly.mem x fun b hb => ?_
    have hclear := (hh.geometry.located hm).clear
    rcases hcases b hb with hb | ⟨m', hm', haddr, hfree, hsize, -⟩
    · omega
    · have hne : m ≠ m' := by
        rintro rfl
        rw [htaken] at hfree
        exact absurd hfree (by decide)
      have := hh.geometry.disjoint hm hm' hne
      omega

/-- **A chunk is taken out of the list.** -/
theorem unlink (hh : Holds coarse h σ (insert a L)) (ha : a ∉ L) :
    Holds coarse (h.unlink a) σ L ∧ SameHeap h (h.unlink a) ∧ Evolves ∅ h σ (h.unlink a) σ := by
  obtain ⟨bins, hlist, hiff⟩ := hh.list
  obtain ⟨i, hi, hai⟩ := (hiff a).mp (Set.mem_insert a L)
  obtain ⟨hlist', honly⟩ := hlist.unlink hi hai
  refine hh.of_linksOnly hlist' (fun b => ?_) (fun b hb => hh.listed b (.inr hb)) honly
  rw [← Set.insert_sdiff_self_of_notMem ha, Set.mem_sdiff, hiff]
  constructor
  · rintro ⟨⟨j, hj, hb⟩, hne⟩
    exact ⟨j, hj, (hlist.mem_erase_iff hi hai hj).mpr ⟨hb, hne⟩⟩
  · rintro ⟨j, hj, hb⟩
    obtain ⟨hb, hne⟩ := (hlist.mem_erase_iff hi hai hj).mp hb
    exact ⟨⟨j, hj, hb⟩, hne⟩

/-- **A free chunk is put into the list.** -/
theorem add (hh : Holds coarse h σ L) (hm : m ∈ placed σ) (hfree : m.taken = false)
    (hnew : m.addr ∉ L) :
    ∃ h', h.addFreeChunk m.addr = some h' ∧ Holds coarse h' σ (insert m.addr L) ∧ SameHeap h h' ∧
      Evolves ∅ h σ h' σ := by
  obtain ⟨bins, hlist, hiff⟩ := hh.list
  have hloc := hh.geometry.located hm
  have hchunk := (hh.geometry.isChunk hm (.inl hfree)).le
  dsimp only at hchunk
  have hsize := (hh.heads m hm).size
  have hpos := hh.geometry.eight_le_addr hm (.inl hfree)
  have hspaced : ∀ b ∈ nodes h.nodelist bins, m.addr ≠ b ∧ Spaced m.addr b := by
    intro b hb
    have hclear := hloc.clear
    unfold Spaced
    rcases mem_nodes_cases hh.geometry hiff hh.listed hb with hb | ⟨m', hm', haddr, -, hsize', hb⟩
    · omega
    · have hne : m ≠ m' := by
        rintro rfl
        exact hnew (haddr ▸ hb)
      have := hh.geometry.disjoint hm hm' hne
      omega
  obtain ⟨h', l₁, l₂, hadd, hbins, hlist', honly⟩ :=
    hlist.add ⟨by omega, by have := hloc.fits; omega⟩ hspaced (by omega) rfl
  have hlisted : ∀ b ∈ insert m.addr L, ∃ m ∈ placed σ, m.addr = b ∧ m.taken = false := by
    rintro b (rfl | hb)
    · exact ⟨m, hm, rfl, hfree⟩
    · exact hh.listed b hb
  obtain ⟨hholds, hsame, hevolves⟩ := (hh.log (h.get m.addr .size :: h.passed)).of_linksOnly
    hlist' (fun b => by rw [Set.mem_insert_iff, hiff, exists_mem_insert_iff size2ndx_lt hbins])
    hlisted honly
  refine ⟨h', hadd, hholds, { hsame with }, { hevolves with passed := fun s hs => ?_ }⟩
  rcases hevolves.passed s hs with hs | hs
  · rcases mem_cons.mp hs with rfl | hs
    · exact .inr (by omega)
    · exact .inl hs
  · exact .inr hs

end Holds

/-! ### Dividing a part in another way -/

/-- **Nothing but the headers at some addresses has changed.** -/
structure HeadsOnly (l : List ℕ) (h h' : Heap) : Prop where
  same : SameHeap h h'
  passed : h'.passed = h.passed
  mem : ∀ x, (∀ b ∈ l, x < b ∨ b + 8 ≤ x) → h'.mem x = h.mem x

namespace HeadsOnly

variable {l l' : List ℕ} {f : Field} {v : ℕ}

@[simp] theorem refl (l : List ℕ) (h : Heap) : HeadsOnly l h h := ⟨.refl h, rfl, fun _ _ => rfl⟩

@[simp] theorem set_iff (ha : a ∈ l) (hf : f = .size ∨ f = .preceding) :
    HeadsOnly l h (h'.set a f v) ↔ HeadsOnly l h h' := by
  have hset : ∀ x, (∀ b ∈ l, x < b ∨ b + 8 ≤ x) → (h'.set a f v).mem x = h'.mem x := by
    refine fun x hx => mem_set_of_outside ?_
    have := hx a ha
    rcases hf with rfl | rfl <;> simp only [Field.offset] <;> omega
  constructor
  · rintro ⟨hsame, hpassed, hmem⟩
    exact ⟨{ hsame with }, hpassed, fun x hx => (hset x hx).symm.trans (hmem x hx)⟩
  · rintro ⟨hsame, hpassed, hmem⟩
    exact ⟨{ hsame with }, hpassed, fun x hx => (hset x hx).trans (hmem x hx)⟩

theorem get_eq (hs : HeadsOnly l h h')
    (hf : ∀ b ∈ l, a + f.offset + 4 ≤ b ∨ b + 8 ≤ a + f.offset) : h'.get a f = h.get a f := by
  refine get_congr fun x hx hx' => hs.mem x fun b hb => ?_
  have := hf b hb
  omega

end HeadsOnly

namespace Holds

/-- **A part of the tiling is divided in another way.** Its headers are written, and the size of the
preceding piece in the header behind it. -/
theorem retile {l : List ℕ} (hh : Holds coarse h (z.fill mid) L) (hleft : z.left ≠ [])
    (hright : z.right = c :: r) (honly : HeadsOnly l h h')
    (hl : ∀ b ∈ l, z.addr ≤ b ∧ b ≤ z.addr + total mid) (htotal : total mid' = total mid)
    (hmid : ∀ d ∈ mid', IsChunk coarse d) (hheads : ∀ m ∈ place z.addr z.prev mid', HeadOf h' m)
    (hnext : HeadOf h' (z.next mid' c)) (hunlisted : ∀ m ∈ place z.addr z.prev mid, m.addr ∉ L)
    (hW : ∀ m ∈ place z.addr z.prev mid, m.taken = true → m.addr ∈ W) :
    Holds coarse h' (z.fill mid') L ∧ Evolves W h (z.fill mid) h' (z.fill mid') := by
  have hg := hh.geometry
  have hinner : z.Inner := ⟨hleft, by rw [hright]; exact cons_ne_nil c r⟩
  have hc : 8 ≤ c.size := (hg.located ((Site.mem_placed_fill hright).mpr
    (.inr (.inr (.inr (.inl rfl)))))).eight_le
  -- the pieces around the part stay, and their headers are not written
  have hout : ∀ m, (m ∈ placed z.before ∨ m ∈ place z.base 0 z.left ∨
      m ∈ place (z.addr + total mid + c.size) c.size r ∨ m ∈ placed z.after) →
      m ∈ placed (z.fill mid) ∧ m ∈ placed (z.fill mid') ∧
        (m.addr + m.size ≤ z.addr ∨ z.addr + total mid + 8 ≤ m.addr) ∧ HeadOf h' m := by
    intro m hm
    have hside := hg.outside (w := [c]) hright hm
    rw [total_cons, total_nil] at hside
    have hmem : m ∈ placed (z.fill mid) := (Site.mem_placed_fill hright).mpr (by tauto)
    have height := (hg.located hmem).eight_le
    have hget : ∀ f, f = .size ∨ f = .preceding → h'.get m.addr f = h.get m.addr f := by
      intro f hf
      refine honly.get_eq fun b hb => ?_
      have hb := hl b hb
      rcases hf with rfl | rfl <;> simp only [Field.offset] <;> omega
    refine ⟨hmem, (Site.mem_placed_fill hright).mpr (by rw [htotal]; tauto), by omega, ?_, ?_⟩
    · rw [hget .size (.inl rfl)]
      exact (hh.heads m hmem).size
    · rw [hget .preceding (.inr rfl)]
      exact (hh.heads m hmem).preceding
  -- a piece that is not in the part is one of them, or the one behind the part
  have hcases : ∀ m ∈ placed (z.fill mid), m ∉ place z.addr z.prev mid →
      (m ∈ placed (z.fill mid') ∧ (m.addr + m.size ≤ z.addr ∨ z.addr + total mid + 8 ≤ m.addr) ∧
        HeadOf h' m) ∨ m = z.next mid c := by
    intro m hm hpart
    rcases (Site.mem_placed_fill hright).mp hm with hm | hm | hm | hm | hm | hm
    · exact .inl (hout m (.inl hm)).2
    · exact .inl (hout m (.inr (.inl hm))).2
    · exact absurd hm hpart
    · exact .inr hm
    · exact .inl (hout m (.inr (.inr (.inl hm)))).2
    · exact .inl (hout m (.inr (.inr (.inr hm)))).2
  have hnextmem : z.next mid' c ∈ placed (z.fill mid') :=
    (Site.mem_placed_fill hright).mpr (.inr (.inr (.inr (.inl rfl))))
  have hnextaddr :
      (z.next mid' c).addr = (z.next mid c).addr := by rw [Site.next, Site.next, htotal]
  constructor
  · obtain ⟨bins, hlist, hiff⟩ := hh.list
    have hclear := hg.clear ⟨z.base, z.left ++ (mid ++ z.right)⟩
      (mem_append_right _ mem_cons_self)
    rw [Region.limit, hright] at hclear
    simp only [total_append, total_cons] at hclear
    have haddr : z.addr = z.base + total z.left := rfl
    -- the nodes of the list are not in the part, so their links are not written
    have hfields : ∀ a ∈ nodes h.nodelist bins, ∀ f, f ≠ .preceding → h'.get a f = h.get a f := by
      intro a ha f hf
      have hoff := f.offset_le
      rcases mem_nodes_cases hg hiff hh.listed ha with ha | ⟨m, hm, rfl, hfree, hsize, haL⟩
      · refine honly.get_eq fun b hb => ?_
        have hb := hl b hb
        omega
      · rcases hcases m hm fun hpart => hunlisted m hpart haL with ⟨-, hside, -⟩ | rfl
        · refine honly.get_eq fun b hb => ?_
          have hb := hl b hb
          omega
        · by_cases hfsize : f = .size
          · rw [hfsize, ← hnextaddr, hnext.size, hnextaddr, (hh.heads _ hm).size]
            rfl
          · refine honly.get_eq fun b hb => ?_
            have hb := hl b hb
            have hlinks : 8 ≤ f.offset := by
              cases f <;> first | exact absurd rfl hf | exact absurd rfl hfsize | decide
            rw [Site.next]
            dsimp only
            omega
    refine ⟨⟨bins, ?_, hiff⟩, fun m hm => ?_, ?_, fun a ha => ?_, ?_, ?_⟩
    · exact hlist.congr honly.same.nodelist (fun a ha => hfields a ha _ (by decide))
        (fun a ha => hfields a ha _ (by decide)) fun a ha => hfields a ha _ (by decide)
    · rcases (Site.mem_placed_fill hright).mp hm with hm | hm | hm | rfl | hm | hm
      · exact (hout m (.inl hm)).2.2.2
      · exact (hout m (.inr (.inl hm))).2.2.2
      · exact hheads m hm
      · exact hnext
      · rw [htotal] at hm
        exact (hout m (.inr (.inr (.inl hm)))).2.2.2
      · exact (hout m (.inr (.inr (.inr hm)))).2.2.2
    · rw [honly.same.nodelist]
      exact hg.retile hinner htotal hmid
    · obtain ⟨m, hm, rfl, hfree⟩ := hh.listed a ha
      rcases hcases m hm fun hpart => hunlisted m hpart ha with ⟨hm', -, -⟩ | rfl
      · exact ⟨m, hm', rfl, hfree⟩
      · exact ⟨z.next mid' c, hnextmem, hnextaddr, hfree⟩
    · rw [honly.same.heapstart, hh.heapstart]
      simp [Site.fill]
    · rw [honly.same.heapend, hh.heapend]
      simp [Site.fill, Region.limit, htotal]
  · refine ⟨fun m hm htaken hmW => ?_, fun m hm htaken hmW x hx hx' => ?_, fun s hs => .inl ?_⟩
    · rcases hcases m hm fun hpart => hmW (hW m hpart htaken) with ⟨hm', -, -⟩ | rfl
      · exact ⟨m, hm', rfl, rfl, htaken⟩
      · exact ⟨z.next mid' c, hnextmem, hnextaddr, rfl, htaken⟩
    · refine honly.mem x fun b hb => ?_
      have hb := hl b hb
      rcases hcases m hm fun hpart => hmW (hW m hpart htaken) with ⟨-, hside, -⟩ | rfl
      · omega
      · rw [Site.next] at hx
        dsimp only at hx
        omega
    · rwa [← honly.passed]

/-- **The user's bytes change.** -/
theorem write {mem : Bytes} (hh : Holds coarse h σ L) (hm : m ∈ placed σ) (htaken : m.taken = true)
    (hmem : ∀ x, x < m.addr + 8 ∨ m.addr + m.size ≤ x → mem x = h.mem x) :
    Holds coarse { h with mem := mem } σ L ∧ Evolves {m.addr} h σ { h with mem := mem } σ := by
  have hget : ∀ (a : ℕ) (f : Field), a + f.offset + 4 ≤ m.addr + 8 ∨
    m.addr + m.size ≤ a + f.offset →
      ({ h with mem := mem } : Heap).get a f = h.get a f := by
    intro a f ha
    exact get_congr fun x hx hx' => hmem x (by omega)
  have hclear := (hh.geometry.located hm).clear
  constructor
  · obtain ⟨bins, hlist, hiff⟩ := hh.list
    have hnodes : ∀ a ∈ nodes h.nodelist bins, ∀ f,
        ({ h with mem := mem } : Heap).get a f = h.get a f := by
      intro a ha f
      have hoff := f.offset_le
      refine hget a f ?_
      rcases mem_nodes_cases hh.geometry hiff hh.listed ha with ha | ⟨m', hm', rfl, hfree, hsize, -⟩
      · omega
      · have hne : m ≠ m' := by
          rintro rfl
          rw [htaken] at hfree
          exact absurd hfree (by decide)
        have := hh.geometry.disjoint hm hm' hne
        omega
    have hheads : ∀ m' ∈ placed σ, ∀ f, f = .size ∨ f = .preceding →
        ({ h with mem := mem } : Heap).get m'.addr f = h.get m'.addr f := by
      intro m' hm' f hf
      have hoff : f.offset + 4 ≤ 8 := by rcases hf with rfl | rfl <;> decide
      refine hget _ f ?_
      by_cases hne : m = m'
      · rw [hne]
        omega
      · have := hh.geometry.disjoint hm hm' hne
        omega
    refine { hh with list := ⟨bins, ?_, hiff⟩, heads := fun m' hm' => ⟨?_, ?_⟩ }
    · exact hlist.congr rfl (fun a ha => hnodes a ha _) (fun a ha => hnodes a ha _)
        fun a ha => hnodes a ha _
    · rw [hheads m' hm' _ (.inl rfl)]
      exact (hh.heads m' hm').size
    · rw [hheads m' hm' _ (.inr rfl)]
      exact (hh.heads m' hm').preceding
  · refine ⟨fun m' hm' htaken' _ => ⟨m', hm', rfl, rfl, htaken'⟩, fun m' hm' _ hne x hx hx' => ?_,
      fun _ => .inl⟩
    have hne : m ≠ m' := by
      rintro rfl
      exact hne rfl
    have := hh.geometry.disjoint hm hm' hne
    exact hmem x (by omega)

end Holds

end Heap

end GreenboneFeeder.Mm
