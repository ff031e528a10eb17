import GreenboneFeeder.Mm.Alloc
import Mathlib.Data.List.Range

/-!
# Regions

`mm_initialize` makes a heap without chunks and adds a region to it; `mm_addregion` adds more of
them.

A stretch of memory can be added if it has room for two guards and a free chunk and is apart from
what the heap has already (`Mm.Heap.CanAdd`). Its chunks come behind those of the other regions in
the tiling, so nothing changes for the blocks that are in use (`Mm.Heap.addRegion_spec`).
-/

namespace GreenboneFeeder.Mm

open List

open Tiling

namespace Heap

variable {coarse : Bool} {L W : Set ℕ} {h h' : Heap} {σ σ' before after : List Region} {r : Region}
  {z : Site} {chunks init : List Piece} {c : Piece} {m : Placed} {a i n s size lo hi : ℕ}
  {mem : Bytes}

/-! ### Memory that is new to the heap -/

/-- **The regions change** by a stretch of memory without chunks of the list. The headers in it are
written, the others are as they were. -/
theorem Holds.rewrite (hh : Holds coarse h σ L) (hnodelist : h'.nodelist = h.nodelist)
    (hmem : ∀ x, x < lo ∨ hi ≤ x → h'.mem x = h.mem x)
    (harray : hi ≤ h.nodelist ∨ h.nodelist + 16 * nnodes ≤ lo)
    (hgeometry : Geometry coarse h.nodelist σ') (hheapstart : h'.heapstart = σ'.map Region.base)
    (hheapend : h'.heapend = σ'.map fun r => r.limit - 8) (hold : ∀ m ∈ placed σ, m.taken = false →
      m ∈ placed σ' ∧ (m.addr + m.size ≤ lo ∨ hi ≤ m.addr))
    (hnew : ∀ m ∈ placed σ', (m ∈ placed σ ∧ (m.addr + m.size ≤ lo ∨ hi ≤ m.addr)) ∨ HeadOf h' m) :
    Holds coarse h' σ' L := by
  obtain ⟨bins, hlist, hiff⟩ := hh.list
  have hget : ∀ (a : ℕ) (f : Field), a + f.offset + 4 ≤ lo ∨ hi ≤ a + f.offset →
      h'.get a f = h.get a f := fun a f ha => get_congr fun x hx hx' => hmem x (by omega)
  have hfields : ∀ a ∈ nodes h.nodelist bins, ∀ f, h'.get a f = h.get a f := by
    intro a ha f
    have hoff := f.offset_le
    refine hget a f ?_
    rcases mem_nodes_cases hh.geometry hiff hh.listed ha with ha | ⟨m, hm, rfl, hfree, hsize, -⟩
    · omega
    · have := (hold m hm hfree).2
      omega
  refine ⟨⟨bins, ?_, hiff⟩, fun m hm => ?_, ?_, fun a ha => ?_, hheapstart, hheapend⟩
  · exact hlist.congr hnodelist (fun a ha => hfields a ha _) (fun a ha => hfields a ha _)
      fun a ha => hfields a ha _
  · rcases hnew m hm with ⟨hm', hside⟩ | hhead
    · have height := (hh.geometry.located hm').eight_le
      refine ⟨?_, ?_⟩
      · rw [hget _ _ (by simp only [Field.offset]; omega)]
        exact (hh.heads m hm').size
      · rw [hget _ _ (by simp only [Field.offset]; omega)]
        exact (hh.heads m hm').preceding
    · exact hhead
  · rw [hnodelist]
    exact hgeometry
  · obtain ⟨m, hm, haddr, hfree⟩ := hh.listed a ha
    exact ⟨m, (hold m hm hfree).1, haddr, hfree⟩

/-! ### A heap without regions -/

theorem linkHeaders_spec (count : ℕ) (hi : 1 ≤ i) (hcount : i + count ≤ nnodes)
    (harray : h.nodelist + 16 * nnodes ≤ 2 ^ 32) :
    LinksOnly ((range nnodes).map h.header) h (h.linkHeaders count i) ∧
      ∀ j < nnodes, ∀ f, (h.linkHeaders count i).get (h.header j) f =
        if f = .flink ∧ i ≤ j + 1 ∧ j + 1 < i + count then h.header (j + 1)
        else if f = .blink ∧ i ≤ j ∧ j < i + count then h.header (j - 1)
        else h.get (h.header j) f := by
  induction count generalizing h i with
  | zero =>
    refine ⟨.refl _ h, fun j hj f => ?_⟩
    rw [if_neg (by omega), if_neg (by omega)]
    rfl
  | succ count ih =>
    have hheader : ∀ k, h.header k = h.nodelist + 16 * k := fun k => rfl
    have hspaced : ∀ j k, Spaced (h.header j) (h.header k) := by
      intro j k
      rw [hheader, hheader]
      unfold Spaced
      omega
    have heq : ∀ j k, h.header j = h.header k ↔ j = k := by
      intro j k
      rw [hheader, hheader]
      omega
    have hlt : ∀ k < nnodes, h.header k % 2 ^ 32 = h.header k := by
      intro k hk
      rw [hheader]
      omega
    obtain ⟨honly, hget⟩ := ih (h := (h.set (h.header (i - 1)) .flink (h.header i)).set (h.header i)
      .blink (h.header (i - 1))) (i := i + 1) (by omega) (by omega) harray
    have hmem : ∀ k < nnodes, h.header k ∈ (range nnodes).map h.header := fun k hk =>
      mem_map_of_mem (mem_range.mpr hk)
    refine ⟨(LinksOnly.trans (.set (hmem (i - 1) (by omega)) (.inl rfl) _)
      (.set (hmem i (by omega)) (.inr rfl) _)).trans honly, fun j hj f => ?_⟩
    rw [linkHeaders]
    have hstep := hget j hj f
    have hsame : ((h.set (h.header (i - 1)) .flink (h.header i)).set (h.header i) .blink
        (h.header (i - 1))).header = h.header := rfl
    rw [hsame] at hstep
    rw [hstep, get_set (hspaced j i), get_set (hspaced j (i - 1)), hlt _ (by omega),
      hlt _ (by omega)]
    simp only [heq]
    cases f with
    | size | preceding => simp
    | flink =>
      rcases Nat.lt_trichotomy (j + 1) i with hj | rfl | hj
      · simp only [true_and, false_and, and_false, reduceCtorEq, if_false, and_true]
        rw [if_neg (by omega), if_neg (by omega), if_neg (by omega)]
      · simp
      · simp only [true_and]
        by_cases hend : j + 1 < i + (count + 1)
        · rw [if_pos (by omega), if_pos (by omega)]
        · rw [if_neg (by omega), if_neg (by simp), if_neg (by simp), if_neg (by omega),
            if_neg (by omega),
            if_neg (by simp)]
    | blink =>
      rcases Nat.lt_trichotomy j i with hj | rfl | hj
      · simp only [true_and, false_and, and_false, reduceCtorEq, if_false, and_true]
        rw [if_neg (by omega), if_neg (by omega), if_neg (by omega)]
      · simp
      · simp only [true_and, false_and, and_false, reduceCtorEq, if_false, and_true]
        by_cases hend : j < i + (count + 1)
        · rw [if_pos (by omega), if_pos (by omega)]
        · rw [if_neg (by omega), if_neg (by omega), if_neg (by omega)]

/-- **A heap without regions.** -/
theorem prepare_spec (hpos : 0 < n)
    (harray : n + 16 * nnodes ≤ 2 ^ 32) :
    Represents coarse (prepare mem n) [] ∧ (prepare mem n).heapsize = 0 := by
  set h : Heap := ⟨mem.clear n (sizeofFreeNode * nnodes), n, 0, [], [], []⟩ with hh
  obtain ⟨honly, hget⟩ := linkHeaders_spec (h := h) (nnodes - 1) (Nat.le_refl 1)
    (by decide) harray
  have hprepare : prepare mem n = h.linkHeaders (nnodes - 1) 1 := rfl
  rw [← hprepare] at honly hget
  have hsame := honly.same
  have hnodes : nodes n (fun _ => []) = (range nnodes).map h.header :=
    (map_eq_flatMap ..).symm
  have hheader : ∀ k, h.header k = n + 16 * k := fun k => rfl
  have hnodelist : (prepare mem n).nodelist = n := honly.nodelist
  have hclear : ∀ j < nnodes, ∀ f, h.get (h.header j) f = 0 := by
    intro j hj f
    have hoff := f.offset_le
    refine Bytes.load_clear ?_ ?_
    · rw [hheader]
      omega
    · rw [hheader, sizeofFreeNode]
      omega
  have hlist : FreeList (prepare mem n) fun _ => [] := by
    refine ⟨?_, ?_, fun i hi => ?_, fun i _ a ha => absurd ha not_mem_nil, fun i _ => .nil⟩
    · rw [hnodelist, hnodes]
      refine ⟨(isChain_map h.header).mpr ((isChain_range _ _).mpr fun j hj => ⟨?_, ?_⟩), ?_⟩
      · rw [hget j (by omega), if_pos ⟨rfl, by omega, by omega⟩]
      · rw [hget (j + 1) (by omega), if_neg (by simp), if_pos ⟨rfl, by omega, by omega⟩]
        rfl
      · intro a ha
        obtain rfl : h.header (nnodes - 1) = a := Option.some.inj ha
        rw [hget (nnodes - 1) (by decide)]
        exact hclear _ (by decide) _
    · rw [hnodelist, hnodes]
      refine ⟨fun a ha b hb => ?_, fun a ha => ?_, ?_⟩
      · obtain ⟨j, -, rfl⟩ := mem_map.mp ha
        obtain ⟨k, -, rfl⟩ := mem_map.mp hb
        rw [hheader, hheader]
        unfold Spaced
        omega
      · obtain ⟨j, hj, rfl⟩ := mem_map.mp ha
        have := mem_range.mp hj
        rw [hheader]
        omega
      · refine nodup_range.map fun j k hjk => ?_
        rw [hheader, hheader] at hjk
        omega
    · have hsize := hget i hi .size
      rw [if_neg (by simp), if_neg (by simp), hclear i hi] at hsize
      rw [← hsize]
      rfl
  refine ⟨⟨⟨⟨_, hlist, fun a => ?_⟩, fun m hm => absurd hm not_mem_nil,
    ⟨by exact ⟨hpos, harray⟩, by simp, by simp, by simp⟩, ?_, ?_, ?_⟩, by simp [Separated]⟩,
    by rw [hsame]⟩
  · simp [freeAddrs, placed]
  · rintro a ⟨m, hm, -⟩
    exact absurd hm not_mem_nil
  · rfl
  · rfl

/-! ### Adding a region -/

/-- **A stretch of memory that can be added to the heap.** It has room for two guards and a free
chunk, its size can be written next to the flag, and it is apart from the other regions and from
`mm_nodelist`. -/
structure CanAdd (h : Heap) (start size : ℕ) : Prop where
  start_lt : start + 15 < 2 ^ 32
  end_lt : start + size < 2 ^ 32
  large : (start + 15) / 16 * 16 + 32 ≤ (start + size) / 16 * 16
  small : (start + size) / 16 * 16 < (start + 15) / 16 * 16 + 2 ^ 31 + 16
  array : (start + size) / 16 * 16 ≤ h.nodelist ∨ h.nodelist + 16 * nnodes ≤ (start + 15) / 16 * 16
  apart : ∀ p ∈ h.heapstart.zip h.heapend,
    p.2 + 8 ≤ (start + 15) / 16 * 16 ∨ (start + size) / 16 * 16 ≤ p.1

instance (h : Heap) (start size : ℕ) : Decidable (h.CanAdd start size) :=
  decidable_of_iff (_ ∧ _ ∧ _ ∧ _ ∧ _ ∧ _)
    ⟨fun ⟨h₁, h₂, h₃, h₄, h₅, h₆⟩ => ⟨h₁, h₂, h₃, h₄, h₅, h₆⟩,
      fun ⟨h₁, h₂, h₃, h₄, h₅, h₆⟩ => ⟨h₁, h₂, h₃, h₄, h₅, h₆⟩⟩

/-- The region that is added: a free chunk between two guards. -/
def newRegion (start size : ℕ) : Region :=
  ⟨(start + 15) / 16 * 16, [guard,
    ⟨(start + size) / 16 * 16 - (start + 15) / 16 * 16 - 16, false⟩, guard]⟩

variable (hadd : CanAdd h a size)

include hadd

theorem CanAdd.limit_newRegion :
    (newRegion a size).limit = (a + size) / 16 * 16 := by
  have hlarge := hadd.large
  rw [Region.limit, newRegion]
  simp only [total_cons, total_nil, guard]
  omega

theorem CanAdd.apart_region (hr : Represents coarse h σ) (hmem : r ∈ σ) :
    r.limit ≤ (newRegion a size).base ∨ (newRegion a size).limit ≤ r.base := by
  have hzip : (r.base, r.limit - 8) ∈ h.heapstart.zip h.heapend := by
    rw [hr.holds.heapstart, hr.holds.heapend, zip_map']
    exact mem_map_of_mem hmem
  have := hadd.apart _ hzip
  rw [hadd.limit_newRegion]
  dsimp only [newRegion] at this ⊢
  omega

theorem CanAdd.valid : (newRegion a size).Valid coarse := by
  have hlarge := hadd.large
  have hsmall := hadd.small
  have hend := hadd.end_lt
  refine ⟨⟨[⟨(a + size) / 16 * 16 - (a + 15) / 16 * 16 - 16, false⟩], rfl, fun c hc => ?_⟩, ?_,
    ?_, ?_⟩
  · rw [mem_singleton.mp hc]
    exact ⟨by dsimp only; omega, by dsimp only; omega, fun _ => by dsimp only; omega⟩
  · dsimp only [newRegion]
    omega
  · simp only [newRegion, total_cons, total_nil, guard]
    omega
  · rw [hadd.limit_newRegion]
    omega

theorem CanAdd.geometry (hr : Represents coarse h σ) :
    Geometry coarse h.nodelist (σ ++ [newRegion a size]) := by
  have hg := hr.holds.geometry
  refine ⟨hg.array, fun r hr' => ?_, ?_, fun r hr' => ?_⟩
  · rcases mem_append.mp hr' with hr' | hr'
    · exact hg.valid r hr'
    · rw [mem_singleton.mp hr']
      exact hadd.valid
  · rw [pairwise_append]
    refine ⟨hg.apart, pairwise_singleton _ _, fun r hr' s hs => ?_⟩
    rw [mem_singleton.mp hs]
    exact hadd.apart_region hr hr'
  · rcases mem_append.mp hr' with hr' | hr'
    · exact hg.clear r hr'
    · rw [mem_singleton.mp hr', hadd.limit_newRegion]
      exact hadd.array

omit hadd

/-- **`mm_addregion`** adds a free chunk between two guards. -/
theorem addRegion_spec (hr : Represents coarse h σ) (hadd : CanAdd h a size) :
    ∃ h', h.addRegion a size = some h' ∧ Represents coarse h' (σ ++ [newRegion a size]) ∧
      h'.heapsize = add32 h.heapsize ((a + size) / 16 * 16 - (a + 15) / 16 * 16) ∧
      Evolves ∅ h σ h' (σ ++ [newRegion a size]) := by
  have hlarge := hadd.large
  have hsmall := hadd.small
  have hend := hadd.end_lt
  have hstart := hadd.start_lt
  have hlimit := hadd.limit_newRegion
  have hgeometry := hadd.geometry hr
  have hregion := fun r hr' => hadd.apart_region (r := r) hr hr'
  have harray := hadd.array
  have hbase : alignUp a = (a + 15) / 16 * 16 := alignUp_of_lt hstart
  have hlast : alignDown (add32 a size) = (a + size) / 16 * 16 := by
    rw [add32_of_lt hend, alignDown_eq hend]
  have hdef : newRegion a size = ⟨(a + 15) / 16 * 16, [guard,
    ⟨(a + size) / 16 * 16 - (a + 15) / 16 * 16 - 16, false⟩, guard]⟩ := rfl
  rw [addRegion, hbase, hlast, sizeofAllocNode, sub32_of_le (by omega) (by omega),
    sub32_of_le (by omega) (by omega), sub32_of_le (by omega) (by omega)]
  generalize (a + size) / 16 * 16 = lim at *
  generalize (a + 15) / 16 * 16 = base at *
  obtain ⟨s, rfl⟩ : ∃ s, lim = base + (s + 16) := ⟨lim - base - 16, by omega⟩
  rw [show base + (s + 16) - base - 16 = s by omega] at hdef
  rw [show
    base + (s + 16) - base = s + 16 by omega, show base + (s + 16) - 8 = base + (s + 8) by omega,
    show s + 16 - 2 * 8 = s by omega]
  set h₁ : Heap := (({ h with
      heapsize := add32 h.heapsize (s + 16)
      heapstart := h.heapstart ++ [base]
      heapend := h.heapend ++ [base + (s + 8)] } : Heap).set base .size 8).set base .preceding
    allocBit with hh₁
  set h₂ := ((h₁.set (base + 8) .size s).set (base + 8) .preceding 8).set (base + (s + 8)) .size 8
    with hh₂
  have hread : h₂.get (base + 8) .size = s := by
    simp (disch := omega) [h₂]
  rw [hread]
  set h₃ := h₂.set (base + (s + 8)) .preceding (s ||| allocBit) with hh₃
  have hmem : ∀ x, x < base ∨ base + (s + 16) ≤ x → h₃.mem x = h.mem x := by
    intro x hx
    iterate 6 rw [mem_set_of_outside (by simp only [Field.offset]; omega)]
  have hnodes : (newRegion a size).nodes =
      [⟨base, 8, 0, true⟩, ⟨base + 8, s, 8, false⟩, ⟨base + 8 + s, 8, s, true⟩] := by
    rw [hdef]
    rfl
  have hplaced : placed (σ ++ [newRegion a size]) = placed σ ++ (newRegion a size).nodes := by
    rw [placed, flatMap_append]
    rfl
  have hout : ∀ m ∈ placed σ, m.addr + m.size ≤ base ∨ base + (s + 16) ≤ m.addr := by
    intro m hm
    obtain ⟨r, hr', hm⟩ := mem_flatMap.mp hm
    have hbounds := bounds_of_mem_place hm
    have hside := hregion r hr'
    rw [hlimit, hdef] at hside
    rw [Region.limit] at hside
    dsimp only at hside
    omega
  have hholds : Holds coarse h₃ (σ ++ [newRegion a size]) (freeAddrs σ) := by
    refine hr.holds.rewrite rfl hmem harray hgeometry ?_ ?_ (fun m hm _ => ⟨?_, hout m hm⟩) fun m
      hm => ?_
    · change h.heapstart ++ [base] = _
      rw [hr.holds.heapstart, map_append, hdef]
      rfl
    · change h.heapend ++ [base + (s + 8)] = _
      rw [hr.holds.heapend, map_append, map_singleton, hlimit]
      rfl
    · rw [hplaced]
      exact mem_append_left _ hm
    · rw [hplaced, hnodes] at hm
      rcases mem_append.mp hm with hm | hm
      · exact .inl ⟨hm, hout m hm⟩
      · refine .inr ?_
        simp only [mem_cons, not_mem_nil, or_false] at hm
        rcases hm with rfl | rfl | rfl <;> constructor <;> dsimp only <;>
          simp (disch := omega) only [h₃, h₂, h₁, Nat.add_assoc, Nat.add_comm 8 s, get_set_self,
            get_size_set_size, get_size_set_preceding, get_preceding_set_size,
            get_preceding_set_preceding, or_allocBit, tagged_mod, tagged_false, Nat.mod_eq_of_lt]
        rfl
  have hevolves : Evolves ∅ h σ h₃ (σ ++ [newRegion a size]) := by
    refine ⟨fun m hm htaken _ => ⟨m, ?_, rfl, rfl, htaken⟩, fun m hm _ _ x hx hx' => ?_, fun t ht =>
      .inl ht⟩
    · rw [hplaced]
      exact mem_append_left _ hm
    · have := hout m hm
      exact hmem x (by omega)
  -- the chunk between the guards is put into the list
  have hchunk : (⟨base + 8, s, 8, false⟩ : Placed) ∈ placed (σ ++ [newRegion a size]) := by
    rw [hplaced, hnodes]
    exact mem_append_right _ (mem_cons_of_mem _ mem_cons_self)
  have hnew : base + 8 ∉ freeAddrs σ := by
    rintro ⟨m, hm, haddr, -⟩
    have hside := hout m hm
    omega
  obtain ⟨h', hcode, hholds', hsame, hevolves'⟩ := hholds.add hchunk rfl hnew
  refine ⟨h', hcode, ⟨?_, ?_⟩, hsame.heapsize, hevolves.trans hevolves'⟩
  · have hfrees : freeAddrs (σ ++ [newRegion a size]) = insert (base + 8) (freeAddrs σ) := by
      rw [freeAddrs, hplaced, hnodes, freeAt_append, freeAt_cons_taken rfl, freeAt_cons_free rfl,
        freeAt_cons_taken rfl, freeAt_nil, Set.union_insert, Set.union_empty]
      rfl
    rw [hfrees]
    exact hholds'
  · intro r hr'
    rcases mem_append.mp hr' with hr' | hr'
    · exact hr.separated r hr'
    · rw [mem_singleton.mp hr', hdef]
      simp [guard]

/-- **`mm_initialize`** makes a heap with one region. -/
theorem mmInitialize_spec (coarse : Bool) (hpos : 0 < n) (harray : n + 16 * nnodes ≤ 2 ^ 32)
    (hadd : CanAdd ⟨mem, n, 0, [], [], []⟩ a size) :
    ∃ h', mmInitialize mem n a size = some h' ∧ Represents coarse h' [newRegion a size] ∧
      h'.heapsize = (a + size) / 16 * 16 - (a + 15) / 16 * 16 ∧ ∀ s ∈ h'.passed, 16 ≤ s := by
  obtain ⟨hr, hheapsize⟩ := prepare_spec hpos harray
  have hadd' : CanAdd (prepare mem n) a size := by
    refine { hadd with array := ?_, apart := ?_ }
    · exact hadd.array
    · intro p hp
      exact absurd hp not_mem_nil
  obtain ⟨h', hcode, hr', hheapsize', hevolves⟩ := addRegion_spec hr hadd'
  have hend := hadd.end_lt
  refine ⟨h', hcode, hr', ?_, fun s hs => ?_⟩
  · rw [hheapsize', hheapsize, add32_of_lt (by omega), Nat.zero_add]
  · refine (hevolves.passed s hs).resolve_left ?_
    exact not_mem_nil

end Heap

end GreenboneFeeder.Mm
