import GreenboneFeeder.Mm.Align
import GreenboneFeeder.Mm.Regions

/-!
# Programs that use the heap

A program calls the memory manager and writes to the blocks that it has been given, which are kept
beside the heap with the sizes that were asked for. Every call that is permitted returns, and keeps
the tiling and the blocks (`Mm.System.call_spec`). It is permitted if it is a proper use of the
memory manager and none of its sizes wraps when it is rounded; where chunks are not multiples of 16
bytes, `mm_realloc` has to leave enough of the neighbours as well. It does so in a tidy call
(`Mm.System.Holding.permitted_of_tidy`), which is a condition on the sizes of the chunks before the
call.
-/

namespace GreenboneFeeder.Mm

open Tiling List Heap

/-- What a program does. -/
inductive Call where
  | addRegion (start size : ℕ)
  | malloc (size : ℕ)
  | free (mem : ℕ)
  | realloc (mem size : ℕ)
  | calloc (n elemSize : ℕ)
  | memalign (alignment size : ℕ)
  | write (addr : ℕ) (byte : UInt8)

/-- The block that is passed to a call. -/
def Call.target : Call → Option ℕ
  | .free mem => some mem
  | .realloc mem _ => some mem
  | _ => none

/-- The number of bytes that are asked for in a call. -/
def Call.request : Call → ℕ
  | .malloc size => size
  | .realloc _ size => size
  | .calloc n elemSize => n * elemSize
  | .memalign _ size => size
  | _ => 0

/-- A block is aligned to more than 16 bytes. -/
def Call.Aligns : Call → Prop
  | .memalign alignment _ => 16 < alignment
  | _ => False

/-- A heap, and the blocks in use with the sizes that were asked for. -/
structure System where
  heap : Heap
  live : List (ℕ × ℕ)

namespace System

/-- A block is used from now on, unless it is `NULL`. -/
def push (p n : ℕ) (live : List (ℕ × ℕ)) : List (ℕ × ℕ) := if p = 0 then live else (p, n) :: live

/-- A block is not used any more. -/
def drop (p : ℕ) (live : List (ℕ × ℕ)) : List (ℕ × ℕ) := live.filter fun b => b.1 ≠ p

/-- **A call**, with its result. -/
def call (s : System) : Call → Option (System × ℕ)
  | .addRegion start size => (s.heap.addRegion start size).map fun h => (⟨h, s.live⟩, 0)
  | .malloc size => (s.heap.malloc size).map fun x => (⟨x.1, push x.2 size s.live⟩, x.2)
  | .free mem => (s.heap.free mem).map fun h => (⟨h, drop mem s.live⟩, 0)
  | .realloc mem size => (s.heap.realloc mem size).map fun x =>
      (⟨x.1, if size = 0 ∨ x.2 ≠ 0 then push x.2 size (drop mem s.live) else s.live⟩, x.2)
  | .calloc n elemSize =>
      (s.heap.calloc n elemSize).map fun x => (⟨x.1, push x.2 (n * elemSize) s.live⟩, x.2)
  | .memalign alignment size =>
      (s.heap.memalign alignment size).map fun x => (⟨x.1, push x.2 size s.live⟩, x.2)
  | .write addr byte => some (⟨{ s.heap with mem := s.heap.mem.write addr byte }, s.live⟩, 0)

/-- `NULL`, or a block in use. -/
def Owns (s : System) (p : ℕ) : Prop := p = 0 ∨ p ∈ s.live.map Prod.fst

/-- **The calls that are permitted.** The chunks of a coarse heap are multiples of 16 bytes. -/
def Permitted (coarse : Bool) (s : System) : Call → Prop
  | .addRegion start size => s.heap.CanAdd start size
  | .malloc size => size + 23 < 2 ^ 32
  | .free mem => s.Owns mem
  | .realloc mem size => s.Owns mem ∧ size + 23 < 2 ^ 32 ∧ (mem ≠ 0 → size + 39 < 2 ^ 32 ∧
      (coarse = false → s.heap.LeavesRoom mem size))
  | .calloc n elemSize => n * elemSize + 23 < 2 ^ 32
  | .memalign alignment size => (∃ k, alignment = 2 ^ k) ∧ size + 23 < 2 ^ 32 ∧ (16 < alignment →
      coarse = false ∧ 0 < size ∧ (size + 15) / 16 * 16 + 2 * alignment + 23 < 2 ^ 32)
  | .write addr _ => ∃ b ∈ s.live, b.1 ≤ addr ∧ addr < b.1 + b.2

/-- **The tidy calls**: they are permitted, where `mm_realloc` finds even chunks if there may be
others. -/
def Tidy (coarse : Bool) (s : System) : Call → Prop
  | .realloc mem size => s.Owns mem ∧ size + 23 < 2 ^ 32 ∧ (mem ≠ 0 → size + 39 < 2 ^ 32 ∧
      (coarse = false → s.heap.Even mem size))
  | c => s.Permitted coarse c

instance (s : System) (p : ℕ) : Decidable (s.Owns p) := inferInstanceAs (Decidable (_ ∨ _))

instance (coarse : Bool) (s : System) (c : Call) : Decidable (s.Permitted coarse c) :=
  match c with
  | .addRegion start size => inferInstanceAs (Decidable (s.heap.CanAdd start size))
  | .malloc size => inferInstanceAs (Decidable (size + 23 < 2 ^ 32))
  | .free mem => inferInstanceAs (Decidable (s.Owns mem))
  | .realloc _ _ => inferInstanceAs (Decidable (_ ∧ _ ∧ (_ → _ ∧ (_ → _))))
  | .calloc n elemSize => inferInstanceAs (Decidable (n * elemSize + 23 < 2 ^ 32))
  | .memalign alignment _ => inferInstanceAs (Decidable (alignment.isPowerOfTwo ∧ _ ∧ (_ → _)))
  | .write _ _ => inferInstanceAs (Decidable (∃ b ∈ s.live, _))

instance (coarse : Bool) (s : System) (c : Call) : Decidable (s.Tidy coarse c) :=
  match c with
  | .realloc _ _ => inferInstanceAs (Decidable (_ ∧ _ ∧ (_ → _ ∧ (_ → _))))
  | .addRegion start size =>
    inferInstanceAs (Decidable (s.Permitted coarse (.addRegion start size)))
  | .malloc size => inferInstanceAs (Decidable (s.Permitted coarse (.malloc size)))
  | .free mem => inferInstanceAs (Decidable (s.Permitted coarse (.free mem)))
  | .calloc n elemSize => inferInstanceAs (Decidable (s.Permitted coarse (.calloc n elemSize)))
  | .memalign alignment size =>
    inferInstanceAs (Decidable (s.Permitted coarse (.memalign alignment size)))
  | .write addr byte => inferInstanceAs (Decidable (s.Permitted coarse (.write addr byte)))

/-! ### The blocks are chunks -/

/-- A block is in an allocated chunk. -/
def IsBlock (σ : List Region) (b : ℕ × ℕ) : Prop :=
  0 < b.2 ∧ ∃ m ∈ placed σ, m.taken = true ∧ b.1 = m.addr + 8 ∧ b.2 + 8 ≤ m.size

/-- **What holds between two calls.** -/
structure Holding (coarse : Bool) (s : System) (σ : List Region) : Prop where
  represents : s.heap.Represents coarse σ
  blocks : ∀ b ∈ s.live, IsBlock σ b
  nodup : (s.live.map Prod.fst).Nodup
  passed : ∀ t ∈ s.heap.passed, 16 ≤ t

variable {coarse coarse' : Bool} {s s' : System} {σ σ' : List Region} {h' : Heap} {W : Set ℕ}
  {b : ℕ × ℕ} {live : List (ℕ × ℕ)} {m : Placed} {p n x : ℕ} {c : Call} {cs : List Call}

namespace Holding

section

variable (hs : Holding coarse s σ)

include hs

theorem exists_chunk (hb : b ∈ s.live) :
    ∃ m ∈ placed σ, m.taken = true ∧ b.1 = m.addr + 8 ∧ b.2 + 8 ≤ m.size ∧ 16 ≤ m.size := by
  obtain ⟨hpos, m, hm, htaken, haddr, hle⟩ := hs.blocks b hb
  refine ⟨m, hm, htaken, haddr, hle, ?_⟩
  obtain ⟨⟨base, l⟩, hr, hplace⟩ := mem_flatMap.mp hm
  rcases Geometry.piece_cases (hs.represents.holds.geometry.valid _ hr)
    (piece_of_mem_place hplace) with
    hguard | hchunk
  · have : m.size = 8 := congrArg Piece.size hguard
    omega
  · exact hchunk.le

theorem keep (hr : h'.Represents coarse' σ')
    (he : Heap.Evolves W s.heap σ h' σ') (hsub : live.Sublist s.live)
    (hW : ∀ b ∈ live, ∀ m ∈ placed σ, m.taken = true → b.1 = m.addr + 8 → b.2 + 8 ≤ m.size →
      m.addr ∉ W) :
    Holding coarse' ⟨h', live⟩ σ' := by
  refine ⟨hr, fun b hb => ?_, hs.nodup.sublist (hsub.map _), fun t ht => ?_⟩
  · obtain ⟨hpos, m, hm, htaken, haddr, hle⟩ := hs.blocks b (hsub.subset hb)
    obtain ⟨m', hm', haddr', hsize', htaken'⟩ :=
      he.stays m hm htaken (hW b hb m hm htaken haddr hle)
    exact ⟨hpos, m', hm', htaken', by rw [haddr', haddr], by rw [hsize']; exact hle⟩
  · rcases he.passed t ht with ht | ht
    · exact hs.passed t ht
    · exact ht

/-- **A new block.** -/
theorem grant (hg : Heap.Grants coarse' W s.heap σ h' σ' m) (hsub : live.Sublist s.live)
    (hW : ∀ b ∈ live, ∀ m ∈ placed σ, m.taken = true → b.1 = m.addr + 8 → b.2 + 8 ≤ m.size →
      m.addr ∉ W) (hn : 0 < n) (hle : n + 8 ≤ m.size) :
    Holding coarse' ⟨h', push (m.addr + 8) n live⟩ σ' := by
  have hkeep := hs.keep hg.represents hg.evolves hsub hW
  rw [push, if_neg (by omega)]
  refine ⟨hg.represents, fun b hb => ?_, ?_, hkeep.passed⟩
  · rcases mem_cons.mp hb with rfl | hb
    · exact ⟨hn, m, hg.mem, hg.taken, rfl, hle⟩
    · exact hkeep.blocks b hb
  · rw [map_cons, nodup_cons]
    refine ⟨fun hmem => ?_, hkeep.nodup⟩
    obtain ⟨b, hb, haddr⟩ := mem_map.mp hmem
    obtain ⟨-, m₀, hm₀, htaken, haddr₀, hle₀⟩ := hs.blocks b (hsub.subset hb)
    have := hg.fresh m₀ hm₀ htaken (hW b hb m₀ hm₀ htaken haddr₀ hle₀)
    omega

theorem bytes (he : Heap.Evolves W s.heap σ h' σ') (hb : b ∈ s.live)
    (hW : ∀ m ∈ placed σ, m.taken = true → b.1 = m.addr + 8 → b.2 + 8 ≤ m.size → m.addr ∉ W)
    (hlow : b.1 ≤ x) (hhigh : x < b.1 + b.2) : h'.mem x = s.heap.mem x := by
  obtain ⟨-, m, hm, htaken, haddr, hle⟩ := hs.blocks b hb
  exact he.bytes m hm htaken (hW m hm htaken haddr hle) x (by omega) (by omega)

theorem ne_zero (hb : b ∈ s.live) : b.1 ≠ 0 := by
  obtain ⟨-, m, -, -, haddr, -⟩ := hs.blocks b hb
  omega

theorem drop_zero : drop 0 s.live = s.live :=
  filter_eq_self.mpr fun _ hb => decide_eq_true (hs.ne_zero hb)

/-- **The chunk of a block that is passed to a call.** -/
theorem exists_site (hp : s.Owns p) (hne : p ≠ 0) :
    ∃ (z : Site) (t n : ℕ), σ = z.fill [⟨t, true⟩] ∧ z.Inner ∧ p = z.addr + 8 ∧ (p, n) ∈ s.live ∧
      n + 8 ≤ t ∧ ∀ b ∈ s.live, b.1 ≠ p → ∀ m ∈ placed σ, m.taken = true → b.1 = m.addr + 8 →
        b.2 + 8 ≤ m.size → m.addr ∉ ({z.addr} : Set ℕ) := by
  obtain ⟨⟨p', n⟩, hb, rfl⟩ := mem_map.mp (hp.resolve_left hne)
  obtain ⟨m, hm, htaken, haddr, hle, hsize⟩ := hs.exists_chunk hb
  obtain ⟨z, hσ, hz, hinner⟩ := hs.represents.holds.geometry.exists_site hm (.inr hsize)
  rw [htaken] at hσ
  refine ⟨z, m.size, n, hσ, hinner, by rw [hz, haddr], hb, hle, ?_⟩
  rintro b - hne m₀ - - haddr₀ - (hmem : m₀.addr = z.addr)
  omega

/-- **A tidy call is permitted.** -/
theorem permitted_of_tidy (hc : s.Tidy coarse c) : s.Permitted coarse c := by
  cases c with
  | realloc mem size =>
    obtain ⟨howns, hwrap, hlarge⟩ := hc
    refine ⟨howns, hwrap, fun hne => ⟨(hlarge hne).1, fun hcoarse => ?_⟩⟩
    obtain ⟨z, t, n, rfl, hinner, rfl, -⟩ := hs.exists_site howns hne
    have ho := Opened.of_taken hs.represents hinner
    obtain ⟨c, r, hright⟩ := ho.exists_right
    obtain ⟨l, d, hleft⟩ := ho.exists_left
    exact ho.leavesRoom_of_even hleft hright hwrap ((hlarge hne).2 hcoarse)
  | _ => exact hc

end

end Holding

/-! ### What a call does to the blocks -/

/-- **A call leaves the other blocks alone**, and returns. -/
structure Done (coarse : Bool) (s : System) (c : Call) (s' : System) (σ' : List Region) : Prop where
  holding : Holding coarse s' σ'
  stays : ∀ b ∈ s.live, c.target ≠ some b.1 → b ∈ s'.live
  bytes : ∀ b ∈ s.live, c.target ≠ some b.1 → ∀ x, b.1 ≤ x → x < b.1 + b.2 →
    (∀ byte, c ≠ .write x byte) → s'.heap.mem x = s.heap.mem x
  same : (∀ start size, c ≠ .addRegion start size) → Heap.SameHeap s.heap s'.heap

theorem mem_push (hb : b ∈ live) : b ∈ push p n live := by
  rw [push]
  split
  · exact hb
  · exact mem_cons_of_mem _ hb

theorem mem_drop : b ∈ drop p live ↔ b ∈ live ∧ b.1 ≠ p := by
  rw [drop, mem_filter, decide_eq_true_iff]

theorem drop_sublist : (drop p live).Sublist live := filter_sublist

section

variable (hs : Holding coarse s σ)

include hs

theorem Done.of_grants (hg : Heap.Grants coarse ∅ s.heap σ h' σ' m)
    (hn : 0 < n) (hle : n + 8 ≤ m.size) :
    Done coarse s c ⟨h', push (m.addr + 8) n s.live⟩ σ' := by
  refine ⟨hs.grant hg (.refl _) (fun _ _ _ _ _ _ _ => Set.notMem_empty _) hn hle, fun b hb _ => ?_,
    fun b hb _ x hlow hhigh _ => ?_, fun _ => hg.same⟩
  · dsimp only
    exact mem_push hb
  · exact hs.bytes hg.evolves hb (fun _ _ _ _ _ => Set.notMem_empty _) hlow hhigh

theorem Done.null : Done coarse s c ⟨s.heap, push 0 n s.live⟩ σ :=
  ⟨hs, fun _ hb _ => hb, fun _ _ _ _ _ _ _ => rfl, fun _ => .refl _⟩

/-- **`mm_malloc`**, as a call. -/
theorem malloc_done (hwrap : n + 23 < 2 ^ 32) :
    ∃ h' q σ', s.heap.malloc n = some (h', q) ∧ Done coarse s c ⟨h', push q n s.live⟩ σ' := by
  obtain ⟨h', q, hcode, ⟨rfl, rfl⟩ | ⟨hn, σ', m, hg, rfl, hle⟩⟩ :=
    malloc_grants hs.represents hwrap
  · exact ⟨_, 0, σ, hcode, .null hs⟩
  · obtain ⟨-, -, hbytes⟩ := rounded_spec hn
    exact ⟨h', _, σ', hcode, .of_grants hs hg hn (by omega)⟩

/-- **`mm_free`**, as a call. -/
theorem free_done (hp : s.Owns p) (hc : c.target = some p) :
    ∃ h' σ', s.heap.free p = some h' ∧ Done coarse s c ⟨h', drop p s.live⟩ σ' := by
  have hstays : ∀ b ∈ s.live, c.target ≠ some b.1 → b ∈ drop p s.live := fun b hb hne =>
    mem_drop.mpr ⟨hb, fun heq => hne (by rw [hc, heq])⟩
  by_cases hzero : p = 0
  · subst hzero
    refine ⟨s.heap, σ, by rw [free, if_pos rfl], ?_, hstays, fun _ _ _ _ _ _ _ => rfl,
      fun _ => .refl _⟩
    exact hs.keep hs.represents (.refl ∅ s.heap σ) drop_sublist fun _ _ _ _ _ _ _ =>
      Set.notMem_empty _
  · obtain ⟨z, t, n, rfl, hinner, rfl, -, -, hothers⟩ := hs.exists_site hp hzero
    obtain ⟨h', hcode, hr, hsame, he⟩ := free_spec hs.represents hinner
    refine ⟨h', _, hcode, hs.keep hr he drop_sublist fun b hb => ?_, hstays,
      fun b hb hne x hlow hhigh _ => hs.bytes he hb (hothers b hb ?_) hlow hhigh, fun _ => hsame⟩
    · obtain ⟨hb, hne⟩ := mem_drop.mp hb
      exact hothers b hb hne
    · exact fun heq => hne (by rw [hc, heq])

/-- **`mm_realloc`**, as a call. The bytes of the block are kept, up to the new size; if there is no
room nothing changes. -/
theorem realloc_done (hp : s.Owns p) (hne : p ≠ 0) (hn : 0 < n)
    (hwrap : n + 39 < 2 ^ 32) (hroom : coarse = false → s.heap.LeavesRoom p n) :
    ∃ h' q σ', s.heap.realloc p n = some (h', q) ∧
      Done coarse s (.realloc p n)
        ⟨h', if n = 0 ∨ q ≠ 0 then push q n (drop p s.live) else s.live⟩ σ' ∧
      ((q = 0 ∧ h' = s.heap) ∨ q ≠ 0 ∧ ∃ old, (p, old) ∈ s.live ∧
        ∀ i < min old n, h'.mem (q + i) = s.heap.mem (p + i)) := by
  obtain ⟨z, t, old, rfl, hinner, rfl, hold, hle, hothers⟩ := hs.exists_site hp hne
  have hr := hs.represents
  have hroom' : s.heap.LeavesRoom (z.addr + 8) n := by
    cases coarse with
    | false => exact hroom rfl
    | true => exact leavesRoom_of_coarse hr hinner (by omega)
  obtain ⟨h', q, hcode, ⟨rfl, rfl⟩ | ⟨σ', m, hg, rfl, hsize, hbytes⟩⟩ :=
    realloc_spec hr hinner hn hwrap hroom'
  · refine ⟨_, 0, z.fill [⟨t, true⟩], hcode, ?_, .inl ⟨rfl, rfl⟩⟩
    rw [if_neg (by omega)]
    exact ⟨hs, fun _ hb _ => hb, fun _ _ _ _ _ _ _ => rfl, fun _ => .refl _⟩
  · obtain ⟨-, -, hrounded⟩ := rounded_spec hn
    refine ⟨h', _, σ', hcode, ?_, .inr ⟨by omega, old, hold, fun i hi => hbytes i (by omega)⟩⟩
    rw [if_pos (by omega)]
    refine ⟨hs.grant hg drop_sublist (fun b hb => ?_) hn (by omega), fun b hb hne => ?_,
      fun b hb hne x hlow hhigh _ => hs.bytes hg.evolves hb (hothers b hb ?_) hlow hhigh, fun _ =>
        hg.same⟩
    · obtain ⟨hb, hne⟩ := mem_drop.mp hb
      exact hothers b hb hne
    · dsimp only
      exact mem_push (mem_drop.mpr ⟨hb, fun heq => hne (by rw [heq]; rfl)⟩)
    · exact fun heq => hne (by rw [heq]; rfl)

/-- **`mm_memalign`**, as a call. -/
theorem memalign_done {k : ℕ} (hp : s.Permitted coarse (.memalign (2 ^ k) n)) :
    ∃ h' q σ', s.heap.memalign (2 ^ k) n = some (h', q) ∧
      Done coarse s (.memalign (2 ^ k) n) ⟨h', push q n s.live⟩ σ' ∧
      (16 < 2 ^ k → 2 ^ k ∣ q) := by
  obtain ⟨-, hwrap, hlarge⟩ := hp
  by_cases hal : 2 ^ k ≤ 16
  · obtain ⟨h', q, σ', hcode, hdone⟩ := malloc_done hs hwrap
    refine ⟨h', q, σ', ?_, hdone, fun hlt => absurd hal (by omega)⟩
    rw [memalign, if_pos (show 2 ^ k ≤ 1 <<< minShift from hal), hcode]
  · obtain ⟨rfl, hn, hfits⟩ := hlarge (by omega)
    have hk : 5 ≤ k := by
      by_contra hk
      have := Nat.pow_le_pow_right (n := 2) (by decide) (show k ≤ 4 by omega)
      omega
    obtain ⟨h', q, hcode, ⟨rfl, rfl⟩ | ⟨σ', m, hg, rfl, hle, hdvd⟩⟩ :=
      memalign_spec hs.represents hk hn hfits
    · exact ⟨_, 0, σ, hcode, .null hs, fun _ => Nat.dvd_zero _⟩
    · exact ⟨h', _, σ', hcode, .of_grants hs hg hn hle, fun _ => hdvd⟩

/-- **Every call that is permitted returns**, and keeps the tiling and the blocks of the others. -/
theorem call_spec (hp : s.Permitted coarse c) :
    ∃ s' q σ', s.call c = some (s', q) ∧ Done coarse s c s' σ' := by
  have hr := hs.represents
  cases c with
  | addRegion start size =>
    obtain ⟨h', hcode, hr', -, he⟩ := addRegion_spec hr hp
    refine ⟨⟨h', s.live⟩, 0, σ ++ [newRegion start size], by rw [call, hcode]; rfl, ?_,
      fun _ hb _ => hb, fun b hb _ x hlow hhigh _ =>
        hs.bytes he hb (fun _ _ _ _ _ => Set.notMem_empty _) hlow hhigh, fun hne =>
          absurd rfl (hne start size)⟩
    exact hs.keep hr' he (.refl _) fun _ _ _ _ _ _ _ => Set.notMem_empty _
  | malloc size =>
    obtain ⟨h', q, σ', hcode, hdone⟩ := malloc_done hs hp
    exact ⟨_, q, σ', by rw [call, hcode]; rfl, hdone⟩
  | free mem =>
    obtain ⟨h', σ', hcode, hdone⟩ := free_done (c := .free mem) hs hp rfl
    exact ⟨_, 0, σ', by rw [call, hcode]; rfl, hdone⟩
  | realloc mem size =>
    obtain ⟨howns, hwrap, hlarge⟩ := hp
    by_cases hzero : mem = 0
    · subst hzero
      obtain ⟨h', q, σ', hcode, hdone⟩ := malloc_done hs hwrap
      have hlive : (if size = 0 ∨ q ≠ 0 then push q size (drop 0 s.live) else s.live) =
          push q size s.live := by
        rw [hs.drop_zero]
        split
        · rfl
        · next hq => rw [push, if_pos (by omega)]
      refine ⟨_, q, σ', ?_, hdone⟩
      rw [call, realloc, if_pos rfl, hcode, Option.map_some, hlive]
    · rcases Nat.eq_zero_or_pos size with rfl | hsize
      · obtain ⟨h', σ', hcode, hdone⟩ := free_done (c := .realloc mem 0) hs howns rfl
        refine ⟨_, 0, σ', ?_, hdone⟩
        rw [call, realloc, if_neg hzero, hcode]
        rfl
      · obtain ⟨hfits, hroom⟩ := hlarge hzero
        obtain ⟨h', q, σ', hcode, hdone, -⟩ := realloc_done hs howns hzero hsize hfits hroom
        exact ⟨_, q, σ', by rw [call, hcode]; rfl, hdone⟩
  | calloc n elemSize =>
    have hp : n * elemSize + 23 < 2 ^ 32 := hp
    rw [call, calloc]
    by_cases hzero : n > 0 ∧ elemSize > 0
    · obtain ⟨h', q, hcode, ⟨rfl, rfl⟩ | ⟨hn, σ', m, hg, rfl, hle⟩⟩ := zalloc_spec hr hp
      · rw [if_pos hzero, Nat.mod_eq_of_lt (by omega), hcode]
        exact ⟨_, 0, σ, rfl, .null hs⟩
      · obtain ⟨-, -, hbytes⟩ := rounded_spec hn
        rw [if_pos hzero, Nat.mod_eq_of_lt (by omega), hcode]
        exact ⟨_, _, σ', rfl, .of_grants hs hg hn (by omega)⟩
    · rw [if_neg hzero]
      exact ⟨_, 0, σ, rfl, .null hs⟩
  | memalign alignment size =>
    obtain ⟨k, rfl⟩ := hp.1
    obtain ⟨h', q, σ', hcode, hdone, -⟩ := memalign_done hs hp
    exact ⟨_, q, σ', by rw [call, hcode]; rfl, hdone⟩
  | write addr byte =>
    obtain ⟨b, hb, hlow, hhigh⟩ := hp
    obtain ⟨m, hm, htaken, haddr, hle, -⟩ := hs.exists_chunk hb
    obtain ⟨hr', he⟩ := hr.write (s.heap.mem.write addr byte) hm htaken
      fun x hx => Bytes.write_of_ne (by omega)
    refine ⟨⟨_, s.live⟩, 0, σ, rfl, { hs with represents := hr' }, fun _ hb _ => hb,
      fun _ _ _ x _ _ hne => Bytes.write_of_ne ?_, fun _ => .write⟩
    rintro rfl
    exact hne byte rfl

end

/-! ### Runs -/

/-- **The start of a program**: a heap with one region, and no blocks. -/
def Started (s : System) : Prop :=
  s.live = [] ∧ ∃ mem n start size, 0 < n ∧ n + 16 * nnodes ≤ 2 ^ 32 ∧
    Heap.CanAdd ⟨mem, n, 0, [], [], []⟩ start size ∧ mmInitialize mem n start size = some s.heap

/-- **A run of a program**, in which every call meets a condition. -/
inductive Runs (P : System → Call → Prop) : System → List Call → System → Prop
  | nil (s : System) : Runs P s [] s
  | cons {s s₁ s₂ : System} {c : Call} {cs : List Call} {q : ℕ} (hP : P s c)
      (hcall : s.call c = some (s₁, q)) (hrest : Runs P s₁ cs s₂) : Runs P s (c :: cs) s₂

theorem Started.holding (hs : Started s) : ∃ σ, Holding coarse s σ := by
  obtain ⟨hlive, mem, n, start, size, hpos, harray, hadd, hinit⟩ := hs
  obtain ⟨h', hcode, hr, -, hpassed⟩ := mmInitialize_spec coarse hpos harray hadd
  obtain rfl : s.heap = h' := Option.some.inj (hinit.symm.trans hcode)
  refine ⟨_, hr, fun b hb => ?_, ?_, hpassed⟩
  · rw [hlive] at hb
    exact absurd hb not_mem_nil
  · rw [hlive]
    exact nodup_nil

/-- **What holds after every run.** -/
theorem Runs.holding (hruns : Runs (Permitted coarse) s cs s')
    (hs : ∃ σ, Holding coarse s σ) : ∃ σ, Holding coarse s' σ := by
  induction hruns with
  | nil s => exact hs
  | cons hP hcall _ ih =>
    obtain ⟨σ, hs⟩ := hs
    obtain ⟨s₁, q, σ', hcall', hdone⟩ := call_spec hs hP
    obtain ⟨rfl, -⟩ := Prod.mk.inj (Option.some.inj (hcall.symm.trans hcall'))
    exact ih ⟨σ', hdone.holding⟩

/-- A run of tidy calls is one of permitted calls. -/
theorem Runs.permitted (hruns : Runs (Tidy coarse) s cs s') (hs : ∃ σ, Holding coarse s σ) :
    Runs (Permitted coarse) s cs s' := by
  induction hruns with
  | nil s => exact .nil s
  | cons hP hcall _ ih =>
    obtain ⟨σ, hs⟩ := hs
    have hP := hs.permitted_of_tidy hP
    obtain ⟨s₁, q, σ', hcall', hdone⟩ := call_spec hs hP
    obtain ⟨rfl, -⟩ := Prod.mk.inj (Option.some.inj (hcall.symm.trans hcall'))
    exact .cons hP hcall (ih ⟨σ', hdone.holding⟩)

theorem Runs.mono {P Q : System → Call → Prop} (hruns : Runs P s cs s')
    (hPQ : ∀ s, ∀ c ∈ cs, P s c → Q s c) : Runs Q s cs s' := by
  induction hruns with
  | nil s => exact .nil s
  | cons hP hcall _ ih =>
    exact .cons (hPQ _ _ mem_cons_self hP) hcall
      (ih fun s c hc => hPQ s c (mem_cons_of_mem _ hc))

/-! ### A small heap -/

/-- Calls are made one after the other. -/
def run (s : System) : List Call → Option System
  | [] => some s
  | c :: cs => (s.call c).bind fun x => run x.1 cs

/-- Calls are made one after the other, as long as they meet a condition. -/
def checked (P : System → Call → Prop) [∀ s c, Decidable (P s c)] (s : System) :
    List Call → Option System
  | [] => some s
  | c :: cs => if P s c then (s.call c).bind fun x => checked P x.1 cs else none

theorem Runs.of_checked {P : System → Call → Prop} [∀ s c, Decidable (P s c)]
    (hrun : s.checked P cs = some s') : Runs P s cs s' ∧ s.run cs = some s' := by
  induction cs generalizing s with
  | nil =>
    obtain rfl : s = s' := Option.some.inj hrun
    exact ⟨.nil s, rfl⟩
  | cons c cs ih =>
    obtain ⟨hP, hrun⟩ := Option.ite_none_right_eq_some.mp hrun
    obtain ⟨x, hcall, hrest⟩ := Option.bind_eq_some_iff.mp hrun
    obtain ⟨hruns, hrun⟩ := ih hrest
    exact ⟨.cons hP hcall hruns, by rw [run, hcall]; exact hrun⟩

/-- A heap in the 4096 bytes from 1024 on, with the array `mm_nodelist` at 16. -/
def small : Option System := (mmInitialize (fun _ => 0) 16 1024 4096).map (⟨·, []⟩)

theorem exists_started : ∃ s₀, Started s₀ ∧ small = some s₀ ∧ s₀.heap.heapsize = 4096 := by
  have hadd : Heap.CanAdd ⟨fun _ => 0, 16, 0, [], [], []⟩ 1024 4096 :=
    ⟨by decide,
      by decide, by decide, by decide, .inr (by decide), fun p hp => absurd hp not_mem_nil⟩
  obtain ⟨h, hinit, -, hsize, -⟩ :=
    mmInitialize_spec true (show 0 < 16 by decide) (by decide) hadd
  refine ⟨⟨h, []⟩, ⟨rfl, fun _ => 0, 16, 1024, 4096, by decide, by decide, hadd, hinit⟩, ?_, hsize⟩
  rw [small, hinit]
  rfl

/-- **A run on the small heap**, and what is read of the state at its end. -/
structure Trace (α : Type) where
  calls : List Call
  read : System → α
  value : α
  evaluates : (small.bind (run · calls)).map read = some value

theorem Trace.exists_run {α : Type} (t : Trace α) :
    ∃ s₀ s, Started s₀ ∧ s₀.run t.calls = some s ∧ t.read s = t.value := by
  obtain ⟨s, hrun, hread⟩ := Option.map_eq_some_iff.mp t.evaluates
  obtain ⟨s₀, hstart, hsmall, -⟩ := exists_started
  rw [hsmall] at hrun
  exact ⟨s₀, s, hstart, hrun, hread⟩

/-- **A run on the small heap** whose calls meet a condition, as it is evaluated. -/
theorem exists_checked {α : Type} (P : System → Call → Prop) [∀ s c, Decidable (P s c)]
    (cs : List Call) (read : System → α) (value : α)
    (hvalue : (small.bind (checked P · cs)).map read = some value) :
    ∃ s₀ s, Started s₀ ∧ s₀.heap.heapsize = 4096 ∧ s₀.run cs = some s ∧ Runs P s₀ cs s ∧
      read s = value := by
  obtain ⟨s, hchecked, hread⟩ := Option.map_eq_some_iff.mp hvalue
  obtain ⟨s₀, hstart, hsmall, hsize⟩ := exists_started
  rw [hsmall] at hchecked
  obtain ⟨hruns, hrun⟩ := Runs.of_checked hchecked
  exact ⟨s₀, s, hstart, hsize, hrun, hruns, hread⟩

end System

end GreenboneFeeder.Mm
