import GreenboneFeeder.Mm.Runs
import GreenboneFeeder.Mm.Walk

/-!
# The blocks of a program

After any number of calls the heap is well formed (`Mm.System.heap_wellFormed`), the blocks do not
overlap and keep their bytes (`Mm.System.blocks_kept`), every chunk that is put into the list has
room for its links (`Mm.System.chunks_hold_links`), and no block is smaller than it was asked for
(`Mm.System.blocks_large`).

All of this depends on the arithmetic not wrapping, and on the chunks around a block that
`mm_realloc` extends; what goes wrong otherwise is shown on a small heap. The size is rounded twice
if `mm_realloc` has to move a block, so it wraps for a request that is rounded once without
wrapping.
-/

namespace GreenboneFeeder.Mm

open Tiling List

namespace System

variable {coarse : Bool} {s₀ s s' : System} {cs : List Call} {σ : List Region} {b b' : ℕ × ℕ}
  {m : Placed} {n p q k e : ℕ}

/-! ### The structure of the heap -/

/-- **The heap is well formed after every run**, and every call that is permitted returns. -/
theorem heap_wellFormed (hstart : Started s₀) (hruns : Runs (Permitted true) s₀ cs s) :
    s.heap.WellFormed ∧ ∀ c, s.Permitted true c → ∃ s' q, s.call c = some (s', q) := by
  obtain ⟨σ, hs⟩ := hruns.holding hstart.holding
  refine ⟨hs.represents.wellFormed, fun c hc => ?_⟩
  obtain ⟨s', q, -, hcall, -⟩ := call_spec hs hc
  exact ⟨s', q, hcall⟩

theorem heap_wellFormed_small : ∃ s₀ s, Started s₀ ∧
    s₀.run [.malloc 24, .malloc 100, .calloc 3 5, .free 1040, .realloc 1072 200] = some s ∧
    s.live.length = 2 ∧ s.heap.WellFormed := by
  obtain ⟨s₀, s, hstart, -, hrun, hruns, hlive⟩ := exists_checked (Permitted true)
    [.malloc 24, .malloc 100, .calloc 3 5, .free 1040, .realloc 1072 200]
    (fun s => s.live.length) 2 (by decide +kernel)
  exact ⟨s₀, s, hstart, hrun, hlive, (heap_wellFormed hstart hruns).1⟩

/-- A request of `mm_realloc` that is rounded to `0xfffffff0` bytes; `mm_malloc` rounds this to
zero, so that a header of the list is large enough. -/
def givesHeader : Trace (List (ℕ × ℕ) × List (ℕ × ℕ) × Bool) where
  calls := [.malloc 8, .realloc 1040 0xffffffe0]
  read s := (s.live, s.heap.heapstart.zip s.heap.heapend,
    decide (s.heap.header 1 ∈ s.heap.follow Heap.fuel (s.heap.header 0)))
  value := ([(40, 0xffffffe0)], [(1024, 5112)], false)
  evaluates := by decide +kernel

/-- **A header is lost**, since `mm_realloc` gives it to the program. In a region of more than 2 GiB
the flag of the last guard is a digit of the size in front of it. -/
theorem realloc_breaks_list :
    (∃ s₀ s, Started s₀ ∧ s₀.run [.malloc 8, .realloc 1040 0xffffffe0] = some s ∧
      s.live = [(40, 0xffffffe0)] ∧ ¬s.heap.WellFormed) ∧
    ∃ h, Heap.mmInitialize (fun _ => 0) 16 1024 (2 ^ 31 + 64) = some h ∧ ¬h.WellFormed := by
  constructor
  · obtain ⟨s₀, s, hstart, hrun, hread⟩ := givesHeader.exists_run
    obtain ⟨hlive, hread⟩ := Prod.mk.inj hread
    have hmem := (Prod.mk.inj hread).2
    exact ⟨s₀, s, hstart, hrun, hlive, fun hwf =>
      of_decide_eq_false hmem (hwf.header_mem (by decide))⟩
  · have hinit : (Heap.mmInitialize (fun _ => 0) 16 1024 (2 ^ 31 + 64)).map (fun h =>
        (h.heapstart.zip h.heapend, h.walk 2147484728 Heap.fuel 1024,
          h.get 2147484728 .preceding &&& sizeMask, h.get 1032 .size)) =
          some ([(1024, 2147484728)], [1024, 1032, 2147484728], 48,
            2 ^ 31 + 48) := by decide +kernel
    obtain ⟨h, hinit, hread⟩ := Option.map_eq_some_iff.mp hinit
    simp only [Prod.mk.injEq] at hread
    obtain ⟨hregions, hwalk, hlast, hsize⟩ := hread
    refine ⟨h, hinit, fun hwf => ?_⟩
    obtain ⟨l, hl, -, -, -, hchain⟩ :=
      hwf.tiled (1024, 2147484728) (by rw [hregions]; exact mem_cons_self)
    rw [← hl] at hchain
    dsimp only at hchain
    rw [hwalk, isChain_cons_cons, isChain_cons_cons] at hchain
    have := hchain.2.1.2.1
    omega

/-! ### The blocks and their bytes -/

theorem Holding.between_guards (hs : Holding coarse s σ) (hb : b ∈ s.live) :
    ∃ p ∈ s.heap.heapstart.zip s.heap.heapend, p.1 + 8 ≤ b.1 ∧ b.1 + b.2 ≤ p.2 := by
  obtain ⟨m, hm, -, haddr, hle, hsize⟩ := hs.exists_chunk hb
  obtain ⟨z, hσ, hz, hinner⟩ := hs.represents.holds.geometry.exists_site hm (.inr hsize)
  have hg := hs.represents.holds.geometry
  rw [hσ] at hg
  obtain ⟨left, right, hleft, hright, -⟩ := hg.exists_chunks hinner
  have hmem : (⟨z.base, z.left ++ ([⟨m.size, m.taken⟩] ++ z.right)⟩ : Region) ∈ σ := by
    rw [hσ]
    exact mem_append_right _ mem_cons_self
  have hregion :
    (z.base, (⟨z.base, z.left ++ ([⟨m.size, m.taken⟩] ++ z.right)⟩ : Region).limit - 8) ∈
      s.heap.heapstart.zip s.heap.heapend := by
    rw [hs.represents.holds.heapstart, hs.represents.holds.heapend, zip_map']
    exact mem_map_of_mem hmem
  refine ⟨_, hregion, ?_⟩
  rw [Site.addr] at hz
  rw [Region.limit, hleft, hright]
  rw [hleft] at hz
  simp only [total_cons, total_append, total_nil, guard] at hz ⊢
  omega

theorem Holding.apart (hs : Holding coarse s σ) (hb : b ∈ s.live) (hb' : b' ∈ s.live)
    (hne : b.1 ≠ b'.1) :
    b.1 + b.2 ≤ b'.1 ∨ b'.1 + b'.2 ≤ b.1 := by
  obtain ⟨m, hm, -, haddr, hle, -⟩ := hs.exists_chunk hb
  obtain ⟨m', hm', -, haddr', hle', -⟩ := hs.exists_chunk hb'
  have hne' : m ≠ m' := by
    rintro rfl
    exact hne (haddr.trans haddr'.symm)
  have := hs.represents.holds.geometry.disjoint hm hm' hne'
  omega

/-- **The blocks do not overlap and keep their bytes.** They are between the guards; a call changes
no byte of a block that is not passed to it; and `mm_realloc` keeps the bytes of its block. -/
theorem blocks_kept (hstart : Started s₀) (hruns : Runs (Permitted true) s₀ cs s) :
    (s.live.Pairwise fun b b' => b.1 + b.2 ≤ b'.1 ∨ b'.1 + b'.2 ≤ b.1) ∧
    (∀ b ∈ s.live, ∃ p ∈ s.heap.heapstart.zip s.heap.heapend, p.1 + 8 ≤ b.1 ∧ b.1 + b.2 ≤ p.2) ∧
    (∀ c, s.Permitted true c → ∃ s' q, s.call c = some (s', q) ∧
      ∀ b ∈ s.live, c.target ≠ some b.1 → b ∈ s'.live ∧
        ∀ x, b.1 ≤ x → x < b.1 + b.2 → (∀ byte, c ≠ .write x byte) → s'.heap.mem x = s.heap.mem x) ∧
    (∀ p n, p ≠ 0 → 0 < n → s.Permitted true (.realloc p n) →
      ∃ s' q, s.call (.realloc p n) = some (s', q) ∧ (q = 0 → s' = s) ∧
        (q ≠ 0 → ∃ old, (p, old) ∈ s.live ∧ (q, n) ∈ s'.live ∧
          ∀ i < min old n, s'.heap.mem (q + i) = s.heap.mem (p + i))) := by
  obtain ⟨σ, hs⟩ := hruns.holding hstart.holding
  refine ⟨?_, fun b hb => hs.between_guards hb, fun c hc => ?_, fun p n hp hn hc => ?_⟩
  · have hnodup := pairwise_map.mp hs.nodup
    exact hnodup.imp_of_mem fun hb hb' hne => hs.apart hb hb' hne
  · obtain ⟨s', q, σ', hcall, hdone⟩ := call_spec hs hc
    exact ⟨s', q, hcall, fun b hb hne => ⟨hdone.stays b hb hne, hdone.bytes b hb hne⟩⟩
  · obtain ⟨howns, -, hlarge⟩ := hc
    obtain ⟨hfits, hroom⟩ := hlarge hp
    obtain ⟨h', q, σ', hcode, -, hbytes⟩ := realloc_done hs howns hp hn hfits hroom
    refine ⟨_, q, by rw [call, hcode]; rfl, ?_, ?_⟩
    · rintro rfl
      rcases hbytes with ⟨-, rfl⟩ | ⟨hq, -⟩
      · rw [if_neg (by omega)]
      · exact absurd rfl hq
    · intro hq
      rcases hbytes with ⟨rfl, -⟩ | ⟨-, old, hold, hbytes⟩
      · exact absurd rfl hq
      · refine ⟨old, hold, ?_, hbytes⟩
        rw [if_pos (.inr hq), push, if_neg hq]
        exact mem_cons_self

theorem blocks_kept_small : ∃ s₀ s, Started s₀ ∧ s₀.run [.malloc 24, .malloc 100] = some s ∧
    s.live = [(1072, 100), (1040, 24)] ∧ ∃ s' q, s.call (.realloc 1040 200) = some (s', q) ∧
      (q ≠ 0 → ∃ old, (1040, old) ∈ s.live ∧ (q, 200) ∈ s'.live ∧
        ∀ i < min old 200, s'.heap.mem (q + i) = s.heap.mem (1040 + i)) := by
  obtain ⟨s₀, s, hstart, -, hrun, hruns, (hlive : s.live = _)⟩ := exists_checked (Permitted true)
    [.malloc 24, .malloc 100] live [(1072, 100), (1040, 24)]
    (by decide +kernel)
  obtain ⟨-, -, -, hrealloc⟩ := blocks_kept hstart hruns
  obtain ⟨s', q, hcall, -, hbytes⟩ := hrealloc 1040 200 (by decide) (by decide)
    ⟨.inr (by rw [hlive]; decide), by decide, fun _ => ⟨by decide, fun hc => absurd hc (by decide)⟩⟩
  exact ⟨s₀, s, hstart, hrun, hlive, s', q, hcall, hbytes⟩

/-- **A block outside of the region.** `mm_realloc` gives the header of the list to the program. -/
theorem realloc_leaves_region : ∃ s₀ s, Started s₀ ∧
    s₀.run [.malloc 8, .realloc 1040 0xffffffe0] = some s ∧ (40, 0xffffffe0) ∈ s.live ∧
    ¬∃ p ∈ s.heap.heapstart.zip s.heap.heapend, p.1 + 8 ≤ 40 ∧ 40 + 0xffffffe0 ≤ p.2 := by
  obtain ⟨s₀, s, hstart, hrun, hread⟩ := givesHeader.exists_run
  obtain ⟨hlive, hread⟩ := Prod.mk.inj hread
  have hregions := (Prod.mk.inj hread).1
  refine ⟨s₀, s, hstart, hrun, by rw [hlive]; exact mem_cons_self, ?_⟩
  rw [hregions]
  decide

/-! ### The size of a chunk -/

/-- **Every chunk that is put into the list can hold its links**, also if blocks are aligned, when
`mm_realloc` extends blocks only among even chunks. -/
theorem chunks_hold_links (hstart : Started s₀) (hruns : Runs (Tidy false) s₀ cs s) :
    ∀ t ∈ s.heap.passed, sizeofFreeNode ≤ t := by
  obtain ⟨σ, hs⟩ := (hruns.permitted hstart.holding).holding hstart.holding
  exact hs.passed

theorem chunks_hold_links_memalign : ∃ s₀ s, Started s₀ ∧
    s₀.run [.memalign 64 24, .malloc 8, .realloc 1040 20, .free 1088] = some s ∧
    s.heap.passed = [4048, 16, 32, 3992, 48, 3904, 4080] ∧
    ∀ t ∈ s.heap.passed, sizeofFreeNode ≤ t := by
  obtain ⟨s₀, s, hstart, -, hrun, hruns, hpassed⟩ := exists_checked (Tidy false)
    [.memalign 64 24, .malloc 8, .realloc 1040 20, .free 1088]
    (fun s => s.heap.passed) [4048, 16, 32, 3992, 48, 3904, 4080]
    (by decide +kernel)
  exact ⟨s₀, s, hstart, hrun, hpassed, chunks_hold_links hstart hruns⟩

/-- A block that is aligned is a chunk of 24 bytes. It is freed, and `mm_realloc` takes 16 bytes of
it. -/
def leavesEight : Trace (List (ℕ × ℕ) × ℕ × Option (Bool × ℕ)) where
  calls := [.memalign 32 8, .malloc 8, .malloc 8, .free 1056]
  read s := (s.live, s.heap.get 1072 .size, (s.run [.realloc 1040 24]).map fun s' : System =>
    (decide (8 ∈ s'.heap.passed), s'.heap.get 1072 .size))
  value := ([(1080, 8), (1040, 8)], 16, some (true, 32))
  evaluates := by decide +kernel

/-- **Eight bytes are left**, and the links of the rest are written into the chunk behind, which has
a block of the program. -/
theorem realloc_leaves_sliver : ∃ s₀ s s', Started s₀ ∧
    s₀.run [.memalign 32 8, .malloc 8, .malloc 8, .free 1056] = some s ∧
    s.live = [(1080, 8), (1040, 8)] ∧ s.heap.get 1072 .size = 16 ∧
    s.run [.realloc 1040 24] = some s' ∧ 8 ∈ s'.heap.passed ∧ s'.heap.get 1072 .size = 32 := by
  obtain ⟨s₀, s, hstart, hrun, hread⟩ := leavesEight.exists_run
  obtain ⟨hlive, hread⟩ := Prod.mk.inj hread
  obtain ⟨hsize, hread⟩ := Prod.mk.inj hread
  obtain ⟨s', hrun', hread⟩ := Option.map_eq_some_iff.mp hread
  obtain ⟨hpassed, hsize'⟩ := Prod.mk.inj hread
  exact ⟨s₀, s, s', hstart, hrun, hlive, hsize, hrun', of_decide_eq_true hpassed, hsize'⟩

theorem mem_live_of_call {c : Call} (hcall : s.call c = some (s', q)) (hq : q ≠ 0) :
    (q, c.request) ∈ s'.live := by
  have hpush : ∀ n live, (q, n) ∈ push q n live := fun n live => by
    rw [push, if_neg hq]
    exact mem_cons_self
  cases c
  all_goals rw [call] at hcall
  case write addr byte => exact absurd (Prod.mk.inj (Option.some.inj hcall)).2.symm hq
  all_goals
    obtain ⟨x, -, hx⟩ := Option.map_eq_some_iff.mp hcall
    cases hx
  case realloc mem size =>
    rw [if_pos (.inr hq)]
    exact hpush _ _
  -- a call that gives no block returns `NULL`
  all_goals exact hpush _ _

/-- **No block is smaller than it was asked for**, and every tidy call returns. -/
theorem blocks_large (hstart : Started s₀) (hruns : Runs (Tidy coarse) s₀ cs s) :
    ∀ c, s.Tidy coarse c → ∃ s' q, s.call c = some (s', q) ∧
      (q ≠ 0 → c.request ≤ s'.heap.get (q - sizeofAllocNode) .size - sizeofAllocNode) := by
  obtain ⟨σ, hs⟩ := (hruns.permitted hstart.holding).holding hstart.holding
  intro c hc
  obtain ⟨s', q, σ', hcall, hdone⟩ := call_spec hs (hs.permitted_of_tidy hc)
  refine ⟨s', q, hcall, fun hq => ?_⟩
  obtain ⟨m, hm, -, haddr, hle, -⟩ := hdone.holding.exists_chunk (mem_live_of_call hcall hq)
  have hsize := (hdone.holding.represents.holds.heads m hm).size
  dsimp only at haddr hle
  rw [haddr, sizeofAllocNode, Nat.add_sub_cancel]
  omega

theorem blocks_large_small : ∃ s₀ s s' q, Started s₀ ∧
    s₀.run [.memalign 64 24, .malloc 8] = some s ∧ s.call (.realloc 1040 20) = some (s', q) ∧
    (q ≠ 0 → 20 ≤ s'.heap.get (q - sizeofAllocNode) .size - sizeofAllocNode) := by
  obtain ⟨s₀, s, hstart, -, hrun, hruns, hnext⟩ := exists_checked (Tidy false)
    [.memalign 64 24, .malloc 8] (fun s => decide (s.Tidy false (.realloc 1040 20)))
    true (by decide +kernel)
  obtain ⟨s', q, hcall, hlarge⟩ := blocks_large hstart hruns (.realloc 1040 20)
    (of_decide_eq_true hnext)
  exact ⟨s₀, s, s', q, hstart, hrun, hcall, hlarge⟩

def wraps : Trace (List (ℕ × ℕ) × ℕ) where
  calls := [.malloc 0xfffffff0]
  read s := (s.live, s.heap.get 32 .size)
  value := ([(40, 0xfffffff0)], 0)
  evaluates := by decide +kernel

def productWraps : Trace (List (ℕ × ℕ) × ℕ) where
  calls := [.calloc 0x80000001 2]
  read s := (s.live, s.heap.get 1032 .size)
  value := ([(1040, 0x100000002)], 16)
  evaluates := by decide +kernel

/-- **A request that wraps** gets a header of the list, which has no bytes at all; a product that
wraps gets two bytes. -/
theorem malloc_wraps :
    (∃ s₀ s, Started s₀ ∧ s₀.run [.malloc 0xfffffff0] = some s ∧ s.live = [(40, 0xfffffff0)] ∧
      s.heap.get 32 .size = 0) ∧
    ∃ s₀ s, Started s₀ ∧ s₀.run [.calloc 0x80000001 2] = some s ∧ s.live = [(1040, 0x100000002)] ∧
      s.heap.get 1032 .size = 16 := by
  constructor
  · obtain ⟨s₀, s, hstart, hrun, hread⟩ := wraps.exists_run
    exact ⟨s₀, s, hstart, hrun, Prod.mk.inj hread⟩
  · obtain ⟨s₀, s, hstart, hrun, hread⟩ := productWraps.exists_run
    exact ⟨s₀, s, hstart, hrun, Prod.mk.inj hread⟩

end System

end GreenboneFeeder.Mm
