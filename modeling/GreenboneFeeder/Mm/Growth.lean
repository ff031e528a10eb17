import GreenboneFeeder.Lib.Words
import GreenboneFeeder.Mm.Runs
import GreenboneFeeder.Mm.Walk

/-!
# Statistics, and a heap that grows

`mm_mallinfo` adds up the chunks and compares them with the size of the heap. The two agree after
every run (`Mm.System.statistics_add_up`), but `mm_extend` makes a region longer and leaves the size
as it is (`Mm.System.extension_not_counted`). `mm_sbrk` confuses the first call with the later ones,
so a heap is kept only as long as there are no pages (`Mm.System.sbrk_keeps_iff`).
-/

namespace GreenboneFeeder.Mm

open List Heap

open Tiling Words

/-! ### Statistics -/

/-- The variables of `mm_mallinfo`. -/
structure Totals where
  mxordblk : ℕ
  ordblks : ℕ
  uordblks : ℕ
  fordblks : ℕ
deriving DecidableEq

/-- What `mm_mallinfo` does for a node. -/
def Totals.add (t : Totals) (taken : Bool) (size : ℕ) : Totals :=
  if taken then { t with uordblks := add32 t.uordblks size }
  else { t with
    ordblks := t.ordblks + 1
    fordblks := add32 t.fordblks size
    mxordblk := if size > t.mxordblk then size else t.mxordblk }

/-- `struct mallinfo`. -/
structure Mallinfo where
  arena : ℤ
  ordblks : ℤ
  mxordblk : ℤ
  uordblks : ℤ
  fordblks : ℤ
deriving DecidableEq

namespace Heap

/-- The loop of `mm_mallinfo` over the nodes of a region. -/
def visit (h : Heap) (last : ℕ) : ℕ → ℕ → Totals → Option Totals
  | 0, _, _ => none
  | n + 1, node, t =>
      if node < last then visit h last n (node + h.get node .size)
        (t.add (¬h.IsFree node) (h.get node .size))
      else some t

/-- `mm_mallinfo`. -/
def mallinfo (h : Heap) : Option Mallinfo :=
  ((h.heapstart.zip h.heapend).foldlM (fun t p => (h.visit p.2 fuel p.1 t).map fun t =>
    { t with uordblks := add32 t.uordblks sizeofAllocNode }) ⟨0, 0, 0, 0⟩).map fun t =>
      ⟨int32 h.heapsize, t.ordblks, int32 t.mxordblk, int32 t.uordblks, int32 t.fordblks⟩

end Heap

/-- **The totals of some pieces**, added to those before. -/
structure Totals.Sums (t : Totals) (l : List Piece) (t' : Totals) : Prop where
  space : t'.uordblks + t'.fordblks = t.uordblks + t.fordblks + total l
  count : t'.ordblks = t.ordblks + l.countP fun c => !c.taken
  le : ∀ c ∈ l, c.taken = false → c.size ≤ t'.mxordblk
  ge : t.mxordblk ≤ t'.mxordblk
  largest : t'.mxordblk = t.mxordblk ∨ ∃ c ∈ l, c.taken = false ∧ c.size = t'.mxordblk

variable {coarse : Bool} {s₀ s : System} {cs : List Call} {h : Heap} {σ : List Region}
  {l : List Piece}
  {c : Piece} {m : Placed} {a p fuel : ℕ} {t t' : Totals}

theorem Totals.Sums.cons (hfits : t.uordblks + t.fordblks + c.size < 2 ^ 32)
    (hs : (t.add c.taken c.size).Sums l t') : t.Sums (c :: l) t' := by
  obtain ⟨hspace, hcount, hle, hge, hlargest⟩ := hs
  cases hc : c.taken with
  | true =>
    rw [hc, add, if_pos rfl] at hspace hcount hge hlargest
    dsimp only at hspace hcount hge hlargest
    rw [add32_of_lt (by omega)] at hspace
    refine ⟨by rw [total_cons]; omega, ?_, fun d hd hfree => ?_, hge, hlargest.imp id ?_⟩
    · rw [countP_cons_of_neg (by simp [hc])]
      exact hcount
    · rcases mem_cons.mp hd with rfl | hd
      · exact absurd (hc.symm.trans hfree) Bool.noConfusion
      · exact hle d hd hfree
    · rintro ⟨d, hd, hlargest⟩
      exact ⟨d, mem_cons_of_mem c hd, hlargest⟩
  | false =>
    rw [hc, add, if_neg Bool.false_ne_true] at hspace hcount hge hlargest
    dsimp only at hspace hcount hge hlargest
    rw [add32_of_lt (by omega)] at hspace
    refine ⟨by rw [total_cons]; omega, ?_, fun d hd hfree => ?_, ?_, ?_⟩
    · rw [countP_cons_of_pos (by simp [hc])]
      omega
    · rcases mem_cons.mp hd with rfl | hd
      · split at hge <;> omega
      · exact hle d hd hfree
    · split at hge <;> omega
    · rcases hlargest with hlargest | ⟨d, hd, hlargest⟩
      · split at hlargest
        · exact .inr ⟨c, mem_cons_self, hc, hlargest.symm⟩
        · exact .inl hlargest
      · exact .inr ⟨d, mem_cons_of_mem c hd, hlargest⟩

namespace Heap

/-- **The loop of `mm_mallinfo`** adds up the pieces. -/
theorem visit_place (fuel : ℕ)
    (hheads : ∀ m ∈ place a p l, HeadOf h m ∧ m.before < 2 ^ 31 ∧ 0 < m.size)
    (hfuel : l.length < fuel) (hfits : t.uordblks + t.fordblks + total l < 2 ^ 32) :
    ∃ t', h.visit (a + total l) fuel a t = some t' ∧ t.Sums l t' := by
  induction l generalizing a p fuel t with
  | nil =>
    obtain ⟨fuel, rfl⟩ := Nat.exists_eq_add_one.mpr hfuel
    exact ⟨t, by rw [visit, if_neg (by simp)], by simp, by simp, by simp, Nat.le_refl _, .inl rfl⟩
  | cons c l ih =>
    obtain ⟨fuel, rfl⟩ := Nat.exists_eq_add_one.mpr (Nat.zero_lt_of_lt hfuel)
    obtain ⟨hhead, hbefore, hpos⟩ := hheads _ mem_cons_self
    have hsize : h.get a .size = c.size := hhead.size
    have htaken : decide (¬h.IsFree a) = c.taken := by
      have hfree : h.IsFree a ↔ c.taken = false := hhead.isFree_iff hbefore
      cases hc : c.taken <;> simp [hfree, hc]
    rw [total_cons] at hfits
    have hadd : (t.add c.taken c.size).uordblks + (t.add c.taken c.size).fordblks =
        t.uordblks + t.fordblks + c.size := by
      rw [Totals.add]
      split <;> dsimp only <;> rw [add32_of_lt (by omega)] <;> omega
    obtain ⟨t', hvisit, hsums⟩ := ih (t := t.add c.taken c.size) fuel
      (fun m hm => hheads m (mem_cons_of_mem _ hm)) (Nat.lt_of_succ_lt_succ hfuel) (by omega)
    refine ⟨t', ?_, .cons (by omega) hsums⟩
    rw [visit, total_cons, if_pos (by dsimp only at hpos; omega), htaken, hsize, ← Nat.add_assoc,
      hvisit]

/-- **The statistics of a heap with one region.** -/
theorem mallinfo_spec {r : Region} (hr : h.Represents coarse [r])
    (hsize : h.heapsize = total r.pieces)
    (hsmall : h.heapsize < 2 ^ 31) :
    ∃ i, h.mallinfo = some i ∧ i.uordblks + i.fordblks = i.arena ∧
      i.ordblks = h.chunks.countP (h.IsFree ·) ∧
        (∀ a ∈ h.chunks, h.IsFree a → h.get a .size ≤ i.mxordblk) ∧
      (i.mxordblk = 0 ∨ ∃ a ∈ h.chunks, h.IsFree a ∧ h.get a .size = i.mxordblk) := by
  have hg := hr.holds.geometry
  obtain ⟨chunks, hpieces, -⟩ := (hg.valid r mem_cons_self).chunks
  rw [← cons_append] at hpieces
  have hplaced : placed [r] = r.nodes := flatMap_singleton ..
  have hlast : r.limit - 8 = r.base + total (guard :: chunks) := by
    rw [Region.limit, hpieces, total_append]
    rfl
  have htotal : total r.pieces = total (guard :: chunks) + 8 := by
    rw [hpieces, total_append]
    rfl
  have hlength : (guard :: chunks).length ≤ total (guard :: chunks) := by
    refine length_le_total fun c hc => ?_
    rcases Geometry.piece_cases (hg.valid r mem_cons_self)
      (by rw [hpieces]; exact mem_append_left _ hc) with rfl | hc
    · decide
    · exact Nat.lt_of_lt_of_le (by decide) hc.le
  obtain ⟨t, hvisit, hsums⟩ := visit_place
    (t := ⟨0, 0, 0, 0⟩) fuel (fun m hm => by
      have hm : m ∈ placed [r] := by
        rw [hplaced, Region.nodes, hpieces, place_append]
        exact mem_append_left _ hm
      have hloc := hg.located hm
      exact ⟨hr.holds.heads m hm, hloc.before_lt, Nat.lt_of_lt_of_le (by decide) hloc.eight_le⟩)
    (by rw [fuel]; omega) (by dsimp only; omega)
  have hspace := hsums.space
  dsimp only at hspace
  have hlargest : t.mxordblk = 0 ∨ ∃ c ∈ guard :: chunks, c.taken = false ∧ c.size = t.mxordblk :=
    hsums.largest
  have hmx : t.mxordblk < 2 ^ 31 := by
    rcases hlargest with hzero | ⟨c, hc, -, hlargest⟩
    · omega
    · have := size_le_total hc
      omega
  have hinfo :
      h.mallinfo = some ⟨h.heapsize, t.ordblks, t.mxordblk, (t.uordblks + 8 : ℕ), t.fordblks⟩ := by
    have htail : add32 t.uordblks sizeofAllocNode = t.uordblks + 8 :=
      add32_of_lt (by rw [sizeofAllocNode]; omega)
    rw [mallinfo, hr.holds.heapstart, hr.holds.heapend]
    simp only [map_cons, map_nil, zip_cons_cons, zip_nil_right, foldlM_cons, foldlM_nil, hlast,
      hvisit, Option.map_some, Option.bind_eq_bind, Option.bind_some, Option.pure_def, htail]
    rw [int32_natCast hsmall, int32_natCast hmx, int32_natCast (by omega), int32_natCast (by omega)]
  refine ⟨_, hinfo, by dsimp only; omega, ?_, fun a ha hfree => ?_, ?_⟩
  · have hcount : h.chunks.countP (h.IsFree ·) = r.nodes.countP fun m => !m.taken := by
      rw [hr.chunks_eq, hplaced, countP_map]
      refine countP_congr fun m hm => ?_
      rw [Function.comp_apply, decide_eq_true_iff, hr.isFree_iff (by rw [hplaced]; exact hm),
        Bool.not_eq_true']
    have hpieces' : r.nodes.countP (fun m => !m.taken) = r.pieces.countP fun c => !c.taken := by
      conv_rhs => rw [← map_place (a := r.base) (p := 0) (l := r.pieces), countP_map]
      rfl
    have hall := hsums.count
    rw [hcount, hpieces', hpieces, hall]
    simp [guard]
  · obtain ⟨m, hm, rfl, htaken⟩ := hr.free_iff.mp ⟨ha, hfree⟩
    rw [(hr.holds.heads m hm).size]
    rw [hplaced] at hm
    have hmem := piece_of_mem_place hm
    rw [hpieces, mem_append, mem_singleton] at hmem
    rcases hmem with hmem | hguard
    · exact Int.ofNat_le.mpr (hsums.le _ hmem htaken)
    · exact absurd (congrArg Piece.taken hguard) (by rw [htaken]; exact Bool.noConfusion)
  · refine hlargest.imp (fun hzero => by rw [hzero]; rfl) fun hmax => ?_
    obtain ⟨c, hc, htaken, hsize⟩ := hmax
    have hmem : c ∈ r.nodes.map fun n => (⟨n.size, n.taken⟩ : Piece) := by
      rw [Region.nodes, map_place, hpieces]
      exact mem_append_left _ hc
    obtain ⟨m, hm, rfl⟩ := mem_map.mp hmem
    rw [← hplaced] at hm
    obtain ⟨hchunk, hfree⟩ := hr.free_iff.mpr ⟨m, hm, rfl, htaken⟩
    exact ⟨m.addr, hchunk,
      hfree, by rw [(hr.holds.heads m hm).size]; exact congrArg Int.ofNat hsize⟩

end Heap

namespace System

/-- A run without new regions. -/
abbrev Inside (coarse : Bool) (s : System) (c : Call) : Prop :=
  s.Permitted coarse c ∧ ∀ start size, c ≠ .addRegion start size

/-- **The size of the heap does not change.** -/
theorem Runs.same (hruns : Runs (Inside coarse) s₀ cs s) (hs : ∃ σ, Holding coarse s₀ σ) :
    Heap.SameHeap s₀.heap s.heap := by
  induction hruns with
  | nil s => exact .refl _
  | cons hP hcall _ ih =>
    obtain ⟨σ, hs⟩ := hs
    obtain ⟨s₁, q, σ', hcall', hdone⟩ := call_spec hs hP.1
    obtain ⟨rfl, -⟩ := Prod.mk.inj (Option.some.inj (hcall.symm.trans hcall'))
    exact (hdone.same hP.2).trans (ih ⟨σ', hdone.holding⟩)

/-- **The heap has one region**, and knows its size. -/
theorem exists_region (hstart : Started s₀) (hruns : Runs (Inside coarse) s₀ cs s) :
    ∃ r, Holding coarse s [r] ∧ s.heap.heapsize = total r.pieces := by
  have hsame := hruns.same hstart.holding
  obtain ⟨σ, hs⟩ := (hruns.mono fun _ _ _ hP => hP.1).holding hstart.holding
  obtain ⟨-, mem, n, start, size, hpos, harray, hadd, hinit⟩ := hstart
  obtain ⟨h₀, hcode, hr₀, hsize, -⟩ := mmInitialize_spec coarse hpos harray hadd
  obtain rfl : s₀.heap = h₀ := Option.some.inj (hinit.symm.trans hcode)
  have hr := hs.represents
  have hbases : σ.map Region.base = [(newRegion start size).base] := by
    rw [← hr.holds.heapstart, hsame.heapstart, hr₀.holds.heapstart]
    rfl
  obtain ⟨r, rfl⟩ := length_eq_one_iff.mp (by simpa using congrArg length hbases : σ.length = 1)
  have hends : [r.limit - 8] = [(newRegion start size).limit - 8] := by
    have hends := hr.holds.heapend
    rw [hsame.heapend, hr₀.holds.heapend] at hends
    exact hends.symm
  have hbase : r.base = (start + 15) / 16 * 16 := head_eq_of_cons_eq hbases
  have hlimit := head_eq_of_cons_eq hends
  have hle := (hr.holds.geometry.valid r mem_cons_self).le_limit
  rw [hadd.limit_newRegion] at hlimit
  refine ⟨r, hs, ?_⟩
  rw [hsame.heapsize]
  rw [Region.limit] at hlimit hle
  omega

/-- **The statistics add up** after every run in a heap of less than 2 GiB. -/
theorem statistics_add_up (hstart : Started s₀) (hruns : Runs (Inside coarse) s₀ cs s)
    (hsmall : s₀.heap.heapsize < 2 ^ 31) :
    ∃ i, s.heap.mallinfo = some i ∧ i.uordblks + i.fordblks = i.arena ∧
      i.ordblks = s.heap.chunks.countP (s.heap.IsFree ·) ∧
      (∀ a ∈ s.heap.chunks, s.heap.IsFree a → s.heap.get a .size ≤ i.mxordblk) ∧
      (i.mxordblk = 0 ∨ ∃ a ∈ s.heap.chunks, s.heap.IsFree a ∧
        s.heap.get a .size = i.mxordblk) := by
  obtain ⟨r, hs, hsize⟩ := exists_region hstart hruns
  refine mallinfo_spec hs.represents hsize ?_
  rw [(hruns.same hstart.holding).heapsize]
  exact hsmall

instance (s : System) (c : Call) : Decidable (Inside coarse s c) :=
  match c with
  | .addRegion start size => isFalse fun hc => hc.2 start size rfl
  | .malloc _ | .free _ | .realloc _ _ | .calloc _ _ | .memalign _ _ | .write _ _ =>
    decidable_of_iff (s.Permitted coarse _) ⟨fun hc => ⟨hc, fun _ _ => Call.noConfusion⟩, And.left⟩

theorem statistics_add_up_small : ∃ s₀ s, Started s₀ ∧
    s₀.run [.malloc 24, .malloc 100, .free 1040, .realloc 1072 200] = some s ∧
    ∃ i, s.heap.mallinfo = some i ∧ i.uordblks + i.fordblks = i.arena := by
  obtain ⟨s₀, s, hstart, hsize, hrun, hruns, -⟩ := exists_checked (Inside true)
    [.malloc 24, .malloc 100, .free 1040, .realloc 1072 200] (fun s => s.live.length)
    1 (by decide +kernel)
  obtain ⟨i, hinfo, hsum, -⟩ := statistics_add_up hstart hruns (by omega)
  exact ⟨s₀, s, hstart, hrun, i, hinfo, hsum⟩

def extends64 : Trace (Option (ℤ × ℤ)) where
  calls := []
  read s := (s.heap.mmExtend 5120 64 0).bind fun h' =>
    h'.mallinfo.map fun i => (i.arena, i.uordblks + i.fordblks)
  value := some (4096, 4160)
  evaluates := by decide +kernel

/-- **An extension is not counted**: `mm_extend` gives 64 more bytes to the region. -/
theorem extension_not_counted : ∃ s₀ h' i, Started s₀ ∧ s₀.heap.mmExtend 5120 64 0 = some h' ∧
    h'.mallinfo = some i ∧ i.arena = 4096 ∧ i.uordblks + i.fordblks = 4160 := by
  obtain ⟨s₀, s, hstart, hrun, hread⟩ := extends64.exists_run
  cases hrun
  obtain ⟨h', hextend, hread⟩ := Option.bind_eq_some_iff.mp hread
  obtain ⟨i, hinfo, hread⟩ := Option.map_eq_some_iff.mp hread
  exact ⟨s₀, h', i, hstart, hextend, hinfo, Prod.mk.inj hread⟩

end System

/-! ### The break -/

/-- The errors of `mm_sbrk`. -/
inductive SbrkError where
  | enosys
  | enomem
  | eagain
deriving DecidableEq

namespace Heap

/-- `mm_brkaddr`, for the first region. -/
def brkaddr (h : Heap) : ℕ :=
  let brkaddr := h.heapend.headD 0
  if brkaddr ≠ 0 then brkaddr + sizeofAllocNode else 0

/-- `MM_NPAGES`, for pages of `2 ^ k` bytes. -/
def npages (k size : ℕ) : ℕ := add32 size (2 ^ k - 1) >>> k

/-- The number of bytes that `mm_sbrk` asks for. -/
def pageBytes (k : ℕ) (incr : ℤ) : ℕ := npages k incr.toNat <<< k % 2 ^ 32

/-- **`mm_sbrk`**, with the answers of `pgalloc`. -/
def sbrk (k : ℕ) (pgalloc : ℕ → ℕ → ℕ) (h : Heap) (incr : ℤ) (maxbreak : ℕ) :
    Option (Heap × Except SbrkError ℕ) :=
  if incr < 0 then some (h, .error .enosys)
  else
    let brkaddr := h.brkaddr
    if incr > 0 then
      if brkaddr > 0 ∧ sub32 maxbreak brkaddr < pageBytes k incr then some (h, .error .enomem)
      else
        let allocbase := pgalloc brkaddr (npages k incr.toNat)
        if allocbase = 0 then some (h, .error .eagain)
        else if brkaddr ≠ 0 then
          (mmInitialize h.mem h.nodelist allocbase (pageBytes k incr)).map (·, .ok brkaddr)
        else (h.mmExtend allocbase (pageBytes k incr) 0).map (·, .ok brkaddr)
    else some (h, .ok brkaddr)

/-- The page allocator gives pages to `mm_sbrk`. -/
def GetsPages (k : ℕ) (pgalloc : ℕ → ℕ → ℕ) (h : Heap) (incr : ℤ) (maxbreak : ℕ) : Prop :=
  0 < incr ∧ ¬(h.brkaddr > 0 ∧ sub32 maxbreak h.brkaddr < pageBytes k incr) ∧
    pgalloc h.brkaddr (npages k incr.toNat) ≠ 0

/-- **The heap is kept**: what was a chunk is one, or a part of one. -/
def Keeps (h h' : Heap) : Prop :=
  ∀ a ∈ h.chunks, ∃ b ∈ h'.chunks, b ≤ a ∧ a + h.get a .size ≤ b + h'.get b .size

variable {k maxbreak : ℕ} {pgalloc : ℕ → ℕ → ℕ} {incr : ℤ}

theorem sbrk_of_pages (hpages : GetsPages k pgalloc h incr maxbreak) :
    h.sbrk k pgalloc incr maxbreak =
      if h.brkaddr ≠ 0 then (mmInitialize h.mem h.nodelist (pgalloc h.brkaddr (npages k incr.toNat))
        (pageBytes k incr)).map (·, .ok h.brkaddr)
      else (h.mmExtend (pgalloc h.brkaddr (npages k incr.toNat)) (pageBytes k incr) 0).map
        (·, .ok h.brkaddr) := by
  obtain ⟨hpos, hfits, hpages⟩ := hpages
  rw [sbrk, if_neg (by omega), if_pos hpos, if_neg hfits]
  exact if_neg hpages

theorem sbrk_of_not_pages (hpages : ¬GetsPages k pgalloc h incr maxbreak) :
    ∃ r, h.sbrk k pgalloc incr maxbreak = some (h, r) := by
  rw [sbrk]
  by_cases hneg : incr < 0
  · exact ⟨_, if_pos hneg⟩
  by_cases hpos : incr > 0
  · by_cases hfits : h.brkaddr > 0 ∧ sub32 maxbreak h.brkaddr < pageBytes k incr
    · exact ⟨_, by rw [if_neg hneg, if_pos hpos, if_pos hfits]⟩
    · have hnull : pgalloc h.brkaddr (npages k incr.toNat) = 0 := by
        by_contra hnull
        exact hpages ⟨hpos, hfits, hnull⟩
      exact ⟨_, by rw [if_neg hneg, if_pos hpos, if_neg hfits]; exact if_pos hnull⟩
  · exact ⟨_, by rw [if_neg hneg]; exact if_neg hpos⟩

end Heap

namespace System

/-- **Growing the heap.** Without a heap, the call does not return if it gets pages: `mm_extend`
waits for a semaphore that nobody posts or, where that was initialised, writes through a `NULL`
pointer. Of a heap with chunks nothing is kept if it gets the pages behind it, and it stays as it is
if it gets none. -/
theorem sbrk_keeps_iff (k maxbreak : ℕ) (pgalloc : ℕ → ℕ → ℕ) (incr : ℤ) :
    (∀ mem n, (sbrk k pgalloc ⟨mem, n, 0, [], [], []⟩ incr maxbreak).isSome ↔
      ¬Heap.GetsPages k pgalloc ⟨mem, n, 0, [], [], []⟩ incr maxbreak) ∧
    ∀ s₀ cs s, Started s₀ → Runs (Inside coarse) s₀ cs s →
      (pgalloc s.heap.brkaddr (npages k incr.toNat) ≠ 0 →
        pgalloc s.heap.brkaddr (npages k incr.toNat) = s.heap.brkaddr) →
      Heap.CanAdd ⟨s.heap.mem, s.heap.nodelist, 0, [], [], []⟩ s.heap.brkaddr (pageBytes k incr) →
      ((∃ h' r, s.heap.sbrk k pgalloc incr maxbreak = some (h', r) ∧ s.heap.Keeps h') ↔
        ¬s.heap.GetsPages k pgalloc incr maxbreak) ∧
      (¬s.heap.GetsPages k pgalloc incr maxbreak →
        ∃ r, s.heap.sbrk k pgalloc incr maxbreak = some (s.heap, r)) := by
  refine ⟨fun mem n => ⟨fun hsome hpages => ?_, fun hpages => ?_⟩,
    fun s₀ cs s hstart hruns hbrk hadd => ⟨⟨fun ⟨h', r, hcode, hkeeps⟩ hpages => ?_,
      fun hpages => ?_⟩, sbrk_of_not_pages⟩⟩
  · rw [sbrk_of_pages hpages] at hsome
    exact Bool.noConfusion hsome
  · obtain ⟨r, hcode⟩ := sbrk_of_not_pages hpages
    rw [hcode]
    rfl
  · -- the new heap begins behind the old one
    obtain ⟨r, hs, -⟩ := exists_region hstart hruns
    have hr := hs.represents
    have hle := (hr.holds.geometry.valid r mem_cons_self).le_limit
    have hbreak : s.heap.brkaddr = r.limit := by
      rw [brkaddr, hr.holds.heapend, map_singleton, headD_cons]
      rw [if_pos (by omega), sizeofAllocNode, Nat.sub_add_cancel (by omega)]
    obtain ⟨hpos, harray⟩ := hr.holds.geometry.array
    obtain ⟨h₁, hinit, hr₁, -⟩ := mmInitialize_spec coarse hpos harray hadd
    rw [sbrk_of_pages hpages, if_pos (by omega), hbrk hpages.2.2, hinit] at hcode
    obtain ⟨rfl, -⟩ := Prod.mk.inj (Option.some.inj hcode)
    obtain ⟨chunks, hpieces, -⟩ := (hr.holds.geometry.valid r mem_cons_self).chunks
    have hfirst : r.base ∈ s.heap.chunks := by
      rw [hr.chunks_eq, placed, flatMap_singleton, Region.nodes, hpieces]
      exact mem_cons_self
    obtain ⟨b, hb, hle', -⟩ := hkeeps r.base hfirst
    rw [hr₁.chunks_eq, placed, flatMap_singleton] at hb
    obtain ⟨m, hm, rfl⟩ := mem_map.mp hb
    have hlow : (s.heap.brkaddr + 15) / 16 * 16 ≤ m.addr := (bounds_of_mem_place hm).1
    omega
  · obtain ⟨r, hcode⟩ := sbrk_of_not_pages hpages
    exact ⟨_, r, hcode, fun a ha => ⟨a, ha, Nat.le_refl _, Nat.le_refl _⟩⟩

theorem sbrk_keeps_iff_small : ∃ s₀ s, Started s₀ ∧
    s₀.run [.malloc 24, .malloc 100, .free 1040] = some s ∧ s.live = [(1072, 100)] ∧
    ((∃ h' r, s.heap.sbrk 10 (fun b _ => b) 1000 10000 = some (h', r) ∧ s.heap.Keeps h') ↔
      ¬s.heap.GetsPages 10 (fun b _ => b) 1000 10000) := by
  obtain ⟨s₀, s, hstart, -, hrun, hruns, hread⟩ := exists_checked (Inside true)
    [.malloc 24, .malloc 100, .free 1040]
    (fun s => (s.live, s.heap.brkaddr, s.heap.nodelist))
    ([(1072, 100)], 5120, 16) (by decide +kernel)
  obtain ⟨hlive, hread⟩ := Prod.mk.inj hread
  obtain ⟨hbreak, hnodelist⟩ := Prod.mk.inj hread
  refine ⟨s₀, s, hstart, hrun, hlive, ((sbrk_keeps_iff 10 10000 (fun b _ => b) 1000).2 s₀ _ s hstart
    hruns (fun _ => rfl) ?_).1⟩
  rw [hbreak, hnodelist]
  exact ⟨by decide, by decide, by decide, by decide, .inr (show 16 + 16 * nnodes ≤ 5120 by decide),
    fun p hp => absurd hp not_mem_nil⟩

def replaced : Trace (List (ℕ × ℕ) × Option (List ℕ)) where
  calls := [.malloc 24]
  read s := (s.live, (s.heap.sbrk 10 (fun b _ => b) 1000 10000).map fun x => x.1.chunks)
  value := ([(1040, 24)], some [5120, 5128, 6136])
  evaluates := by decide +kernel

/-- **The first pages are not used**: the call does not return. **The next pages replace the heap**:
the block at 1040 is in no chunk. -/
theorem sbrk_confuses :
    sbrk 10 (fun _ _ => 4096) ⟨fun _ => 0, 16, 0, [], [], []⟩ 1000 10000 = none ∧
    ∃ s₀ s h' r, Started s₀ ∧ s₀.run [.malloc 24] = some s ∧ s.live = [(1040, 24)] ∧
      s.heap.sbrk 10 (fun b _ => b) 1000 10000 = some (h', r) ∧ h'.chunks = [5120, 5128, 6136] := by
  refine ⟨by decide, ?_⟩
  obtain ⟨s₀, s, hstart, hrun, hread⟩ := replaced.exists_run
  obtain ⟨hlive, hread⟩ := Prod.mk.inj hread
  obtain ⟨⟨h', r⟩, hcode, hchunks⟩ := Option.map_eq_some_iff.mp hread
  exact ⟨s₀, s, h', r, hstart, hrun, hlive, hcode, hchunks⟩

end System

end GreenboneFeeder.Mm
