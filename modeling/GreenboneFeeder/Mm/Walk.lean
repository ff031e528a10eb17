import GreenboneFeeder.Mm.Represents

/-!
# The heap as it is seen in the memory

What can be read off the memory alone: the chunks visited by going through a region by the sizes,
and the nodes visited by following the list. A heap is well formed if the two agree
(`Mm.Heap.WellFormed`).
-/

namespace GreenboneFeeder.Mm

open List Nat

open Tiling

namespace Heap

/-! ### Going through the chunks -/

/-- The nodes that are visited from a node up to the last one of a region. -/
def walk (h : Heap) (last : ℕ) : ℕ → ℕ → List ℕ
  | 0, _ => []
  | n + 1, node =>
      if node < last then node :: walk h last n (node + h.get node .size)
      else if node = last then [last] else []

/-- The nodes of each region. -/
def walks (h : Heap) : List (List ℕ) :=
  (h.heapstart.zip h.heapend).map fun p => h.walk p.2 fuel p.1

/-- All chunks and guards. -/
def chunks (h : Heap) : List ℕ := h.walks.flatten

/-- The nodes that are visited when one follows the list. -/
def follow (h : Heap) : ℕ → ℕ → List ℕ
  | 0, _ => []
  | n + 1, node => if node = 0 then [] else node :: follow h n (h.get node .flink)

/-- The chunks in the list. The headers of the list have the size zero. -/
def listed (h : Heap) : List ℕ :=
  (h.follow fuel (h.header 0)).filter fun a => h.get a .size ≠ 0

/-- **A well-formed heap.** -/
structure WellFormed (h : Heap) : Prop where
  /-- The chunks of a region tile it, every node knows the size of the previous one, and no two free
  chunks are adjacent. -/
  tiled : ∀ p ∈ h.heapstart.zip h.heapend, ∃ l, h.walk p.2 fuel p.1 = l ∧ l.head? = some p.1 ∧
    l.getLast? = some p.2 ∧ (∀ a ∈ l, 0 < h.get a .size) ∧
    l.IsChain fun a b => b = a + h.get a .size ∧
      h.get b .preceding &&& sizeMask = h.get a .size ∧ ¬(h.IsFree a ∧ h.IsFree b)
  /-- The list holds the free chunks, each one behind the header for its size. -/
  list : ∃ bins, FreeList h bins ∧ ∀ a, (∃ i < nnodes, a ∈ bins i) ↔ a ∈ h.chunks ∧ h.IsFree a

variable {coarse : Bool} {h : Heap} {σ : List Region} {r : Region} {l : List Piece} {m : Placed}
  {a b p last fuel : ℕ}

/-! ### What a tiling looks like -/

theorem walk_place (hheads : ∀ m ∈ place a p l, h.get m.addr .size = m.size)
    (hpos : ∀ m ∈ place a p l, 0 < m.size) (hfuel : l.length < fuel) :
    h.walk (a + total l) fuel a = (place a p l).map Placed.addr ++ [a + total l] := by
  induction l generalizing a p fuel with
  | nil =>
    obtain ⟨fuel, rfl⟩ := exists_eq_add_one.mpr (zero_lt_of_lt hfuel)
    rw [walk, if_neg (by simp), if_pos (by simp)]
    rfl
  | cons c l ih =>
    obtain ⟨fuel, rfl⟩ := exists_eq_add_one.mpr (zero_lt_of_lt hfuel)
    have hsize := hheads _ (mem_cons_self)
    have hc := hpos _ (mem_cons_self)
    dsimp only at hsize hc
    have hrest := ih
      (fun m hm => hheads m (mem_cons_of_mem _ hm)) (fun m hm => hpos m (mem_cons_of_mem _ hm))
      (lt_of_succ_lt_succ hfuel)
    rw [add_assoc] at hrest
    rw [walk, total_cons, if_pos (by omega), hsize, hrest]
    rfl

theorem follow_eq {ns : List ℕ} (hlinked : Linked (h.get · .flink) (h.get · .blink) 0 ns)
    (hpos : ∀ a ∈ ns, 0 < a) (hfuel : ns.length ≤ fuel) : h.follow fuel (ns.head?.getD 0) = ns := by
  induction ns generalizing fuel with
  | nil =>
    cases fuel with
    | zero | succ fuel => rfl
  | cons a ns ih =>
    obtain ⟨fuel, rfl⟩ := exists_eq_add_one.mpr (lt_of_lt_of_le (succ_pos _) hfuel)
    have ha : a ≠ 0 := (hpos a mem_cons_self).ne'
    have hfirst : Linked (h.get · .flink) (h.get · .blink) 0 ([] ++ a :: ns) := hlinked
    have hnext : h.get a .flink = ns.head?.getD 0 := hfirst.next_eq
    rw [head?_cons, Option.getD_some, follow, if_neg ha, hnext,
      ih (hlinked.tail_congr (fun _ _ => rfl) fun _ _ => rfl)
        (fun b hb => hpos b (mem_cons_of_mem a hb)) (le_of_succ_le_succ hfuel)]

theorem FreeList.follow_header {bins : ℕ → List ℕ} (hlist : FreeList h bins) :
    h.follow Heap.fuel (h.header 0) = nodes h.nodelist bins :=
  follow_eq hlist.linked (fun a ha => (hlist.linkable.pos a ha).1) hlist.length_le

theorem WellFormed.header_mem {i : ℕ} (hwf : h.WellFormed) (hi : i < nnodes) :
    h.header i ∈ h.follow Heap.fuel (h.header 0) := by
  obtain ⟨bins, hlist, -⟩ := hwf.list
  rw [hlist.follow_header, mem_nodes]
  exact ⟨i, hi, .inl rfl⟩

namespace Represents

section

variable (hr : Represents coarse h σ)

include hr

/-- **A region is gone through** from its first guard to its last one. -/
theorem walk_eq (hmem : r ∈ σ) :
    h.walk (r.limit - 8) Heap.fuel r.base = r.nodes.map Placed.addr := by
  have hg := hr.holds.geometry
  have hvalid := hg.valid r hmem
  obtain ⟨base, pieces⟩ := r
  obtain ⟨chunks, hpieces, -⟩ := hvalid.chunks
  rw [← cons_append] at hpieces
  subst hpieces
  have hin : ∀ m ∈ place base 0 (guard :: chunks), m ∈ placed σ := fun m hm => by
    refine mem_flatMap.mpr ⟨_, hmem, ?_⟩
    rw [Region.nodes, place_append]
    exact mem_append_left _ hm
  have hpos : ∀ m ∈ place base 0 (guard :: chunks), 0 < m.size := fun m hm =>
    lt_of_lt_of_le (by decide) (hg.located (hin m hm)).eight_le
  have hlimit :
      (⟨base, guard :: chunks ++ [guard]⟩ : Region).limit - 8 = base + total (guard :: chunks) := by
    rw [Region.limit, total_append]
    simp only [total_cons, total_nil, guard]
    omega
  have hfuel : (guard :: chunks).length < Heap.fuel := by
    have hlength : (guard :: chunks).length ≤ total (guard :: chunks) := by
      refine length_le_total fun c hc => ?_
      rcases Geometry.piece_cases hvalid (mem_append_left _ hc) with rfl | hc
      · decide
      · exact lt_of_lt_of_le (by decide) hc.le
    have hsmall := hvalid.small
    rw [total_append] at hsmall
    rw [Heap.fuel]
    omega
  rw [hlimit, walk_place (fun m hm => (hr.holds.heads m (hin m hm)).size) hpos hfuel, Region.nodes,
    place_append, map_append]
  rfl

theorem chunks_eq : h.chunks = (placed σ).map Placed.addr := by
  have hwalks : h.walks = σ.map fun r => r.nodes.map Placed.addr := by
    rw [walks, hr.holds.heapstart, hr.holds.heapend, zip_map', map_map]
    exact map_congr_left fun r hmem => hr.walk_eq hmem
  rw [chunks, hwalks, placed, map_flatMap]
  rfl

theorem isFree_iff (hm : m ∈ placed σ) :
    h.IsFree m.addr ↔ m.taken = false :=
  (hr.holds.heads m hm).isFree_iff (hr.holds.geometry.located hm).before_lt

theorem free_iff :
    a ∈ h.chunks ∧ h.IsFree a ↔ ∃ m ∈ placed σ, m.addr = a ∧ m.taken = false := by
  rw [hr.chunks_eq, mem_map]
  constructor
  · rintro ⟨⟨m, hm, rfl⟩, hfree⟩
    exact ⟨m, hm, rfl, (hr.isFree_iff hm).mp hfree⟩
  · rintro ⟨m, hm, rfl, hfree⟩
    exact ⟨⟨m, hm, rfl⟩, (hr.isFree_iff hm).mpr hfree⟩

/-- **A heap that represents a tiling is well formed.** -/
theorem wellFormed : h.WellFormed := by
  have hg := hr.holds.geometry
  refine ⟨fun p hp => ?_, ?_⟩
  · rw [hr.holds.heapstart, hr.holds.heapend, zip_map', mem_map] at hp
    obtain ⟨r, hmem, rfl⟩ := hp
    have hin : ∀ m ∈ r.nodes, m ∈ placed σ := fun m hm => mem_flatMap.mpr ⟨r, hmem, hm⟩
    obtain ⟨chunks, hpieces, -⟩ := (hg.valid r hmem).chunks
    refine ⟨_, hr.walk_eq hmem, ?_, ?_, fun a ha => ?_, ?_⟩
    · rw [Region.nodes, hpieces]
      rfl
    · rw [Region.nodes, Region.limit, hpieces, ← cons_append, place_append, map_append,
        total_append]
      simp only [place_cons, place_nil, map_singleton, getLast?_concat]
      simp only [total_cons, total_nil, guard, Option.some.injEq]
      omega
    · obtain ⟨m, hm, rfl⟩ := mem_map.mp ha
      rw [(hr.holds.heads m (hin m hm)).size]
      exact lt_of_lt_of_le (by decide) (hg.located (hin m hm)).eight_le
    · rw [isChain_map]
      refine (isChain_place_of_isChain (hr.separated r hmem)).imp_of_mem_imp
        fun x y hx hy hxy => ?_
      obtain ⟨⟨haddr, hbefore⟩, htaken⟩ := hxy
      have hheadx := hr.holds.heads x (hin x hx)
      have hheady := hr.holds.heads y (hin y hy)
      have hlt := (hg.located (hin y hy)).before_lt
      refine ⟨by rw [hheadx.size]; exact haddr, ?_, ?_⟩
      · rw [hheady.preceding, tagged_and_sizeMask hlt, hheadx.size, hbefore]
      · rw [hr.isFree_iff (hin x hx), hr.isFree_iff (hin y hy)]
        rintro ⟨hx, hy⟩
        rw [hx, hy] at htaken
        rcases htaken with htaken | htaken <;> exact Bool.false_ne_true htaken
  · obtain ⟨bins, hlist, hiff⟩ := hr.holds.list
    exact ⟨bins, hlist, fun a => (hiff a).symm.trans hr.free_iff.symm⟩

/-- **The chunks in the list are the free ones.** -/
theorem mem_listed : a ∈ h.listed ↔ a ∈ h.chunks ∧ h.IsFree a := by
  obtain ⟨bins, hlist, hiff⟩ := hr.wellFormed.list
  rw [Heap.listed, hlist.follow_header, mem_filter, ← hiff, mem_nodes, decide_eq_true_iff]
  constructor
  · rintro ⟨⟨i, hi, rfl | ha⟩, hsize⟩
    · exact absurd (hlist.header i hi) hsize
    · exact ⟨i, hi, ha⟩
  · rintro ⟨i, hi, ha⟩
    exact ⟨⟨i, hi, .inr ha⟩, (hlist.index i hi a ha).2⟩

end

end Represents

end Heap

end GreenboneFeeder.Mm
