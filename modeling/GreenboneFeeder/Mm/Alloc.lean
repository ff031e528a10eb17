import GreenboneFeeder.Mm.Opened

/-!
# Allocating and freeing

What `mm_malloc` and `mm_free` do to the tiling. `mm_malloc` takes a smallest free chunk that is
large enough and gives back what is left of it (`Mm.Site.cut`); `mm_free` joins the chunk with the
free ones on either side (`Mm.Site.joinRight`, `Mm.Site.joinLeft`).
-/

namespace GreenboneFeeder.Mm

open Tiling

namespace Site

/-- A chunk of the size `s` is cut to `size` bytes if what is left is large enough for a chunk: what
is around it then, and its size. -/
def cut (z : Site) (s size : ℕ) : Site × ℕ :=
  if size + 16 ≤ s then (z.spitRight ⟨s - size, false⟩, size) else (z, s)

/-- A chunk of the size `s` is joined with a free one behind it. -/
def joinRight (z : Site) (s : ℕ) : Site × ℕ :=
  match z.right with
  | ⟨t, false⟩ :: _ => (z.eatRight, s + t)
  | _ => (z, s)

/-- A chunk of the size `s` is joined with a free one in front of it. -/
def joinLeft (z : Site) (s : ℕ) : Site × ℕ :=
  match z.left.getLast? with
  | some ⟨t, false⟩ => (z.eatLeft, t + s)
  | _ => (z, s)

/-- The tiling after a chunk of the size `s` is freed. -/
def freed (z : Site) (s : ℕ) : List Region :=
  ((z.joinRight s).1.joinLeft (z.joinRight s).2).1.fill
    [⟨((z.joinRight s).1.joinLeft (z.joinRight s).2).2, false⟩]

variable {z : Site} {l r : List Piece} {c d : Piece} {s : ℕ}

theorem addr_cut (s size : ℕ) : (z.cut s size).1.addr = z.addr := by
  rw [cut]
  split <;> rfl

theorem left_cut (s size : ℕ) : (z.cut s size).1.left = z.left := by
  rw [cut]
  split <;> rfl

theorem le_cut {size : ℕ} (hle : size ≤ s) : size ≤ (z.cut s size).2 := by
  rw [cut]
  split
  · exact Nat.le_refl size
  · exact hle

theorem joinRight_of_free (hright : z.right = c :: r) (hc : c.taken = false) :
    z.joinRight s = (z.eatRight, s + c.size) := by
  obtain ⟨t, u⟩ := c
  obtain rfl : u = false := hc
  rw [joinRight, hright]

theorem joinRight_of_taken (hright : z.right = c :: r) (hc : c.taken = true) :
    z.joinRight s = (z, s) := by
  obtain ⟨t, u⟩ := c
  obtain rfl : u = true := hc
  rw [joinRight, hright]

theorem joinLeft_of_free (hleft : z.left = l ++ [d]) (hd : d.taken = false) :
    z.joinLeft s = (z.eatLeft, d.size + s) := by
  obtain ⟨t, u⟩ := d
  obtain rfl : u = false := hd
  rw [joinLeft, hleft, List.getLast?_concat]

theorem joinLeft_of_taken (hleft : z.left = l ++ [d]) (hd : d.taken = true) :
    z.joinLeft s = (z, s) := by
  obtain ⟨t, u⟩ := d
  obtain rfl : u = true := hd
  rw [joinLeft, hleft, List.getLast?_concat]

end Site

namespace Heap

variable {coarse : Bool} {W K : Set ℕ} {v : Bytes} {h₀ h h' : Heap} {σ₀ σ : List Region} {z : Site}
  {mid l r : List Piece} {c d : Piece} {m : Placed} {n s size k : ℕ}

namespace Opened

/-! ### Reading the headers around a part -/

theorem isFree_next (ho : Opened coarse W K v h₀ σ₀ h z mid) (hright : z.right = c :: r) :
    h.IsFree (z.addr + total mid) ↔ c.taken = false := by
  obtain ⟨hhead, hloc⟩ := ho.holds.head_next hright
  exact hhead.isFree_iff hloc.before_lt

theorem isFree_prev (ho : Opened coarse W K v h₀ σ₀ h z mid) (hleft : z.left = l ++ [d]) :
    h.IsFree z.eatLeft.addr ↔ d.taken = false := by
  obtain ⟨hhead, hloc⟩ := ho.holds.head_prev hleft
  exact hhead.isFree_iff hloc.before_lt

/-- What is read in a part that is one chunk, and behind it. -/
structure One (coarse : Bool) (h : Heap) (z : Site) (s : ℕ) (t : Bool) (c : Piece) : Prop where
  chunk : IsChunk coarse ⟨s, t⟩
  le : 16 ≤ s
  lt : s < 2 ^ 31
  prev_lt : z.prev < 2 ^ 31
  next_lt : c.size < 2 ^ 31
  size : h.get z.addr .size = s
  preceding : h.get z.addr .preceding = tagged z.prev t
  nextSize : h.get (z.addr + s) .size = c.size
  nextPreceding : h.get (z.addr + s) .preceding = tagged s c.taken

theorem one {t : Bool} (ho : Opened coarse W K v h₀ σ₀ h z [⟨s, t⟩]) (hright : z.right = c :: r) :
    One coarse h z s t c := by
  obtain ⟨hhead, hloc⟩ := ho.holds.head_mid (m := ⟨z.addr, s, z.prev, t⟩) (by simp)
  obtain ⟨hnext, hnextloc⟩ := ho.holds.head_next hright
  have hchunk := ho.isChunk List.mem_cons_self
  exact ⟨hchunk, hchunk.le, hloc.size_lt, hloc.before_lt, hnextloc.size_lt, hhead.size,
    hhead.preceding, hnext.size, hnext.preceding⟩

/-- What is read in a part that is two chunks, and behind them. -/
structure Two (coarse : Bool) (h : Heap) (z : Site) (s : ℕ) (t : Bool) (s' : ℕ) (t' : Bool)
    (c : Piece) : Prop where
  chunk : IsChunk coarse ⟨s, t⟩
  chunk' : IsChunk coarse ⟨s', t'⟩
  le : 16 ≤ s
  le' : 16 ≤ s'
  lt : s + s' < 2 ^ 31
  prev_lt : z.prev < 2 ^ 31
  next_lt : c.size < 2 ^ 31
  size : h.get z.addr .size = s
  preceding : h.get z.addr .preceding = tagged z.prev t
  size' : h.get (z.addr + s) .size = s'
  preceding' : h.get (z.addr + s) .preceding = tagged s t'
  nextSize : h.get (z.addr + (s + s')) .size = c.size
  nextPreceding : h.get (z.addr + (s + s')) .preceding = tagged s' c.taken

theorem two {s' : ℕ} {t t' : Bool} (ho : Opened coarse W K v h₀ σ₀ h z [⟨s, t⟩, ⟨s', t'⟩])
    (hright : z.right = c :: r) : Two coarse h z s t s' t' c := by
  obtain ⟨hhead, hloc⟩ := ho.holds.head_mid (m := ⟨z.addr, s, z.prev, t⟩) (by simp)
  obtain ⟨hhead', hloc'⟩ := ho.holds.head_mid (m := ⟨z.addr + s, s', s, t'⟩) (by simp)
  obtain ⟨hnext, hnextloc⟩ := ho.holds.head_next hright
  have hchunk := ho.isChunk (c := ⟨s, t⟩) (by simp)
  have hchunk' := ho.isChunk (c := ⟨s', t'⟩) (by simp)
  obtain ⟨left, right, hl, hr, -⟩ := ho.holds.geometry.exists_chunks ho.inner
  have hsmall := ho.holds.geometry.valid_fill.small
  rw [hl, hr] at hsmall
  simp only [total_append, total_cons, total_nil, guard] at hsmall
  exact ⟨hchunk, hchunk', hchunk.le,
    hchunk'.le, by omega, hloc.before_lt, hnextloc.size_lt, hhead.size,
    hhead.preceding, hhead'.size, hhead'.preceding, hnext.size, hnext.preceding⟩

/-! ### Cutting a chunk -/

/-- **The remainder of a free chunk** becomes a chunk of its own. -/
theorem split (ho : Opened coarse W ∅ v h₀ σ₀ h z [⟨size + k, false⟩])
    (hsize : IsChunk coarse ⟨size, false⟩) (hk : IsChunk coarse ⟨k, false⟩)
    (hnext : ∀ b ∈ z.right.head?, b.taken = true) :
    ∃ h', h.split z.addr size k = some h' ∧
      Opened coarse W ∅ v h₀ σ₀ h' (z.spitRight ⟨k, false⟩) [⟨size, false⟩] := by
  obtain ⟨c, r, hright⟩ := ho.exists_right
  have hone := ho.one hright
  have hlt := hone.lt
  have hsize16 : 16 ≤ size := hsize.le
  have hk16 : 16 ≤ k := hk.le
  set h₁ := (((h.set (z.addr + size) .size k).set (z.addr + size) .preceding size).set z.addr .size
    size).setPrecedingSize (z.addr + (size + k)) k with hh₁
  have hopened : Opened coarse W ∅ v h₀ σ₀ h₁ z ([⟨size, false⟩] ++ [⟨k, false⟩]) := by
    refine ho.retile_two hright ?_ rfl hsize hk ⟨?_, ?_⟩ ⟨?_, ?_⟩ ⟨?_, ?_⟩
      fun x hx => absurd hx (Set.notMem_empty x)
    · simp [h₁, setPrecedingSize]
    all_goals
      dsimp only [h₁, setPrecedingSize]
      simp (disch := omega) [hone.preceding, hone.nextSize, hone.nextPreceding]
  obtain ⟨h', hadd, ho'⟩ := hopened.addRight rfl hnext
  refine ⟨h', ?_, ho'⟩
  rw [Heap.split, hone.size]
  exact hadd

/-- **A free chunk is taken**, and what is left of it is given back. -/
theorem take (ho : Opened coarse W ∅ v h₀ σ₀ (h.unlink z.addr) z [⟨s, false⟩]) (hsize : 16 ≤ size)
    (hmod : size % 16 = 0) (hle : size ≤ s) (hnext : ∀ b ∈ z.right.head?, b.taken = true) :
    ∃ h', h.takeNode z.addr size = some h' ∧
      Opened coarse W ∅ v h₀ σ₀ h' (z.cut s size).1 [⟨(z.cut s size).2, true⟩] := by
  obtain ⟨c, r, hright⟩ := ho.exists_right
  have hone := ho.one hright
  rw [takeNode]
  rw [hone.size, sizeofFreeNode, Site.cut]
  by_cases hcut : size + 16 ≤ s
  · obtain ⟨k, rfl⟩ := Nat.exists_eq_add_of_le hle
    have hchunk : IsChunk coarse ⟨size, false⟩ := ⟨hsize, by dsimp only; omega, fun _ => hmod⟩
    obtain ⟨h', hsplit, ho'⟩ := ho.split hchunk (hone.chunk.left hchunk (by omega)) hnext
    have hone' := ho'.one rfl
    rw [if_pos (show size + k - size ≥ 16 by omega), Nat.add_sub_cancel_left, hsplit, if_pos hcut]
    refine ⟨_, rfl, ho'.flag ?_⟩
    have hget : h'.get z.addr .preceding = tagged z.prev false := hone'.preceding
    rw [hget, tagged_or_allocBit hone.prev_lt]
    rfl
  · rw [if_neg (show ¬s - size ≥ 16 by omega), if_neg hcut]
    refine ⟨_, rfl, ho.flag ?_⟩
    rw [hone.preceding, tagged_or_allocBit hone.prev_lt]

end Opened

/-! ### Allocating -/

theorem rounded_spec (hn : 0 < n) : 16 ≤ rounded n ∧ rounded n % 16 = 0 ∧ n + 8 ≤ rounded n := by
  rw [rounded]
  omega

/-- **The chunks in the list are the free ones.** -/
theorem Represents.listed (hr : Represents coarse h σ) :
    ∃ bins, FreeList h bins ∧ ∀ a, (∃ i < nnodes, a ∈ bins i) ↔
      ∃ m ∈ placed σ, m.addr = a ∧ m.taken = false := by
  obtain ⟨bins, hlist, hiff⟩ := hr.holds.list
  exact ⟨bins, hlist, fun a => (hiff a).symm⟩

/-- **`mm_malloc`**, for a request that does not wrap when it is rounded, takes one of the smallest
chunks that are large enough, if there is one. -/
theorem malloc_spec (hr : Represents coarse h σ) (hn : 0 < n) (hwrap : n + 23 < 2 ^ 32) :
    ∃ h' p, h.malloc n = some (h', p) ∧
      ((p = 0 ∧ h' = h ∧ ∀ m ∈ placed σ, m.taken = false → m.size < rounded n) ∨
        ∃ (z : Site) (s : ℕ), σ = z.fill [⟨s, false⟩] ∧ z.Inner ∧ rounded n ≤ s ∧ p = z.addr + 8 ∧
          (∀ m ∈ placed σ, m.taken = false → rounded n ≤ m.size → s ≤ m.size) ∧
          Opened coarse ∅ ∅ v h σ h' (z.cut s (rounded n)).1
            [⟨(z.cut s (rounded n)).2, true⟩]) := by
  obtain ⟨hge, hmod, -⟩ := rounded_spec hn
  obtain ⟨bins, hlist, hiff⟩ := hr.listed
  have hndx : (if rounded n ≥ maxChunk then nnodes - 1 else size2ndx (rounded n)) =
      size2ndx (rounded n) := by
    split
    · next hbig => rw [size2ndx, if_pos hbig]
    · rfl
  obtain ⟨node, hsearch, hnode⟩ := hlist.search_spec (rounded n) (by omega)
  rw [malloc, if_neg (by omega)]
  dsimp only
  rw [alignUp_add32 hwrap, hndx, hsearch, Option.bind_eq_bind, Option.bind_some]
  rcases hnode with ⟨rfl, hsmall⟩ | ⟨j, hj, hmem, hle, hmin⟩
  · refine ⟨h, 0, rfl, .inl ⟨rfl, rfl, fun m hm hfree => ?_⟩⟩
    obtain ⟨i, hi, hmi⟩ := (hiff m.addr).mpr ⟨m, hm, rfl, hfree⟩
    rw [← (hr.holds.heads m hm).size]
    exact hsmall i hi m.addr hmi
  · obtain ⟨m, hm, rfl, hfree⟩ := (hiff node).mp ⟨j, hj, hmem⟩
    have hpos := hr.holds.geometry.eight_le_addr hm (.inl hfree)
    obtain ⟨z, hσ, haddr, hinner⟩ := hr.holds.geometry.exists_site hm (.inl hfree)
    rw [hfree] at hσ
    rw [(hr.holds.heads m hm).size] at hle
    subst hσ
    have hnext := hr.separated.next_taken (by simp) (List.cons_ne_nil _ _)
    obtain ⟨h', htake, ho⟩ := (Opened.of_free hr hinner).take hge hmod hle hnext
    rw [if_pos (by omega), ← haddr, htake]
    refine ⟨h', _, rfl, .inr ⟨z, m.size, rfl, hinner, hle, rfl, fun m' hm' hfree' hle' => ?_, ho⟩⟩
    obtain ⟨i, hi, hmi⟩ := (hiff m'.addr).mpr ⟨m', hm', rfl, hfree'⟩
    have hsize' := (hr.holds.heads m' hm').size
    have hleast := hmin i hi m'.addr hmi (hsize' ▸ hle')
    rw [hsize', (hr.holds.heads m hm).size] at hleast
    exact hleast

/-- **`mm_malloc` gives a chunk** that is large enough, or `NULL`. -/
theorem malloc_grants (hr : Represents coarse h σ) (hwrap : n + 23 < 2 ^ 32) :
    ∃ h' p, h.malloc n = some (h', p) ∧
      ((p = 0 ∧ h' = h) ∨ 0 < n ∧ ∃ σ' m, Grants coarse ∅ h σ h' σ' m ∧ p = m.addr + 8 ∧
        rounded n ≤ m.size) := by
  rcases Nat.eq_zero_or_pos n with rfl | hn
  · exact ⟨h, 0, by rw [malloc, if_pos (by decide)], .inl ⟨rfl, rfl⟩⟩
  obtain ⟨h', p, hmalloc, ⟨hp, hsame, -⟩ | ⟨z, s, -, -, hle, rfl, -, ho⟩⟩ :=
    malloc_spec (v := h.mem) hr hn hwrap
  · exact ⟨h', p, hmalloc, .inl ⟨hp, hsame⟩⟩
  · refine ⟨h', _, hmalloc, .inr ⟨hn, _, _, ho.grants, ?_, Site.le_cut hle⟩⟩
    rw [Site.addr_cut]

/-! ### Freeing -/

namespace Opened

/-- **Two chunks become one.** -/
theorem merge {s' : ℕ} (ho : Opened coarse W ∅ v h₀ σ₀ h z [⟨s, false⟩, ⟨s', false⟩]) :
    Opened coarse W ∅ v h₀ σ₀ (h.merge z.addr (z.addr + s) (z.addr + (s + s'))) z
      [⟨s + s', false⟩] := by
  obtain ⟨c, r, hright⟩ := ho.exists_right
  have htwo := ho.two hright
  have hlt := htwo.lt
  have hle' := htwo.le'
  refine ho.retile_one hright ?_ (by simp) (htwo.chunk.add htwo.chunk') ⟨?_, ?_⟩ ⟨?_, ?_⟩
    fun x hx => absurd hx (Set.notMem_empty x)
  · simp [Heap.merge, setPrecedingSize]
  all_goals
    dsimp only [Heap.merge, setPrecedingSize]
    simp (disch := omega) [htwo.size, htwo.size', htwo.preceding, htwo.nextSize, htwo.nextPreceding]

/-- **The chunk behind is joined** if it is free. -/
theorem mergeNext (ho : Opened coarse W ∅ v h₀ σ₀ h z [⟨s, false⟩]) :
    ∃ h', h.mergeNext z.addr = (h', z.addr + (z.joinRight s).2) ∧
      Opened coarse W ∅ v h₀ σ₀ h' (z.joinRight s).1 [⟨(z.joinRight s).2, false⟩] ∧
      (z.joinRight s).1.addr = z.addr ∧ ∀ b ∈ (z.joinRight s).1.right.head?, b.taken = true := by
  obtain ⟨c, r, hright⟩ := ho.exists_right
  have hone := ho.one hright
  have hfree := ho.isFree_next hright
  simp only [total_cons, total_nil, Nat.add_zero] at hfree
  rw [Heap.mergeNext]
  rw [hone.size]
  cases hc : c.taken with
  | true =>
    rw [Site.joinRight_of_taken hright hc, if_neg (by rw [hfree, hc]; decide)]
    refine ⟨h, rfl, ho, rfl, fun b hb => ?_⟩
    rw [hright] at hb
    exact Option.some.inj hb ▸ hc
  | false =>
    have hgrown := ho.growRight hright hc
    obtain ⟨t, u⟩ := c
    obtain rfl : u = false := hc
    rw [Site.joinRight_of_free hright rfl, if_pos (hfree.mpr rfl), hone.nextSize, Nat.add_assoc]
    exact ⟨_, rfl, hgrown.merge, rfl, ho.apart.next_taken hright rfl⟩

/-- **The chunk in front is joined** if it is free. -/
theorem mergePrev (ho : Opened coarse W ∅ v h₀ σ₀ h z [⟨s, false⟩]) :
    ∃ h', h.mergePrev z.addr (z.addr + s) = (h', (z.joinLeft s).1.addr) ∧
      Opened coarse W ∅ v h₀ σ₀ h' (z.joinLeft s).1 [⟨(z.joinLeft s).2, false⟩] ∧
      (z.joinLeft s).1.right = z.right ∧ ∀ a ∈ (z.joinLeft s).1.left.getLast?, a.taken = true := by
  obtain ⟨c, r, hright⟩ := ho.exists_right
  obtain ⟨l, d, hleft⟩ := ho.exists_left
  have hone := ho.one hright
  have hfree := ho.isFree_prev hleft
  have haddr := Site.total_left hleft
  have hprev : z.addr - d.size = z.eatLeft.addr := by omega
  rw [Heap.mergePrev, hone.preceding, tagged_false, Site.prev_eq hleft, hprev]
  cases hd : d.taken with
  | true =>
    rw [Site.joinLeft_of_taken hleft hd, if_neg (by rw [hfree, hd]; decide)]
    refine ⟨h, rfl, ho, rfl, fun a ha => ?_⟩
    rw [hleft, List.getLast?_concat] at ha
    exact Option.some.inj ha ▸ hd
  | false =>
    have hgrown := ho.growLeft hleft hd
    obtain ⟨t, u⟩ := d
    obtain rfl : u = false := hd
    rw [Site.joinLeft_of_free hleft rfl, if_pos (hfree.mpr rfl), haddr, Nat.add_assoc]
    exact ⟨_, rfl, hgrown.merge, rfl, ho.apart.prev_taken hleft rfl⟩

end Opened

/-- **`mm_free`** joins the chunk with its free neighbours, and puts it into the list. -/
theorem free_spec (hr : Represents coarse h (z.fill [⟨s, true⟩])) (hinner : z.Inner) :
    ∃ h', h.free (z.addr + 8) = some h' ∧ Represents coarse h' (z.freed s) ∧ SameHeap h h' ∧
      Evolves {z.addr} h (z.fill [⟨s, true⟩]) h' (z.freed s) := by
  have ho := (Opened.of_taken hr hinner).mono _ (Set.empty_subset _)
  obtain ⟨c, r, hright⟩ := ho.exists_right
  have hone := ho.one hright
  have hflag : h.get z.addr .preceding &&& sizeMask = tagged z.prev false := by
    rw [hone.preceding, tagged_and_sizeMask hone.prev_lt, tagged_false]
  obtain ⟨h₁, hnext, ho₁, haddr, hbehind⟩ := (ho.flag hflag).mergeNext
  obtain ⟨h₂, hprev, ho₂, hsame, hfront⟩ := ho₁.mergePrev
  obtain ⟨h₃, hadd, ho₃⟩ := ho₂.addLeft rfl hfront
  have hfill := Site.fill_spitLeft [] (z := ((z.joinRight s).1.joinLeft (z.joinRight s).2).1)
    (c := ⟨((z.joinRight s).1.joinLeft (z.joinRight s).2).2, false⟩)
  refine ⟨h₃, ?_, ?_, ho₃.same, ?_⟩
  · rw [haddr] at hprev
    rw [Heap.free, sizeofAllocNode, Nat.add_sub_cancel]
    dsimp only
    rw [hnext]
    rw [hprev]
    exact hadd
  · have hrep := ho₃.close (by simp) (ho₃.apart.separated List.isChain_nil (fun a _ b hb => .inr ?_)
      (by simp))
    · rwa [hfill] at hrep
    · refine hbehind b ?_
      rw [← hsame]
      exact hb
  · have hevolves := ho₃.evolves
    rwa [hfill] at hevolves

end Heap

end GreenboneFeeder.Mm
