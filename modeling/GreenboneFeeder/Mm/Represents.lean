import GreenboneFeeder.Mm.Layout

/-!
# The heap between two calls

Between two calls every free chunk is in the list, and no two free chunks are adjacent:
`Mm.Heap.Represents`. During a call this is not so for the part of the tiling that it works on. The
free chunks outside are `Mm.Site.frees`; the part grows by a neighbour with `Mm.Site.eatRight` and
`Mm.Site.eatLeft`.
-/

namespace GreenboneFeeder.Mm

open Tiling List

/-- The addresses of the free ones. -/
def freeAt (l : List Placed) : Set ℕ := { a | ∃ m ∈ l, m.addr = a ∧ m.taken = false }

@[simp] theorem freeAt_nil : freeAt [] = ∅ := by
  simp [freeAt]

@[simp] theorem freeAt_append {l₁ l₂ : List Placed} :
    freeAt (l₁ ++ l₂) = freeAt l₁ ∪ freeAt l₂ := by
  ext x
  simp only [freeAt, Set.mem_ofPred_eq, Set.mem_union, mem_append, or_and_right, exists_or]

theorem freeAt_cons_taken {m : Placed} {l : List Placed} (hm : m.taken = true) :
    freeAt (m :: l) = freeAt l := by
  simp [freeAt, hm]

theorem freeAt_cons_free {m : Placed} {l : List Placed} (hm : m.taken = false) :
    freeAt (m :: l) = insert m.addr (freeAt l) := by
  ext x
  simp only [freeAt, Set.mem_ofPred_eq, exists_mem_cons_iff, hm, and_true, Set.mem_insert_iff]
  rw [eq_comm]

theorem freeAt_place {a p q : ℕ} {l : List Piece} :
    freeAt (place a p l) = freeAt (place a q l) := by
  cases l with
  | nil => rfl
  | cons c l =>
    cases hc : c.taken with
    | true => rw [place_cons, place_cons, freeAt_cons_taken hc, freeAt_cons_taken hc]
    | false => rw [place_cons, place_cons, freeAt_cons_free hc, freeAt_cons_free hc]

/-- The addresses of the free chunks. -/
def freeAddrs (σ : List Region) : Set ℕ := freeAt (placed σ)

/-- **No two free chunks are adjacent.** -/
def Separated (σ : List Region) : Prop :=
  ∀ r ∈ σ, r.pieces.IsChain fun a b => a.taken = true ∨ b.taken = true

/-- **The heap between two calls.** -/
structure Heap.Represents (coarse : Bool) (h : Heap) (σ : List Region) : Prop where
  holds : h.Holds coarse σ (freeAddrs σ)
  separated : Separated σ

namespace Site

variable {z : Site} {mid mid' l r : List Piece} {c d : Piece} {m : Placed} {coarse : Bool}
  {n s t x : ℕ}

/-! ### The free chunks outside of a part -/

/-- The addresses of the free chunks outside of a part of the size `t`. -/
def frees (z : Site) (t : ℕ) : Set ℕ :=
  freeAt (placed z.before) ∪ freeAt (place z.base 0 z.left) ∪ freeAt
    (place (z.addr + t) 0 z.right) ∪
    freeAt (placed z.after)

theorem freeAddrs_fill :
    freeAddrs (z.fill mid) = freeAt (place z.addr z.prev mid) ∪ z.frees (total mid) := by
  rw [freeAddrs, placed_fill, frees]
  simp only [freeAt_append]
  rw [freeAt_place (p := lastSize z.prev mid)]
  ext x
  simp only [Set.mem_union]
  tauto

theorem notMem_frees (hg : Geometry coarse n (z.fill mid)) (hx : z.addr ≤ x)
    (hx' : x < z.addr + total mid) : x ∉ z.frees (total mid) := by
  intro hmem
  have hin : ∀ m ∈ placed (z.fill mid), m.addr = x →
      ¬(m.addr + m.size ≤ z.addr ∨ z.addr + total mid + total [] ≤ m.addr) := by
    intro m hm haddr hside
    have := (hg.located hm).eight_le
    omega
  rcases hmem with ((⟨m, hm, haddr, -⟩ | ⟨m, hm, haddr, -⟩) | ⟨m, hm, haddr, -⟩) | ⟨m, hm, haddr, -⟩
  · refine hin m ?_ haddr (hg.outside (p := 0) rfl (.inl hm))
    rw [placed_fill]
    exact mem_append_left _ (mem_append_left _ hm)
  · refine hin m ?_ haddr (hg.outside (p := 0) rfl (.inr (.inl hm)))
    rw [placed_fill]
    exact mem_append_left _ (mem_append_right _ (mem_append_left _ hm))
  · have := (bounds_of_mem_place hm).1
    omega
  · refine hin m ?_ haddr (hg.outside (p := 0) rfl (.inr (.inr (.inr hm))))
    rw [placed_fill]
    exact mem_append_right _ hm

/-! ### Growing a part -/

/-- The part takes in the next piece. -/
def eatRight (z : Site) : Site := { z with right := z.right.tail }

/-- The part takes in the previous piece. -/
def eatLeft (z : Site) : Site := { z with left := z.left.dropLast }

theorem fill_eatRight (mid : List Piece) (hright : z.right = c :: r) :
    z.eatRight.fill (mid ++ [c]) = z.fill mid := by
  simp [fill, eatRight, hright]

theorem fill_eatLeft (mid : List Piece) (hleft : z.left = l ++ [d]) :
    z.eatLeft.fill (d :: mid) = z.fill mid := by
  simp [fill, eatLeft, hleft]

theorem frees_eatRight_of_free (hright : z.right = c :: r) (hc : c.taken = false) :
    z.frees t = insert (z.addr + t) (z.eatRight.frees (t + c.size)) := by
  rw [frees, frees, hright, place_cons, freeAt_cons_free hc, eatRight, hright, ← Nat.add_assoc,
    freeAt_place (p := c.size)]
  ext x
  simp only [addr, Set.mem_union, Set.mem_insert_iff]
  tauto

theorem total_left (hleft : z.left = l ++ [d]) : z.addr = z.eatLeft.addr + d.size := by
  rw [addr, addr, eatLeft, hleft, dropLast_concat, total_append, total_cons, total_nil]
  dsimp only
  omega

theorem prev_eq (hleft : z.left = l ++ [d]) : z.prev = d.size := by
  rw [prev, hleft, lastSize_append]
  rfl

theorem frees_eatLeft_of_free (hleft : z.left = l ++ [d]) (hd : d.taken = false) :
    z.frees t = insert z.eatLeft.addr (z.eatLeft.frees (d.size + t)) := by
  have haddr := total_left hleft
  have hplace : freeAt (place z.base 0 z.left) =
      freeAt (place z.base 0 l) ∪ {z.eatLeft.addr} := by
    rw [hleft, place_append, freeAt_append, place_cons, place_nil, freeAt_cons_free hd, freeAt_nil,
      eatLeft, hleft, dropLast_concat, insert_empty_eq]
    rfl
  rw [frees, hplace, haddr, Nat.add_assoc, frees, eatLeft, hleft, dropLast_concat]
  ext x
  simp only [Set.mem_union, Set.mem_insert_iff, Set.mem_singleton_iff]
  tauto

end Site

/-! ### No two free chunks are adjacent -/

section Separated

variable {z : Site} {mid mid' l r : List Piece} {c d : Piece}

theorem separated_fill_iff : Separated (z.fill mid) ↔
    Separated z.before ∧ Separated z.after ∧
      (z.left ++ (mid ++ z.right)).IsChain fun a b => a.taken = true ∨ b.taken = true := by
  simp only [Separated, Site.fill, mem_append, mem_cons]
  constructor
  · intro h
    exact ⟨fun r hr => h r (.inl hr), fun r hr => h r (.inr (.inr hr)), h _ (.inr (.inl rfl))⟩
  · rintro ⟨hbefore, hafter, hchain⟩ r (hr | rfl | hr)
    · exact hbefore r hr
    · exact hchain
    · exact hafter r hr

theorem Separated.next_taken (h : Separated (z.fill mid))
    (hlast : ∀ a ∈ mid.getLast?, a.taken = false)
    (hmid : mid ≠ []) : ∀ b ∈ z.right.head?, b.taken = true := by
  obtain ⟨-, -, hold⟩ := separated_fill_iff.mp h
  rw [isChain_append, isChain_append] at hold
  intro b hb
  obtain ⟨e, he⟩ := Option.ne_none_iff_exists'.mp (getLast?_eq_none_iff.not.mpr hmid)
  refine (hold.2.1.2.2 e he b hb).resolve_left fun htaken => ?_
  rw [hlast e he] at htaken
  exact absurd htaken (by decide)

theorem Separated.prev_taken (h : Separated (z.fill (c :: mid))) (hc : c.taken = false) :
    ∀ a ∈ z.left.getLast?, a.taken = true := by
  obtain ⟨-, -, hold⟩ := separated_fill_iff.mp h
  rw [isChain_append] at hold
  intro a ha
  refine (hold.2.2 a ha c rfl).resolve_right fun htaken => ?_
  rw [hc] at htaken
  exact absurd htaken (by decide)

end Separated

/-! ### Reading the headers -/

namespace Heap

variable {coarse : Bool} {h h' : Heap} {σ : List Region} {L W : Set ℕ} {z : Site}
  {mid l r : List Piece} {c d : Piece} {m : Placed} {s t : ℕ}

theorem HeadOf.isFree_iff (hm : HeadOf h m) (hlt : m.before < 2 ^ 31) :
    h.IsFree m.addr ↔ m.taken = false := by
  rw [IsFree, hm.preceding, tagged_and_allocBit hlt]
  cases m.taken with
  | false => simp
  | true => simp [allocBit]

namespace Holds

variable (hh : Holds coarse h (z.fill mid) L)

include hh

theorem head_mid (hm : m ∈ place z.addr z.prev mid) :
    HeadOf h m ∧ Located h.nodelist m := by
  have hmem : m ∈ placed (z.fill mid) := Site.mem_placed_of_mid hm
  exact ⟨hh.heads m hmem, hh.geometry.located hmem⟩

theorem head_next (hright : z.right = c :: r) :
    HeadOf h (z.next mid c) ∧ Located h.nodelist (z.next mid c) := by
  have hmem : z.next mid c ∈ placed (z.fill mid) :=
    (Site.mem_placed_fill hright).mpr (.inr (.inr (.inr (.inl rfl))))
  exact ⟨hh.heads _ hmem, hh.geometry.located hmem⟩

theorem head_prev (hleft : z.left = l ++ [d]) :
    HeadOf h ⟨z.eatLeft.addr, d.size, lastSize 0 l, d.taken⟩ ∧
      Located h.nodelist ⟨z.eatLeft.addr, d.size, lastSize 0 l, d.taken⟩ := by
  rw [← Site.fill_eatLeft _ hleft] at hh
  refine hh.head_mid ?_
  rw [Site.eatLeft, hleft, dropLast_concat]
  exact mem_cons_self

end Holds

theorem Represents.fine (hr : Represents coarse h σ) : Represents false h σ := by
  have hg := hr.holds.geometry
  refine ⟨{ hr.holds with geometry := { hg with valid := fun r hr' => ?_ } }, hr.separated⟩
  have hvalid := hg.valid r hr'
  obtain ⟨chunks, hpieces, hchunks⟩ := hvalid.chunks
  exact ⟨⟨chunks, hpieces, fun c hc => ⟨(hchunks c hc).le, (hchunks c hc).mod,
    fun hfalse => absurd hfalse Bool.false_ne_true⟩⟩, hvalid.aligned, hvalid.small, hvalid.fits⟩

/-- **The user's bytes change** between two calls. -/
theorem Represents.write (hr : Represents coarse h σ) (mem : Bytes) (hm : m ∈ placed σ)
    (htaken : m.taken = true) (hmem : ∀ x, x < m.addr + 8 ∨ m.addr + m.size ≤ x → mem x = h.mem x) :
    Represents coarse { h with mem := mem } σ ∧ Evolves {m.addr} h σ { h with mem := mem } σ := by
  obtain ⟨hholds, hevolves⟩ := hr.holds.write hm htaken hmem
  exact ⟨⟨hholds, hr.separated⟩, hevolves⟩

end Heap

end GreenboneFeeder.Mm
