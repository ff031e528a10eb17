import GreenboneFeeder.Lib.Linked
import GreenboneFeeder.Mm.Fields
import Mathlib.Data.Finset.Card

/-!
# The list of the free nodes

All free nodes are in one doubly linked list, together with the headers of the array `mm_nodelist`:
behind the header with the index `i` come the nodes of the sizes that `mm_size2ndx` maps to `i`, in
the order of their sizes. The parts between the headers are given by a function `bins`, and
`Mm.Heap.FreeList` says that the memory holds the list.

Taking a node out, putting one in and searching the list know nothing of where the nodes come from,
and change only the links of the nodes of the list (`Mm.Heap.LinksOnly`).
-/

namespace GreenboneFeeder.Mm

open List Function

/-! ### The nodes of the list -/

section Nodes

variable {n i a : ℕ} {bins : ℕ → List ℕ} {l : List ℕ}

/-- The headers and the free nodes, in the order of the list. -/
def nodes (n : ℕ) (bins : ℕ → List ℕ) : List ℕ :=
  (range nnodes).flatMap fun i => (n + 16 * i) :: bins i

/-- The nodes before a header. -/
def front (n : ℕ) (bins : ℕ → List ℕ) (i : ℕ) : List ℕ :=
  (range i).flatMap fun i => (n + 16 * i) :: bins i

/-- The nodes from the next header on. -/
def back (n : ℕ) (bins : ℕ → List ℕ) (i : ℕ) : List ℕ :=
  (range' (i + 1) (nnodes - (i + 1))).flatMap fun i => (n + 16 * i) :: bins i

theorem nodes_eq (n : ℕ) (bins : ℕ → List ℕ) (hi : i < nnodes) :
    nodes n bins = front n bins i ++ (n + 16 * i) :: (bins i ++ back n bins i) := by
  have hrange : range nnodes =
      range i ++ i :: range' (i + 1) (nnodes - (i + 1)) := by
    rw [range_eq_range', range_eq_range', ← range'_succ,
      show nnodes - (i + 1) + 1 = nnodes - i by omega,
      show range' i (nnodes - i) = range' (0 + 1 * i) (nnodes - i) by
        rw [Nat.zero_add, Nat.one_mul],
      range'_append, Nat.add_sub_cancel' hi.le]
  rw [nodes, hrange, flatMap_append, flatMap_cons, cons_append, front, back]

theorem nodes_update (hi : i < nnodes) :
    nodes n (update bins i l) =
      front n bins i ++ (n + 16 * i) :: (l ++ back n bins i) := by
  have hfront : front n (update bins i l) i = front n bins i := by
    refine flatMap_congr fun j hj => ?_
    rw [update_of_ne (mem_range.mp hj).ne]
  have hback : back n (update bins i l) i = back n bins i := by
    refine flatMap_congr fun j hj => ?_
    have hj' := (mem_range'_1.mp hj).1
    rw [update_of_ne (by omega)]
  rw [nodes_eq n _ hi, hfront, hback, update_self]

theorem exists_mem_insert_iff {l₁ l₂ : List ℕ} {b : ℕ} (hi : i < nnodes)
    (hbins : bins i = l₁ ++ l₂) :
    (∃ j < nnodes, b ∈ update bins i (l₁ ++ a :: l₂) j) ↔
      b = a ∨ ∃ j < nnodes, b ∈ bins j := by
  constructor
  · rintro ⟨j, hj, hb⟩
    by_cases hji : j = i
    · subst hji
      rw [update_self, mem_append, mem_cons, or_left_comm, ← mem_append, ← hbins] at hb
      exact hb.imp_right fun hb => ⟨j, hj, hb⟩
    · rw [update_of_ne hji] at hb
      exact .inr ⟨j, hj, hb⟩
  · rintro (rfl | ⟨j, hj, hb⟩)
    · exact ⟨i, hi, by simp⟩
    · refine ⟨j, hj, ?_⟩
      by_cases hji : j = i
      · subst hji
        rw [update_self, mem_append, mem_cons, or_left_comm, ← mem_append, ← hbins]
        exact .inr hb
      · rwa [update_of_ne hji]

theorem mem_nodes : a ∈ nodes n bins ↔ ∃ i < nnodes, a = n + 16 * i ∨ a ∈ bins i := by
  simp [nodes, mem_flatMap]

theorem exists_header_of_head?_back (ha : (back n bins i).head? = some a) :
    ∃ j < nnodes, a = n + 16 * j := by
  cases hk : nnodes - (i + 1) with
  | zero => simp [back, hk] at ha
  | succ k =>
    rw [back, hk] at ha
    exact ⟨i + 1, by omega, (Option.some.inj ha).symm⟩

end Nodes

namespace Heap

variable {h h' h'' : Heap} {bins : ℕ → List ℕ} {a b i p s t x node size fuel : ℕ} {f : Field}
  {l l' l₁ l₂ : List ℕ}

/-- The nodes of a linked list have places of their own. -/
structure Linkable (l : List ℕ) : Prop where
  spaced : ∀ a ∈ l, ∀ b ∈ l, Spaced a b
  pos : ∀ a ∈ l, 0 < a ∧ a < 2 ^ 32
  nodup : l.Nodup

theorem Linkable.sublist (hl : Linkable l) (hsub : l'.Sublist l) : Linkable l' :=
  ⟨fun a ha b hb => hl.spaced a (hsub.subset ha) b (hsub.subset hb),
    fun a ha => hl.pos a (hsub.subset ha), hl.nodup.sublist hsub⟩

theorem Linkable.perm (hl : Linkable l) (hperm : l.Perm l') : Linkable l' :=
  ⟨fun a ha b hb => hl.spaced a (hperm.mem_iff.mpr ha) b (hperm.mem_iff.mpr hb),
    fun a ha => hl.pos a (hperm.mem_iff.mpr ha), hperm.nodup_iff.mp hl.nodup⟩

theorem Linkable.cons (hl : Linkable l) (hpos : 0 < a ∧ a < 2 ^ 32)
    (ha : ∀ b ∈ l, a ≠ b ∧ Spaced a b) : Linkable (a :: l) := by
  refine ⟨fun b hb d hd => ?_, fun b hb => ?_, nodup_cons.mpr ⟨fun hmem => ?_, hl.nodup⟩⟩
  · rcases mem_cons.mp hb with hb | hb <;> rcases mem_cons.mp hd with hd | hd
    · exact .inl (hb.trans hd.symm)
    · exact hb ▸ (ha d hd).2
    · exact hd ▸ (ha b hb).2.symm
    · exact hl.spaced b hb d hd
  · rcases mem_cons.mp hb with rfl | hb
    · exact hpos
    · exact hl.pos b hb
  · exact (ha a hmem).1 rfl

/-- **The memory holds the list of the free nodes.** -/
structure FreeList (h : Heap) (bins : ℕ → List ℕ) : Prop where
  linked : Linked (h.get · .flink) (h.get · .blink) 0 (nodes h.nodelist bins)
  linkable : Linkable (nodes h.nodelist bins)
  header : ∀ i < nnodes, h.get (h.header i) .size = 0
  index : ∀ i < nnodes, ∀ a ∈ bins i, size2ndx (h.get a .size) = i ∧ h.get a .size ≠ 0
  sorted : ∀ i < nnodes, (bins i).Pairwise fun a b => h.get a .size ≤ h.get b .size

namespace FreeList

theorem length_le (hl : FreeList h bins) : (nodes h.nodelist bins).length ≤ 2 ^ 32 := by
  rw [← toFinset_card_of_nodup hl.linkable.nodup, ← Finset.card_range (2 ^ 32)]
  refine Finset.card_le_card fun a ha => Finset.mem_range.mpr ?_
  exact (hl.linkable.pos a (mem_toFinset.mp ha)).2

/-- The list may be looked at in a heap in which its nodes have the same sizes. -/
theorem of_sizes {bins' : ℕ → List ℕ} (hl : FreeList h bins) (hnodelist : h'.nodelist = h.nodelist)
    (hlinked : Linked (h'.get · .flink) (h'.get · .blink) 0 (nodes h.nodelist bins'))
    (hlinkable : Linkable (nodes h.nodelist bins'))
    (hsize : ∀ a ∈ nodes h.nodelist bins', h'.get a .size = h.get a .size)
    (hindex : ∀ i < nnodes, ∀ a ∈ bins' i, size2ndx (h.get a .size) = i ∧ h.get a .size ≠ 0)
    (hsorted : ∀ i < nnodes, (bins' i).Pairwise fun a b => h.get a .size ≤ h.get b .size) :
    FreeList h' bins' := by
  have hmem : ∀ i < nnodes, ∀ a ∈ bins' i, h'.get a .size = h.get a .size :=
    fun i hi a ha => hsize a (mem_nodes.mpr ⟨i, hi, .inr ha⟩)
  refine ⟨hnodelist ▸ hlinked, hnodelist ▸ hlinkable, fun i hi => ?_, fun i hi a ha => ?_,
    fun i hi => ?_⟩
  · rw [Heap.header, hnodelist]
    exact (hsize _ (mem_nodes.mpr ⟨i, hi, .inl rfl⟩)).trans (hl.header i hi)
  · rw [hmem i hi a ha]
    exact hindex i hi a ha
  · refine (hsorted i hi).imp_of_mem fun {a b} ha hb hab => ?_
    rw [hmem i hi a ha, hmem i hi b hb]
    exact hab

/-- The list is the same in a heap that agrees on the sizes and the links of its nodes. -/
theorem congr (hl : FreeList h bins) (hnodelist : h'.nodelist = h.nodelist)
    (hsize : ∀ a ∈ nodes h.nodelist bins, h'.get a .size = h.get a .size)
    (hflink : ∀ a ∈ nodes h.nodelist bins, h'.get a .flink = h.get a .flink)
    (hblink : ∀ a ∈ nodes h.nodelist bins, h'.get a .blink = h.get a .blink) :
    FreeList h' bins :=
  hl.of_sizes hnodelist (hl.linked.congr hflink hblink) hl.linkable hsize hl.index hl.sorted

end FreeList

/-- **Nothing but the links of some nodes has changed.** -/
structure LinksOnly (l : List ℕ) (h h' : Heap) : Prop where
  same : h' = { h with mem := h'.mem }
  mem : ∀ x, (∀ b ∈ l, x < b + 8 ∨ b + 16 ≤ x) → h'.mem x = h.mem x

namespace LinksOnly

theorem nodelist (hs : LinksOnly l h h') : h'.nodelist = h.nodelist := by rw [hs.same]

theorem refl (l : List ℕ) (h : Heap) : LinksOnly l h h := ⟨rfl, fun _ _ => rfl⟩

theorem trans (hs : LinksOnly l h h') (hs' : LinksOnly l h' h'') : LinksOnly l h h'' :=
  ⟨by rw [hs'.same, hs.same], fun x hx => (hs'.mem x hx).trans (hs.mem x hx)⟩

theorem set (ha : a ∈ l) (hf : f = .flink ∨ f = .blink) (v : ℕ) :
    LinksOnly l h (h.set a f v) := by
  refine ⟨rfl, fun x hx => mem_set_of_outside ?_⟩
  have := hx a ha
  rcases hf with rfl | rfl <;> simp only [Field.offset] <;> omega

/-- The first two members of a node do not change if they are not where the links are. -/
theorem get_eq (hs : LinksOnly l h h') (ha : ∀ b ∈ l, a ≤ b ∨ b + 16 ≤ a)
    (hf : f = .size ∨ f = .preceding) : h'.get a f = h.get a f := by
  refine get_congr fun x hx hx' => hs.mem x fun b hb => ?_
  have hoff : f.offset + 4 ≤ 8 := by rcases hf with rfl | rfl <;> decide
  have := ha b hb
  omega

end LinksOnly

/-! ### Taking a node out -/

theorem get_unlink (hpa : h.get a .blink ≠ a) (hap : Spaced a (h.get a .blink))
    (hp : Spaced x (h.get a .blink)) (hs : h.get a .flink ≠ 0 → Spaced x (h.get a .flink)) :
    (h.unlink a).get x f =
      if x = h.get a .blink ∧ f = .flink then h.get a .flink
      else if (h.get a .flink ≠ 0 ∧ x = h.get a .flink) ∧ f = .blink then h.get a .blink
      else h.get x f := by
  have hflink : h.get a .flink % 2 ^ 32 = h.get a .flink := Nat.mod_eq_of_lt get_lt
  have hblink : h.get a .blink % 2 ^ 32 = h.get a .blink := Nat.mod_eq_of_lt get_lt
  have ha : ∀ f, (h.set (h.get a .blink) .flink (h.get a .flink)).get a f = h.get a f := by
    intro f
    rw [get_set hap, if_neg fun hc => hpa hc.1.symm]
  have hset : (h.set (h.get a .blink) .flink (h.get a .flink)).get x f =
      if x = h.get a .blink ∧ f = .flink then h.get a .flink else h.get x f := by
    rw [get_set hp, hflink]
  rw [unlink]
  simp only [ha]
  by_cases hnull : h.get a .flink = 0
  · rw [if_neg (not_not.mpr hnull), hset]
    simp [hnull]
  · rw [if_pos hnull, get_set (hs hnull), hset, hblink]
    by_cases hb : x = h.get a .flink ∧ f = .blink
    · obtain ⟨rfl, rfl⟩ := hb
      simp [hnull]
    · simp only [ne_eq, hnull, not_false_eq_true, true_and, if_neg hb]

theorem unlink_linksOnly (hp : h.get a .blink ∈ l) (hs : h.get a .flink ≠ 0 → h.get a .flink ∈ l)
    (hpa : h.get a .blink ≠ a) (hap : Spaced a (h.get a .blink)) :
    LinksOnly l h (h.unlink a) := by
  have ha : (h.set (h.get a .blink) .flink (h.get a .flink)).get a .flink = h.get a .flink := by
    rw [get_set hap, if_neg fun hc => hpa hc.1.symm]
  rw [unlink]
  simp only [ha]
  split
  · next hnull => exact (LinksOnly.set hp (.inl rfl) _).trans (.set (hs hnull) (.inr rfl) _)
  · exact .set hp (.inl rfl) _

theorem sublist_insert : (l₁ ++ p :: l₂).Sublist (l₁ ++ p :: a :: l₂) :=
  (Sublist.refl _).append ((sublist_cons_self a _).cons_cons p)

section

variable (hl : Linkable (l₁ ++ p :: a :: l₂))

include hl

theorem Linkable.ne_of_mem (hx : x ∈ l₁ ++ p :: l₂) : x ≠ a := by
  rintro rfl
  have hperm : (l₁ ++ p :: x :: l₂).Perm (x :: (l₁ ++ p :: l₂)) := by
    rw [append_cons, append_cons l₁ p l₂]
    exact perm_middle
  exact (nodup_cons.mp (hperm.nodup_iff.mp hl.nodup)).1 hx

/-- The node behind is known by its address. -/
theorem Linkable.next (hs : s = l₂.head?.getD 0) :
    (∀ x, (s ≠ 0 ∧ x = s) ↔ l₂.head? = some x) ∧ (s ≠ 0 → s ∈ l₁ ++ p :: l₂) := by
  rw [hs]
  cases hc : l₂.head? with
  | none => simp
  | some y =>
    have hy : y ∈ l₁ ++ p :: l₂ := by simp [mem_of_head? hc]
    have hpos := (hl.pos y (sublist_insert.subset hy)).1
    simp only [Option.getD_some, Option.some.injEq]
    exact ⟨fun x => ⟨fun hx => hx.2.symm, fun hx => ⟨by omega, hx.symm⟩⟩, fun _ => hy⟩

end

/-- **A node is taken out** of a linked list. -/
theorem unlink_spec (hlinked : Linked (h.get · .flink) (h.get · .blink) 0 (l₁ ++ p :: a :: l₂))
    (hl : Linkable (l₁ ++ p :: a :: l₂)) :
    Linked ((h.unlink a).get · .flink) ((h.unlink a).get · .blink) 0 (l₁ ++ p :: l₂) ∧
      LinksOnly (l₁ ++ p :: l₂) h (h.unlink a) ∧
      ∀ x ∈ l₁ ++ p :: a :: l₂, (h.unlink a).get x .size = h.get x .size := by
  have hblink : h.get a .blink = p := hlinked.prev_eq
  have hflink : h.get a .flink = l₂.head?.getD 0 := by
    rw [append_cons] at hlinked
    exact hlinked.next_eq
  have hpmem : p ∈ l₁ ++ p :: a :: l₂ := by simp
  have hamem : a ∈ l₁ ++ p :: a :: l₂ := by simp
  have hsub : (l₁ ++ p :: l₂).Sublist (l₁ ++ p :: a :: l₂) := sublist_insert
  have hpa : p ≠ a := hl.ne_of_mem (by simp)
  obtain ⟨hhead, hsucc⟩ := hl.next hflink
  have hget : ∀ {x : ℕ} {f : Field}, x ∈ l₁ ++ p :: a :: l₂ → (h.unlink a).get x f =
      if x = p ∧ f = .flink then h.get a .flink
      else if l₂.head? = some x ∧ f = .blink then p else h.get x f := by
    intro x f hx
    rw [get_unlink (hblink ▸ hpa) (hblink ▸ hl.spaced a hamem p hpmem)
      (hblink ▸ hl.spaced x hx p hpmem) fun hne => hl.spaced x hx _ (hsub.subset (hsucc hne)),
        hblink]
    simp only [hhead]
  refine ⟨hlinked.unlink (hl.nodup.sublist hsub) (fun x hx => ?_) fun x hx => ?_,
    unlink_linksOnly (hblink ▸ by simp) hsucc (hblink ▸ hpa) (hblink ▸ hl.spaced a hamem p hpmem),
    fun x hx => ?_⟩
  · rw [hget (hsub.subset hx)]
    simp
  · rw [hget (hsub.subset hx)]
    simp
  · rw [hget hx]
    simp

/-- **A free node is taken out of the list.** -/
theorem FreeList.unlink (hl : FreeList h bins) (hi : i < nnodes) (ha : a ∈ bins i) :
    FreeList (h.unlink a) (update bins i ((bins i).erase a)) ∧
      LinksOnly (nodes h.nodelist (update bins i ((bins i).erase a))) h (h.unlink a) := by
  obtain ⟨l₁, l₂, hnew, hsplit, herase⟩ := exists_erase_eq ha
  obtain ⟨l₀, p, hp⟩ : ∃ l p, (h.nodelist + 16 * i) :: l₁ = l ++ [p] :=
    ⟨_, _, (dropLast_append_getLast (cons_ne_nil _ _)).symm⟩
  have hnodes : nodes h.nodelist bins = (front h.nodelist bins i ++ l₀) ++
      p :: a :: (l₂ ++ back h.nodelist bins i) := by
    rw [nodes_eq h.nodelist bins hi, hsplit, append_assoc, ← cons_append, hp]
    simp
  have hnodes' : nodes h.nodelist (update bins i ((bins i).erase a)) =
      (front h.nodelist bins i ++ l₀) ++ p :: (l₂ ++ back h.nodelist bins i) := by
    rw [nodes_update hi, herase, append_assoc, ← cons_append, hp]
    simp
  have hsub : (nodes h.nodelist (update bins i ((bins i).erase a))).Sublist
      (nodes h.nodelist bins) := by
    rw [hnodes, hnodes']
    exact sublist_insert
  have hbins : ∀ j, (update bins i ((bins i).erase a) j).Sublist (bins j) := by
    intro j
    by_cases hj : j = i
    · subst hj
      rw [update_self]
      exact erase_sublist
    · rw [update_of_ne hj]
  obtain ⟨hlinked, honly, hsize⟩ := unlink_spec (hnodes ▸ hl.linked) (hnodes ▸ hl.linkable)
  rw [← hnodes'] at honly
  rw [← hnodes] at hsize
  exact ⟨hl.of_sizes honly.nodelist (hnodes' ▸ hlinked) (hl.linkable.sublist hsub)
    (fun x hx => hsize x (hsub.subset hx))
    (fun j hj x hx => hl.index j hj x ((hbins j).subset hx))
    fun j hj => (hl.sorted j hj).sublist (hbins j), honly⟩

/-! ### Putting a node in -/

theorem get_linkBetween (hxa : Spaced x a) (hxp : Spaced x p) (hxs : s ≠ 0 → Spaced x s)
    (hsa : s ≠ a) (ha' : a < 2 ^ 32) (hp' : p < 2 ^ 32) (hs' : s < 2 ^ 32) :
    (h.linkBetween p a s).get x f =
      if x = a ∧ f = .flink then s else if x = a ∧ f = .blink then p
      else if x = p ∧ f = .flink then a else if (s ≠ 0 ∧ x = s) ∧ f = .blink then a
      else h.get x f := by
  have hset : (((h.set p .flink a).set a .blink p).set a .flink s).get x f =
        if x = a ∧ f = .flink then s else if x = a ∧ f = .blink then p
        else if x = p ∧ f = .flink then a else h.get x f := by
    rw [get_set hxa, get_set hxa, get_set hxp, Nat.mod_eq_of_lt ha', Nat.mod_eq_of_lt hp',
      Nat.mod_eq_of_lt hs']
  rw [linkBetween]
  by_cases hnull : s = 0
  · subst hnull
    exact hset
  · simp only [ne_eq, hnull, not_false_eq_true, if_true, true_and]
    rw [get_set (hxs hnull), hset, Nat.mod_eq_of_lt ha']
    by_cases hb : x = s ∧ f = .blink
    · obtain ⟨rfl, rfl⟩ := hb
      simp [hsa]
    · simp only [if_neg hb]

theorem linkBetween_linksOnly (hp : p ∈ l) (ha : a ∈ l) (hs : s ≠ 0 → s ∈ l) :
    LinksOnly l h (h.linkBetween p a s) := by
  have hset : LinksOnly l h (((h.set p .flink a).set a .blink p).set a .flink s) :=
    ((LinksOnly.set hp (.inl rfl) _).trans (.set ha (.inr rfl) _)).trans
      (.set ha (.inl rfl) _)
  rw [linkBetween]
  by_cases hnull : s = 0
  · rw [if_neg (not_not.mpr hnull)]
    exact hset
  · rw [if_pos hnull]
    exact hset.trans (.set (hs hnull) (.inr rfl) _)

/-- **A node is put in** a linked list. -/
theorem linkBetween_spec (hlinked : Linked (h.get · .flink) (h.get · .blink) 0 (l₁ ++ p :: l₂))
    (hl : Linkable (l₁ ++ p :: a :: l₂)) (hs : s = l₂.head?.getD 0) :
    Linked ((h.linkBetween p a s).get · .flink) ((h.linkBetween p a s).get · .blink) 0
        (l₁ ++ p :: a :: l₂) ∧
      LinksOnly (l₁ ++ p :: a :: l₂) h (h.linkBetween p a s) ∧
      ∀ x ∈ l₁ ++ p :: a :: l₂, (h.linkBetween p a s).get x .size = h.get x .size := by
  have hsub : (l₁ ++ p :: l₂).Sublist (l₁ ++ p :: a :: l₂) := sublist_insert
  have hpmem : p ∈ l₁ ++ p :: a :: l₂ := by simp
  have hamem : a ∈ l₁ ++ p :: a :: l₂ := by simp
  obtain ⟨hhead, hsucc⟩ := hl.next hs
  have hsmem : s ≠ 0 → s ∈ l₁ ++ p :: a :: l₂ := fun hnull => hsub.subset (hsucc hnull)
  -- the new node is none of the others
  have hne : ∀ x ∈ l₁ ++ p :: l₂, x ≠ a := fun x => hl.ne_of_mem
  obtain ⟨hsa, hslt⟩ : s ≠ a ∧ s < 2 ^ 32 := by
    by_cases hnull : s = 0
    · have := (hl.pos a hamem).1
      omega
    · exact ⟨hne s (hsucc hnull), (hl.pos s (hsmem hnull)).2⟩
  have hget : ∀ {x : ℕ} {f : Field}, x ∈ l₁ ++ p :: a :: l₂ → (h.linkBetween p a s).get x f =
      if x = a ∧ f = .flink then s else if x = a ∧ f = .blink then p
      else if x = p ∧ f = .flink then a else if l₂.head? = some x ∧ f = .blink then a
      else h.get x f := by
    intro x f hx
    rw [get_linkBetween (hl.spaced x hx a hamem) (hl.spaced x hx p hpmem)
      (fun hnull => hl.spaced x hx s (hsmem hnull)) hsa (hl.pos a hamem).2 (hl.pos p hpmem).2 hslt]
    simp only [hhead]
  refine ⟨hlinked.insert (hl.nodup.sublist hsub) ?_ ?_ (fun x hx => ?_) fun x hx => ?_,
    linkBetween_linksOnly hpmem hamem hsmem, fun x hx => ?_⟩
  · rw [hget hamem]
    simp [hs]
  · rw [hget hamem]
    simp
  · rw [hget (hsub.subset hx)]
    simp [hne x hx]
  · rw [hget (hsub.subset hx)]
    simp [hne x hx]
  · rw [hget hx]
    simp

/-! ### Searching the list -/

theorem search_eq (l₁ : List ℕ) (p : ℕ)
    (hlinked : Linked (h.get · .flink) (h.get · .blink) 0 (l₁ ++ p :: l)) (hpos : ∀ a ∈ l, 0 < a)
    (hfuel : l.length < fuel) :
    h.search size fuel (l.head?.getD 0) =
      some ((l.find? fun a => size ≤ h.get a .size).getD 0) := by
  induction l generalizing l₁ p fuel with
  | nil =>
    obtain ⟨fuel, rfl⟩ := Nat.exists_eq_add_one.mpr (Nat.zero_lt_of_lt hfuel)
    rw [search]
    simp
  | cons a l ih =>
    obtain ⟨fuel, rfl⟩ := Nat.exists_eq_add_one.mpr (Nat.zero_lt_of_lt hfuel)
    have ha : a ≠ 0 := (hpos a mem_cons_self).ne'
    rw [append_cons] at hlinked
    have hnext : h.get a .flink = l.head?.getD 0 := hlinked.next_eq
    rw [head?_cons, Option.getD_some, search]
    by_cases hsize : h.get a .size < size
    · rw [if_pos ⟨ha, hsize⟩, hnext, find?_cons_of_neg (by simpa using hsize)]
      exact ih (l₁ ++ [p]) a hlinked (fun b hb => hpos b (mem_cons_of_mem a hb))
        (Nat.lt_of_succ_lt_succ hfuel)
    · rw [if_neg fun hc => hsize hc.2, find?_cons_of_pos (by simpa using hsize), Option.getD_some]

/-- The loop of `mm_addfreechunk` skips the smaller nodes, and stops at the next header. -/
theorem skipSmaller_eq (size : ℕ) (l₁ : List ℕ) (p : ℕ)
    (hlinked : Linked (h.get · .flink) (h.get · .blink) 0 (l₁ ++ p :: l)) (hpos : ∀ a ∈ l, 0 < a)
    (hfuel : l.length < fuel) :
    ∃ m q r, p :: l = m ++ q :: r ∧
      h.skipSmaller size fuel p (l.head?.getD 0) = some (q, r.head?.getD 0) ∧
      (∀ a ∈ (m ++ [q]).tail, h.get a .size ≠ 0 ∧ h.get a .size < size) ∧
      ∀ a ∈ r.head?, h.get a .size = 0 ∨ size ≤ h.get a .size := by
  induction l generalizing l₁ p fuel with
  | nil =>
    obtain ⟨fuel, rfl⟩ := Nat.exists_eq_add_one.mpr (Nat.zero_lt_of_lt hfuel)
    refine ⟨[], p, [], rfl, ?_, by simp, by simp⟩
    rw [skipSmaller]
    simp
  | cons a l ih =>
    obtain ⟨fuel, rfl⟩ := Nat.exists_eq_add_one.mpr (Nat.zero_lt_of_lt hfuel)
    have ha : a ≠ 0 := (hpos a mem_cons_self).ne'
    rw [append_cons] at hlinked
    have hnext : h.get a .flink = l.head?.getD 0 := hlinked.next_eq
    rw [head?_cons, Option.getD_some, skipSmaller]
    by_cases hskip : h.get a .size ≠ 0 ∧ h.get a .size < size
    · rw [if_pos ⟨ha, hskip⟩, hnext]
      obtain ⟨m, q, r, hsplit, hres, hsmaller, hstop⟩ := ih (l₁ ++ [p]) a hlinked
        (fun b hb => hpos b (mem_cons_of_mem a hb)) (Nat.lt_of_succ_lt_succ hfuel)
      refine ⟨p :: m, q, r, by rw [hsplit]; rfl, hres, fun b hb => ?_, hstop⟩
      cases m with
      | nil =>
        obtain ⟨rfl, -⟩ := cons_eq_cons.mp hsplit
        rw [mem_singleton.mp hb]
        exact hskip
      | cons d m =>
        obtain ⟨rfl, -⟩ := cons_eq_cons.mp hsplit
        rcases mem_cons.mp hb with rfl | hb
        · exact hskip
        · exact hsmaller b hb
    · rw [if_neg fun hc => hskip hc.2]
      refine ⟨[], p, a :: l, rfl, rfl, by simp, fun b hb => ?_⟩
      cases hb
      rw [not_and_or, not_not, Nat.not_lt] at hskip
      exact hskip

namespace FreeList

section

variable (hl : FreeList h bins)

include hl

theorem linked_header (hi : i < nnodes) :
    Linked (h.get · .flink) (h.get · .blink) 0
        (front h.nodelist bins i ++ h.header i :: (bins i ++ back h.nodelist bins i)) ∧
      h.get (h.header i) .flink = (bins i ++ back h.nodelist bins i).head?.getD 0 ∧
      (∀ a ∈ bins i ++ back h.nodelist bins i, 0 < a) ∧
      (bins i ++ back h.nodelist bins i).length < Heap.fuel := by
  have hnodes := nodes_eq h.nodelist bins hi
  have hlinked := hl.linked
  have hlen := hl.length_le
  rw [hnodes] at hlinked hlen
  refine ⟨hlinked, hlinked.next_eq, fun a ha => (hl.linkable.pos a ?_).1, ?_⟩
  · rw [hnodes]
    exact mem_append_right _ (mem_cons_of_mem _ ha)
  · rw [length_append, length_cons] at hlen
    rw [Heap.fuel]
    omega

theorem nodup_bin (hi : i < nnodes) : (bins i).Nodup := by
  have hnodup := hl.linkable.nodup
  rw [nodes_eq h.nodelist bins hi] at hnodup
  exact (nodup_append.mp (nodup_cons.mp (nodup_append.mp hnodup).2.1).2).1

theorem mem_erase_iff (hi : i < nnodes) (ha : a ∈ bins i) {j : ℕ} (hj : j < nnodes) :
    b ∈ update bins i ((bins i).erase a) j ↔ b ∈ bins j ∧ b ≠ a := by
  by_cases hji : j = i
  · subst hji
    rw [update_self, (hl.nodup_bin hj).mem_erase_iff, and_comm]
  · rw [update_of_ne hji]
    refine ⟨fun hb => ⟨hb, ?_⟩, And.left⟩
    rintro rfl
    exact hji ((hl.index j hj b hb).1.symm.trans (hl.index i hi b ha).1)

/-- **The list is ordered by size**, but for the headers in it. -/
theorem ordered : (nodes h.nodelist bins).Pairwise fun a b =>
    h.get a .size ≠ 0 → h.get b .size ≠ 0 → h.get a .size ≤ h.get b .size := by
  rw [nodes, pairwise_flatMap]
  refine ⟨fun i hi => pairwise_cons.mpr ⟨fun b _ hne => ?_, ?_⟩,
    pairwise_lt_range.imp_of_mem fun {i j} hi hj hij a ha b hb hne hne' => ?_⟩
  · exact absurd (hl.header i (mem_range.mp hi)) hne
  · exact (hl.sorted i (mem_range.mp hi)).imp fun hle _ _ => hle
  · rcases mem_cons.mp ha with rfl | ha
    · exact absurd (hl.header i (mem_range.mp hi)) hne
    rcases mem_cons.mp hb with rfl | hb
    · exact absurd (hl.header j (mem_range.mp hj)) hne'
    -- the chunks of another part are larger, since the index grows with the size
    have hai := (hl.index i (mem_range.mp hi) a ha).1
    have hbj := (hl.index j (mem_range.mp hj) b hb).1
    by_contra hle
    have := size2ndx_mono (Nat.le_of_lt (Nat.lt_of_not_le hle))
    omega

theorem mem_behind {k : ℕ} (hk : k < nnodes) (hb : b ∈ bins k) (hle : size ≤ h.get b .size) :
    b ∈ bins (size2ndx size) ++ back h.nodelist bins (size2ndx size) := by
  have hindex := (hl.index k hk b hb).1
  have hmono := size2ndx_mono hle
  rw [hindex] at hmono
  rcases Nat.eq_or_lt_of_le hmono with heq | hlt
  · rw [heq]
    exact mem_append_left _ hb
  · refine mem_append_right _ (mem_flatMap.mpr ⟨k, ?_, mem_cons_of_mem _ hb⟩)
    rw [mem_range'_1]
    omega

/-- **The search of `mm_malloc`** gives a smallest free node that is large enough, and `NULL` if
there is none. -/
theorem search_spec (size : ℕ) (hsize : 0 < size) :
    ∃ node, h.search size Heap.fuel (h.get (h.header (size2ndx size)) .flink) = some node ∧
      ((node = 0 ∧ ∀ k < nnodes, ∀ b ∈ bins k, h.get b .size < size) ∨
        ∃ j < nnodes, node ∈ bins j ∧ size ≤ h.get node .size ∧
          ∀ k < nnodes, ∀ b ∈ bins k, size ≤ h.get b .size → h.get node .size ≤ h.get b .size) := by
  have hi := size2ndx_lt (s := size)
  obtain ⟨hlinked, hflink, hpos, hfuel⟩ := hl.linked_header hi
  rw [hflink, search_eq _ _ hlinked hpos hfuel]
  refine ⟨_, rfl, ?_⟩
  have hnodes := nodes_eq h.nodelist bins hi
  cases hfind : (bins (size2ndx size) ++ back h.nodelist bins (size2ndx size)).find?
      fun a => size ≤ h.get a .size with
  | none =>
    refine .inl ⟨rfl, fun k hk b hb => Nat.lt_of_not_le fun hle => ?_⟩
    have := find?_eq_none.mp hfind b (hl.mem_behind hk hb hle)
    exact this (decide_eq_true hle)
  | some node =>
    obtain ⟨hle, l₁, l₂, hsplit, hfirst⟩ := find?_eq_some_iff_append.mp hfind
    have hle := of_decide_eq_true hle
    have hmem : node ∈ nodes h.nodelist bins := by
      rw [hnodes]
      exact mem_append_right _ (mem_cons_of_mem _ (mem_of_find?_eq_some hfind))
    obtain ⟨j, hj, rfl | hnode⟩ := mem_nodes.mp hmem
    · -- a header has the size zero
      have hzero := hl.header j hj
      rw [Heap.header, sizeofFreeNode] at hzero
      omega
    · refine .inr ⟨j, hj, hnode, hle, fun k hk b hb hbig => ?_⟩
      have hbehind := hl.mem_behind hk hb hbig
      rw [hsplit] at hbehind
      rcases mem_append.mp hbehind with hb' | hb'
      · have := hfirst b hb'
        simp only [Bool.not_eq_true', decide_eq_false_iff_not] at this
        exact absurd hbig this
      rcases mem_cons.mp hb' with rfl | hb'
      · exact Nat.le_refl _
      · have hordered := hl.ordered
        rw [hnodes, hsplit, pairwise_append, pairwise_cons, pairwise_append,
          pairwise_cons] at hordered
        exact hordered.2.1.2.2.1.1 b hb' (hl.index j hj _ hnode).2 (hl.index k hk b hb).2

/-- **The place for a chunk** is between the smaller ones and the others of its part of the list. -/
theorem exists_place (hi : i < nnodes) (size : ℕ) :
    ∃ l₁ l₂ l₀ q, bins i = l₁ ++ l₂ ∧ h.header i :: l₁ = l₀ ++ [q] ∧
      h.skipSmaller size Heap.fuel (h.header i) (h.get (h.header i) .flink) =
        some (q, (l₂ ++ back h.nodelist bins i).head?.getD 0) ∧
      (∀ b ∈ l₁, h.get b .size < size) ∧ ∀ b ∈ l₂, size ≤ h.get b .size := by
  obtain ⟨hlinked, hflink, hpos, hfuel⟩ := hl.linked_header hi
  obtain ⟨m, q, r, hsplit, hskip, hsmaller, hstop⟩ :=
    skipSmaller_eq size _ _ hlinked hpos hfuel
  rw [← hflink] at hskip
  -- the headers have the size zero, so the place is in front of the next one
  obtain ⟨l₁, l₂, hbins, hm, rfl⟩ : ∃ l₁ l₂, bins i = l₁ ++ l₂ ∧ h.header i :: l₁ = m ++ [q] ∧
      r = l₂ ++ back h.nodelist bins i := by
    rw [← cons_append, append_cons m q r] at hsplit
    rcases append_eq_append_iff.mp hsplit with ⟨t, hm, hr⟩ | ⟨t, hm, hr⟩
    · cases t with
      | nil =>
        rw [append_nil] at hm
        exact ⟨bins i, [], (append_nil _).symm, hm.symm, hr.symm⟩
      | cons b t =>
        obtain ⟨j, hj, rfl⟩ := exists_header_of_head?_back (by rw [hr]; rfl)
        refine absurd (hl.header j hj) (hsmaller _ ?_).1
        rw [hm]
        exact mem_append_right _ mem_cons_self
    · cases m with
      | nil =>
        obtain ⟨rfl, rfl⟩ := cons_eq_cons.mp hm
        exact ⟨[], _, rfl, rfl, hr⟩
      | cons b m =>
        obtain ⟨rfl, hbins⟩ := cons_eq_cons.mp hm
        exact ⟨m ++ [q], t, hbins, rfl, hr⟩
  refine ⟨l₁, l₂, m, q, hbins, hm, hskip, fun b hb => (hsmaller b ?_).2, fun b hb => ?_⟩
  · rw [← hm]
    exact hb
  · have hsorted := hl.sorted i hi
    cases l₂ with
    | nil => exact absurd hb not_mem_nil
    | cons d l₂ =>
      have hd : d ∈ bins i := by simp [hbins]
      have hsize := (hstop d rfl).resolve_left (hl.index i hi d hd).2
      rw [hbins] at hsorted
      rcases mem_cons.mp hb with rfl | hb
      · exact hsize
      · exact Nat.le_trans hsize (rel_of_pairwise_cons (pairwise_append.mp hsorted).2.1 hb)

/-- **A chunk is put into the list** of the free nodes. The links of the nodes of the list are
all that changes. -/
theorem add (hpos : 0 < a ∧ a < 2 ^ 32) (hspaced : ∀ b ∈ nodes h.nodelist bins, a ≠ b ∧ Spaced a b)
    (hsize : h.get a .size ≠ 0) (hi : size2ndx (h.get a .size) = i) :
    ∃ h' l₁ l₂, h.addFreeChunk a = some h' ∧ bins i = l₁ ++ l₂ ∧
      FreeList h' (update bins i (l₁ ++ a :: l₂)) ∧
      LinksOnly (nodes h.nodelist (update bins i (l₁ ++ a :: l₂)))
        { h with passed := h.get a .size :: h.passed } h' := by
  have hi' : i < nnodes := hi ▸ size2ndx_lt
  have hl₀ : FreeList { h with passed := h.get a .size :: h.passed } bins :=
    hl.congr rfl (fun _ _ => rfl) (fun _ _ => rfl) fun _ _ => rfl
  obtain ⟨l₁, l₂, l₀, q, hbins, hq, hskip, hsmaller, hlarger⟩ :=
    hl₀.exists_place hi' (h.get a .size)
  have hq' : (h.nodelist + 16 * i) :: l₁ = l₀ ++ [q] := hq
  have hnodes : nodes h.nodelist bins =
      (front h.nodelist bins i ++ l₀) ++ q :: (l₂ ++ back h.nodelist bins i) := by
    rw [nodes_eq h.nodelist bins hi', hbins, append_assoc, ← cons_append, hq']
    simp
  have hnodes' : nodes h.nodelist (update bins i (l₁ ++ a :: l₂)) =
      (front h.nodelist bins i ++ l₀) ++ q :: a :: (l₂ ++ back h.nodelist bins i) := by
    rw [nodes_update hi', append_assoc, ← cons_append, hq']
    simp
  have hperm : (nodes h.nodelist (update bins i (l₁ ++ a :: l₂))).Perm
      (a :: nodes h.nodelist bins) := by
    rw [hnodes, hnodes', append_cons, append_cons _ q (l₂ ++ _)]
    exact perm_middle
  have hlinkable : Linkable (nodes h.nodelist (update bins i (l₁ ++ a :: l₂))) :=
    (hl.linkable.cons hpos hspaced).perm hperm.symm
  obtain ⟨hlinked, honly, hsame⟩ :=
    linkBetween_spec (hnodes ▸ hl₀.linked) (hnodes' ▸ hlinkable) rfl
  rw [← hnodes'] at hlinked honly hsame
  refine ⟨_, l₁, l₂, ?_, hbins, hl₀.of_sizes honly.nodelist hlinked hlinkable hsame ?_ ?_, honly⟩
  · rw [addFreeChunk]
    have hsize' : ({ h with passed := h.get a .size :: h.passed } : Heap).get a .size =
      h.get a .size := rfl
    rw [hsize', hi, hskip, Option.bind_eq_bind, Option.bind_some]
  · intro j hj b hb
    by_cases hji : j = i
    · subst hji
      rw [update_self, mem_append, mem_cons, or_left_comm, ← mem_append, ← hbins] at hb
      rcases hb with rfl | hb
      · exact ⟨hi, hsize⟩
      · exact hl₀.index j hj b hb
    · rw [update_of_ne hji] at hb
      exact hl₀.index j hj b hb
  · intro j hj
    by_cases hji : j = i
    · subst hji
      have hsorted := hl₀.sorted j hj
      rw [hbins, pairwise_append] at hsorted
      rw [update_self, pairwise_append, pairwise_cons]
      refine ⟨hsorted.1, ⟨hlarger, hsorted.2.1⟩, fun b hb d hd => ?_⟩
      rcases mem_cons.mp hd with rfl | hd
      · exact (hsmaller b hb).le
      · exact hsorted.2.2 b hb d hd
    · rw [update_of_ne hji]
      exact hl₀.sorted j hj

end

end FreeList

end Heap

end GreenboneFeeder.Mm
