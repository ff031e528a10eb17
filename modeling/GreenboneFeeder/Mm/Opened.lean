import GreenboneFeeder.Mm.Represents

/-!
# A call at work

A call works on a part of the tiling. None of the chunks in the part is in the list, and all free
chunks outside of it are: `Mm.Heap.Opened`. The part grows when a free neighbour is taken out of the
list, is divided in another way when headers are written, and shrinks when a free chunk at one of
its ends is put into the list, until the call is done (`Mm.Heap.Opened.close`).

The chunks of the other users are outside of the part. The bytes of the user who called are those in
a set `K` of addresses, and `v` says what they should be.
-/

namespace GreenboneFeeder.Mm

open List Site Set

open Tiling

/-- One of two neighbours is allocated. -/
def EitherTaken (a b : Piece) : Prop := a.taken = true ∨ b.taken = true

namespace Site

/-- Around a part, no two free chunks are adjacent. -/
structure Apart (z : Site) : Prop where
  before : Separated z.before
  after : Separated z.after
  left : z.left.IsChain EitherTaken
  right : z.right.IsChain EitherTaken

/-- The part gives up its first piece. -/
def spitLeft (z : Site) (c : Piece) : Site := { z with left := z.left ++ [c] }

/-- The part gives up its last piece. -/
def spitRight (z : Site) (c : Piece) : Site := { z with right := c :: z.right }

variable {z : Site} {mid l r : List Piece} {c d : Piece} {m : Placed} {t : ℕ}

theorem fill_spitLeft (mid : List Piece) : (z.spitLeft c).fill mid = z.fill (c :: mid) := by
  simp [fill, spitLeft]

theorem fill_spitRight : (z.spitRight c).fill mid = z.fill (mid ++ [c]) := by
  simp [fill, spitRight]

theorem addr_spitLeft : (z.spitLeft c).addr = z.addr + c.size := by
  simp [addr, spitLeft, Nat.add_assoc]

theorem prev_spitLeft : (z.spitLeft c).prev = c.size := by simp [prev, spitLeft]

theorem frees_spitLeft (hc : c.taken = false) :
    (z.spitLeft c).frees t = insert z.addr (z.frees (c.size + t)) := by
  have heat : (z.spitLeft c).eatLeft = z := by simp [spitLeft, eatLeft]
  rw [frees_eatLeft_of_free rfl hc, heat]

theorem frees_spitRight (hc : c.taken = false) :
    (z.spitRight c).frees t = insert (z.addr + t) (z.frees (t + c.size)) := by
  rw [frees_eatRight_of_free rfl hc]
  rfl

variable (hz : z.Apart)

include hz

theorem Apart.spitLeft (hc : ∀ a ∈ z.left.getLast?, EitherTaken a c) :
    (z.spitLeft c).Apart := by
  refine { hz with left := ?_ }
  rw [Site.spitLeft, isChain_append]
  refine ⟨hz.left, isChain_singleton c, fun a ha b hb => ?_⟩
  obtain rfl : c = b := Option.some.inj hb
  exact hc a ha

theorem Apart.spitRight (hc : ∀ b ∈ z.right.head?, EitherTaken c b) :
    (z.spitRight c).Apart :=
  { hz with right := isChain_cons.mpr ⟨hc, hz.right⟩ }

theorem Apart.eatRight : z.eatRight.Apart :=
  { hz with right := hz.right.tail }

theorem Apart.eatLeft : z.eatLeft.Apart :=
  { hz with left := hz.left.dropLast }

theorem Apart.next_taken (hright : z.right = c :: r) (hc : c.taken = false) :
    ∀ b ∈ z.eatRight.right.head?, b.taken = true := by
  have hchain := hz.right
  rw [hright, isChain_cons] at hchain
  intro b hb
  rw [Site.eatRight, hright] at hb
  refine (hchain.1 b hb).resolve_left fun htaken => ?_
  rw [hc] at htaken
  exact absurd htaken (by decide)

theorem Apart.prev_taken (hleft : z.left = l ++ [d]) (hd : d.taken = false) :
    ∀ a ∈ z.eatLeft.left.getLast?, a.taken = true := by
  have hchain := hz.left
  rw [hleft, isChain_append] at hchain
  intro a ha
  rw [Site.eatLeft, hleft, dropLast_concat] at ha
  refine (hchain.2.2 a ha d rfl).resolve_right fun htaken => ?_
  rw [hd] at htaken
  exact absurd htaken (by decide)

omit hz

theorem Apart.of_separated (hs : Separated (z.fill mid)) : z.Apart := by
  obtain ⟨hbefore, hafter, hold⟩ := separated_fill_iff.mp hs
  rw [isChain_append, isChain_append] at hold
  exact ⟨hbefore, hafter, hold.1, hold.2.1.2.1⟩

theorem Apart.separated (hz : z.Apart) (hchain : mid.IsChain EitherTaken)
    (hfirst : ∀ a ∈ z.left.getLast?, ∀ b ∈ (mid ++ z.right).head?, EitherTaken a b)
    (hlast : ∀ a ∈ mid.getLast?, ∀ b ∈ z.right.head?, EitherTaken a b) :
    Separated (z.fill mid) := by
  refine separated_fill_iff.mpr ⟨hz.before, hz.after, ?_⟩
  rw [isChain_append, isChain_append]
  exact ⟨hz.left, ⟨hchain, hz.right, hlast⟩, hfirst⟩

end Site

namespace Heap

variable {coarse : Bool} {W W' K : Set ℕ} {v : Bytes} {h₀ h h' h'' : Heap}
  {σ₀ σ σ' σ'' : List Region}
  {z : Site} {mid mid' l r : List Piece} {c d : Piece} {m : Placed} {a s x : ℕ}

/-- A byte belongs to an allocated one of some chunks. -/
def Covered (l : List Placed) (x : ℕ) : Prop :=
  ∃ m ∈ l, m.taken = true ∧ m.addr + 8 ≤ x ∧ x < m.addr + m.size

/-- **A call works on a part of the tiling.** The call has begun with the heap `h₀`. -/
structure Opened (coarse : Bool) (W K : Set ℕ) (v : Bytes) (h₀ : Heap) (σ₀ : List Region) (h : Heap)
    (z : Site) (mid : List Piece) : Prop where
  holds : Holds coarse h (z.fill mid) (z.frees (total mid))
  inner : z.Inner
  apart : z.Apart
  same : SameHeap h₀ h
  evolves : Evolves W h₀ σ₀ h (z.fill mid)
  outside : ∀ m ∈ placed σ₀, m.taken = true → m.addr ∉ W →
    m.addr + m.size ≤ z.addr ∨ z.addr + total mid ≤ m.addr
  kept : ∀ x ∈ K, h.mem x = v x
  covered : ∀ x ∈ K, Covered (place z.addr z.prev mid) x

namespace Opened

variable (ho : Opened coarse W K v h₀ σ₀ h z mid)
include ho

theorem isChunk (hc : c ∈ mid) : IsChunk coarse c := ho.holds.geometry.isChunk_mid ho.inner hc

theorem exists_right : ∃ c r, z.right = c :: r := exists_cons_of_ne_nil ho.inner.right

theorem exists_left : ∃ l d, z.left = l ++ [d] := by
  obtain ⟨l, d, hleft⟩ := (eq_nil_or_concat' z.left).resolve_left ho.inner.left
  exact ⟨l, d, hleft⟩

theorem inner_eatRight (hright : z.right = c :: r) (hc : c.taken = false) : z.eatRight.Inner := by
  refine ⟨ho.inner.left, ?_⟩
  obtain ⟨-, right, -, hlast, -⟩ := ho.holds.geometry.exists_chunks ho.inner
  rw [eatRight, hright]
  rintro rfl
  rw [hright] at hlast
  cases right with
  | nil =>
    rw [(cons_eq_cons.mp hlast).1] at hc
    exact absurd hc (by decide)
  | cons e right =>
    have := congrArg length hlast
    simp at this

theorem inner_eatLeft (hleft : z.left = l ++ [d]) (hd : d.taken = false) : z.eatLeft.Inner := by
  refine ⟨?_, ho.inner.right⟩
  obtain ⟨left, -, hfirst, -, -⟩ := ho.holds.geometry.exists_chunks ho.inner
  rw [eatLeft, hleft, dropLast_concat]
  rintro rfl
  rw [hleft] at hfirst
  rw [(cons_eq_cons.mp hfirst).1] at hd
  exact absurd hd (by decide)

theorem outside_of_free (hm : m ∈ placed (z.fill mid)) (hfree : m.taken = false) {m₀ : Placed}
    (hm₀ : m₀ ∈ placed σ₀) (htaken : m₀.taken = true) (hW : m₀.addr ∉ W) :
    8 ≤ m₀.size ∧ (m₀.addr + m₀.size ≤ m.addr ∨ m.addr + m.size ≤ m₀.addr) := by
  obtain ⟨m', hm', haddr, hsize, htaken'⟩ := ho.evolves.stays m₀ hm₀ htaken hW
  have hne : m' ≠ m := by
    rintro rfl
    rw [htaken'] at hfree
    exact absurd hfree (by decide)
  have hdisjoint := ho.holds.geometry.disjoint hm' hm hne
  have height := (ho.holds.geometry.located hm').eight_le
  omega

theorem kept_of_evolves (he : Evolves ∅ h (z.fill mid) h' σ') : ∀ x ∈ K, h'.mem x = v x := by
  intro x hx
  obtain ⟨m, hm, htaken, hlo, hhi⟩ := ho.covered x hx
  have hmem : m ∈ placed (z.fill mid) := mem_placed_of_mid hm
  rw [he.bytes m hmem htaken (notMem_empty _) x hlo hhi]
  exact ho.kept x hx

/-! ### Growing -/

/-- **The free chunk behind the part is taken out of the list.** -/
theorem growRight (hright : z.right = c :: r) (hc : c.taken = false) :
    Opened coarse W K v h₀ σ₀ (h.unlink (z.addr + total mid)) z.eatRight (mid ++ [c]) := by
  have hfrees := frees_eatRight_of_free (t := total mid) hright hc
  have hmem : z.next mid c ∈ placed (z.fill mid) :=
    (mem_placed_fill hright).mpr (.inr (.inr (.inr (.inl rfl))))
  have hsize : total (mid ++ [c]) = total mid + c.size := by simp
  have hfill := fill_eatRight mid hright
  have hgeom : Geometry coarse h.nodelist (z.eatRight.fill (mid ++ [c])) := by
    rw [hfill]
    exact ho.holds.geometry
  have hnot : z.addr + total mid ∉ z.eatRight.frees (total mid + c.size) := by
    have height := (ho.holds.head_next hright).2.eight_le
    have hnext : (z.next mid c).size = c.size := rfl
    rw [← hsize]
    refine notMem_frees hgeom (Nat.le_add_right ..) ?_
    change z.addr + total mid < z.addr + _
    omega
  have hholds := ho.holds
  rw [hfrees] at hholds
  obtain ⟨hholds, hsame, hevolves⟩ := hholds.unlink hnot
  rw [← hfill, ← hsize] at hholds
  refine ⟨hholds, ho.inner_eatRight hright hc, ho.apart.eatRight, ho.same.trans hsame, ?_, ?_,
    ho.kept_of_evolves hevolves, fun x hx => ?_⟩
  · rw [hfill]
    exact ho.evolves.trans (hevolves.mono (empty_subset _))
  · intro m₀ hm₀ htaken hW
    have hold := ho.outside m₀ hm₀ htaken hW
    have hnew := ho.outside_of_free hmem hc hm₀ htaken hW
    rw [Site.next] at hnew
    dsimp only at hnew
    change _ ≤ z.addr ∨ z.addr + _ ≤ _
    omega
  · obtain ⟨m, hm, hm'⟩ := ho.covered x hx
    refine ⟨m, ?_, hm'⟩
    rw [place_append]
    exact mem_append_left _ hm

/-- **The free chunk in front of the part is taken out of the list.** -/
theorem growLeft (hleft : z.left = l ++ [d]) (hd : d.taken = false) :
    Opened coarse W K v h₀ σ₀ (h.unlink z.eatLeft.addr) z.eatLeft (d :: mid) := by
  have hfrees := frees_eatLeft_of_free (t := total mid) hleft hd
  have hfill := fill_eatLeft mid hleft
  have hmem :
      (⟨z.eatLeft.addr, d.size, z.eatLeft.prev, d.taken⟩ : Placed) ∈ placed (z.fill mid) := by
    rw [← hfill]
    exact mem_placed_of_mid mem_cons_self
  have haddr := total_left hleft
  have height := (ho.holds.head_prev hleft).2.eight_le
  dsimp only at height
  have hgeom : Geometry coarse h.nodelist (z.eatLeft.fill (d :: mid)) := by
    rw [hfill]
    exact ho.holds.geometry
  have hnot : z.eatLeft.addr ∉ z.eatLeft.frees (total (d :: mid)) := by
    refine notMem_frees hgeom (Nat.le_refl _) ?_
    rw [total_cons]
    omega
  have hholds := ho.holds
  rw [hfrees, ← total_cons] at hholds
  obtain ⟨hholds, hsame, hevolves⟩ := hholds.unlink hnot
  rw [← hfill] at hholds
  refine ⟨hholds, ho.inner_eatLeft hleft hd, ho.apart.eatLeft, ho.same.trans hsame, ?_, ?_,
    ho.kept_of_evolves hevolves, fun x hx => ?_⟩
  · rw [hfill]
    exact ho.evolves.trans (hevolves.mono (empty_subset _))
  · intro m₀ hm₀ htaken hW
    have hold := ho.outside m₀ hm₀ htaken hW
    have hnew := ho.outside_of_free hmem hd hm₀ htaken hW
    dsimp only at hnew
    rw [total_cons]
    omega
  · obtain ⟨m, hm, hm'⟩ := ho.covered x hx
    refine ⟨m, ?_, hm'⟩
    rw [place_cons, ← haddr, ← prev_eq hleft]
    exact mem_cons_of_mem _ hm

/-! ### Dividing in another way -/

/-- **The part is divided in another way.** -/
theorem retile {b : List ℕ} (hright : z.right = c :: r) (honly : HeadsOnly b h h')
    (hb : ∀ a ∈ b, z.addr ≤ a ∧ a ≤ z.addr + total mid) (htotal : total mid' = total mid)
    (hmid : ∀ d ∈ mid', IsChunk coarse d) (hheads : ∀ m ∈ place z.addr z.prev mid', HeadOf h' m)
    (hnext : HeadOf h' (z.next mid' c))
    (hK : ∀ x ∈ K, (∀ a ∈ b, x < a ∨ a + 8 ≤ x) ∧ Covered (place z.addr z.prev mid') x) :
    Opened coarse W K v h₀ σ₀ h' z mid' := by
  have hin : ∀ m ∈ place z.addr z.prev mid, z.addr ≤ m.addr ∧ m.addr < z.addr + total mid := by
    intro m hm
    have hbounds := bounds_of_mem_place hm
    have height := (ho.holds.head_mid hm).2.eight_le
    omega
  obtain ⟨hholds, hevolves⟩ := ho.holds.retile (W := Set.Ico z.addr (z.addr + total mid))
    ho.inner.left hright honly hb htotal hmid hheads hnext
    (fun m hm => notMem_frees ho.holds.geometry (hin m hm).1 (hin m hm).2) fun m hm _ => hin m hm
  rw [← htotal] at hholds
  refine ⟨hholds, ho.inner, ho.apart, ho.same.trans honly.same,
    ho.evolves.trans_of_outside hevolves fun m hm htaken hW hmem => ?_, ?_, fun x hx => ?_,
    fun x hx => (hK x hx).2⟩
  · have hout := ho.outside m hm htaken hW
    obtain ⟨m', hm', haddr, hsize, -⟩ := ho.evolves.stays m hm htaken hW
    have height := (ho.holds.geometry.located hm').eight_le
    have := hmem.1
    have := hmem.2
    omega
  · rw [htotal]
    exact ho.outside
  · rw [honly.mem x (hK x hx).1]
    exact ho.kept x hx

theorem retile_one {t : Bool} (hright : z.right = c :: r)
    (honly : HeadsOnly [z.addr, z.addr + s] h h') (htotal : s = total mid)
    (hchunk : IsChunk coarse ⟨s, t⟩) (hhead : HeadOf h' ⟨z.addr, s, z.prev, t⟩)
    (hnext : HeadOf h' ⟨z.addr + s, c.size, s, c.taken⟩)
    (hK : ∀ x ∈ K, t = true ∧ z.addr + 8 ≤ x ∧ x < z.addr + s) :
    Opened coarse W K v h₀ σ₀ h' z [⟨s, t⟩] := by
  refine ho.retile hright honly (fun a ha => ?_) htotal (fun d hd => ?_) (fun m hm => ?_) hnext
    fun x hx => ⟨fun a ha => ?_, ⟨z.addr, s, z.prev, t⟩, by simp, hK x hx⟩
  · simp only [mem_cons, not_mem_nil, or_false] at ha
    omega
  · rwa [mem_singleton.mp hd]
  · obtain rfl : m = ⟨z.addr, s, z.prev, t⟩ := by simpa using hm
    exact hhead
  · have := hK x hx
    simp only [mem_cons, not_mem_nil, or_false] at ha
    omega

theorem retile_two {s₁ s₂ : ℕ} {t₁ t₂ : Bool} (hright : z.right = c :: r)
    (honly : HeadsOnly [z.addr, z.addr + s₁, z.addr + (s₁ + s₂)] h h')
    (htotal : s₁ + s₂ = total mid)
    (hchunk₁ : IsChunk coarse ⟨s₁, t₁⟩) (hchunk₂ : IsChunk coarse ⟨s₂, t₂⟩)
    (hhead₁ : HeadOf h' ⟨z.addr, s₁, z.prev, t₁⟩) (hhead₂ : HeadOf h' ⟨z.addr + s₁, s₂, s₁, t₂⟩)
    (hnext : HeadOf h' ⟨z.addr + (s₁ + s₂), c.size, s₂, c.taken⟩)
    (hK : ∀ x ∈ K, (t₁ = true ∧ z.addr + 8 ≤ x ∧ x < z.addr + s₁) ∨
      (t₂ = true ∧ z.addr + s₁ + 8 ≤ x ∧ x < z.addr + s₁ + s₂)) :
    Opened coarse W K v h₀ σ₀ h' z [⟨s₁, t₁⟩, ⟨s₂, t₂⟩] := by
  have hmem : ∀ m, m ∈ place z.addr z.prev [⟨s₁, t₁⟩, ⟨s₂, t₂⟩] ↔
      m = ⟨z.addr, s₁, z.prev, t₁⟩ ∨ m = ⟨z.addr + s₁, s₂, s₁, t₂⟩ := by simp
  refine ho.retile hright honly (fun a ha => ?_) htotal (fun d hd => ?_) (fun m hm => ?_) hnext
    fun x hx => ⟨fun a ha => ?_, ?_⟩
  · simp only [mem_cons, not_mem_nil, or_false] at ha
    omega
  · simp only [mem_cons, not_mem_nil, or_false] at hd
    rcases hd with rfl | rfl
    · exact hchunk₁
    · exact hchunk₂
  · rcases (hmem m).mp hm with rfl | rfl
    · exact hhead₁
    · exact hhead₂
  · have := hK x hx
    simp only [mem_cons, not_mem_nil, or_false] at ha
    omega
  · rcases hK x hx with hx | hx
    · exact ⟨_, (hmem _).mpr (.inl rfl), hx⟩
    · exact ⟨_, (hmem _).mpr (.inr rfl), hx⟩

omit ho

/-- **The flag of a chunk is written.** -/
theorem flag {t t' : Bool} {w : ℕ} (ho : Opened coarse W ∅ v h₀ σ₀ h z [⟨s, t⟩])
    (hw : w = tagged z.prev t') :
    Opened coarse W ∅ v h₀ σ₀ (h.set z.addr .preceding w) z [⟨s, t'⟩] := by
  obtain ⟨e, r, hright⟩ := ho.exists_right
  have hchunk := ho.isChunk mem_cons_self
  have hs : 16 ≤ s := hchunk.le
  obtain ⟨hhead, hloc⟩ := ho.holds.head_mid (m := ⟨z.addr, s, z.prev, t⟩) (by simp)
  obtain ⟨hnext, -⟩ := ho.holds.head_next hright
  refine ho.retile_one hright (by simp) rfl
    { hchunk with } ⟨?_, ?_⟩ ⟨?_, ?_⟩
    fun x hx => absurd hx (notMem_empty x)
  · rw [get_size_set_preceding (.inl rfl)]
    exact hhead.size
  · rw [get_set_self, hw]
    exact Nat.mod_eq_of_lt (tagged_lt hloc.before_lt)
  · dsimp only
    rw [get_size_set_preceding (by omega)]
    exact hnext.size
  · dsimp only
    rw [get_preceding_set_preceding (by omega)]
    exact hnext.preceding

/-- **The user's bytes are written.** -/
theorem write {mem v' : Bytes} {K' : Set ℕ} (ho : Opened coarse W K v h₀ σ₀ h z [⟨s, true⟩])
    (hmem : ∀ x, x < z.addr + 8 ∨ z.addr + s ≤ x → mem x = h.mem x)
    (hK : ∀ x ∈ K', (z.addr + 8 ≤ x ∧ x < z.addr + s) ∧ mem x = v' x) :
    Opened coarse W K' v' h₀ σ₀ { h with mem := mem } z [⟨s, true⟩] := by
  have hplace : (⟨z.addr, s, z.prev, true⟩ : Placed) ∈ place z.addr z.prev [⟨s, true⟩] := by simp
  have hs : 16 ≤ s := (ho.isChunk mem_cons_self).le
  obtain ⟨hholds, hevolves⟩ := ho.holds.write mem_placed_one rfl hmem
  refine ⟨hholds, ho.inner, ho.apart, ho.same.trans .write,
    ho.evolves.trans_of_outside hevolves fun m hm htaken hW haddr => ?_, ho.outside,
    fun x hx => (hK x hx).2, fun x hx => ⟨_, hplace, rfl, (hK x hx).1⟩⟩
  have hout := ho.outside m hm htaken hW
  obtain ⟨m', hm', -, hsize, -⟩ := ho.evolves.stays m hm htaken hW
  have height := (ho.holds.geometry.located hm').eight_le
  have haddr : m.addr = z.addr := haddr
  simp only [total_cons, total_nil] at hout
  omega

/-! ### Putting chunks into the list -/

/-- **The first chunk of the part is put into the list.** -/
theorem addLeft (ho : Opened coarse W K v h₀ σ₀ h z (c :: mid)) (hc : c.taken = false)
    (hprev : ∀ a ∈ z.left.getLast?, a.taken = true) :
    ∃ h', h.addFreeChunk z.addr = some h' ∧
      Opened coarse W K v h₀ σ₀ h' (z.spitLeft c) mid := by
  have hmem : (⟨z.addr, c.size, z.prev, c.taken⟩ : Placed) ∈ placed (z.fill (c :: mid)) :=
    mem_placed_of_mid mem_cons_self
  have hle := (ho.isChunk mem_cons_self).le
  have hnot : z.addr ∉ z.frees (total (c :: mid)) := by
    refine notMem_frees ho.holds.geometry (Nat.le_refl _) ?_
    rw [total_cons]
    omega
  obtain ⟨h', hadd, hholds, hsame, hevolves⟩ := ho.holds.add hmem hc hnot
  rw [total_cons, ← frees_spitLeft hc, ← fill_spitLeft] at hholds
  refine ⟨h', hadd, hholds, ⟨by simp [spitLeft], ho.inner.right⟩,
    ho.apart.spitLeft fun a ha => .inl (hprev a ha), ho.same.trans hsame, ?_, ?_,
    ho.kept_of_evolves hevolves, fun x hx => ?_⟩
  · rw [fill_spitLeft]
    exact ho.evolves.trans (hevolves.mono (empty_subset _))
  · intro m hm htaken hW
    have := ho.outside m hm htaken hW
    rw [total_cons] at this
    rw [addr_spitLeft]
    omega
  · obtain ⟨m, hm, htaken, hm'⟩ := ho.covered x hx
    refine ⟨m, ?_, htaken, hm'⟩
    rw [addr_spitLeft, prev_spitLeft]
    rcases mem_cons.mp hm with rfl | hm
    · rw [hc] at htaken
      exact absurd htaken Bool.false_ne_true
    · exact hm

/-- **The last chunk of the part is put into the list.** -/
theorem addRight (ho : Opened coarse W K v h₀ σ₀ h z (mid ++ [c])) (hc : c.taken = false)
    (hnext : ∀ b ∈ z.right.head?, b.taken = true) :
    ∃ h', h.addFreeChunk (z.addr + total mid) = some h' ∧
      Opened coarse W K v h₀ σ₀ h' (z.spitRight c) mid := by
  have hsize : total (mid ++ [c]) = total mid + c.size := by simp
  have hmem : (⟨z.addr + total mid, c.size, lastSize z.prev mid, c.taken⟩ : Placed) ∈
      placed (z.fill (mid ++ [c])) := by
    refine mem_placed_of_mid ?_
    rw [place_append]
    exact mem_append_right _ mem_cons_self
  have hle := (ho.isChunk (mem_append_right _ mem_cons_self)).le
  have hnot : z.addr + total mid ∉ z.frees (total (mid ++ [c])) := by
    refine notMem_frees ho.holds.geometry (Nat.le_add_right ..) ?_
    omega
  obtain ⟨h', hadd, hholds, hsame, hevolves⟩ := ho.holds.add hmem hc hnot
  rw [hsize, ← frees_spitRight hc, ← fill_spitRight] at hholds
  refine ⟨h', hadd, hholds, ⟨ho.inner.left, cons_ne_nil c z.right⟩,
    ho.apart.spitRight fun b hb => .inr (hnext b hb), ho.same.trans hsame, ?_, ?_,
    ho.kept_of_evolves hevolves, fun x hx => ?_⟩
  · rw [fill_spitRight]
    exact ho.evolves.trans (hevolves.mono (empty_subset _))
  · intro m hm htaken hW
    have := ho.outside m hm htaken hW
    change _ ≤ z.addr ∨ z.addr + _ ≤ _
    omega
  · obtain ⟨m, hm, htaken, hm'⟩ := ho.covered x hx
    refine ⟨m, ?_, htaken, hm'⟩
    rw [place_append] at hm
    rcases mem_append.mp hm with hm | hm
    · exact hm
    · rw [mem_singleton.mp hm, hc] at htaken
      exact absurd htaken Bool.false_ne_true

/-! ### The beginning and the end of a call -/

/-- **A free chunk is taken out of the list.** -/
theorem of_free (hr : Represents coarse h (z.fill [⟨s, false⟩])) (hinner : z.Inner) :
    Opened coarse ∅ ∅ v h (z.fill [⟨s, false⟩]) (h.unlink z.addr) z [⟨s, false⟩] := by
  have hg := hr.holds.geometry
  have hs := (hg.isChunk_mid hinner mem_cons_self).le
  have hfrees : freeAddrs (z.fill [⟨s, false⟩]) = insert z.addr (z.frees (total [⟨s, false⟩])) := by
    rw [freeAddrs_fill, place_cons, place_nil, freeAt_cons_free rfl, freeAt_nil, insert_empty_eq]
    rfl
  have hnot : z.addr ∉ z.frees (total [⟨s, false⟩]) := by
    refine notMem_frees hg (Nat.le_refl _) ?_
    rw [total_cons]
    omega
  have hholds := hr.holds
  rw [hfrees] at hholds
  obtain ⟨hholds, hsame, hevolves⟩ := hholds.unlink hnot
  refine ⟨hholds, hinner, .of_separated hr.separated, hsame, hevolves, fun m hm htaken _ => ?_,
    fun x hx => absurd hx (notMem_empty x), fun x hx => absurd hx (notMem_empty x)⟩
  have hne : m ≠ ⟨z.addr, s, z.prev, false⟩ := by
    rintro rfl
    exact absurd htaken Bool.false_ne_true
  exact hg.disjoint hm mem_placed_one hne

/-- **The caller's chunk.** -/
theorem of_taken (hr : Represents coarse h (z.fill [⟨s, true⟩])) (hinner : z.Inner) :
    Opened coarse {z.addr} (Set.Ico (z.addr + 8) (z.addr + s)) h.mem h (z.fill [⟨s, true⟩]) h z
      [⟨s, true⟩] := by
  have hg := hr.holds.geometry
  have hfrees : freeAddrs (z.fill [⟨s, true⟩]) = z.frees (total [⟨s, true⟩]) := by
    rw [freeAddrs_fill, place_cons, place_nil, freeAt_cons_taken rfl, freeAt_nil, empty_union]
  have hholds := hr.holds
  rw [hfrees] at hholds
  refine ⟨hholds, hinner, .of_separated hr.separated, .refl h, .refl _ h _, fun m hm _ hW => ?_,
    fun x _ => rfl, fun x hx => ⟨⟨z.addr, s, z.prev, true⟩, by simp, rfl, hx.1, hx.2⟩⟩
  have hne : m ≠ ⟨z.addr, s, z.prev, true⟩ := by
    rintro rfl
    exact hW rfl
  exact hg.disjoint hm mem_placed_one hne

theorem mono (ho : Opened coarse W K v h₀ σ₀ h z mid) (K' : Set ℕ) (hK : K' ⊆ K) :
    Opened coarse W K' v h₀ σ₀ h z mid :=
  { ho with kept := fun x hx => ho.kept x (hK hx), covered := fun x hx => ho.covered x (hK hx) }

/-- **The call is done.** -/
theorem close (ho : Opened coarse W K v h₀ σ₀ h z mid) (hmid : ∀ c ∈ mid, c.taken = true)
    (hsep : Separated (z.fill mid)) : Represents coarse h (z.fill mid) := by
  have hfrees : freeAddrs (z.fill mid) = z.frees (total mid) := by
    rw [freeAddrs_fill]
    refine union_eq_self_of_subset_left ?_
    rintro x ⟨m, hm, -, hfree⟩
    have htaken := hmid _ (piece_of_mem_place hm)
    rw [hfree] at htaken
    exact absurd htaken Bool.false_ne_true
  refine ⟨?_, hsep⟩
  rw [hfrees]
  exact ho.holds

end Opened

/-! ### What the caller gets -/

/-- **The caller is given a chunk.** It is none of the chunks of the other users. -/
structure Grants (coarse : Bool) (W : Set ℕ) (h : Heap) (σ : List Region) (h' : Heap)
    (σ' : List Region)
    (m : Placed) : Prop where
  represents : Represents coarse h' σ'
  same : SameHeap h h'
  evolves : Evolves W h σ h' σ'
  mem : m ∈ placed σ'
  taken : m.taken = true
  fresh : ∀ m₀ ∈ placed σ, m₀.taken = true → m₀.addr ∉ W → m₀.addr ≠ m.addr

/-- The part of the tiling that a call works on is the chunk that it gives to the caller. -/
theorem Opened.grants (ho : Opened coarse W K v h₀ σ₀ h z [⟨s, true⟩]) :
    Grants coarse W h₀ σ₀ h (z.fill [⟨s, true⟩]) ⟨z.addr, s, z.prev, true⟩ := by
  have hs : 16 ≤ s := (ho.isChunk mem_cons_self).le
  refine ⟨ho.close (by simp) ?_, ho.same, ho.evolves, mem_placed_one, rfl,
    fun m hm htaken hW haddr => ?_⟩
  · refine ho.apart.separated (isChain_singleton _) (fun a _ b hb => .inr ?_)
      fun a ha b _ => .inl ?_
    · obtain rfl : _ = b := Option.some.inj hb
      rfl
    · obtain rfl : _ = a := Option.some.inj ha
      rfl
  · have hout := ho.outside m hm htaken hW
    obtain ⟨m', hm', -, hsize, -⟩ := ho.evolves.stays m hm htaken hW
    have height := (ho.holds.geometry.located hm').eight_le
    simp only [total_cons, total_nil] at hout haddr
    omega

end Heap

end GreenboneFeeder.Mm
