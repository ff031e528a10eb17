import GreenboneFeeder.Mm.Resize

/-!
# Aligning and clearing

`mm_memalign` allocates more than is needed, gives the part in front of the aligned address back,
and then the end. After that the chunks are multiples of 8 bytes, and no longer of 16 bytes.

The part in front becomes a free chunk of its own (`Mm.Heap.Opened.cutFront`). It has at least 16
bytes: if the first aligned address is too close, the code takes the next one
(`Mm.Heap.exists_front`).
-/

namespace GreenboneFeeder.Mm

open Tiling Option

namespace Heap

variable {coarse : Bool} {W K : Set ℕ} {v : Bytes} {h₀ h h' : Heap} {σ₀ σ : List Region} {z : Site}
  {r : List Piece} {c : Piece} {m : Placed} {n s size pre rest al : ℕ}

/-! ### Where the chunks are -/

theorem Represents.addr_mod (hr : Represents true h σ) (hm : m ∈ placed σ) (hle : 16 ≤ m.size) :
    (m.addr + 8) % 16 = 0 := by
  obtain ⟨z, rfl, haddr, hinner⟩ := hr.holds.geometry.exists_site hm (.inr hle)
  obtain ⟨left, right, hleft, -, hchunks⟩ := hr.holds.geometry.exists_chunks hinner
  have hbase : z.base % 16 = 0 := hr.holds.geometry.valid_fill.aligned
  have htotal : total left % 16 = 0 :=
    total_mod fun c hc => (hchunks c (List.mem_append_left _ hc)).mod_of_coarse rfl
  rw [← haddr, Site.addr, hleft, total_cons]
  simp only [guard]
  omega

/-! ### Giving the front of a chunk back -/

/-- **The front of a chunk is given back.** -/
theorem Opened.cutFront (ho : Opened coarse W ∅ v h₀ σ₀ h z [⟨pre + rest, true⟩])
    (hpre : IsChunk coarse ⟨pre, false⟩) (hrest : IsChunk coarse ⟨rest, true⟩)
    (hprev : ∀ a ∈ z.left.getLast?, a.taken = true) {aligned : ℕ}
    (haligned : z.addr + pre + 8 = if aligned - 8 - z.addr < 16 then aligned + al else aligned) :
    ∃ h', h.cutFront z.addr aligned al = some (h', z.addr + pre, z.addr + pre + 8, rest - 8) ∧
      Opened coarse W ∅ v h₀ σ₀ h' (z.spitLeft ⟨pre, false⟩) [⟨rest, true⟩] := by
  obtain ⟨c, r, hright⟩ := ho.exists_right
  have hone := ho.one hright
  have hlt := hone.lt
  have hprevlt := hone.prev_lt
  have hpre16 : 16 ≤ pre := hpre.le
  have hrest16 : 16 ≤ rest := hrest.le
  rw [Heap.cutFront, sizeofAllocNode, sizeofFreeNode, ← haligned, hone.size, Nat.add_sub_cancel,
    show z.addr + (pre + rest) - (z.addr + pre) = rest by omega,
    show z.addr + pre - z.addr = pre by omega]
  set h₁ := ((h.set (z.addr + pre) .size rest).set (z.addr + pre) .preceding (pre ||| allocBit)).set
    z.addr .size pre with hh₁
  have hflag : h₁.get z.addr .preceding = tagged z.prev true := by
    simp (disch := omega) [h₁, hone.preceding]
  rw [hflag, tagged_and_sizeMask hprevlt]
  set h₂ := h₁.set z.addr .preceding z.prev with hh₂
  have hnew : h₂.get (z.addr + pre) .size = rest := by
    simp (disch := omega) [h₂, h₁]
  rw [hnew]
  have hopened : Opened coarse W ∅ v h₀ σ₀ (h₂.setPrecedingSize (z.addr + (pre + rest)) rest) z
      [⟨pre, false⟩, ⟨rest, true⟩] := by
    refine ho.retile_two hright ?_ rfl hpre hrest ⟨?_, ?_⟩ ⟨?_, ?_⟩ ⟨?_, ?_⟩
      fun x hx => absurd hx (Set.notMem_empty x)
    · simp [h₂, h₁, setPrecedingSize]
    all_goals
      dsimp only [h₂, h₁, setPrecedingSize]
      simp (disch := omega) [hone.nextSize, hone.nextPreceding]
  have hread :
      (h₂.setPrecedingSize (z.addr + (pre + rest)) rest).get (z.addr + pre) .size = rest := by
    rw [setPrecedingSize, get_size_set_preceding (by omega), hnew]
  obtain ⟨h', hadd, ho'⟩ := hopened.addLeft rfl hprev
  rw [hread, hadd]
  exact ⟨h', rfl, ho'⟩

/-! ### `mm_memalign` -/

theorem roundUp_bounds {x : ℕ} (hal : 0 < al) :
    x ≤ (x + (al - 1)) / al * al ∧ (x + (al - 1)) / al * al < x + al := by
  have hdiv := Nat.div_add_mod (x + (al - 1)) al
  have hmod := Nat.mod_lt (x + (al - 1)) hal
  rw [Nat.mul_comm] at hdiv
  omega

/-- **What is in front of the aligned part.** If the first multiple of the alignment is too close to
the beginning of the chunk, it is the second one. -/
theorem exists_front {a aligned : ℕ} (hal : 32 ∣ al) (ha : a % 8 = 0) (hdvd : al ∣ aligned)
    (hlow : a + 8 < aligned) (hhigh : aligned < a + 8 + al) :
    ∃ pre, a + pre + 8 = (if aligned - 8 - a < 16 then aligned + al else aligned) ∧
      16 ≤ pre ∧ pre % 8 = 0 ∧ pre ≤ al + 8 ∧ al ∣ a + pre + 8 := by
  have h32 : 32 ∣ aligned := Nat.dvd_trans hal hdvd
  by_cases hclose : aligned - 8 - a < 16
  · rw [if_pos hclose]
    have hsecond : a + (aligned + al - 8 - a) + 8 = aligned + al := by omega
    refine ⟨aligned + al - 8 - a, hsecond, by omega, by omega, by omega, ?_⟩
    rw [hsecond]
    exact Nat.dvd_add hdvd (Nat.dvd_refl al)
  · rw [if_neg hclose]
    have hfirst : a + (aligned - 8 - a) + 8 = aligned := by omega
    refine ⟨aligned - 8 - a, hfirst, by omega, by omega, by omega, ?_⟩
    rw [hfirst]
    exact hdvd

/-- **`mm_memalign` with an alignment of more than 16 bytes** gives an aligned chunk that is large
enough, or `NULL`. -/
theorem memalign_spec {k : ℕ} (hr : Represents coarse h σ) (hk : 5 ≤ k) (hn : 0 < n)
    (hwrap : (n + 15) / 16 * 16 + 2 * 2 ^ k + 23 < 2 ^ 32) :
    ∃ h' q, h.memalign (2 ^ k) n = some (h', q) ∧
      ((q = 0 ∧ h' = h) ∨ ∃ σ' m, Grants false ∅ h σ h' σ' m ∧ q = m.addr + 8 ∧ n + 8 ≤ m.size ∧
        2 ^ k ∣ q) := by
  have hk32 : k ≤ 32 := by
    refine Nat.le_of_lt_succ ((Nat.pow_lt_pow_iff_right (a := 2) (by decide)).mp ?_)
    omega
  have h32 : 32 ∣ 2 ^ k := Nat.pow_dvd_pow 2 hk
  have hpos : 0 < 2 ^ k := Nat.two_pow_pos k
  have hmask := fun (x : ℕ) (hx : x < 2 ^ 32) => and_highMask (a := x) hk32 hx
  generalize 2 ^ k = al at *
  have hup : alignUp n = (n + 15) / 16 * 16 := alignUp_of_lt (by omega)
  set size := alignUp n with hsize
  have hsum : add32 size (2 * al) = size + 2 * al := add32_of_lt (by omega)
  rw [memalign, if_neg (by rw [minShift]; omega)]
  dsimp only
  rw [hsum]
  obtain ⟨h₁, p, hmalloc, ⟨rfl, rfl, -⟩ | ⟨z, s, rfl, hinner, hle, rfl, -, ho⟩⟩ :=
    malloc_spec (v := h.mem) hr.fine (n := size + 2 * al) (by omega) (by omega)
  · rw [hmalloc, bind_eq_bind, bind_some]
    exact ⟨h₁, 0, rfl, .inl ⟨rfl, rfl⟩⟩
  have hprev := hr.separated.prev_taken rfl
  have hroom := Site.le_cut (z := z) hle
  rw [← Site.left_cut (z := z) s (rounded (size + 2 * al))] at hprev
  rw [hmalloc, bind_eq_bind, bind_some, ← Site.addr_cut (z := z) s (rounded (size + 2 * al))]
  generalize (z.cut s (rounded (size + 2 * al))).1 = z₁ at *
  generalize (z.cut s (rounded (size + 2 * al))).2 = t at *
  rw [rounded] at hroom
  obtain ⟨-, hloc⟩ := ho.holds.head_mid (m := ⟨z₁.addr, t, z₁.prev, true⟩) (by simp)
  have hmod : z₁.addr % 8 = 0 := hloc.addr_mod
  have hfits : z₁.addr + t ≤ 2 ^ 32 := hloc.fits
  have hchunk := ho.isChunk (c := ⟨t, true⟩) List.mem_cons_self
  have hfine : ∀ {s : ℕ} {b : Bool}, 16 ≤ s → s % 8 = 0 → IsChunk false ⟨s, b⟩ := fun hle hmod =>
    ⟨hle, hmod, fun hc => absurd hc Bool.false_ne_true⟩
  have hneed : add32 size sizeofAllocNode = size + 8 := add32_of_lt (by rw [sizeofAllocNode]; omega)
  have hraw : add32 (z₁.addr + 8) (al - 1) = z₁.addr + 8 + (al - 1) := add32_of_lt (by omega)
  obtain ⟨hlow, hhigh⟩ := roundUp_bounds (x := z₁.addr + 8) hpos
  have hdvd : al ∣ (z₁.addr + 8 + (al - 1)) / al * al := Nat.dvd_mul_left _ _
  dsimp only
  have hnode : z₁.addr + 8 - sizeofAllocNode = z₁.addr := Nat.add_sub_cancel _ 8
  rw [if_neg (by omega), hraw, hmask _ (by omega), hnode, hneed, ← hsize]
  generalize (z₁.addr + 8 + (al - 1)) / al * al = aligned at *
  -- the end of the chunk is given back
  have hshrink : ∀ (h₂ : Heap) (z₂ : Site) (t₂ : ℕ), size + 8 < t₂ →
      Opened false ∅ ∅ h.mem h (z.fill [⟨s, false⟩]) h₂ z₂ [⟨t₂, true⟩] →
      ∃ h' σ' m, h₂.shrinkChunk z₂.addr (size + 8) = some h' ∧
        Grants false ∅ h (z.fill [⟨s, false⟩]) h' σ' m ∧ m.addr = z₂.addr ∧ n + 8 ≤ m.size := by
    intro h₂ z₂ t₂ hlt ho₂
    obtain ⟨h', z', s', hcode, ho', haddr, hsize'⟩ := ho₂.shrinkChunk (size + 8)
      (hfine (by omega) (by omega)) hlt (Set.empty_subset _)
    exact ⟨h', _, _, hcode, ho'.grants, haddr, by dsimp only; omega⟩
  by_cases heq : aligned = z₁.addr + 8
  · obtain ⟨h', σ', m, hcode, hgrants, haddr, hlarge⟩ := hshrink h₁ z₁ t (by omega) ho
    rw [if_neg (not_not.mpr heq), bind_eq_bind, bind_some]
    dsimp only
    rw [if_pos (by omega), hcode]
    exact ⟨h', aligned, rfl, .inr ⟨σ', m, hgrants, by omega, hlarge, hdvd⟩⟩
  · obtain ⟨pre, hpre, hpre16, hpre8, hprele, hpredvd⟩ := exists_front h32 hmod hdvd
      (Nat.lt_of_le_of_ne hlow (Ne.symm heq)) hhigh
    obtain ⟨rest, rfl⟩ := Nat.exists_eq_add_of_le (show pre ≤ t by omega)
    have hrest8 : (pre + rest) % 8 = 0 := hchunk.mod
    obtain ⟨h₂, hcut, ho₂⟩ :=
      ho.cutFront (hfine hpre16 hpre8) (hfine (by omega) (by omega)) hprev hpre
    obtain ⟨h', σ', m, hcode, hgrants, haddr, hlarge⟩ := hshrink h₂ _ rest (by omega) ho₂
    rw [Site.addr_spitLeft] at hcode haddr
    dsimp only at hcode haddr
    rw [if_pos heq, hcut, bind_eq_bind, bind_some]
    dsimp only
    rw [if_pos (by omega), hcode]
    exact ⟨h', z₁.addr + pre + 8, rfl, .inr ⟨σ', m, hgrants, by omega, hlarge, hpredvd⟩⟩

/-! ### Clearing -/

/-- **`mm_zalloc` gives a chunk** that is large enough, or `NULL`. -/
theorem zalloc_spec (hr : Represents coarse h σ) (hwrap : n + 23 < 2 ^ 32) :
    ∃ h' p, h.zalloc n = some (h', p) ∧
      ((p = 0 ∧ h' = h) ∨ 0 < n ∧ ∃ σ' m, Grants coarse ∅ h σ h' σ' m ∧ p = m.addr + 8 ∧
        rounded n ≤ m.size) := by
  obtain ⟨h₁, p, hmalloc, ⟨rfl, rfl⟩ | ⟨hn, σ', m, hgrants, rfl, hroom⟩⟩ := malloc_grants hr hwrap
  · refine ⟨h₁, 0, ?_, .inl ⟨rfl, rfl⟩⟩
    rw [zalloc, hmalloc]
    rfl
  · obtain ⟨-, -, hbytes⟩ := rounded_spec hn
    obtain ⟨hrep, hevolves⟩ := hgrants.represents.write (h₁.mem.clear (m.addr + 8) n) hgrants.mem
      hgrants.taken fun x hx => Bytes.clear_apply_of_outside (by omega)
    refine ⟨_, m.addr + 8, ?_, .inr ⟨hn, σ', m, ⟨hrep, hgrants.same.trans .write,
      hgrants.evolves.trans_of_outside hevolves ?_, hgrants.mem, hgrants.taken, hgrants.fresh⟩, rfl,
      hroom⟩⟩
    · rw [zalloc, hmalloc, bind_eq_bind, bind_some]
      dsimp only
      rw [if_pos (by omega)]
    · intro m₀ hm₀ htaken hW hc
      exact hgrants.fresh m₀ hm₀ htaken hW hc

end Heap

end GreenboneFeeder.Mm
