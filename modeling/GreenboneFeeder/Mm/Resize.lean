import GreenboneFeeder.Mm.Alloc

/-!
# Reallocating

`mm_realloc` shrinks a chunk, or extends it into the free chunks on either side, or moves its bytes
to another chunk. A chunk that is extended into the one in front of it has its bytes moved down.

What is left of a neighbour has to be nothing, or large enough for a chunk (`Mm.Heap.LeavesRoom`).
The code does not see to that. It is so as long as the chunks are multiples of 16 bytes
(`Mm.Heap.Even`), which they are until `mm_memalign` is called.
-/

namespace GreenboneFeeder.Mm

open Tiling Option List Nat

namespace Heap

variable {coarse : Bool} {W K : Set ℕ} {v : Bytes} {h₀ h h' : Heap} {σ₀ σ : List Region} {z : Site}
  {mid l r : List Piece} {c d : Piece} {m : Placed} {n s t size k take : ℕ}

/-- The size of a neighbour that can be extended into. -/
def freeSize (c : Piece) : ℕ := if c.taken then 0 else c.size

namespace Opened

/-! ### Shrinking -/

/-- **`mm_shrinkchunk`** gives the end of the chunk back if it is large enough, together with a free
chunk behind it. -/
theorem shrinkChunk (size : ℕ) (ho : Opened coarse W K v h₀ σ₀ h z [⟨s, true⟩])
    (hsize : IsChunk coarse ⟨size, true⟩) (hlt : size < s)
    (hK : K ⊆ Set.Ico (z.addr + 8) (z.addr + size)) :
    ∃ (h' : Heap) (z' : Site) (s' : ℕ), h.shrinkChunk z.addr size = some h' ∧
      Opened coarse W K v h₀ σ₀ h' z' [⟨s', true⟩] ∧ z'.addr = z.addr ∧ size ≤ s' := by
  obtain ⟨c, r, hright⟩ := ho.exists_right
  have hone := ho.one hright
  have hfree := ho.isFree_next hright
  simp only [total_cons, total_nil, add_zero] at hfree
  have hsize16 : 16 ≤ size := hsize.le
  have hs := hone.lt
  obtain ⟨k, rfl⟩ := Nat.exists_eq_add_of_le (Nat.le_of_lt hlt)
  rw [Heap.shrinkChunk]
  dsimp only
  rw [hone.size]
  cases hc : c.taken with
  | false =>
    have hgrown := ho.growRight hright hc
    simp only [total_cons, total_nil, add_zero, cons_append, nil_append] at hgrown
    obtain ⟨t, u⟩ := c
    obtain rfl : u = false := hc
    obtain ⟨c', r', hright'⟩ := hgrown.exists_right
    have htwo := hgrown.two hright'
    have htwolt := htwo.lt
    have htwole := htwo.le'
    have hrest : IsChunk coarse ⟨t + k, false⟩ := by
      have hboth : IsChunk coarse ⟨size + k + t, false⟩ := htwo.chunk.add htwo.chunk'
      rw [add_assoc, add_comm k] at hboth
      exact hboth.left hsize (by omega)
    have haddr : z.eatRight.addr = z.addr := rfl
    have hsum : size + k + t = size + (t + k) := by omega
    have hget := htwo.size
    have hget' := htwo.size'
    have hprev := htwo.preceding
    have hnextsize := htwo.nextSize
    have hnextprev := htwo.nextPreceding
    rw [haddr] at hget hget' hprev hnextsize hnextprev
    rw [hsum] at hnextsize hnextprev
    rw [if_pos (hfree.mpr rfl), hone.nextSize]
    rw [add_assoc z.addr, hsum, hget, hget', show t + (size + k) - size = t + k by omega]
    set h₁ :=
      ((((h.unlink (z.addr + (size + k))).set (z.addr + size) .size (t + k)).set (z.addr + size)
      .preceding size).set z.addr .size size) with hh₁
    have hnew : h₁.get (z.addr + size) .size = t + k := by
      simp (disch := omega) [h₁]
    have hopened :
      Opened coarse W K v h₀ σ₀ (h₁.setPrecedingSize (z.addr + (size + (t + k))) (t + k))
        z.eatRight ([⟨size, true⟩] ++ [⟨t + k, false⟩]) := by
      refine hgrown.retile_two hright' ?_ (by simp; omega) hsize hrest ⟨?_, ?_⟩ ⟨?_, ?_⟩ ⟨?_, ?_⟩
        fun x hx => .inl ⟨rfl, hK hx⟩
      · simp [h₁, setPrecedingSize, haddr]
      all_goals
        dsimp only [h₁, setPrecedingSize]
        rw [haddr]
        simp (disch := omega) [hprev, hnextsize, hnextprev]
    obtain ⟨h', hadd, ho'⟩ := hopened.addRight rfl (ho.apart.next_taken hright rfl)
    refine ⟨h', _, size, ?_, ho', rfl, le_refl _⟩
    rw [hnew]
    exact hadd
  | true =>
    rw [if_neg (by rw [hfree, hc]; decide), sizeofFreeNode, add32_of_lt (by omega)]
    by_cases hcut : size + 16 ≤ size + k
    · rw [if_pos hcut, Nat.add_sub_cancel_left]
      set h₁ :=
        ((h.set (z.addr + size) .size k).set (z.addr + size) .preceding size).set z.addr .size
        size with hh₁
      have hnew : h₁.get (z.addr + size) .size = k := by
        simp (disch := omega) [h₁]
      have hopened :
        Opened coarse W K v h₀ σ₀ (h₁.set (z.addr + (size + k)) .preceding (k ||| allocBit))
          z ([⟨size, true⟩] ++ [⟨k, false⟩]) := by
        refine ho.retile_two hright ?_ rfl hsize (hone.chunk.left hsize (by omega))
          ⟨?_, ?_⟩ ⟨?_, ?_⟩
          ⟨?_, ?_⟩ fun x hx => .inl ⟨rfl, hK hx⟩
        · simp [h₁]
        all_goals
          dsimp only [h₁]
          simp (disch := omega) [hone.preceding, hone.nextSize, hc]
      obtain ⟨h', hadd, ho'⟩ := hopened.addRight rfl fun b hb => by
        rw [hright] at hb
        exact some.inj hb ▸ hc
      refine ⟨h', _, size, ?_, ho', rfl, le_refl _⟩
      rw [hnew]
      exact hadd
    · rw [if_neg hcut]
      exact ⟨h, z, size + k, rfl, ho, rfl, Nat.le_add_right ..⟩

/-! ### Extending -/

/-- **The chunk is extended into the free one behind it.** Either nothing is left of that one, or a
chunk. -/
theorem takeNext (ho : Opened coarse W K v h₀ σ₀ h z [⟨s, true⟩])
    (hright : z.right = ⟨take + k, false⟩ :: r) (htake : IsChunk coarse ⟨s + take, true⟩)
    (hk : k = 0 ∨ 16 ≤ k) (hK : K ⊆ Set.Ico (z.addr + 8) (z.addr + s)) :
    ∃ (h' : Heap) (z' : Site), h.takeNext z.addr s (z.addr + s) (take + k) take = some h' ∧
      Opened coarse W K v h₀ σ₀ h' z' [⟨s + take, true⟩] ∧ z'.addr = z.addr := by
  have hgrown := ho.growRight hright rfl
  simp only [total_cons, total_nil, add_zero, cons_append, nil_append] at hgrown
  obtain ⟨c, r', hright'⟩ := hgrown.exists_right
  have htwo := hgrown.two hright'
  have haddr : z.eatRight.addr = z.addr := rfl
  have hlt := htwo.lt
  have hle := htwo.le
  have hsum : s + (take + k) = s + take + k := by omega
  have hprev := htwo.preceding
  have hnextsize := htwo.nextSize
  have hnextprev := htwo.nextPreceding
  rw [haddr] at hprev hnextsize hnextprev
  rw [hsum] at hnextsize hnextprev
  rw [Heap.takeNext]
  dsimp only
  rw [get_set_self, mod_eq_of_lt (by omega), add_assoc z.addr, hsum]
  rcases hk with rfl | hk
  · rw [if_neg (by omega)]
    simp only [add_zero] at hnextsize hnextprev hlt hright ⊢
    refine ⟨_, z.eatRight, rfl, hgrown.retile_one hright' ?_ (by simp) htake ⟨?_, ?_⟩ ⟨?_, ?_⟩
      fun x hx => ⟨rfl, ?_⟩, rfl⟩
    · simp [setPrecedingSize, haddr]
    on_goal 5 =>
      have := hK hx
      rw [Set.mem_Ico] at this
      omega
    all_goals
      dsimp only [setPrecedingSize]
      rw [haddr]
      simp (disch := omega) [hprev, hnextsize, hnextprev]
  · have hold :
      (((h.unlink (z.addr + s)).set z.addr .size (s + take)).set (z.addr + (s + take)) .size
        k).get z.addr .size = s + take := by
      simp (disch := omega)
    rw [if_pos (by omega), Nat.add_sub_cancel_left, hold]
    set h₁ := (((h.unlink (z.addr + s)).set z.addr .size (s + take)).set (z.addr + (s + take)) .size
      k).set (z.addr + (s + take)) .preceding (s + take) with hh₁
    have hnew : h₁.get (z.addr + (s + take)) .size = k := by
      simp (disch := omega) [h₁]
    have hrest : IsChunk coarse ⟨k, false⟩ := by
      have hboth : IsChunk coarse ⟨s + (take + k), true⟩ := htwo.chunk.add htwo.chunk'
      rw [hsum] at hboth
      exact hboth.left htake hk
    have hopened : Opened coarse W K v h₀ σ₀ (h₁.setPrecedingSize (z.addr + (s + take + k)) k)
        z.eatRight ([⟨s + take, true⟩] ++ [⟨k, false⟩]) := by
      refine hgrown.retile_two hright' ?_ (by simp; omega) htake hrest ⟨?_, ?_⟩ ⟨?_, ?_⟩ ⟨?_, ?_⟩
        fun x hx => .inl ⟨rfl, ?_⟩
      · simp [h₁, setPrecedingSize, haddr]
      on_goal 7 =>
        have := hK hx
        rw [Set.mem_Ico] at this
        omega
      all_goals
        dsimp only [h₁, setPrecedingSize]
        rw [haddr]
        simp (disch := omega) [hprev, hnextsize, hnextprev]
    obtain ⟨h', hadd, ho'⟩ := hopened.addRight rfl (ho.apart.next_taken hright rfl)
    refine ⟨h', _, ?_, ho', rfl⟩
    rw [hnew]
    exact hadd

theorem moveDown {old : ℕ} (ho : Opened coarse W (Set.Ico (old + 8) (old + s)) v h₀ σ₀ h z
      [⟨s + take, true⟩]) (hold : z.addr + take = old) :
    h.get z.addr .size = s + take ∧
      Opened coarse W (Set.Ico (z.addr + 8) (z.addr + s)) (fun x => v (x + take)) h₀ σ₀
        { h with mem := h.mem.copy (z.addr + 8) (old + 8) (s + take - 8) } z
          [⟨s + take, true⟩] := by
  obtain ⟨c, r, hright⟩ := ho.exists_right
  have hone := ho.one hright
  refine ⟨hone.size, ho.write (fun x hx => Bytes.copy_apply_of_outside (by omega)) fun x hx => ?_⟩
  rw [Set.mem_Ico] at hx
  obtain ⟨i, rfl⟩ := Nat.exists_eq_add_of_le hx.1
  refine ⟨by omega, ?_⟩
  rw [Bytes.copy_apply (.inl (by omega)) (by omega),
    show old + 8 + i = z.addr + 8 + i + take by omega]
  exact ho.kept _ (by rw [Set.mem_Ico]; omega)

/-- **The chunk is extended into the free one in front of it**, and the user's bytes are moved
down. -/
theorem takePrev {q : ℕ} (ho : Opened coarse W (Set.Ico (z.addr + 8) (z.addr + s)) v h₀ σ₀ h z
      [⟨s, true⟩]) (hleft : z.left = l ++ [⟨q + take, false⟩])
    (htake : IsChunk coarse ⟨s + take, true⟩) (hq : q = 0 ∨ 16 ≤ q) :
    ∃ (h' : Heap) (z' : Site), h.takePrev z.addr s z.eatLeft.addr (q + take) (z.addr + s) take =
        some (h', z'.addr, s + take) ∧ z'.addr + take = z.addr ∧ z'.right = z.right ∧
      Opened coarse W (Set.Ico (z'.addr + 8) (z'.addr + s)) (fun x => v (x + take)) h₀ σ₀ h' z'
        [⟨s + take, true⟩] := by
  have hgrown := ho.growLeft hleft rfl
  obtain ⟨c, r, hright⟩ := hgrown.exists_right
  have htwo := hgrown.two hright
  have haddr : z.addr = z.eatLeft.addr + (q + take) := Site.total_left hleft
  have hlt := htwo.lt
  have hle' := htwo.le'
  have hprevlt := htwo.prev_lt
  have hsum : q + take + s = q + (s + take) := by omega
  have hprev := htwo.preceding
  have hget := htwo.size
  have hnextsize := htwo.nextSize
  have hnextprev := htwo.nextPreceding
  rw [hsum] at hnextsize hnextprev
  have hold : z.addr - take = z.eatLeft.addr + q := by omega
  rw [Heap.takePrev]
  dsimp only
  rw [hold, show z.addr + s = z.eatLeft.addr + (q + (s + take)) by omega, hget]
  rcases hq with rfl | hq
  · simp only [zero_add, add_zero] at hget hnextsize hnextprev hlt haddr hgrown ⊢
    rw [if_neg (by omega), hget, add_comm take, bind_eq_bind, bind_some]
    set h₁ := ((h.unlink z.eatLeft.addr).set z.eatLeft.addr .size (s + take)).set z.eatLeft.addr
      .preceding (((h.unlink z.eatLeft.addr).set z.eatLeft.addr .size (s + take)).get z.eatLeft.addr
        .preceding ||| allocBit) with hh₁
    have hnew : h₁.get z.eatLeft.addr .size = s + take := by
      simp (disch := omega) [h₁]
    rw [hnew]
    have hopened : Opened coarse W (Set.Ico (z.addr + 8) (z.addr + s)) v h₀ σ₀
        (h₁.setPrecedingSize (z.eatLeft.addr + (s + take)) (s + take)) z.eatLeft
        [⟨s + take, true⟩] := by
      refine hgrown.retile_one hright ?_ (by simp; omega) htake ⟨?_, ?_⟩ ⟨?_, ?_⟩ fun x hx =>
        ⟨rfl, ?_⟩
      · simp [h₁, setPrecedingSize]
      on_goal 5 =>
        rw [Set.mem_Ico] at hx
        omega
      all_goals
        dsimp only [h₁, setPrecedingSize]
        simp (disch := omega) [hprev, hnextsize, hnextprev]
    obtain ⟨hread, hmoved⟩ := hopened.moveDown haddr.symm
    exact ⟨_, z.eatLeft, by rw [hread]; rfl, haddr.symm, rfl, hmoved⟩
  · rw [if_pos (by omega), Nat.add_sub_cancel]
    have hrest :
      (((h.unlink z.eatLeft.addr).set z.eatLeft.addr .size q).set (z.eatLeft.addr + q) .size
        (s + take)).get z.eatLeft.addr .size = q := by
      simp (disch := omega)
    rw [hrest]
    set h₁ := (((h.unlink z.eatLeft.addr).set z.eatLeft.addr .size q).set (z.eatLeft.addr + q) .size
      (s + take)).set (z.eatLeft.addr + q) .preceding (q ||| allocBit) with hh₁
    have hnew : h₁.get (z.eatLeft.addr + q) .size = s + take := by
      simp (disch := omega) [h₁]
    rw [hnew]
    have hchunk : IsChunk coarse ⟨q, false⟩ := by
      have hboth : IsChunk coarse ⟨q + take + s, true⟩ := htwo.chunk.add htwo.chunk'
      rw [hsum, add_comm] at hboth
      exact hboth.left htake hq
    have hopened : Opened coarse W (Set.Ico (z.addr + 8) (z.addr + s)) v h₀ σ₀
        (h₁.setPrecedingSize (z.eatLeft.addr + (q + (s + take))) (s + take)) z.eatLeft
        [⟨q, false⟩, ⟨s + take, true⟩] := by
      refine hgrown.retile_two hright ?_ (by simp; omega) hchunk htake ⟨?_, ?_⟩ ⟨?_, ?_⟩ ⟨?_, ?_⟩
        fun x hx => .inr ⟨rfl, ?_⟩
      · simp [h₁, setPrecedingSize]
      on_goal 7 =>
        rw [Set.mem_Ico] at hx
        omega
      all_goals
        dsimp only [h₁, setPrecedingSize]
        simp (disch := omega) [hprev, hnextsize, hnextprev]
    obtain ⟨h', hadd, ho'⟩ := hopened.addLeft rfl (ho.apart.prev_taken hleft rfl)
    have haddr' : (z.eatLeft.spitLeft ⟨q, false⟩).addr = z.eatLeft.addr + q := Site.addr_spitLeft
    obtain ⟨hread, hmoved⟩ := ho'.moveDown (by omega)
    rw [haddr'] at hread hmoved
    refine ⟨_, z.eatLeft.spitLeft ⟨q, false⟩, ?_, by omega, rfl, by rw [haddr']; exact hmoved⟩
    rw [hadd, bind_eq_bind, bind_some, hread, haddr']
    rfl

theorem freeSize_le_total (hc : c ∈ l) : freeSize c ≤ total l := by
  rw [freeSize]
  split
  · exact zero_le _
  · exact size_le_total hc

theorem sum_lt (ho : Opened coarse W K v h₀ σ₀ h z [⟨s, true⟩]) (hleft : z.left = l ++ [d])
    (hright : z.right = c :: r) : freeSize c + freeSize d + s < 2 ^ 31 := by
  obtain ⟨left, right, hl, hr, -⟩ := ho.holds.geometry.exists_chunks ho.inner
  have hsmall := ho.holds.geometry.valid_fill.small
  rw [hl, hr] at hsmall
  simp only [total_append, total_cons, total_nil, guard] at hsmall
  have hd : freeSize d ≤ total left := by
    rw [hleft] at hl
    cases l with
    | nil =>
      rw [(cons_eq_cons.mp hl).1]
      exact zero_le _
    | cons e l =>
      rw [← (cons_eq_cons.mp hl).2]
      exact freeSize_le_total (mem_append_right _ mem_cons_self)
  have hc : freeSize c ≤ total right := by
    rw [hright] at hr
    cases right with
    | nil =>
      rw [(cons_eq_cons.mp hr).1]
      exact zero_le _
    | cons e right =>
      rw [(cons_eq_cons.mp hr).1]
      exact freeSize_le_total mem_cons_self
  omega

end Opened

/-! ### How much is taken from the neighbours -/

/-- What is taken of a chunk leaves nothing, or enough for a chunk. -/
def Roomy (take size : ℕ) : Prop := take = 0 ∨ take = size ∨ take + 16 ≤ size

instance (take size : ℕ) : Decidable (Roomy take size) :=
  inferInstanceAs (Decidable (_ ∨ _ ∨ _))

section Takes

variable {needed prevsize nextsize : ℕ}

/-- **The neighbours give what is needed.** -/
theorem takes_spec (needed prevsize nextsize : ℕ) (hneeded : 0 < needed)
    (hle : needed ≤ prevsize + nextsize) :
    (takes needed prevsize nextsize).1 + (takes needed prevsize nextsize).2 = needed ∧
      (takes needed prevsize nextsize).1 ≤ prevsize ∧
        (takes needed prevsize nextsize).2 ≤ nextsize := by
  rw [takes]
  split_ifs <;> dsimp only <;> omega

theorem takes_dvd (hneeded : k ∣ needed) (hprev : k ∣ prevsize) (hnext : k ∣ nextsize) :
    k ∣ (takes needed prevsize nextsize).1 ∧ k ∣ (takes needed prevsize nextsize).2 := by
  rw [takes]
  split_ifs
  · exact ⟨hprev, dvd_sub hneeded hprev⟩
  · exact ⟨hneeded, Nat.dvd_zero k⟩
  · exact ⟨dvd_sub hneeded hnext, hnext⟩
  · exact ⟨Nat.dvd_zero k, hneeded⟩
  · exact ⟨Nat.dvd_zero k, Nat.dvd_zero k⟩

end Takes

namespace Opened

theorem dvd_freeSize (ho : Opened coarse W K v h₀ σ₀ h z mid) (hleft : z.left = l ++ [d])
    (hright : z.right = c :: r) (hk : k = 8 ∨ coarse = true ∧ k = 16) :
    k ∣ freeSize d ∧ k ∣ freeSize c := by
  have hdvd : ∀ e : Piece, IsChunk coarse e → k ∣ e.size := by
    intro e he
    rcases hk with rfl | ⟨hcoarse, rfl⟩
    · exact dvd_of_mod_eq_zero he.mod
    · exact dvd_of_mod_eq_zero (he.mod_of_coarse hcoarse)
  constructor
  · cases hd : d.taken with
    | true => exact ⟨0, by rw [freeSize, hd]; rfl⟩
    | false =>
      have hchunk := (ho.growLeft hleft hd).isChunk mem_cons_self
      rw [freeSize, hd]
      exact hdvd d hchunk
  · cases hc : c.taken with
    | true => exact ⟨0, by rw [freeSize, hc]; rfl⟩
    | false =>
      have hchunk := (ho.growRight hright hc).isChunk (mem_append_right _ mem_cons_self)
      rw [freeSize, hc]
      exact hdvd c hchunk

theorem extend_eq (h : Heap) (oldnode oldsize prev prevsize next nextsize size : ℕ) :
    h.extend oldnode oldsize prev prevsize next nextsize size =
      (if (takes (size - oldsize) prevsize nextsize).1 ≠ 0 then
          h.takePrev oldnode oldsize prev prevsize next (takes (size - oldsize) prevsize nextsize).1
        else some (h, oldnode, oldsize)).bind fun x =>
      (if (takes (size - oldsize) prevsize nextsize).2 ≠ 0 then
          x.1.takeNext x.2.1 x.2.2 next nextsize (takes (size - oldsize) prevsize nextsize).2
        else some x.1).bind fun h => some (h, x.2.1 + sizeofAllocNode) := by
  rw [Heap.extend]
  dsimp only
  split_ifs <;> rfl

/-- **The chunk is extended in place.** -/
theorem extend (ho : Opened coarse W (Set.Ico (z.addr + 8) (z.addr + s)) v h₀ σ₀ h z [⟨s, true⟩])
    (hleft : z.left = l ++ [d]) (hright : z.right = c :: r) (hsize : IsChunk coarse ⟨size, true⟩)
    (hlt : s < size) (hle : size ≤ freeSize c + freeSize d + s)
    (hroom : Roomy (takes (size - s) (freeSize d) (freeSize c)).1 (freeSize d) ∧
      Roomy (takes (size - s) (freeSize d) (freeSize c)).2 (freeSize c)) :
    ∃ (h' : Heap) (z' : Site) (δ : ℕ),
      h.extend z.addr s z.eatLeft.addr (freeSize d) (z.addr + s) (freeSize c) size =
        some (h', z'.addr + 8) ∧ z'.addr + δ = z.addr ∧
      Opened coarse W (Set.Ico (z'.addr + 8) (z'.addr + s)) (fun x => v (x + δ)) h₀ σ₀ h' z'
        [⟨size, true⟩] := by
  have hspec := takes_spec (size - s) (freeSize d) (freeSize c) (by omega) (by omega)
  have hchunk := ho.isChunk mem_cons_self
  have htook : ∀ k, k = 8 ∨ coarse = true ∧ k = 16 →
      k ∣ (takes (size - s) (freeSize d) (freeSize c)).1 := by
    intro k hk
    obtain ⟨hd, hc⟩ := ho.dvd_freeSize hleft hright hk
    refine (takes_dvd (dvd_sub ?_ ?_) hd hc).1
    · rcases hk with rfl | ⟨hcoarse, rfl⟩
      · exact dvd_of_mod_eq_zero hsize.mod
      · exact dvd_of_mod_eq_zero (hsize.mod_of_coarse hcoarse)
    · rcases hk with rfl | ⟨hcoarse, rfl⟩
      · exact dvd_of_mod_eq_zero hchunk.mod
      · exact dvd_of_mod_eq_zero (hchunk.mod_of_coarse hcoarse)
  rw [extend_eq]
  generalize takes (size - s) (freeSize d) (freeSize c) = took at hspec htook hroom ⊢
  obtain ⟨tp, tn⟩ := took
  obtain ⟨hsum, hprevle, hnextle⟩ := hspec
  have hboth : IsChunk coarse ⟨s + tp, true⟩ := by
    have h8 := htook 8 (.inl rfl)
    have hs8 : s % 8 = 0 := hchunk.mod
    refine ⟨le_add_right_of_le hchunk.le, by dsimp only; omega, fun hcoarse => ?_⟩
    have h16 := htook 16 (.inr ⟨hcoarse, rfl⟩)
    have hs16 : s % 16 = 0 := hchunk.mod_of_coarse hcoarse
    dsimp only
    omega
  -- the chunk in front
  obtain ⟨h₁, z₁, hstep₁, haddr₁, hright₁, ho₁⟩ : ∃ (h₁ : Heap) (z₁ : Site),
      (if tp ≠ 0 then h.takePrev z.addr s z.eatLeft.addr (freeSize d) (z.addr + s) tp
        else some (h, z.addr, s)) = some (h₁, z₁.addr, s + tp) ∧ z₁.addr + tp = z.addr ∧
      z₁.right = z.right ∧
        Opened coarse W (Set.Ico (z₁.addr + 8) (z₁.addr + s)) (fun x => v (x + tp)) h₀
        σ₀ h₁ z₁ [⟨s + tp, true⟩] := by
    by_cases htp : tp = 0
    · subst htp
      exact ⟨h, z, by rfl, rfl, rfl, ho⟩
    · obtain ⟨t, u⟩ := d
      cases u with
      | true => exact absurd (le_zero.mp hprevle) htp
      | false =>
        have hfree : freeSize ⟨t, false⟩ = t := rfl
        obtain ⟨q, rfl⟩ := Nat.exists_eq_add_of_le' hprevle
        rw [if_pos htp]
        refine ho.takePrev hleft hboth ?_
        rcases hroom.1 with hroom | hroom | hroom <;> omega
  -- the chunk behind
  obtain ⟨h₂, z₂, hstep₂, haddr₂, ho₂⟩ : ∃ (h₂ : Heap) (z₂ : Site),
      (if tn ≠ 0 then h₁.takeNext z₁.addr (s + tp) (z.addr + s) (freeSize c) tn else some h₁) = some
        h₂ ∧
      z₂.addr = z₁.addr ∧
        Opened coarse W (Set.Ico (z₁.addr + 8) (z₁.addr + s)) (fun x => v (x + tp)) h₀
        σ₀ h₂ z₂ [⟨size, true⟩] := by
    have hnew : s + tp + tn = size := by omega
    rw [← hnew]
    by_cases htn : tn = 0
    · subst htn
      exact ⟨h₁, z₁, by rw [if_neg (by simp)], rfl, ho₁⟩
    · obtain ⟨t, u⟩ := c
      cases u with
      | true => exact absurd (le_zero.mp hnextle) htn
      | false =>
        have hfree : freeSize ⟨t, false⟩ = t := rfl
        obtain ⟨k, rfl⟩ := Nat.exists_eq_add_of_le hnextle
        rw [if_pos htn, show z.addr + s = z₁.addr + (s + tp) by omega]
        obtain ⟨h₂, z₂, hstep, ho₂, haddr⟩ := ho₁.takeNext (by rw [hright₁, hright])
          (by rw [hnew]; exact hsize) (by rcases hroom.2 with hroom | hroom | hroom <;> omega)
          fun x hx => ⟨hx.1, lt_of_lt_of_le hx.2 (by omega)⟩
        exact ⟨h₂, z₂, hstep, haddr, ho₂⟩
  refine ⟨h₂, z₂, tp, ?_, by omega, by rw [haddr₂]; exact ho₂⟩
  rw [hstep₁, bind_some]
  rw [hstep₂, haddr₂, bind_some, sizeofAllocNode]

end Opened

/-! ### Moving -/

/-- **The bytes are moved to another chunk**, if there is one. -/
theorem move_spec (hr : Represents coarse h (z.fill [⟨s, true⟩])) (hinner : z.Inner)
    (hmod : size % 16 = 0) (hlt : s < size) (hwrap : size + 23 < 2 ^ 32) :
    ∃ h' q, h.move (z.addr + 8) s size = some (h', q) ∧
      ((q = 0 ∧ h' = h) ∨ ∃ σ' m, Grants coarse {z.addr} h (z.fill [⟨s, true⟩]) h' σ' m ∧
        q = m.addr + 8 ∧ size ≤ m.size ∧
        ∀ i < s - 8, h'.mem (q + i) = h.mem (z.addr + 8 + i)) := by
  have hs : 16 ≤ s := (hr.holds.geometry.isChunk_mid hinner mem_cons_self).le
  obtain ⟨h₁, p, hmalloc, ⟨rfl, rfl⟩ | ⟨-, σ₁, m₁, hgrants, rfl, hroom⟩⟩ :=
    malloc_grants hr hwrap
  · rw [move, hmalloc]
    exact ⟨h₁, 0, rfl, .inl ⟨rfl, rfl⟩⟩
  have hold : (⟨z.addr, s, z.prev, true⟩ : Placed) ∈ placed (z.fill [⟨s, true⟩]) :=
    Site.mem_placed_one
  have hne : z.addr ≠ m₁.addr := hgrants.fresh _ hold rfl (Set.notMem_empty _)
  rw [rounded] at hroom
  -- the bytes are copied
  set mem := h₁.mem.copy (m₁.addr + 8) (z.addr + 8) s with hcopy
  obtain ⟨hrep₂, hevolves₂⟩ := hgrants.represents.write mem hgrants.mem hgrants.taken
    fun x hx => Bytes.copy_apply_of_outside (by omega)
  -- the old chunk is still there, and is freed
  obtain ⟨m₀, hm₀, haddr₀, hsize₀, htaken₀⟩ := hgrants.evolves.stays _ hold rfl (Set.notMem_empty _)
  dsimp only at haddr₀ hsize₀
  obtain ⟨z₁, rfl, haddr₁, hinner₁⟩ := hrep₂.holds.geometry.exists_site hm₀ (.inr (by omega))
  rw [haddr₀] at haddr₁
  rw [htaken₀] at hrep₂ hevolves₂ hgrants
  obtain ⟨h₃, hfree, hrep₃, hsame₃, hevolves₃⟩ := free_spec hrep₂ hinner₁
  rw [haddr₁] at hfree hevolves₃
  -- and so is the new one
  have hnew : m₁.addr ∉ ({z.addr} : Set ℕ) := fun hc => hne hc.symm
  obtain ⟨m₃, hm₃, haddr₃, hsize₃, htaken₃⟩ := hevolves₃.stays m₁ hgrants.mem hgrants.taken hnew
  refine ⟨h₃, m₁.addr + 8, ?_,
    .inr ⟨_, m₃, ⟨hrep₃, ?_, ?_, hm₃, htaken₃, ?_⟩, ?_, ?_, fun i hi => ?_⟩⟩
  · rw [move, hmalloc, bind_eq_bind, bind_some]
    dsimp only
    rw [hfree]
    rfl
  · exact (hgrants.same.trans .write).trans hsame₃
  · refine Evolves.trans
      (hgrants.evolves.mono (Set.empty_subset _) |>.trans_of_outside hevolves₂ ?_)
      hevolves₃
    intro m hm htaken _ hc
    exact hgrants.fresh m hm htaken (Set.notMem_empty _) hc
  · intro m hm htaken _
    rw [haddr₃]
    exact hgrants.fresh m hm htaken (Set.notMem_empty _)
  · rw [haddr₃]
  · omega
  · have hdisjoint := hgrants.represents.holds.geometry.disjoint hgrants.mem Site.mem_placed_one
      (by rintro rfl; exact hne haddr₁.symm)
    dsimp only at hdisjoint
    rw [hevolves₃.bytes m₁ hgrants.mem hgrants.taken hnew _ (by omega) (by omega)]
    dsimp only
    rw [hcopy, Bytes.copy_apply (by omega) (by omega)]
    exact hgrants.evolves.bytes _ hold rfl (Set.notMem_empty _) _ (by dsimp only; omega)
      (by dsimp only; omega)

/-! ### Reallocating -/

/-- **What is left of the neighbours** when `mm_realloc` extends a chunk in place is nothing, or
large enough for a chunk. -/
def LeavesRoom (h : Heap) (oldmem size : ℕ) : Prop :=
  let size := alignUp (add32 size sizeofAllocNode)
  let oldnode := oldmem - sizeofAllocNode
  let oldsize := h.get oldnode .size
  let next := oldnode + oldsize
  let nextsize := if h.IsFree next then h.get next .size else 0
  let prev := oldnode - (h.get oldnode .preceding &&& sizeMask)
  let prevsize := if h.IsFree prev then h.get prev .size else 0
  oldsize < size → size ≤ add32 (add32 nextsize prevsize) oldsize →
    Roomy (takes (size - oldsize) prevsize nextsize).1 prevsize ∧
      Roomy (takes (size - oldsize) prevsize nextsize).2 nextsize

instance (h : Heap) (oldmem size : ℕ) : Decidable (h.LeavesRoom oldmem size) :=
  inferInstanceAs (Decidable (_ → _ → _ ∧ _))

namespace Opened

theorem ite_free_size {p : Prop} [Decidable p] (h : p ↔ c.taken = false) :
    (if p then c.size else 0) = freeSize c := by
  rw [freeSize]
  cases hc : c.taken with
  | true => rw [if_neg (by rw [h, hc]; decide), if_pos rfl]
  | false => rw [if_pos (h.mpr hc), if_neg (by decide)]

theorem neighbours (ho : Opened coarse W K v h₀ σ₀ h z [⟨s, true⟩]) (hleft : z.left = l ++ [d])
    (hright : z.right = c :: r) :
    (if h.IsFree (z.addr + s) then h.get (z.addr + s) .size else 0) = freeSize c ∧
      z.addr - (h.get z.addr .preceding &&& sizeMask) = z.eatLeft.addr ∧
      (if h.IsFree z.eatLeft.addr then h.get z.eatLeft.addr .size else 0) = freeSize d ∧
      add32 (add32 (freeSize c) (freeSize d)) s = freeSize c + freeSize d + s := by
  have hone := ho.one hright
  have hsum := ho.sum_lt hleft hright
  have hnext := ho.isFree_next hright
  have hprev := ho.isFree_prev hleft
  have hprevsize := (ho.holds.head_prev hleft).1.size
  refine ⟨?_, ?_, ?_, ?_⟩
  · rw [hone.nextSize]
    exact ite_free_size hnext
  · have haddr := Site.total_left hleft
    rw [hone.preceding, tagged_and_sizeMask hone.prev_lt, Site.prev_eq hleft]
    omega
  · rw [hprevsize]
    exact ite_free_size hprev
  · rw [add32_of_lt (a := freeSize c) (by omega), add32_of_lt (by omega)]

end Opened

/-- **Even chunks**: the block does not grow, or neither neighbour is free, or the chunk of the
block and its free neighbours are multiples of 16 bytes. -/
def Even (h : Heap) (oldmem size : ℕ) : Prop :=
  let oldnode := oldmem - sizeofAllocNode
  let oldsize := h.get oldnode .size
  let next := oldnode + oldsize
  let prev := oldnode - (h.get oldnode .preceding &&& sizeMask)
  rounded size ≤ oldsize ∨ (¬h.IsFree next ∧ ¬h.IsFree prev) ∨
    (16 ∣ oldsize ∧ (h.IsFree next → 16 ∣ h.get next .size) ∧
      (h.IsFree prev → 16 ∣ h.get prev .size))

instance (h : Heap) (oldmem size : ℕ) : Decidable (h.Even oldmem size) :=
  inferInstanceAs (Decidable (_ ∨ _ ∨ _))

namespace Opened

variable (ho : Opened coarse W K v h₀ σ₀ h z [⟨s, true⟩]) (hleft : z.left = l ++ [d])
  (hright : z.right = c :: r) (hwrap : n + 23 < 2 ^ 32)

include ho hleft hright hwrap

theorem leavesRoom_iff : h.LeavesRoom (z.addr + 8) n ↔
    (s < rounded n → rounded n ≤ freeSize c + freeSize d + s →
      Roomy (takes (rounded n - s) (freeSize d) (freeSize c)).1 (freeSize d) ∧
        Roomy (takes (rounded n - s) (freeSize d) (freeSize c)).2 (freeSize c)) := by
  obtain ⟨hnext, hprev, hprevsize, hsum⟩ := ho.neighbours hleft hright
  have hnode : z.addr + 8 - sizeofAllocNode = z.addr := Nat.add_sub_cancel _ 8
  rw [LeavesRoom, hnode, (ho.one hright).size, hnext, hprev, hprevsize, hsum, alignUp_add32 hwrap]

theorem leavesRoom_of_dvd (hs : 16 ∣ s) (hd : 16 ∣ freeSize d) (hc : 16 ∣ freeSize c) :
    h.LeavesRoom (z.addr + 8) n := by
  rw [ho.leavesRoom_iff hleft hright hwrap]
  intro hlt hle
  have hneeded : 16 ∣ rounded n - s := dvd_sub (dvd_mul_left _ _) hs
  obtain ⟨hp, hn⟩ := takes_dvd hneeded hd hc
  obtain ⟨-, hple, hnle⟩ :=
    takes_spec (rounded n - s) (freeSize d) (freeSize c) (by omega) (by omega)
  have hroomy : ∀ take size : ℕ, 16 ∣ take → 16 ∣ size → take ≤ size → Roomy take size := by
    unfold Roomy
    omega
  exact ⟨hroomy _ _ hp hd hple, hroomy _ _ hn hc hnle⟩

/-- **Even chunks leave room.** -/
theorem leavesRoom_of_even (heven : h.Even (z.addr + 8) n) : h.LeavesRoom (z.addr + 8) n := by
  have hone := ho.one hright
  have hnext := ho.isFree_next hright
  have hprev := ho.isFree_prev hleft
  simp only [total_cons, total_nil, add_zero] at hnext
  have hprevaddr := (ho.neighbours hleft hright).2.1
  have hnode : z.addr + 8 - sizeofAllocNode = z.addr := Nat.add_sub_cancel _ 8
  rw [Even, hnode, hone.size, hprevaddr, hnext, hprev, hone.nextSize,
    (ho.holds.head_prev hleft).1.size] at heven
  have hdvd : ∀ {e : Piece}, (e.taken = false → 16 ∣ e.size) → 16 ∣ freeSize e := by
    intro e he
    rw [freeSize]
    split
    · exact Nat.dvd_zero _
    · next htaken => exact he (Bool.eq_false_of_not_eq_true htaken)
  rcases heven with hle | ⟨hc, hd⟩ | ⟨hs, hc, hd⟩
  · rw [ho.leavesRoom_iff hleft hright hwrap]
    exact fun hlt => absurd hle (by omega)
  · rw [ho.leavesRoom_iff hleft hright hwrap, freeSize, freeSize, if_pos (by simpa using hc),
      if_pos (by simpa using hd)]
    exact fun hlt hle => absurd hle (by omega)
  · exact ho.leavesRoom_of_dvd hleft hright hwrap hs (hdvd hd) (hdvd hc)

end Opened

theorem leavesRoom_of_coarse (hr : Represents true h (z.fill [⟨s, true⟩])) (hinner : z.Inner)
    (hwrap : n + 23 < 2 ^ 32) : h.LeavesRoom (z.addr + 8) n := by
  have ho := Opened.of_taken hr hinner
  obtain ⟨c, r, hright⟩ := ho.exists_right
  obtain ⟨l, d, hleft⟩ := ho.exists_left
  obtain ⟨hd, hc⟩ := ho.dvd_freeSize hleft hright (.inr ⟨rfl, rfl⟩)
  have hs : 16 ∣ s := dvd_of_mod_eq_zero ((ho.one hright).chunk.mod_of_coarse rfl)
  exact ho.leavesRoom_of_dvd hleft hright hwrap hs hd hc

/-- **`mm_realloc` gives a chunk** that is large enough and has the user's bytes, or `NULL`. -/
theorem realloc_spec (hr : Represents coarse h (z.fill [⟨s, true⟩])) (hinner : z.Inner) (hn : 0 < n)
    (hwrap : n + 39 < 2 ^ 32) (hroom : h.LeavesRoom (z.addr + 8) n) :
    ∃ h' q, h.realloc (z.addr + 8) n = some (h', q) ∧
      ((q = 0 ∧ h' = h) ∨ ∃ σ' m, Grants coarse {z.addr} h (z.fill [⟨s, true⟩]) h' σ' m ∧
        q = m.addr + 8 ∧ rounded n ≤ m.size ∧
        ∀ i < min (s - 8) n, h'.mem (q + i) = h.mem (z.addr + 8 + i)) := by
  have ho := Opened.of_taken hr hinner
  obtain ⟨c, r, hright⟩ := ho.exists_right
  obtain ⟨l, d, hleft⟩ := ho.exists_left
  have hone := ho.one hright
  obtain ⟨hnext, hprev, hprevsize, hsum⟩ := ho.neighbours hleft hright
  obtain ⟨hge, hmod, hbytes⟩ := rounded_spec hn
  have hchunk : IsChunk coarse ⟨rounded n, true⟩ := ⟨hge, by dsimp only; omega, fun _ => hmod⟩
  have hnode : z.addr + 8 - sizeofAllocNode = z.addr := Nat.add_sub_cancel _ 8
  rw [realloc, if_neg (by omega), if_neg (by omega), hnode]
  dsimp only
  rw [hone.size, alignUp_add32 (by omega)]
  rw [ho.leavesRoom_iff hleft hright (by omega)] at hroom
  by_cases hle : rounded n ≤ s
  · rw [if_pos hle]
    by_cases hlt : rounded n < s
    · obtain ⟨h', z', s', hshrink, ho', haddr, hsize⟩ := (ho.mono (Set.Ico (z.addr + 8)
        (z.addr + rounded n)) fun x hx => ⟨hx.1, lt_of_lt_of_le hx.2 (by omega)⟩).shrinkChunk _
          hchunk
        hlt fun _ => id
      rw [if_pos hlt, hshrink]
      refine ⟨h', z.addr + 8, rfl, .inr ⟨_, _, ho'.grants, ?_, hsize, fun i hi => ?_⟩⟩
      · rw [haddr]
      · exact ho'.kept _ ⟨by omega, by omega⟩
    · rw [if_neg hlt]
      exact ⟨h, z.addr + 8, rfl, .inr ⟨_, _, ho.grants, rfl, hle, fun i _ => rfl⟩⟩
  · rw [if_neg hle, hnext, hprev, hprevsize, hsum]
    by_cases henough : freeSize c + freeSize d + s ≥ rounded n
    · rw [if_pos henough]
      obtain ⟨h', z', δ, hextend, haddr, ho'⟩ := ho.extend hleft hright hchunk (by omega) henough
        (hroom (by omega) henough)
      refine ⟨h', z'.addr + 8, hextend, .inr ⟨_, _, ho'.grants, rfl, le_refl _, fun i hi => ?_⟩⟩
      rw [ho'.kept _ ⟨by omega, by omega⟩]
      congr 1
      omega
    · rw [if_neg henough]
      obtain ⟨h', q, hmove, ⟨hq, hsame⟩ | ⟨σ', m, hgrants, hq, hsize, hkept⟩⟩ :=
        move_spec hr hinner hmod (by omega) (by rw [rounded]; omega)
      · exact ⟨h', q, hmove, .inl ⟨hq, hsame⟩⟩
      · exact ⟨h', q, hmove, .inr ⟨σ', m, hgrants, hq, hsize, fun i hi => hkept i (by omega)⟩⟩

end Heap

end GreenboneFeeder.Mm
