import GreenboneFeeder.Mm.Runs
import GreenboneFeeder.Mm.Walk

/-!
# What the allocator chooses

After any run, `mm_malloc` takes a smallest chunk that is large enough
(`Mm.System.malloc_best_fit`), `mm_free` undoes it (`Mm.System.malloc_free_neutral`), and
`mm_memalign` aligns (`Mm.System.memalign_aligns`). An alignment of 16 bytes is left to `mm_malloc`,
and chunks are not at multiples of 16 any more once a block was aligned to more.
-/

namespace GreenboneFeeder.Mm

open Tiling

/-- **Freeing undoes the cut.** -/
theorem Site.freed_cut {z : Site} {s size : ℕ} (hsep : Separated (z.fill [⟨s, false⟩]))
    (hinner : z.Inner)
    (hle : size ≤ s) : (z.cut s size).1.freed (z.cut s size).2 = z.fill [⟨s, false⟩] := by
  obtain ⟨c, r, hright⟩ := List.exists_cons_of_ne_nil hinner.right
  obtain ⟨l, d, hleft⟩ := List.eq_nil_or_concat z.left |>.resolve_left hinner.left
  rw [List.concat_eq_append] at hleft
  have hc : c.taken = true :=
    hsep.next_taken (fun a ha => by obtain rfl := Option.some.inj ha; rfl) (List.cons_ne_nil _ _) c
      (by rw [hright]; rfl)
  have hd : d.taken = true := hsep.prev_taken rfl d (by rw [hleft, List.getLast?_concat]; rfl)
  rw [freed, cut]
  split
  · have hjoin : (z.spitRight ⟨s - size, false⟩).joinRight size = (z, size + (s - size)) :=
      joinRight_of_free (c := ⟨s - size, false⟩) rfl rfl
    rw [hjoin, Nat.add_sub_cancel' hle, joinLeft_of_taken hleft hd]
  · rw [joinRight_of_taken hright hc, joinLeft_of_taken hleft hd]

namespace System

variable {coarse : Bool} {s₀ s : System} {cs : List Call} {h₁ : Heap} {al n p : ℕ}

/-! ### Best fit -/

/-- **`mm_malloc` is best fit and complete.** It gives `NULL` if and only if no free chunk is large
enough; a remainder large enough for a chunk is in the list again. -/
theorem malloc_best_fit (hstart : Started s₀) (hruns : Runs (Permitted coarse) s₀ cs s) (hn : 0 < n)
    (hwrap : n + 23 < 2 ^ 32) :
    ∃ h' p, s.heap.malloc n = some (h', p) ∧
      (p = 0 ↔ ∀ a ∈ s.heap.chunks, s.heap.IsFree a → s.heap.get a .size < rounded n) ∧
      (p ≠ 0 → ∃ a ∈ s.heap.chunks, p = a + sizeofAllocNode ∧ s.heap.IsFree a ∧
        rounded n ≤ s.heap.get a .size ∧
        (∀ b ∈ s.heap.chunks, s.heap.IsFree b → rounded n ≤ s.heap.get b .size →
          s.heap.get a .size ≤ s.heap.get b .size) ∧
        a ∈ h'.chunks ∧ ¬h'.IsFree a ∧
        (s.heap.get a .size < rounded n + sizeofFreeNode → h'.get a .size = s.heap.get a .size) ∧
        (rounded n + sizeofFreeNode ≤ s.heap.get a .size → h'.get a .size = rounded n ∧
          a + rounded n ∈ h'.listed ∧
          h'.get (a + rounded n) .size = s.heap.get a .size - rounded n)) := by
  obtain ⟨σ, hs⟩ := hruns.holding hstart.holding
  have hr := hs.represents
  obtain ⟨h', p, hcode, ⟨rfl, -, hsmall⟩ | ⟨z, t, rfl, -, hle, rfl, hmin, ho⟩⟩ :=
    Heap.malloc_spec (v := s.heap.mem) hr hn hwrap
  · refine ⟨h', 0, hcode, iff_of_true rfl fun a ha hfree => ?_, fun hne => absurd rfl hne⟩
    obtain ⟨m, hm, rfl, htaken⟩ := hr.free_iff.mp ⟨ha, hfree⟩
    rw [(hr.holds.heads m hm).size]
    exact hsmall m hm htaken
  · have hin : (⟨z.addr, t, z.prev, false⟩ : Placed) ∈ placed (z.fill [⟨t, false⟩]) :=
      Site.mem_placed_one
    have hsize : s.heap.get z.addr .size = t := (hr.holds.heads _ hin).size
    obtain ⟨hmem, hfree⟩ := hr.free_iff.mpr ⟨_, hin, rfl, rfl⟩
    have hr' := ho.grants.represents
    have hin' : (⟨z.addr, (z.cut t (rounded n)).2, (z.cut t (rounded n)).1.prev, true⟩ : Placed) ∈
        placed ((z.cut t (rounded n)).1.fill [⟨(z.cut t (rounded n)).2, true⟩]) := by
      rw [← Site.addr_cut]
      exact Site.mem_placed_one
    have hsize' : h'.get z.addr .size = (z.cut t (rounded n)).2 := (hr'.holds.heads _ hin').size
    refine ⟨h', z.addr + 8, hcode, iff_of_false (Nat.succ_ne_zero _) fun hall => ?_,
      fun _ =>
        ⟨z.addr, hmem, rfl, hfree, by rw [hsize]; exact hle, fun b hb hfree' hle' => ?_, ?_, ?_,
        fun hlt => ?_, fun hlt => ?_⟩⟩
    · have := hall z.addr hmem hfree
      omega
    · obtain ⟨m, hm, rfl, htaken⟩ := hr.free_iff.mp ⟨hb, hfree'⟩
      rw [(hr.holds.heads m hm).size] at hle' ⊢
      rw [hsize]
      exact hmin m hm htaken hle'
    · rw [hr'.chunks_eq]
      exact List.mem_map_of_mem hin'
    · exact fun hc => absurd ((hr'.isFree_iff hin').mp hc) Bool.noConfusion
    · rw [hsize', hsize, Site.cut, if_neg (by rw [sizeofFreeNode] at hlt; omega)]
    · -- what is left is behind the block
      rw [hsize] at hlt
      have hcut : z.cut t (rounded n) = (z.spitRight ⟨t - rounded n, false⟩, rounded n) :=
        if_pos hlt
      have hrest : (⟨z.addr + rounded n, t - rounded n, rounded n, false⟩ : Placed) ∈
          placed ((z.cut t (rounded n)).1.fill [⟨(z.cut t (rounded n)).2, true⟩]) := by
        rw [hcut]
        exact (Site.mem_placed_fill rfl).mpr (.inr (.inr (.inr (.inl rfl))))
      rw [hsize', hsize, hcut]
      refine ⟨rfl, hr'.mem_listed.mpr (hr'.free_iff.mpr ⟨_, hrest, rfl, rfl⟩), ?_⟩
      exact (hr'.holds.heads _ hrest).size

theorem malloc_best_fit_small : ∃ s₀ s, Started s₀ ∧ s₀.run [.malloc 24] = some s ∧
    ∃ h' p, s.heap.malloc 100 = some (h', p) ∧
      (p = 0 ↔ ∀ a ∈ s.heap.chunks, s.heap.IsFree a → s.heap.get a .size < rounded 100) := by
  obtain ⟨s₀, s, hstart, -, hrun, hruns, -⟩ := exists_checked (Permitted true) [.malloc 24]
    live [(1040, 24)] (by decide +kernel)
  obtain ⟨h', p, hcode, hnull, -⟩ := malloc_best_fit (n := 100) hstart hruns (by decide) (by decide)
  exact ⟨s₀, s, hstart, hrun, h', p, hcode, hnull⟩

def givesNextHeader : Trace (Option ℕ × Bool) where
  calls := [.malloc 8, .realloc 1040 0xffffffe0]
  read s := ((s.call (.malloc 8)).map Prod.snd,
    decide (48 ∉ s.heap.chunks ∧ 1032 ∈ s.heap.chunks ∧ s.heap.IsFree 1032))
  value := (some 56, true)
  evaluates := by decide +kernel

/-- **A block that is no free chunk.** After `mm_realloc` has given a header of the list away, and
overwritten the next one, `mm_malloc` gives that one as well. -/
theorem malloc_gives_header : ∃ s₀ s s', Started s₀ ∧
    s₀.run [.malloc 8, .realloc 1040 0xffffffe0] = some s ∧ s.call (.malloc 8) = some (s', 56) ∧
    48 ∉ s.heap.chunks ∧ 1032 ∈ s.heap.chunks ∧ s.heap.IsFree 1032 := by
  obtain ⟨s₀, s, hstart, hrun, hread⟩ := givesNextHeader.exists_run
  obtain ⟨hcall, hchunks⟩ := Prod.mk.inj hread
  obtain ⟨⟨s', q⟩, hcall, rfl⟩ := Option.map_eq_some_iff.mp hcall
  exact ⟨s₀, s, s', hstart, hrun, hcall, of_decide_eq_true hchunks⟩

/-! ### Allocating and freeing -/

/-- **Allocating and freeing is neutral**: the chunks, with their sizes and what they store about
the previous ones, and the list are as before. -/
theorem malloc_free_neutral (hstart : Started s₀) (hruns : Runs (Permitted coarse) s₀ cs s)
    (hwrap : n + 23 < 2 ^ 32) (hmalloc : s.heap.malloc n = some (h₁, p)) (hp : p ≠ 0) :
    ∃ h₂, h₁.free p = some h₂ ∧ h₂.chunks = s.heap.chunks ∧
      (∀ a ∈ s.heap.chunks, h₂.get a .size = s.heap.get a .size ∧
        h₂.get a .preceding = s.heap.get a .preceding) ∧
      ∀ a, a ∈ h₂.listed ↔ a ∈ s.heap.listed := by
  obtain ⟨σ, hs⟩ := hruns.holding hstart.holding
  have hr := hs.represents
  have hn : 0 < n := by
    rcases Nat.eq_zero_or_pos n with rfl | hn
    · exact absurd (Prod.mk.inj (Option.some.inj hmalloc)).2.symm hp
    · exact hn
  obtain ⟨h', p', hcode, hspec⟩ := Heap.malloc_spec (v := s.heap.mem) hr hn hwrap
  obtain ⟨rfl, rfl⟩ := Prod.mk.inj (Option.some.inj (hmalloc.symm.trans hcode))
  rcases hspec with ⟨rfl, -⟩ | ⟨z, t, rfl, hinner, hle, rfl, -, ho⟩
  · exact absurd rfl hp
  obtain ⟨h₂, hfree, hr₂, -, -⟩ := Heap.free_spec ho.grants.represents ho.inner
  rw [Site.freed_cut hr.separated hinner hle] at hr₂
  rw [Site.addr_cut] at hfree
  have hchunks : h₂.chunks = s.heap.chunks := by rw [hr₂.chunks_eq, hr.chunks_eq]
  refine ⟨h₂, hfree, hchunks, fun a ha => ?_, fun a => ?_⟩
  · rw [hr.chunks_eq] at ha
    obtain ⟨m, hm, rfl⟩ := List.mem_map.mp ha
    have hhead := hr.holds.heads m hm
    have hhead₂ := hr₂.holds.heads m hm
    exact ⟨hhead₂.size.trans hhead.size.symm, hhead₂.preceding.trans hhead.preceding.symm⟩
  · rw [hr₂.mem_listed, hr.mem_listed, hr₂.free_iff, hr.free_iff]

theorem malloc_free_neutral_small : ∃ s₀ s, Started s₀ ∧ s₀.run [.malloc 24] = some s ∧
    ∃ h₁ p h₂, s.heap.malloc 100 = some (h₁, p) ∧ p ≠ 0 ∧ h₁.free p = some h₂ ∧
      h₂.chunks = s.heap.chunks := by
  obtain ⟨s₀, s, hstart, -, hrun, hruns, hread⟩ := exists_checked (Permitted true)
    [.malloc 24] (fun s => (s.heap.malloc 100).map Prod.snd) (some 1072)
    (by decide +kernel)
  obtain ⟨⟨h₁, p⟩, hmalloc, rfl⟩ := Option.map_eq_some_iff.mp hread
  obtain ⟨h₂, hfree, hchunks, -⟩ := malloc_free_neutral hstart hruns (by decide) hmalloc (by decide)
  exact ⟨s₀, s, hstart, hrun, h₁, 1072, h₂, hmalloc, by decide, hfree, hchunks⟩

def losesSize : Trace (Bool × ℕ × Option (Bool × ℕ)) where
  calls := [.malloc 8, .malloc 8, .free 1040]
  read s := (decide (1032 ∈ s.heap.listed), s.heap.get 1032 .size,
    (s.run [.malloc 0xfffffff0, .free 1040]).map fun s' : System =>
      (decide (s'.live = s.live), s'.heap.get 1032 .size))
  value := (true, 16, some (true, 0))
  evaluates := by decide +kernel

/-- **A chunk of no size.** A request that wraps to zero takes the chunk of 16 bytes at 1032 and
leaves all of it as the remainder; freeing the block does not undo this. -/
theorem malloc_free_shrinks : ∃ s₀ s s', Started s₀ ∧
    s₀.run [.malloc 8, .malloc 8, .free 1040] = some s ∧ 1032 ∈ s.heap.listed ∧
      s.heap.get 1032 .size = 16 ∧
    s.run [.malloc 0xfffffff0, .free 1040] = some s' ∧ s'.live = s.live ∧
    s'.heap.get 1032 .size = 0 := by
  obtain ⟨s₀, s, hstart, hrun, hread⟩ := losesSize.exists_run
  obtain ⟨hlisted, hread⟩ := Prod.mk.inj hread
  obtain ⟨hsize, hread⟩ := Prod.mk.inj hread
  obtain ⟨s', hrun', hread⟩ := Option.map_eq_some_iff.mp hread
  obtain ⟨hlive, hsize'⟩ := Prod.mk.inj hread
  exact ⟨s₀, s, s', hstart, hrun, of_decide_eq_true hlisted, hsize, hrun', of_decide_eq_true hlive,
    hsize'⟩

/-! ### Aligning -/

theorem permitted_coarse {c : Call} (hp : s.Permitted false c) (hc : ¬c.Aligns) :
    s.Permitted true c := by
  cases c with
  | realloc mem size =>
    obtain ⟨howns, hwrap, hlarge⟩ := hp
    exact ⟨howns, hwrap, fun hne => ⟨(hlarge hne).1, fun hc => absurd hc.symm Bool.false_ne_true⟩⟩
  | memalign alignment size => exact ⟨hp.1, hp.2.1, fun hlt => absurd hlt hc⟩
  | _ => exact hp

/-- **`mm_memalign` aligns**, unless the alignment is 16 bytes and a block was aligned to more
before. -/
theorem memalign_aligns (hstart : Started s₀) (hruns : Runs (Tidy false) s₀ cs s)
    (hp : s.Permitted false (.memalign al n)) (hsixteen : al = 16 → ∀ c ∈ cs, ¬c.Aligns) :
    ∃ s' q, s.call (.memalign al n) = some (s', q) ∧ al ∣ q := by
  have hruns := hruns.permitted hstart.holding
  obtain ⟨σ, hs⟩ := hruns.holding hstart.holding
  obtain ⟨k, rfl⟩ := hp.1
  by_cases hlarge : 16 < 2 ^ k
  · obtain ⟨h', q, σ', hcode, -, hdvd⟩ := memalign_done hs hp
    exact ⟨_, q, by rw [call, hcode]; rfl, hdvd hlarge⟩
  have hcode : s.heap.memalign (2 ^ k) n = s.heap.malloc n := by
    rw [Heap.memalign, if_pos (show 2 ^ k ≤ 1 <<< minShift from Nat.not_lt.mp hlarge)]
  rw [call, hcode]
  by_cases hk : k = 4
  · -- no block was aligned, so all chunks are multiples of 16 bytes
    subst hk
    have hcoarse : Runs (Permitted true) s₀ cs s :=
      hruns.mono fun s c hc hp => permitted_coarse hp (hsixteen rfl c hc)
    obtain ⟨σ, hs⟩ := hcoarse.holding hstart.holding
    obtain ⟨h', q, hmalloc, ⟨rfl, -⟩ | ⟨hn, σ', m, hg, rfl, hle⟩⟩ :=
      Heap.malloc_grants hs.represents hp.2.1
    · exact ⟨_, 0, by rw [hmalloc]; rfl, Nat.dvd_zero _⟩
    · have := Heap.rounded_spec hn
      exact ⟨_, _, by rw [hmalloc]; rfl,
        Nat.dvd_of_mod_eq_zero (hg.represents.addr_mod hg.mem (by omega))⟩
  · have hk : k ≤ 3 := by
      by_contra hlt
      have := Nat.pow_le_pow_right (n := 2) (by decide) (show 5 ≤ k by omega)
      omega
    obtain ⟨h', q, hmalloc, ⟨rfl, -⟩ | ⟨-, σ', m, hg, rfl, -⟩⟩ :=
      Heap.malloc_grants hs.represents hp.2.1
    · exact ⟨_, 0, by rw [hmalloc]; rfl, Nat.dvd_zero _⟩
    · have hmod := (hg.represents.holds.geometry.located hg.mem).addr_mod
      have hdvd : 2 ^ k ∣ 2 ^ 3 := Nat.pow_dvd_pow 2 hk
      exact ⟨_, _, by rw [hmalloc]; rfl, hdvd.trans (Nat.dvd_of_mod_eq_zero (by omega))⟩

theorem memalign_aligns_small : ∃ s₀ s, Started s₀ ∧
    s₀.run [.memalign 64 24, .malloc 8, .realloc 1040 20] = some s ∧
    ∃ s' q, s.call (.memalign 32 8) = some (s', q) ∧ 32 ∣ q := by
  obtain ⟨s₀, s, hstart, -, hrun, hruns, -⟩ := exists_checked (Tidy false)
    [.memalign 64 24, .malloc 8, .realloc 1040 20] (fun s => s.live.length)
    2 (by decide +kernel)
  exact ⟨s₀, s, hstart, hrun, memalign_aligns hstart hruns
    ⟨⟨5, rfl⟩, by decide, fun _ => ⟨rfl, by decide, by decide⟩⟩ fun hc => absurd hc (by decide)⟩

def missesSixteen : Trace (Option ℕ) where
  calls := [.memalign 32 8, .malloc 8]
  read s := (s.call (.memalign 16 8)).map Prod.snd
  value := some 1080
  evaluates := by decide +kernel

/-- **Not aligned to 16 bytes**: the chunk behind a block that was aligned is not, either. -/
theorem memalign_misses : ∃ s₀ s s', Started s₀ ∧ s₀.run [.memalign 32 8, .malloc 8] = some s ∧
    s.call (.memalign 16 8) = some (s', 1080) ∧ ¬16 ∣ 1080 := by
  obtain ⟨s₀, s, hstart, hrun, hread⟩ := missesSixteen.exists_run
  obtain ⟨⟨s', q⟩, hcall, rfl⟩ := Option.map_eq_some_iff.mp hread
  exact ⟨s₀, s, s', hstart, hrun, hcall, by decide⟩

end System

end GreenboneFeeder.Mm
