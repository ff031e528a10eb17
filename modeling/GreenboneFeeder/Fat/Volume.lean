import GreenboneFeeder.Fat.File
import GreenboneFeeder.Lib.Singly

/-!
# The table of a volume

What the calls on the FAT do to its entries on every healthy volume, whatever they are and whatever
the cache holds: one entry is written (`Fat.putcluster_getcluster`), a chain is extended
(`Fat.extendchain_exact`) and a chain is removed, which ends also where entries lead around in
circles (`Fat.removechain_exact`). The free clusters are counted right only where the entries have
12 bits (`Fat.nfreeclusters_iff`).

A volume can be unmounted while files are open: the list of the open files stays empty
(`Fat.Mount.busy_iff`).
-/

namespace GreenboneFeeder.Fat

open Words Successors Call

variable {g : Geo} {P : ℕ → Prop} {fs fs' : Fs} {T : ℕ → ℕ} {c start : ℕ}

/-- **The cache agrees with the FAT** on the disk. -/
abbrev Coherent (g : Geo) (fs : Fs) : Prop := Cached g (fun _ => False) fs

/-! ### One entry -/

/-- **What is written is read back**, truncated to the bits of an entry, and no other entry changes,
also after the cache has been flushed. -/
theorem putcluster_getcluster (g : Geo) (h : g.Healthy) (fs : Fs) (hc : Coherent g fs) (c v : ℕ)
    (hc2 : 2 ≤ c) (hcn : c < g.nclusters) :
    ∃ fs', Call.Returns (fatPutcluster g c v) fs () fs' ∧
      ∃ fs'', Call.Returns (fatFscacheflush g) fs' () fs'' ∧ ∀ t, t = fs' ∨ t = fs'' →
        (∃ u, Call.Returns (fatGetcluster g c) t (v % 2 ^ g.fstype.bits) u) ∧
        ∀ d, 2 ≤ d → d < g.nclusters → d ≠ c → ∃ n u u',
          Call.Returns (fatGetcluster g d) fs n u ∧ Call.Returns (fatGetcluster g d) t n u' := by
  have hP : ∀ n, False → g.database ≤ n := fun _ => False.elim
  obtain ⟨fs', hput, hsets, -⟩ := fatPutcluster_sets (v := v) h hP hc hc2 hcn
  obtain ⟨fs'', hflush, hcached, hkeeps, -⟩ := fatFscacheflush_spec h hP hsets.cached
  refine ⟨fs', hput, fs'', hflush, fun t ht => ?_⟩
  have hread : ∀ d, 2 ≤ d → d < g.nclusters → ∃ u, Call.Returns (fatGetcluster g d) t
      (if d = c then v % 2 ^ g.fstype.bits else fs.table g d) u := by
    intro d hd hdn
    rw [← hsets.table d hd hdn]
    rcases ht with rfl | rfl
    · obtain ⟨u, hget, -⟩ := fatGetcluster_sets h hP hsets.cached hd hdn
      exact ⟨u, hget⟩
    · obtain ⟨u, hget, -⟩ := fatGetcluster_sets h hP hcached hd hdn
      rw [(hkeeps.sets h hcached).table d hd hdn] at hget
      exact ⟨u, hget⟩
  refine ⟨?_, fun d hd hdn hne => ?_⟩
  · have hself := hread c hc2 hcn
    rwa [if_pos rfl] at hself
  · obtain ⟨u, hget, -⟩ := fatGetcluster_sets h hP hc hd hdn
    obtain ⟨u', hget'⟩ := hread d hd hdn
    rw [if_neg hne] at hget'
    exact ⟨_, u, u', hget, hget'⟩

/-- The cache has no sector of the FAT. -/
theorem coherent_small (disk : Bytes) (count : ℕ) :
    Coherent smallGeo { emptyFile.fs with disk := disk, fsifreecount := count } := by
  refine ⟨rfl, fun _ n _ hcur => ?_, fun hd => (by cases hd), fun hd => (by cases hd)⟩
  have hcur' : (0 : ℤ) = (1 + n : ℕ) := hcur
  omega

theorem putcluster_getcluster_small :
    ∃ fs', Call.Returns (fatPutcluster smallGeo 3 70000) emptyFile.fs () fs' ∧
      ∃ u, Call.Returns (fatGetcluster smallGeo 3) fs' 4464 u := by
  obtain ⟨fs', hput, fs'', -, hread⟩ := putcluster_getcluster smallGeo smallGeo_healthy emptyFile.fs
    (coherent_small _ _) 3 70000 (by decide) (by decide)
  exact ⟨fs', hput, (hread fs' (.inl rfl)).1⟩

/-! ### Extending a chain -/

/-- **A free cluster is put at the end of a chain**, if there is one. -/
structure Extends (g : Geo) (fs fs' : Fs) (cluster d : ℕ) : Prop where
  full : d = 0 ↔ free 2 g.nclusters (fs.table g) = ∅
  free : d ≠ 0 → d ∈ free 2 g.nclusters (fs.table g)
  last : d ≠ 0 → g.nclusters ≤ fs'.table g d
  linked : d ≠ 0 → cluster ≠ 0 → fs'.table g cluster = d
  other : d ≠ 0 → ∀ c, 2 ≤ c → c < g.nclusters → c ≠ d → c ≠ cluster →
    fs'.table g c = fs.table g c
  count : d ≠ 0 → fs'.fsifreecount =
    if fs.fsifreecount = 0xffffffff then 0xffffffff else uint32 (fs.fsifreecount - 1)

theorem allocate_extends {cluster : ℕ} (h : g.Healthy) (hc : Coherent g fs)
    (hcluster : cluster = 0 ∨ (2 ≤ cluster ∧ cluster < g.nclusters) ∧
      g.nclusters ≤ fs.table g cluster) (hstart : 0 < start) (hstartn : start < g.nclusters) :
    ∃ d fs', Call.Returns (allocate g cluster start) fs d fs' ∧ Extends g fs fs' cluster d := by
  have hP : ∀ n, False → g.database ≤ n := fun _ => False.elim
  rcases (Successors.free 2 g.nclusters (fs.table g)).eq_empty_or_nonempty with hempty | hfree
  · obtain ⟨found, fs', hsearch, -, -, hfound, -⟩ := search_start h hP hc hstart hstartn
    cases found with
    | some d =>
      have hd := hfound d rfl
      rw [hempty] at hd
      exact absurd hd (Finset.notMem_empty d)
    | none =>
      refine ⟨0, fs', ?_, iff_of_true rfl hempty, ?_, ?_, ?_, ?_, ?_⟩
      · unfold allocate
        rw [hsearch.bind_iff]
        exact returns_pure
      all_goals exact fun hne => absurd rfl hne
  · obtain ⟨d, hd, fs', halloc, hsets, hcount⟩ :=
      allocate_sets h hP hc (hcluster.imp_right And.left)
      hstart hstartn hfree fun hmem => by
        have := mem_free.mp hmem
        omega
    obtain ⟨hrange, hzero⟩ := mem_free.mp hd
    have hne : cluster ≠ d := by
      rintro rfl
      omega
    refine ⟨d, fs', halloc, iff_of_false (by omega) hfree.ne_empty, fun _ => hd, fun _ => ?_,
      fun _ hpos => ?_, fun _ c hc2 hcn hcd hcc => ?_, fun _ => hcount⟩
    · rw [hsets.table d hrange.1 hrange.2, extended, if_pos rfl]
      exact h.lt_eoc
    · obtain ⟨hc2, hcn⟩ := (hcluster.resolve_left hpos).1
      rw [hsets.table cluster hc2 hcn, extended, if_neg hne, if_pos rfl]
    · rw [hsets.table c hc2 hcn, extended, if_neg hcd, if_neg hcc]

/-- **The allocation of clusters is complete and exact**, wherever the search begins. -/
theorem extendchain_exact (g : Geo) (h : g.Healthy) (fs : Fs) (hc : Coherent g fs) (cluster : ℕ)
    (hcluster : cluster = 0 ∨ (2 ≤ cluster ∧ cluster < g.nclusters) ∧
      g.nclusters ≤ fs.table g cluster) :
    ∃ d fs', Call.Returns (fatExtendchain g cluster) fs d fs' ∧ Extends g fs fs' cluster d := by
  rcases eq_or_ne cluster 0 with rfl | hne
  · obtain ⟨start, hstart, hstartn, heq⟩ := exists_start h fs
    obtain ⟨d, fs', halloc, hd⟩ := allocate_extends h hc (.inl rfl) hstart hstartn
    exact ⟨d, fs', heq.trans halloc, hd⟩
  · obtain ⟨⟨hc2, hcn⟩, hlast⟩ := hcluster.resolve_left hne
    obtain ⟨mid, hget, hmid, hcount⟩ := fatGetcluster_sets h (fun _ => False.elim) hc hc2 hcn
    have hlast' : g.nclusters ≤ mid.table g cluster := by
      rw [hmid.table cluster hc2 hcn]
      exact hlast
    have hpos : 0 < cluster := by omega
    obtain ⟨d, fs', halloc, hd⟩ :=
      allocate_extends h hmid.cached (.inr ⟨⟨hc2, hcn⟩, hlast'⟩) hpos hcn
    have hfree := free_congr hmid.table
    refine ⟨d, fs', ?_, hfree ▸ hd.full, hfree ▸ hd.free, hd.last, hd.linked,
      fun hne c hc2 hcn hcd hcc =>
      (hd.other hne c hc2 hcn hcd hcc).trans (hmid.table c hc2 hcn), hcount ▸ hd.count⟩
    unfold fatExtendchain
    rw [returns_get_bind_iff, if_neg hne, hget.bind_iff, if_neg (by omega), if_neg (by omega)]
    exact halloc

/-- A volume whose clusters 3 and 5 are a chain, in both FATs, and whose count is valid. -/
def chained : Fs :=
  { emptyFile.fs with
    disk := fun x => if 512 ≤ x ∧ x < 1536 then
      [0xf8, 0xff, 0xff, 0xff, 0, 0, 5, 0, 0, 0, 0xff, 0xff].getD (x % 512) 0 else 0
    fsifreecount := 2 }

/-- The chain grows by one of the clusters 2 and 4. -/
theorem extendchain_exact_last : ∃ d fs', Call.Returns (fatExtendchain smallGeo 5) chained d fs' ∧
    Extends smallGeo chained fs' 5 d :=
  extendchain_exact smallGeo smallGeo_healthy chained (coherent_small _ _) 5
    (.inr ⟨by decide, by decide⟩)

/-! ### Removing a chain -/

/-- **The clusters that are reached are free then**, and no other entry changes. -/
structure Removes (g : Geo) (fs fs' : Fs) (start : ℕ) : Prop where
  zero : ∀ c, 2 ≤ c → c < g.nclusters → Reaches 2 g.nclusters (fs.table g) start c →
    fs'.table g c = 0
  other : ∀ c, 2 ≤ c → c < g.nclusters → ¬Reaches 2 g.nclusters (fs.table g) start c →
    fs'.table g c = fs.table g c

/-- A turn of the loop erases one entry. -/
theorem removeTurn (h : g.Healthy) (hc : Coherent g fs) (hin : 2 ≤ start ∧ start < g.nclusters) :
    ∃ fs₁, (∀ fuel, removeLoop g (fuel + 1) start fs = removeLoop g fuel (fs.table g start) fs₁) ∧
      Coherent g fs₁ ∧ (∀ a, 2 ≤ a → a < g.nclusters →
        fs₁.table g a = if a = start then 0 else fs.table g a) ∧
      (fs.fsifreecount < 0xffffffff → fs₁.fsifreecount = fs.fsifreecount + 1) := by
  have hP : ∀ n, False → g.database ≤ n := fun _ => False.elim
  obtain ⟨mid, hget, hmid, hcount⟩ := fatGetcluster_sets h hP hc hin.1 hin.2
  obtain ⟨cut, hput, hcut, hcount'⟩ := fatPutcluster_sets (v := 0) h hP hmid.cached hin.1 hin.2
  obtain ⟨fs₁, hfs₁⟩ : ∃ fs₁, (if cut.fsifreecount = 0xffffffff then cut else { cut with
    fsifreecount := uint32 (cut.fsifreecount + 1), fsidirty := true }) = fs₁ := ⟨_, rfl⟩
  have hsets : Sets g (fun _ => False)
      (fun d => if d = start then 0 % 2 ^ g.fstype.bits else mid.table g d) mid fs₁ := by
    rw [← hfs₁]
    split_ifs
    · exact hcut
    · exact hcut.hints
  refine ⟨fs₁, fun fuel => ?_, hsets.cached, fun a ha han => ?_, fun hvalid => ?_⟩
  · rw [removeLoop, if_pos hin, hget.bind_eq, hput.bind_eq, ← hfs₁]
    rfl
  · rw [hsets.table a ha han, Nat.zero_mod, hmid.table a ha han]
  · rw [← hfs₁, if_neg (by omega), hcount', hcount]
    exact uint32_natCast (k := fs.fsifreecount + 1) (by omega)

/-- **The loop ends**: every turn but the last one frees a cluster that was not free. -/
theorem removeLoop_spec (h : g.Healthy) (fuel : ℕ) :
    ∀ (fs : Fs) (start : ℕ), Coherent g fs → 0 < fuel → (2 ≤ start ∧ start < g.nclusters →
        g.nclusters ≤ fuel + (free 2 g.nclusters (fs.table g)).card) →
      ∃ fs', Call.Returns (removeLoop g fuel start) fs () fs' ∧ Removes g fs fs' start ∧
        ∀ l, Leads 2 g.nclusters (fs.table g) start l → l.Nodup → l.length < fuel ∧
          (fs.fsifreecount + l.length ≤ 0xffffffff →
            fs'.fsifreecount = fs.fsifreecount + l.length) := by
  induction fuel with
  | zero => exact fun fs start _ hpos => absurd hpos (Nat.lt_irrefl 0)
  | succ fuel ih =>
    intro fs start hc _ hfuel
    by_cases hin : 2 ≤ start ∧ start < g.nclusters
    · obtain ⟨fs₁, hturn, hc₁, hT, hone⟩ := removeTurn h hc hin
      have hle : (free 2 g.nclusters (fs.table g)).card ≤ g.nclusters - 2 := card_free_le
      obtain ⟨fs', hloop, hremoves, hleads⟩ := ih fs₁ (fs.table g start) hc₁ (by omega)
        fun hnext => by
          rw [card_free_erase hin (by omega) hT]
          omega
      refine ⟨fs', (hturn fuel).trans hloop,
        ⟨fun c hc2 hcn hreach => ?_, fun c hc2 hcn hreach => ?_⟩,
        fun l hl hnodup => ?_⟩
      · by_cases hnext : Reaches 2 g.nclusters (fs₁.table g) (fs.table g start) c
        · exact hremoves.zero c hc2 hcn hnext
        · have hcs := ((reaches_iff (by decide) hin ⟨hc2, hcn⟩ hT).mp hreach).resolve_right hnext
          rw [hremoves.other c hc2 hcn hnext, hT c hc2 hcn, if_pos hcs]
      · rw [reaches_iff (by decide) hin ⟨hc2, hcn⟩ hT, not_or] at hreach
        rw [hremoves.other c hc2 hcn hreach.2, hT c hc2 hcn, if_neg hreach.1]
      · cases l with
        | nil => exact absurd hin hl
        | cons d l =>
          obtain ⟨rfl, -, hl⟩ := hl
          obtain ⟨hnotMem, hnodup⟩ := List.nodup_cons.mp hnodup
          obtain ⟨hlt, hgrows⟩ := hleads l (hl.congr fun a ha ha2 han =>
            (hT a ha2 han).trans (if_neg fun heq : a = d => hnotMem (heq ▸ ha))) hnodup
          refine ⟨Nat.succ_lt_succ hlt, fun hvalid => ?_⟩
          rw [List.length_cons] at hvalid ⊢
          omega
    · refine ⟨fs, ?_, ⟨fun c hc2 hcn hreach => ?_, fun _ _ _ _ => rfl⟩, fun l hl _ => ?_⟩
      · unfold removeLoop
        rw [if_neg hin]
        exact returns_pure
      · rcases hreach.cases_head with rfl | ⟨b, hb, -⟩
        · exact absurd ⟨hc2, hcn⟩ hin
        · exact absurd hb.1 hin
      · cases l with
        | nil => exact ⟨Nat.succ_pos fuel, fun _ => rfl⟩
        | cons d l => exact absurd hl.2.1 hin

/-- **Removing a chain ends and frees exactly it**, also where entries lead around in circles. A
valid count of the free clusters grows by the clusters of a chain. -/
theorem removechain_exact (g : Geo) (h : g.Healthy) (fs : Fs) (hc : Coherent g fs) (start : ℕ) :
    ∃ fs', Call.Returns (fatRemovechain g start) fs () fs' ∧ Removes g fs fs' start ∧
      ∀ l, Leads 2 g.nclusters (fs.table g) start l → l.Nodup →
        fs.fsifreecount ≤ g.nclusters - 2 → fs'.fsifreecount = fs.fsifreecount + l.length := by
  have hlast := Nat.lt_of_lt_of_le h.last h.two_pow_bits_le
  obtain ⟨fs', hloop, hremoves, hleads⟩ := removeLoop_spec h (g.nclusters + 1) fs start hc
    (Nat.succ_pos _) fun _ => by omega
  refine ⟨fs', hloop, hremoves, fun l hl hnodup hvalid => ?_⟩
  obtain ⟨hlt, hgrows⟩ := hleads l hl hnodup
  exact hgrows (by omega)

/-- The two clusters of the chain are free again. -/
theorem removechain_exact_two :
    ∃ fs', Call.Returns (fatRemovechain smallGeo 3) chained () fs' ∧
      Removes smallGeo chained fs' 3 ∧ fs'.fsifreecount = 4 := by
  obtain ⟨fs', hloop, hremoves, hcount⟩ := removechain_exact smallGeo smallGeo_healthy chained
    (coherent_small _ _) 3
  refine ⟨fs', hloop, hremoves, hcount [3, 5] ?_ (by decide) (by decide)⟩
  exact ⟨rfl, by decide, by decide, by decide, fun hc => absurd hc (by decide)⟩

/-! ### Counting the free clusters -/

theorem nfree12_spec (h : g.Healthy) (htype : g.fstype = .fat12) (k : ℕ) :
    ∀ (c n : ℕ) (fs : Fs), Coherent g fs → 2 ≤ c → c + k = g.nclusters →
      ∃ fs', Call.Returns (nfree12 g k c n) fs
        (n + (free c g.nclusters (fs.table g)).card) fs' := by
  induction k with
  | zero =>
    intro c n fs _ _ hck
    refine ⟨fs, ?_⟩
    rw [← hck, Nat.add_zero, free, Finset.Ico_self]
    exact returns_pure
  | succ k ih =>
    intro c n fs hc hc2 hck
    obtain ⟨mid, hget, hmid, -⟩ := fatGetcluster_sets h (fun _ => False.elim) hc hc2 (by omega)
    obtain ⟨fs', hloop⟩ := ih (c + 1) (n + if fs.table g c = 0 then 1 else 0) mid
      hmid.cached (by omega) (by omega)
    have hfree : free (c + 1) g.nclusters (mid.table g) = free (c + 1) g.nclusters (fs.table g) :=
      free_congr fun d hd => hmid.table d (by omega)
    have hcast : uint16 (fs.table g c) = 0 ↔ fs.table g c = 0 := by
      have hlt : fs.table g c < 2 ^ 16 := by
        rw [Fs.table, htype, entry]
        have hlow := (fs.fat g (c * 3 / 2)).toNat_lt
        have hhigh := (fs.fat g (c * 3 / 2 + 1)).toNat_lt
        split_ifs <;> omega
      rw [uint16]
      omega
    refine ⟨fs', ?_⟩
    rw [nfree12, hget.number.bind_iff, card_free_succ (by omega), ← hfree, ← Nat.add_assoc]
    simp only [hcast]
    exact hloop

/-- A device full of zeros, and its cache. -/
structure Blank (fs : Fs) : Prop where
  disk : ∀ x, fs.disk x = 0
  buffer : ∀ x, fs.buffer x = 0
  dirty : fs.dirty = false

theorem Blank.fatFscacheread {sector : ℤ} (hb : Blank fs)
    (hread : Call.Returns (fatFscacheread g sector) fs () fs') : Blank fs' := by
  unfold Fat.fatFscacheread at hread
  rw [returns_get_bind_iff] at hread
  split_ifs at hread
  · rwa [← (returns_pure_iff.mp hread).2]
  · obtain ⟨_, mid, hflush, hread⟩ := hread.of_bind
    obtain ⟨b, mid', hread', hread⟩ := hread.of_bind
    unfold fatFscacheflush at hflush
    rw [returns_get_bind_iff, hb.dirty] at hflush
    obtain ⟨-, rfl⟩ := returns_pure_iff.mp hflush
    unfold fatHwread at hread'
    rw [returns_get_bind_iff, returns_modify_bind_iff] at hread'
    split_ifs at hread'
    · obtain ⟨rfl, rfl⟩ := returns_pure_iff.mp hread'
      obtain ⟨-, rfl⟩ := Prod.mk.inj (Option.some.inj hread)
      exact ⟨hb.disk, fun x => hb.disk _, hb.dirty⟩
    · cases hread'

theorem Blank.nfreeRaw (k : ℕ) : ∀ (sector : ℤ) (offset n r : ℕ) (fs : Fs), Blank fs →
    Call.Returns (nfreeRaw g k sector offset n) fs r fs' → r = n + k := by
  induction k with
  | zero => exact fun _ _ n r fs _ hr => (returns_pure_iff.mp hr).1.symm
  | succ k ih =>
    intro sector offset n r fs hb hr
    obtain ⟨p, mid, hfirst, hr⟩ := hr.of_bind
    have hmid : Blank mid := by
      unfold nfreeSector at hfirst
      split_ifs at hfirst
      · obtain ⟨_, mid', hread, hfirst⟩ := hfirst.of_bind
        obtain ⟨-, rfl⟩ := returns_pure_iff.mp hfirst
        exact hb.fatFscacheread hread
      · rwa [← (returns_pure_iff.mp hfirst).2]
    have hload : ∀ w i, mid.buffer.load w i = 0 := by
      intro w
      induction w with
      | zero => exact fun _ => rfl
      | succ w ih =>
        intro i
        rw [Bytes.load, hmid.buffer, ih]
        rfl
    rw [returns_get_bind_iff] at hr
    dsimp only at hr
    rw [hload, if_pos rfl] at hr
    rw [ih _ _ _ _ mid hmid hr, Nat.add_right_comm]
    rfl

/-- **The free clusters are counted** on the volumes with entries of 12 bits, whatever the FAT has.
On the others, every other sector is left out, and the first two entries are counted, too. -/
theorem nfreeclusters_iff (g : Geo) (h : g.Healthy) :
    (∀ fs, Coherent g fs → g.nclusters - 2 < fs.fsifreecount → ∃ fs', Call.Returns
      (fatNfreeclusters g) fs (free 2 g.nclusters (fs.table g)).card fs') ↔ g.fstype = .fat12 := by
  have hlast := Nat.lt_of_lt_of_le h.last h.two_pow_bits_le
  have hclusters := h.clusters
  have huint : uint32 (g.nclusters - 2 : ℤ) = g.nclusters - 2 := by
    rw [uint32_of_lt (by omega) (by omega)]
    omega
  constructor
  · intro hall
    by_contra htype
    obtain ⟨fs', hr⟩ := hall emptyFile.fs ⟨rfl, fun _ _ _ _ i _ => rfl,
      fun hd => (by cases hd), fun hd => (by cases hd)⟩ (by change _ < 0xffffffff; omega)
    have hle : (free 2 g.nclusters (emptyFile.fs.table g)).card ≤ g.nclusters - 2 := card_free_le
    unfold fatNfreeclusters at hr
    rw [returns_get_bind_iff, huint, if_neg (by change ¬0xffffffff ≤ _; omega), if_neg htype] at hr
    obtain ⟨n, mid, hloop, hr⟩ := hr.of_bind
    have hn := Blank.nfreeRaw _ _ _ _ _ _ ⟨fun _ => rfl, fun _ => rfl, rfl⟩ hloop
    rw [returns_modify_bind_iff, returns_pure_iff] at hr
    omega
  · intro htype fs hc hcount
    obtain ⟨fs', hloop⟩ :=
      nfree12_spec h htype (g.nclusters - 2) 2 0 fs hc (Nat.le_refl 2) (by omega)
    rw [Nat.zero_add] at hloop
    unfold fatNfreeclusters
    simp only [returns_get_bind_iff, huint, if_neg (Nat.not_le.mpr hcount), if_pos htype,
      hloop.bind_iff]
    exact ⟨_, returns_pure⟩

theorem nfreeclusters_iff_small : ¬∀ fs, Coherent smallGeo fs → 4 < fs.fsifreecount →
    ∃ fs', Call.Returns (fatNfreeclusters smallGeo) fs (free 2 6 (fs.table smallGeo)).card fs' :=
  fun hall => absurd ((nfreeclusters_iff smallGeo smallGeo_healthy).mp hall) (by decide)

/-- 4085 clusters, as few as a volume with entries of 16 bits has. -/
def geo16 : Geo :=
  { smallGeo with hwnsectors := 4150, database := 65, nclusters := 4087, nfatsects := 16 }

/-- A FAT of 16 sectors, of which only the second one has free clusters. -/
def secondSector : Fs :=
  { emptyFile.fs with disk := fun x => if 1024 ≤ x ∧ x < 1536 then 0 else 255 }

/-- **Free clusters are overlooked.** The first, the third and every other sector of the FAT are
counted, and as many behind it. -/
theorem nfreeclusters_skips :
    (fatNfreeclusters geo16 secondSector).map (fun r => r.1.toOption) = some (some 0) ∧
      300 ∈ free 2 geo16.nclusters (secondSector.table geo16) := by
  refine ⟨by decide +kernel, Finset.mem_filter.mpr ⟨Finset.mem_Ico.mpr ?_, ?_⟩⟩ <;> decide

/-! ### Unmounting -/

/-- `EBUSY`. -/
def ebusy : ℤ := 16

/-- A mountpoint with its list of open files, `fs_head` and `ff_next`, and the files that are
open. -/
structure Mount (α : Type) where
  head : Option α := none
  next : α → Option α
  opened : List α := []

/-- The calls that succeed, with the address of the file. -/
inductive MountOp (α : Type) where
  | fatOpen (ff : α)
  | fatClose (ff : α)

namespace Mount

variable {α : Type} [DecidableEq α]

/-- The end of **`fat_open`**: `fs_head` gets the new `ff_next`, which is the old `fs_head`. -/
def fatOpen (m : Mount α) (ff : α) : Mount α :=
  let next := Function.update m.next ff m.head
  { head := next ff, next := next, opened := ff :: m.opened }

/-- **`fat_close`**, which does not touch the list. -/
def fatClose (m : Mount α) (ff : α) : Mount α := { m with opened := m.opened.erase ff }

/-- **`fat_unbind`.** -/
def fatUnbind (m : Mount α) : ℤ := if m.head.isSome then -ebusy else 0

/-- **One call.** No open file is at an address that `kmm_zalloc` returns. -/
def step (m : Mount α) : MountOp α → Option (Mount α)
  | .fatOpen ff => if ff ∈ m.opened then none else some (m.fatOpen ff)
  | .fatClose ff => if ff ∈ m.opened then some (m.fatClose ff) else none

theorem step_head {m m' : Mount α} {op : MountOp α} (hs : m.step op = some m') :
    m'.head = m.head := by
  cases op with
  | fatOpen ff =>
    obtain ⟨-, hs⟩ := Option.ite_none_left_eq_some.mp hs
    cases hs
    exact Function.update_self ..
  | fatClose ff =>
    obtain ⟨-, hs⟩ := Option.ite_none_right_eq_some.mp hs
    cases hs
    rfl

/-- **The list is that of the open files, and `fat_unbind` refuses to unmount exactly if there are
any**: this is so only if no file is open. -/
theorem busy_iff (next : α → Option α) (ops : List (MountOp α)) (m : Mount α)
    (h : Run.run step { next := next } ops = some m) :
    ((∃ l, Singly.Path m.next m.head l ∧ ∀ ff, ff ∈ l ↔ ff ∈ m.opened) ∧
      (m.fatUnbind = -ebusy ↔ m.opened ≠ [])) ↔ m.opened = [] := by
  have hhead : m.head = none :=
    Run.invariant (P := (·.head = none)) (fun _ _ _ hi hs => (step_head hs).trans hi) ops rfl h
  have hunbind : m.fatUnbind = 0 := by
    rw [fatUnbind, hhead]
    rfl
  have hbusy : ¬(0 = -ebusy) := by decide
  rw [hunbind, hhead, iff_false_left hbusy, not_not]
  exact ⟨And.right, fun hnone => ⟨⟨[], rfl, fun _ => by rw [hnone]⟩, hnone⟩⟩

theorem busy_iff_closed : ∃ m : Mount ℕ,
    Run.run step { next := fun _ => none } [.fatOpen 1, .fatClose 1] = some m ∧
      (m.fatUnbind = -ebusy ↔ m.opened ≠ []) :=
  ⟨_, rfl, ((busy_iff _ [.fatOpen 1, .fatClose 1] _ rfl).mpr rfl).2⟩

/-- **An open file** does not keep the volume from being unmounted. -/
theorem unmounted_while_open : ∃ m : Mount ℕ,
    Run.run step { next := fun _ => none } [.fatOpen 1] = some m ∧ m.opened = [1] ∧
      m.fatUnbind = 0 :=
  ⟨_, rfl, rfl, rfl⟩

end Mount

end GreenboneFeeder.Fat
