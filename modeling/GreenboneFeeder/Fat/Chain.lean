import GreenboneFeeder.Fat.Table
import GreenboneFeeder.Lib.Successors

/-!
# The clusters of a file

The entries of the FAT link the clusters of a file to a chain. `fat_extendchain` follows the chain
or puts a free cluster at its end, and finds one wherever it starts to search (`Fat.search_spec`).
The sectors of the clusters are not touched by this (`Fat.Owns.fatExtendchain`).
-/

namespace GreenboneFeeder.Fat

open Words Successors

/-- The number that the entry of a cluster stands for. -/
def Fs.table (g : Geo) (fs : Fs) (c : ℕ) : ℕ := entry (fs.fat g) c g.fstype

/-- **What a call does to the FAT**: it has these entries then, and the sectors of the set are
left alone. -/
structure Sets (g : Geo) (P : ℕ → Prop) (T : ℕ → ℕ) (fs fs' : Fs) : Prop where
  cached : Cached g P fs'
  table : ∀ c, 2 ≤ c → c < g.nclusters → fs'.table g c = T c
  disk : ∀ n, P n → ∀ i < g.hwsectorsize,
    fs'.disk (n * g.hwsectorsize + i) = fs.disk (n * g.hwsectorsize + i)
  mounted : fs'.mounted = fs.mounted

variable {g : Geo} {P : ℕ → Prop} {fs fs' fs'' : Fs} {T T' : ℕ → ℕ} {c d n start : ℕ}

namespace Sets

theorem refl (hc : Cached g P fs) : Sets g P (fs.table g) fs fs :=
  ⟨hc, fun _ _ _ => rfl, fun _ _ _ _ => rfl, rfl⟩

theorem trans (h : Sets g P T fs fs') (h' : Sets g P T' fs' fs'') : Sets g P T' fs fs'' where
  cached := h'.cached
  table := h'.table
  disk n hn i hi := (h'.disk n hn i hi).trans (h.disk n hn i hi)
  mounted := h'.mounted.trans h.mounted

theorem congr (h : Sets g P T fs fs') (hT : ∀ c, 2 ≤ c → c < g.nclusters → T' c = T c) :
    Sets g P T' fs fs' :=
  { h with table := fun c hc hcn => (h.table c hc hcn).trans (hT c hc hcn).symm }

theorem hints (h : Sets g P T fs fs') {a b : ℕ} {e : Bool} :
    Sets g P T fs { fs' with fsinextfree := a, fsifreecount := b, fsidirty := e } :=
  { h with cached := { h.cached with } }

end Sets

/-! ### One entry -/

theorem entry_congr {b b' : Bytes} {t : Fstype} (h : ∀ x < t.bytes (c + 1), b' x = b x) :
    entry b' c t = entry b c t := by
  cases t with
  | fat12 =>
    rw [Fstype.bytes] at h
    rw [entry, entry, h (c * 3 / 2) (by omega), h (c * 3 / 2 + 1) (by omega)]
  | fat16 =>
    rw [Fstype.bytes] at h
    exact Bytes.load_congr fun x _ hx => h x (by omega)
  | fat32 =>
    rw [Fstype.bytes] at h
    rw [entry, entry, Bytes.load_congr fun x _ hx => h x (by omega)]

theorem Geo.Healthy.bytes_le (h : g.Healthy) (hc : c < g.nclusters) :
    g.fstype.bytes (c + 1) ≤ g.nfatsects * g.hwsectorsize := by
  refine Nat.le_trans ?_ h.fits
  cases g.fstype with
  | fat12 =>
    rw [Fstype.bytes, Fstype.bytes]
    omega
  | fat16 => exact Nat.mul_le_mul_left 2 hc
  | fat32 => exact Nat.mul_le_mul_left 4 hc

theorem Keeps.sets (hkeeps : Keeps g P fs fs') (h : g.Healthy) (hc : Cached g P fs') :
    Sets g P (fs.table g) fs fs' :=
  ⟨hc, fun _ _ hdn => entry_congr fun x hx => hkeeps.fat x (Nat.lt_of_lt_of_le hx (h.bytes_le hdn)),
    hkeeps.disk, hkeeps.mounted⟩

section

variable (h : g.Healthy) (hP : ∀ n, P n → g.database ≤ n) (hc : Cached g P fs)

include h hP hc

theorem fatGetcluster_sets (hc2 : 2 ≤ c) (hcn : c < g.nclusters) :
    ∃ fs', Call.Returns (fatGetcluster g c) fs (fs.table g c) fs' ∧
      Sets g P (fs.table g) fs fs' ∧ fs'.fsifreecount = fs.fsifreecount := by
  obtain ⟨fs', hget, hcached, hkeeps⟩ := fatGetcluster_spec h hP hc hc2 hcn
  exact ⟨fs', hget, hkeeps.sets h hcached, hkeeps.fsifreecount⟩

theorem fatPutcluster_sets {v : ℕ} (hc2 : 2 ≤ c) (hcn : c < g.nclusters) :
    ∃ fs', Call.Returns (fatPutcluster g c v) fs () fs' ∧
      Sets g P (fun d => if d = c then v % 2 ^ g.fstype.bits else fs.table g d) fs fs' ∧
      fs'.fsifreecount = fs.fsifreecount := by
  obtain ⟨fs', hput, hcached, hchanges⟩ := fatPutcluster_spec h hP hc hc2 hcn
  refine ⟨fs', hput, ⟨hcached, fun d _ hdn => ?_, hchanges.disk, hchanges.mounted⟩,
    hchanges.fsifreecount⟩
  refine Eq.trans (entry_congr fun x hx => ?_) entry_setEntry
  exact hchanges.fat x (Nat.lt_of_lt_of_le hx (h.bytes_le hdn))

end

/-! ### The search for a free cluster -/

/-- The clusters that the search from `start` has seen when it is at `new`. -/
def Seen (start new c : ℕ) : Prop :=
  if start ≤ new then start < c ∧ c ≤ new else start < c ∨ c ≤ new

/-- The number of turns that are left. -/
def turns (n start new : ℕ) : ℕ := if start ≤ new then n - new + start else start - new

/-- **The search finds a free cluster**, if there is one. -/
theorem search_spec (h : g.Healthy) (hP : ∀ n, P n → g.database ≤ n) (hstart : 0 < start)
    (hstartn : start < g.nclusters) (fuel : ℕ) :
    ∀ (new : ℕ) (fs : Fs), Cached g P fs → (∀ c, 2 ≤ c → c < g.nclusters → fs.table g c = T c) →
      0 < new → new < g.nclusters → turns g.nclusters start new ≤ fuel →
      (∀ c, 2 ≤ c → c < g.nclusters → Seen start new c → T c ≠ 0) →
      ∃ found fs', Call.Returns (search g start fuel new) fs found fs' ∧ Sets g P T fs fs' ∧
        fs'.fsifreecount = fs.fsifreecount ∧ (∀ c, found = some c → c ∈ free 2 g.nclusters T) ∧
        (found = none → free 2 g.nclusters T = ∅) := by
  induction fuel with
  | zero =>
    intro new fs _ _ hnew hnewn hturns
    unfold turns at hturns
    split_ifs at hturns <;> omega
  | succ fuel ih =>
    intro new fs hc htable hnew hnewn hturns hseen
    unfold search
    by_cases hend : g.nclusters ≤ new + 1 ∧ start < 2
    · -- the end of the FAT, and the search began at its start
      refine ⟨none, fs, ?_, (Sets.refl hc).congr fun c hc2 hcn => (htable c hc2 hcn).symm, rfl,
        fun c hc => (by cases hc), fun _ => ?_⟩
      · rw [if_pos hend]
        exact Call.returns_pure
      · refine Finset.eq_empty_of_forall_notMem fun c hmem => ?_
        obtain ⟨⟨hc2, hcn⟩, hzero⟩ := mem_free.mp hmem
        refine hseen c hc2 hcn ?_ hzero
        rw [Seen, if_pos (by omega)]
        omega
    · rw [if_neg hend]
      obtain ⟨x, hx⟩ : ∃ x, (if g.nclusters ≤ new + 1 then 2 else new + 1) = x := ⟨_, rfl⟩
      rw [hx]
      have hx2 : 2 ≤ x ∧ x < g.nclusters := by
        split_ifs at hx <;> omega
      obtain ⟨mid, hget, hsets, hcount⟩ := fatGetcluster_sets h hP hc hx2.1 hx2.2
      rw [htable x hx2.1 hx2.2] at hget
      have hsets' : Sets g P T fs mid :=
        hsets.congr fun c hc2 hcn => (htable c hc2 hcn).symm
      by_cases hzero : T x = 0
      · refine ⟨some x, mid, ?_, hsets', hcount, fun c hc => ?_, fun hnone => by cases hnone⟩
        · rw [hget.bind_iff, if_pos hzero]
          exact Call.returns_pure
        · rw [← Option.some.inj hc, mem_free]
          exact ⟨hx2, hzero⟩
      · -- what was seen before, and this cluster
        have hseen' : ∀ c, 2 ≤ c → c < g.nclusters → Seen start x c ∨ c = x → T c ≠ 0 := by
          intro c hc2 hcn hor
          by_cases hcx : c = x
          · rw [hcx]
            exact hzero
          · refine hseen c hc2 hcn ?_
            unfold Seen at hor ⊢
            split_ifs at hx hor ⊢ <;> omega
        by_cases hlast : x = start
        · refine ⟨none, mid, ?_, hsets', hcount, fun c hc => (by cases hc), fun _ => ?_⟩
          · rw [hget.bind_iff, if_neg hzero, if_pos hlast]
            exact Call.returns_pure
          · refine Finset.eq_empty_of_forall_notMem fun c hmem => ?_
            obtain ⟨⟨hc2, hcn⟩, hzero'⟩ := mem_free.mp hmem
            by_cases hcx : c = x
            · exact hzero (hcx ▸ hzero')
            · refine hseen c hc2 hcn ?_ hzero'
              unfold Seen
              split_ifs at hx ⊢ <;> omega
        · have hturns' : turns g.nclusters start x ≤ fuel := by
            unfold turns at hturns ⊢
            split_ifs at hx hturns ⊢ <;> omega
          obtain ⟨found, fs', hsearch, hsets'', hcount', hfound, hnone⟩ := ih x mid hsets'.cached
            hsets'.table (by omega) hx2.2 hturns' fun c hc2 hcn hc =>
              hseen' c hc2 hcn (.inl hc)
          refine ⟨found, fs', ?_, hsets'.trans hsets'', hcount'.trans hcount, hfound, hnone⟩
          rw [hget.bind_iff, if_neg hzero, if_neg hlast]
          exact hsearch

/-! ### The allocation of a cluster -/

theorem Geo.Healthy.lt_eoc (h : g.Healthy) : g.nclusters ≤ 0x0fffffff % 2 ^ g.fstype.bits := by
  have hlast := h.last
  cases ht : g.fstype with
  | fat12 | fat16 | fat32 =>
    rw [ht, Fstype.bits] at hlast
    rw [Fstype.bits]
    omega

/-- The table after a free cluster was marked as the end of a chain, and linked to a cluster. -/
def extended (g : Geo) (T : ℕ → ℕ) (cluster d : ℕ) : ℕ → ℕ := fun c =>
  if c = d then 0x0fffffff % 2 ^ g.fstype.bits else if c = cluster then d else T c

theorem exists_start (h : g.Healthy) (fs : Fs) : ∃ start, 0 < start ∧ start < g.nclusters ∧
    fatExtendchain g 0 fs = allocate g 0 start fs := by
  have hclusters := h.clusters
  refine ⟨_, ?_, ?_, rfl⟩ <;> split_ifs <;> omega

section

variable (h : g.Healthy) (hP : ∀ n, P n → g.database ≤ n)

include h hP

theorem link_sets {cluster : ℕ} (hc : Cached g P fs)
    (hcluster : cluster = 0 ∨ 2 ≤ cluster ∧ cluster < g.nclusters) (hd : d < g.nclusters) :
    ∃ fs', Call.Returns (link g cluster d) fs () fs' ∧
      Sets g P (fun c => if c = cluster then d else fs.table g c) fs fs' ∧
      fs'.fsifreecount = fs.fsifreecount := by
  unfold link
  rcases hcluster with rfl | ⟨hc2, hcn⟩
  · refine ⟨fs, ?_, (Sets.refl hc).congr fun c hc2 _ => if_neg (by omega), rfl⟩
    exact Call.returns_pure
  · obtain ⟨fs', hput, hsets, hcount⟩ := fatPutcluster_sets h hP hc hc2 hcn
    have hmod : d % 2 ^ g.fstype.bits = d := Nat.mod_eq_of_lt (Nat.lt_trans hd h.last)
    rw [hmod] at hsets
    refine ⟨fs', ?_, hsets, hcount⟩
    rw [if_pos (by omega)]
    exact hput

/-- The search from the start on. -/
theorem search_start (hc : Cached g P fs) (hstart : 0 < start) (hstartn : start < g.nclusters) :
    ∃ found fs', Call.Returns (search g start (g.nclusters + 1) start) fs found fs' ∧
      Sets g P (fs.table g) fs fs' ∧ fs'.fsifreecount = fs.fsifreecount ∧
      (∀ c, found = some c → c ∈ free 2 g.nclusters (fs.table g)) ∧
      (found = none → free 2 g.nclusters (fs.table g) = ∅) := by
  refine search_spec h hP hstart hstartn _ start fs hc (fun _ _ _ => rfl) hstart hstartn ?_ ?_
  · rw [turns, if_pos (Nat.le_refl start)]
    omega
  · intro c _ _ hseen
    rw [Seen, if_pos (Nat.le_refl start)] at hseen
    omega

theorem allocate_sets {cluster : ℕ} (hc : Cached g P fs)
    (hcluster : cluster = 0 ∨ 2 ≤ cluster ∧ cluster < g.nclusters) (hstart : 0 < start)
    (hstartn : start < g.nclusters) (hfree : (free 2 g.nclusters (fs.table g)).Nonempty)
    (hused : cluster ∉ free 2 g.nclusters (fs.table g)) :
    ∃ d ∈ free 2 g.nclusters (fs.table g), ∃ fs',
      Call.Returns (allocate g cluster start) fs d fs' ∧
        Sets g P (extended g (fs.table g) cluster d) fs fs' ∧ fs'.fsifreecount =
          if fs.fsifreecount = 0xffffffff then 0xffffffff else uint32 (fs.fsifreecount - 1) := by
  obtain ⟨found, mid, hsearch, hmid, hcount, hfound, hnone⟩ := search_start h hP hc hstart hstartn
  cases found with
  | none =>
    rw [hnone rfl] at hfree
    exact absurd hfree Finset.not_nonempty_empty
  | some d =>
    have hd := hfound d rfl
    obtain ⟨⟨hd2, hdn⟩, -⟩ := mem_free.mp hd
    obtain ⟨marked, hmark, hmarked, hcount'⟩ :=
      fatPutcluster_sets h hP hmid.cached hd2 hdn
    obtain ⟨linked, hlink, hlinked, hcount''⟩ := link_sets h hP hmarked.cached hcluster hdn
    have hne : cluster ≠ d := fun heq => hused (heq ▸ hd)
    have hsets : Sets g P (extended g (fs.table g) cluster d) fs linked := by
      refine ((hmid.trans hmarked).trans hlinked).congr fun c hc2 hcn => ?_
      rw [extended]
      by_cases hcd : c = d
      · rw [if_pos hcd, if_neg (by omega), hmarked.table c hc2 hcn, if_pos hcd]
      · rw [if_neg hcd, hmarked.table c hc2 hcn, if_neg hcd, hmid.table c hc2 hcn]
    have halloc : Call.Returns (allocate g cluster start) fs d
        (if linked.fsifreecount = 0xffffffff then { linked with fsinextfree := d }
        else { linked with
          fsinextfree := d, fsifreecount := uint32 (linked.fsifreecount - 1),
          fsidirty := true }) := by
      unfold allocate
      rw [hsearch.bind_iff]
      rw [hmark.bind_iff, hlink.bind_iff]
      exact Call.returns_pure
    refine ⟨d, hd, _, halloc, ?_⟩
    rw [← hcount, ← hcount', ← hcount'']
    split_ifs with hvalid
    · exact ⟨hsets.hints, hvalid⟩
    · exact ⟨hsets.hints, rfl⟩

end

/-! ### The clusters that a file owns -/

/-- The first sector of a cluster. -/
def Geo.firstSector (g : Geo) (c : ℕ) : ℕ := g.database + (c - 2) * g.fatsecperclus

/-- **The clusters of a file** are linked in the FAT, so many clusters are its own or free, and
their sectors are left alone by the cache. -/
structure Owns (g : Geo) (P : ℕ → Prop) (K : ℕ) (l : List ℕ) (fs : Fs) : Prop where
  cached : Cached g P fs
  chain : Successors.Chain 2 g.nclusters (fs.table g) l
  room : l.length + (free 2 g.nclusters (fs.table g)).card = K
  apart : ∀ c, c ∈ l ∨ c ∈ free 2 g.nclusters (fs.table g) →
    ∀ j < g.fatsecperclus, P (g.firstSector c + j)

/-- What the calls on the FAT leave alone: the sectors of the set. -/
structure Leaves (g : Geo) (P : ℕ → Prop) (fs fs' : Fs) : Prop where
  disk : ∀ n, P n → ∀ i < g.hwsectorsize,
    fs'.disk (n * g.hwsectorsize + i) = fs.disk (n * g.hwsectorsize + i)
  mounted : fs'.mounted = fs.mounted

theorem Sets.leaves (h : Sets g P T fs fs') : Leaves g P fs fs' := ⟨h.disk, h.mounted⟩

namespace Owns

variable {K i : ℕ} {l : List ℕ}

theorem congr (ho : Owns g P K l fs) (hcached : Cached g P fs')
    (htable : ∀ c, 2 ≤ c → c < g.nclusters → fs'.table g c = fs.table g c) :
    Owns g P K l fs' := by
  have hfree := free_congr htable
  refine ⟨hcached, ho.chain.congr htable, ?_, ?_⟩
  · rw [hfree]
    exact ho.room
  · rw [hfree]
    exact ho.apart

theorem extend (ho : Owns g P K l fs) (h : g.Healthy) (hd : d ∈ free 2 g.nclusters (fs.table g))
    (hsets : Sets g P (extended g (fs.table g) (l.getLast?.getD 0) d) fs fs') :
    Owns g P K (l ++ [d]) fs' := by
  have htable : ∀ c, 2 ≤ c → c < g.nclusters → fs'.table g c =
      if c = d then 0x0fffffff % 2 ^ g.fstype.bits
      else if l.getLast? = some c then d else fs.table g c := by
    intro c hc2 hcn
    have hlast : c = l.getLast?.getD 0 ↔ l.getLast? = some c := by
      cases l.getLast? with
      | none =>
        rw [Option.getD_none]
        refine iff_of_false (by omega) fun heq => by cases heq
      | some a => rw [Option.getD_some, Option.some.injEq, eq_comm]
    rw [hsets.table c hc2 hcn, extended]
    simp only [hlast]
  have hchain := ho.chain.extend (by decide) hd h.lt_eoc htable
  have hfree := free_extend ho.chain (by decide) hd h.lt_eoc htable
  refine ⟨hsets.cached, hchain, ?_, fun c hc => ho.apart c ?_⟩
  · have hpos := Finset.card_pos.mpr ⟨d, hd⟩
    have hroom := ho.room
    rw [hfree, Finset.card_erase_of_mem hd, List.length_append, List.length_singleton]
    omega
  · rcases hc with hc | hc
    · rcases List.mem_append.mp hc with hc | hc
      · exact .inl hc
      · rw [List.mem_singleton.mp hc]
        exact .inr hd
    · rw [hfree] at hc
      exact .inr (Finset.mem_of_mem_erase hc)

theorem free_nonempty (ho : Owns g P K l fs) (hK : l.length < K) :
    (free 2 g.nclusters (fs.table g)).Nonempty := by
  have := ho.room
  exact Finset.card_pos.mp (by omega)

variable (h : g.Healthy) (hP : ∀ n, P n → g.database ≤ n)

include h hP

/-- **`fat_createchain`**: a file without clusters gets one. -/
theorem fatCreatechain (ho : Owns g P K [] fs) (hK : 0 < K) :
    ∃ d fs', Call.Returns (fatCreatechain g) fs d fs' ∧ Owns g P K [d] fs' ∧
      Leaves g P fs fs' := by
  obtain ⟨start, hstart, hstartn, heq⟩ := exists_start h fs
  have hzero : (0 : ℕ) ∉ free 2 g.nclusters (fs.table g) := by
    rw [mem_free]
    omega
  obtain ⟨d, hd, fs', halloc, hsets, -⟩ := allocate_sets h hP ho.cached (.inl rfl) hstart hstartn
    (ho.free_nonempty hK) hzero
  exact ⟨d, fs', heq.trans halloc, ho.extend h hd hsets, hsets.leaves⟩

/-- **`fat_extendchain`**: the next cluster of a cluster of the file, which it gets if it has no
next one. -/
theorem fatExtendchain (ho : Owns g P K l fs) (hc : l[i]? = some c) (hK : i + 1 < K) :
    ∃ d l' fs', Call.Returns (fatExtendchain g c) fs d fs' ∧ Owns g P K l' fs' ∧
      Leaves g P fs fs' ∧ l <+: l' ∧ l'[i + 1]? = some d := by
  have hrange := ho.chain.range c (List.mem_of_getElem? hc)
  obtain ⟨mid, hget, hmid, -⟩ := fatGetcluster_sets h hP ho.cached hrange.1 hrange.2
  have hmid' := ho.congr hmid.cached hmid.table
  unfold Fat.fatExtendchain
  rcases Successors.Chain.lt_or_eq_last hc with ⟨d, hd⟩ | ⟨hlast, hlen⟩
  · have hd' := ho.chain.range d (List.mem_of_getElem? hd)
    refine ⟨d, l, mid, ?_, hmid', hmid.leaves, List.prefix_refl l, hd⟩
    rw [ho.chain.next i c d hc hd] at hget
    rw [Call.returns_get_bind_iff, if_neg (by omega), hget.bind_iff, if_neg (by omega),
      if_pos hd'.2]
    exact Call.returns_pure
  · have hend := ho.chain.last c hlast
    have hused : c ∉ free 2 g.nclusters (mid.table g) := fun hfree =>
      hmid'.chain.notMem_of_free (by decide) hfree (List.mem_of_getLast? hlast)
    obtain ⟨d, hd, fs', halloc, hsets, -⟩ := allocate_sets h hP hmid.cached (.inr hrange) (by omega)
      hrange.2 (hmid'.free_nonempty (by omega)) hused
    have hextend : Owns g P K (l ++ [d]) fs' := by
      refine hmid'.extend h hd ?_
      rw [hlast]
      exact hsets
    refine ⟨d, l ++ [d], fs', ?_, hextend, ⟨fun n hn i hi => ?_, ?_⟩, List.prefix_append l [d], ?_⟩
    · rw [Call.returns_get_bind_iff, if_neg (by omega), hget.bind_iff, if_neg (by omega),
        if_neg (by omega)]
      exact halloc
    · exact (hsets.disk n hn i hi).trans (hmid.disk n hn i hi)
    · exact hsets.mounted.trans hmid.mounted
    · rw [hlen, List.getElem?_append_right (Nat.le_refl _), Nat.sub_self]
      rfl

end Owns

end GreenboneFeeder.Fat
