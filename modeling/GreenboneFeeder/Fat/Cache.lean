import GreenboneFeeder.Fat.Chain

/-!
# The cache of an open file

The bytes of a file are in the sectors of its clusters, and one of the sectors may be in the cache
of the file, changed or not. `Fat.Sys.view` is what the file holds, the cache taken into account.
Flushing the cache, reading a sector into it and giving it up change neither this nor where the file
is (`Fat.Same`); nor does a call on the FAT (`Fat.Kept.onFs`).
-/

namespace GreenboneFeeder.Fat

open Words Successors List Call Nat

variable {g : Geo} {P : ℕ → Prop} {K k k' i j m c : ℕ} {l l' : List ℕ} {fs fs' : Fs}
  {s s' s'' : Sys}

/-! ### The sectors of a file -/

theorem div_mod_add {p : ℕ} (hj : p % k + j < k) : (p + j) / k = p / k ∧
    (p + j) % k = p % k + j := by
  have hk : 0 < k := by omega
  have hp := div_add_mod p k
  have hsum : p + j = p % k + j + k * (p / k) := by omega
  rw [hsum, add_mul_div_left _ _ hk, div_eq_of_lt hj, zero_add,
    add_mul_mod_self_left, mod_eq_of_lt hj]
  exact ⟨rfl, rfl⟩

/-- The sector of the device that a sector of the file is. -/
def Geo.sectorOf (g : Geo) (l : List ℕ) (k : ℕ) : ℕ :=
  g.firstSector (l.getD (k / g.fatsecperclus) 0) + k % g.fatsecperclus

theorem Geo.sectorOf_eq (hc : l[k / g.fatsecperclus]? = some c) :
    g.sectorOf l k = g.firstSector c + k % g.fatsecperclus := by
  rw [Geo.sectorOf, getD_eq_getElem?_getD, hc, Option.getD_some]

theorem Geo.database_le_sectorOf : g.database ≤ g.sectorOf l k := by
  rw [Geo.sectorOf, Geo.firstSector]
  omega

theorem Geo.sectorOf_add (h : k % g.fatsecperclus + j < g.fatsecperclus) :
    g.sectorOf l (k + j) = g.sectorOf l k + j := by
  rw [Geo.sectorOf, Geo.sectorOf, (div_mod_add h).1, (div_mod_add h).2, add_assoc]

theorem add_lt_of_lt (hk : k < m * g.fatsecperclus)
    (h : k % g.fatsecperclus + j < g.fatsecperclus) : k + j < m * g.fatsecperclus := by
  have hpos : 0 < g.fatsecperclus := by omega
  rw [← div_lt_iff_lt_mul hpos, (div_mod_add h).1, div_lt_iff_lt_mul hpos]
  exact hk

theorem exists_cluster (hk : k < l.length * g.fatsecperclus) :
    ∃ c, l[k / g.fatsecperclus]? = some c :=
  ⟨_, getElem?_eq_getElem (Nat.div_lt_of_lt_mul (by rwa [Nat.mul_comm] at hk))⟩

theorem getElem?_of_extends (hpre : l <+: l') (hc : l[i]? = some c) : l'[i]? = some c := by
  obtain ⟨t, rfl⟩ := hpre
  rw [List.getElem?_append_left (List.getElem?_eq_some_iff.mp hc).1, hc]

theorem sectorOf_of_extends (hpre : l <+: l') (hk : k < l.length * g.fatsecperclus) :
    g.sectorOf l' k = g.sectorOf l k := by
  obtain ⟨c, hc⟩ := exists_cluster hk
  rw [Geo.sectorOf_eq hc, Geo.sectorOf_eq (getElem?_of_extends hpre hc)]

namespace Owns

section

variable (ho : Owns g P K l fs)

include ho

variable (h : g.Healthy) (hk : k < l.length * g.fatsecperclus)

include h hk

theorem sectorOf_inj
    (hk' : k' < l.length * g.fatsecperclus) (heq : g.sectorOf l k = g.sectorOf l k') : k = k' := by
  have hpos := h.secperclus_pos
  obtain ⟨c, hc⟩ := exists_cluster hk
  obtain ⟨c', hc'⟩ := exists_cluster hk'
  have hrange := ho.chain.range c (mem_of_getElem? hc)
  have hrange' := ho.chain.range c' (mem_of_getElem? hc')
  have hmod := mod_lt k hpos
  have hmod' := mod_lt k' hpos
  rw [Geo.sectorOf_eq hc, Geo.sectorOf_eq hc', Geo.firstSector, Geo.firstSector, add_assoc,
    add_assoc] at heq
  have heq' := add_left_cancel heq
  have hdiv : ∀ a b, b < g.fatsecperclus → (a * g.fatsecperclus + b) / g.fatsecperclus = a := by
    intro a b hb
    rw [mul_comm, mul_add_div hpos, div_eq_of_lt hb, add_zero]
  have hcluster : c - 2 = c' - 2 := by
    rw [← hdiv (c - 2) _ hmod, heq', hdiv _ _ hmod']
  have hsector : k % g.fatsecperclus = k' % g.fatsecperclus := by
    rw [hcluster] at heq'
    exact add_left_cancel heq'
  have hindex : k / g.fatsecperclus = k' / g.fatsecperclus := by
    refine (List.getElem?_inj (List.getElem?_eq_some_iff.mp hc).1 ho.chain.nodup).mp ?_
    rw [hc, hc']
    congr 1
    omega
  rw [← div_add_mod k g.fatsecperclus, hindex, hsector, div_add_mod]

theorem protects :
    P (g.sectorOf l k) := by
  obtain ⟨c, hc⟩ := exists_cluster hk
  rw [Geo.sectorOf_eq hc]
  exact ho.apart c (.inl (mem_of_getElem? hc)) _ (mod_lt k h.secperclus_pos)

theorem inside
    (hm : k % g.fatsecperclus + m ≤ g.fatsecperclus) : g.Inside (g.sectorOf l k) m := by
  obtain ⟨c, hc⟩ := exists_cluster hk
  have hrange := ho.chain.range c (mem_of_getElem? hc)
  have hsectors := h.sectors
  have hle : (c - 2 + 1) * g.fatsecperclus ≤ (g.nclusters - 2) * g.fatsecperclus :=
    mul_le_mul_right _ (by omega)
  rw [add_mul] at hle
  rw [Geo.sectorOf_eq hc, Geo.firstSector]
  exact ⟨by omega, by omega⟩

theorem inside_one
    : g.Inside (g.sectorOf l k) 1 :=
  ho.inside h hk (mod_lt k h.secperclus_pos)

omit h hk

theorem blit (h : g.Healthy) {sector : ℕ} (hs : g.database ≤ sector) (b : Bytes) :
    Owns g P K l
      { fs with disk := fs.disk.blit (sector * g.hwsectorsize) (m * g.hwsectorsize) b } := by
  have hone : g.nfatsects ≤ g.fatnumfats * g.nfatsects := Nat.le_mul_of_pos_left _ h.numfats
  have hdatabase := h.database
  have hdisk : ∀ n < g.nfatsects, ∀ i < g.hwsectorsize,
      fs.disk.blit (sector * g.hwsectorsize) (m * g.hwsectorsize) b
        ((g.fatbase + n) * g.hwsectorsize + i) =
      fs.disk ((g.fatbase + n) * g.hwsectorsize + i) := by
    intro n hn i hi
    rw [Bytes.blit_blocks hi, if_neg (by omega)]
  have hcached := ho.cached
  refine ho.congr { hcached with clean := fun hd n hn hcur i hi => ?_ }
    fun c _ hcn => entry_congr fun x hx => ?_
  · exact (hcached.clean hd n hn hcur i hi).trans (hdisk n hn i hi).symm
  · have hx' : x / g.hwsectorsize < g.nfatsects := by
      refine Nat.div_lt_of_lt_mul ?_
      rw [Nat.mul_comm]
      exact lt_of_lt_of_le hx (h.bytes_le hcn)
    unfold Fs.fat
    dsimp only
    rw [hdisk _ hx' _ (mod_lt x h.sectorsize_pos)]

end

end Owns

/-! ### What the file holds -/

/-- **A byte of the file**, by the number of the sector and the place in it. -/
def Sys.view (g : Geo) (l : List ℕ) (s : Sys) (k i : ℕ) : UInt8 :=
  if s.ff.dirty = true ∧ s.ff.cachesector = g.sectorOf l k then s.ff.buffer i
  else s.fs.disk (g.sectorOf l k * g.hwsectorsize + i)

/-- **The cache of the file is sound**: it has a sector of the file, the same as on the device if it
was not changed, or, before the first transfer, the first sector of the device. -/
structure Kept (g : Geo) (P : ℕ → Prop) (K : ℕ) (l : List ℕ) (s : Sys) : Prop where
  owns : Owns g P K l s.fs
  dirty : s.ff.dirty = true → s.ff.valid = true ∧ s.ff.cachesector ≠ 0
  valid : s.ff.valid = true → s.ff.cachesector = 0 ∨
    ∃ k < l.length * g.fatsecperclus, s.ff.cachesector = g.sectorOf l k
  clean : s.ff.valid = true → s.ff.dirty = false → ∀ k < l.length * g.fatsecperclus,
    s.ff.cachesector = g.sectorOf l k → ∀ i < g.hwsectorsize,
      s.ff.buffer i = s.fs.disk (g.sectorOf l k * g.hwsectorsize + i)

/-- Where the file is: the fields for the current sector. -/
structure Place where
  sectorsincluster : ℕ
  currentcluster : ℕ
  currentsector : ℤ

def Sys.place (s : Sys) : Place := ⟨s.ff.sectorsincluster, s.ff.currentcluster, s.ff.currentsector⟩

/-- The fields that the calls for single sectors do not change. -/
structure Head where
  size : ℤ
  startcluster : ℤ
  fpos : ℤ
  rdok : Bool
  wrok : Bool
  mounted : Bool

def Sys.head (s : Sys) : Head :=
  ⟨s.ff.size, s.ff.startcluster, s.fpos, s.ff.rdok, s.ff.wrok, s.fs.mounted⟩

/-- **The file holds the same**, as far as its chain reached; it may have got clusters. -/
structure Moved (g : Geo) (P : ℕ → Prop) (K : ℕ) (l l' : List ℕ) (s s' : Sys) : Prop where
  kept : Kept g P K l' s'
  pre : l <+: l'
  head : s'.head = s.head
  view : ∀ k < l.length * g.fatsecperclus, ∀ i < g.hwsectorsize,
    s'.view g l' k i = s.view g l k i

/-- **Nothing that can be seen has changed**: the file is at the same place and holds the same. -/
structure Same (g : Geo) (P : ℕ → Prop) (K : ℕ) (l : List ℕ) (s s' : Sys) : Prop extends
    Moved g P K l l s s' where
  place : s'.place = s.place

theorem Kept.same (hk : Kept g P K l s) : Same g P K l s s :=
  ⟨⟨hk, prefix_refl l, rfl, fun _ _ _ _ => rfl⟩, rfl⟩

theorem Moved.trans {l'' : List ℕ} (h : Moved g P K l l' s s') (h' : Moved g P K l' l'' s' s'') :
    Moved g P K l l'' s s'' where
  kept := h'.kept
  pre := h.pre.trans h'.pre
  head := h'.head.trans h.head
  view k hk i hi := by
    have hlen : l.length * g.fatsecperclus ≤ l'.length * g.fatsecperclus :=
      mul_le_mul_right _ h.pre.length_le
    exact (h'.view k (by omega) i hi).trans (h.view k hk i hi)

theorem Geo.Healthy.sectorOf_ne_zero (h : g.Healthy) : ((g.sectorOf l k : ℕ) : ℤ) ≠ 0 := by
  have hle := Geo.database_le_sectorOf (g := g) (l := l) (k := k)
  have := h.database
  have := h.fatbase
  omega

/-! ### The calls -/

theorem returns_onFs {α : Type} {x : Call Fs α} {a : α} (hx : Call.Returns x s.fs a fs') :
    Call.Returns (onFs x) s a { s with fs := fs' } := hx.zoom

theorem Sys.view_of_clean (hd : s.ff.dirty = false) :
    s.view g l k i = s.fs.disk (g.sectorOf l k * g.hwsectorsize + i) := by
  rw [Sys.view, if_neg]
  rw [hd]
  exact fun h => by cases h.1

/-- **`fat_ffcacheflush`**: the cache is not dirty then. -/
theorem Kept.fatFfcacheflush (hs : Kept g P K l s) (h : g.Healthy) :
    ∃ s', Call.Returns (fatFfcacheflush g) s () s' ∧ Same g P K l s s' ∧ s'.ff.dirty = false := by
  unfold Fat.fatFfcacheflush
  cases hdirty : s.ff.dirty with
  | false =>
    refine ⟨s, ?_, hs.same, hdirty⟩
    rw [returns_get_bind_iff, hdirty, if_neg fun hd => by cases hd.2.1]
    exact returns_pure
  | true =>
    obtain ⟨hvalid, hne⟩ := hs.dirty hdirty
    obtain ⟨k, hk, hsector⟩ := (hs.valid hvalid).resolve_left hne
    have hwrite := fatHwwrite_returns s.ff.buffer hs.owns.cached.faults (hs.owns.inside_one h hk)
    have hdisk : ∀ k' < l.length * g.fatsecperclus, ∀ i < g.hwsectorsize,
        s.fs.disk.blit (g.sectorOf l k * g.hwsectorsize) (1 * g.hwsectorsize) s.ff.buffer
          (g.sectorOf l k' * g.hwsectorsize + i) = s.view g l k' i := by
      intro k' _ i hi
      rw [blit_sector hi, Sys.view, hdirty, hsector]
      by_cases heq : g.sectorOf l k' = g.sectorOf l k
      · rw [if_pos heq, if_pos ⟨rfl, by rw [heq]⟩]
      · rw [if_neg heq, if_neg fun hand => heq (by omega)]
    refine ⟨{ s with
        fs := { s.fs with
          disk := s.fs.disk.blit (g.sectorOf l k * g.hwsectorsize) (1 * g.hwsectorsize)
            s.ff.buffer }
        ff := { s.ff with dirty := false } }, ?_,
      ⟨⟨⟨hs.owns.blit h Geo.database_le_sectorOf _, fun hd => (by cases hd), hs.valid, ?_⟩,
        prefix_refl l, rfl, fun k' hk' i hi => ?_⟩, rfl⟩, rfl⟩
    · rw [returns_get_bind_iff, if_pos ⟨hne, hdirty, hvalid⟩, hsector,
        (returns_onFs hwrite).bind_iff]
      exact returns_modify
    · intro _ _ k' hk' hsector' i hi
      refine Eq.trans ?_ (hdisk k' hk' i hi).symm
      rw [Sys.view, if_pos ⟨hdirty, hsector'⟩]
    · exact hdisk k' hk' i hi

/-- **`fat_ffcacheread`**: the sector is in the cache then. -/
theorem Kept.fatFfcacheread (hs : Kept g P K l s) (h : g.Healthy) {sector : ℕ}
    (hsector : sector = 0 ∨ ∃ k < l.length * g.fatsecperclus, sector = g.sectorOf l k) :
    ∃ s', Call.Returns (fatFfcacheread g sector) s () s' ∧ Same g P K l s s' ∧
      s'.ff.cachesector = sector ∧
      ∀ k < l.length * g.fatsecperclus, sector = g.sectorOf l k → ∀ i < g.hwsectorsize,
        s'.ff.buffer i = s.view g l k i := by
  have hin : g.Inside sector 1 := by
    rcases hsector with rfl | ⟨k, hk, rfl⟩
    · have hsectors := h.sectors
      have hdatabase := h.database
      have hfatbase := h.fatbase
      exact ⟨by omega, by omega⟩
    · exact hs.owns.inside_one h hk
  unfold Fat.fatFfcacheread
  by_cases hmiss : s.ff.cachesector ≠ sector ∨ s.ff.valid = false
  · obtain ⟨mid, hflush, hsame, hdirty⟩ := hs.fatFfcacheflush h
    have hread := fatHwread_returns hsame.kept.owns.cached.faults hin
    have hview : ∀ k < l.length * g.fatsecperclus, ∀ i < g.hwsectorsize,
        mid.fs.disk (g.sectorOf l k * g.hwsectorsize + i) = s.view g l k i := by
      intro k hk i hi
      rw [← hsame.view k hk i hi, Sys.view_of_clean hdirty]
    refine ⟨{ mid with
        ff := { mid.ff with
          buffer := fun i => mid.fs.disk (sector * g.hwsectorsize + i)
          cachesector := sector
          valid := true } }, ?_, ⟨⟨⟨hsame.kept.owns, ?_, fun _ => ?_, ?_⟩, prefix_refl l,
        hsame.head, fun k hk i hi => ?_⟩, hsame.place⟩, rfl, fun k hk heq i hi => ?_⟩
    · rw [returns_get_bind_iff, if_pos hmiss, hflush.bind_iff, (returns_onFs hread).bind_iff]
      exact returns_modify
    · intro hd
      rw [show mid.ff.dirty = true from hd] at hdirty
      cases hdirty
    · exact hsector.imp (fun heq => by rw [heq]; rfl)
        fun ⟨k, hk, heq⟩ => ⟨k, hk, by rw [heq]⟩
    · intro _ _ k hk heq i _
      rw [show sector = g.sectorOf l k from Int.ofNat_inj.mp heq]
    · rw [Sys.view_of_clean (by exact hdirty)]
      exact hview k hk i hi
    · rw [heq]
      exact hview k hk i hi
  · rw [not_or, not_not, Bool.not_eq_false] at hmiss
    refine ⟨s, ?_, hs.same, hmiss.1, fun k hk heq i hi => ?_⟩
    · rw [returns_get_bind_iff, if_neg]
      · exact returns_pure
      · rw [not_or, not_not, Bool.not_eq_false]
        exact hmiss
    · have hcur : s.ff.cachesector = g.sectorOf l k := by rw [hmiss.1, heq]
      rw [Sys.view]
      cases hdirty : s.ff.dirty with
      | false =>
        exact hs.clean hmiss.2 hdirty k hk hcur i hi
      | true => rw [if_pos ⟨rfl, hcur⟩]

/-- **`fat_ffcacheinvalidate`**: nothing is in the cache then. -/
theorem Kept.fatFfcacheinvalidate (hs : Kept g P K l s) (h : g.Healthy) :
    ∃ s', Call.Returns (fatFfcacheinvalidate g) s () s' ∧ Same g P K l s s' ∧
      s'.ff.dirty = false ∧ s'.ff.valid = false := by
  unfold Fat.fatFfcacheinvalidate
  cases hvalid : s.ff.valid with
  | false =>
    refine ⟨s, ?_, hs.same, ?_, hvalid⟩
    · rw [returns_get_bind_iff, hvalid]
      exact returns_pure
    · cases hdirty : s.ff.dirty with
      | false => rfl
      | true => rw [(hs.dirty hdirty).1] at hvalid; cases hvalid
  | true =>
    obtain ⟨mid, hflush, hsame, hdirty⟩ := hs.fatFfcacheflush h
    refine ⟨{ mid with ff := { mid.ff with valid := false, cachesector := 0 } }, ?_,
      ⟨⟨⟨hsame.kept.owns, ?_, fun hv => (by cases hv), fun hv => (by cases hv)⟩,
        prefix_refl l, hsame.head, fun k hk i hi => ?_⟩, hsame.place⟩, hdirty, rfl⟩
    · rw [returns_get_bind_iff, hvalid, if_pos rfl, hflush.bind_iff]
      exact returns_modify
    · intro hd
      rw [show mid.ff.dirty = true from hd] at hdirty
      cases hdirty
    · rw [← hsame.view k hk i hi, Sys.view_of_clean (by exact hdirty), Sys.view_of_clean hdirty]

/-! ### Changes of the FAT -/

/-- **The file holds the same after a call on the FAT**, also when it has got a cluster. -/
theorem Kept.onFs (hs : Kept g P K l s) (h : g.Healthy) (ho : Owns g P K l' fs')
    (hleaves : Leaves g P s.fs fs') (hpre : l <+: l') :
    Moved g P K l l' s { s with fs := fs' } := by
  have hlen : l.length * g.fatsecperclus ≤ l'.length * g.fatsecperclus :=
    mul_le_mul_right _ hpre.length_le
  have hdisk : ∀ k < l.length * g.fatsecperclus, ∀ i < g.hwsectorsize,
      fs'.disk (g.sectorOf l k * g.hwsectorsize + i) =
        s.fs.disk (g.sectorOf l k * g.hwsectorsize + i) :=
    fun k hk i hi => hleaves.disk _ (hs.owns.protects h hk) i hi
  refine ⟨⟨ho, hs.dirty, fun hv => ?_, fun hv hd k hk heq i hi => ?_⟩, hpre, ?_,
    fun k hk i hi => ?_⟩
  · refine (hs.valid hv).imp id fun ⟨k, hk, heq⟩ => ⟨k, by omega, ?_⟩
    rw [sectorOf_of_extends hpre hk]
    exact heq
  · -- the cached sector is none of a new cluster
    have heq' : s.ff.cachesector = g.sectorOf l' k := heq
    rcases hs.valid hv with hzero | ⟨k₀, hk₀, hcur⟩
    · exact absurd (heq'.symm.trans hzero) h.sectorOf_ne_zero
    · have hinj : k = k₀ := by
        refine ho.sectorOf_inj h hk (by omega) ?_
        rw [sectorOf_of_extends hpre hk₀]
        omega
      subst hinj
      rw [sectorOf_of_extends hpre hk₀, hdisk k hk₀ i hi]
      exact hs.clean hv hd k hk₀ hcur i hi
  · rw [Sys.head, Sys.head, hleaves.mounted]
  · rw [Sys.view, Sys.view, sectorOf_of_extends hpre hk]
    rw [hdisk k hk i hi]

end GreenboneFeeder.Fat
