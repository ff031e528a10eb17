import GreenboneFeeder.Fat.Cache

/-!
# Reading and writing an open file

The current sector is the one of the position, or all sectors of a cluster have been transferred and
the position is at the end of it (`Fat.Located`). One turn of the loops of `fat_read` and
`fat_write` keeps this, at every boundary of sectors and clusters, and so do the loops
(`Fat.Kept.readLoop`, `Fat.Kept.writeLoop`).
-/

namespace GreenboneFeeder.Fat

open Words Successors List Call Sys Bytes Nat

variable {g : Geo} {P : ℕ → Prop} {K k i j m n p q c : ℕ} {l l' : List ℕ} {fs fs' : Fs}
  {s s' s'' : Sys} {pl : Place}

/-! ### Positions -/

/-- The number of bytes of a cluster. -/
def Geo.clustersize (g : Geo) : ℕ := g.fatsecperclus * g.hwsectorsize

/-- The byte of the file at a position. -/
def Sys.byte (g : Geo) (l : List ℕ) (s : Sys) (p : ℕ) : UInt8 :=
  s.view g l (p / g.hwsectorsize) (p % g.hwsectorsize)

/-- The bytes of the file from a position on. -/
def Sys.bytes (g : Geo) (l : List ℕ) (s : Sys) (p n : ℕ) : List UInt8 :=
  (range n).map fun j => s.byte g l (p + j)

theorem Sys.bytes_add :
    s.bytes g l p (m + n) = s.bytes g l p m ++ s.bytes g l (p + m) n := by
  simp [bytes, range_add, add_assoc]

@[simp] theorem Sys.length_bytes : (s.bytes g l p n).length = n := by simp [bytes]

theorem Geo.Healthy.sector_lt (h : g.Healthy) (hp : p < n * g.clustersize) :
    p / g.hwsectorsize < n * g.fatsecperclus := by
  rw [div_lt_iff_lt_mul h.sectorsize_pos, mul_assoc]
  exact hp

theorem Moved.byte (hm : Moved g P K l l' s s') (h : g.Healthy)
    (hp : p < l.length * g.clustersize) :
    s'.byte g l' p = s.byte g l p :=
  hm.view _ (h.sector_lt hp) _ (mod_lt p h.sectorsize_pos)

theorem Moved.bytes (hm : Moved g P K l l' s s') (h : g.Healthy)
    (hp : p + n ≤ l.length * g.clustersize) : s'.bytes g l' p n = s.bytes g l p n := by
  refine map_congr_left fun j hj => hm.byte h ?_
  have := mem_range.mp hj
  omega

theorem div_mod_add_end (hk : 0 < k) (hj : p % k + j = m * k) :
    (p + j) / k = p / k + m ∧ (p + j) % k = 0 := by
  have hp := div_add_mod' p k
  have hsum : p + j = (p / k + m) * k := by
    rw [add_mul]
    omega
  rw [hsum]
  exact ⟨Nat.mul_div_cancel _ hk, Nat.mul_mod_left _ _⟩

theorem Sys.byte_add (hj : p % g.hwsectorsize + j < g.hwsectorsize) :
    s.byte g l (p + j) = s.view g l (p / g.hwsectorsize) (p % g.hwsectorsize + j) := by
  rw [byte, (div_mod_add hj).1, (div_mod_add hj).2]

theorem Sys.byte_add_of_aligned (h : g.Healthy) (hp : p % g.hwsectorsize = 0) :
    s.byte g l (p + j) =
      s.view g l (p / g.hwsectorsize + j / g.hwsectorsize) (j % g.hwsectorsize) := by
  have hpos := h.sectorsize_pos
  obtain ⟨a, rfl⟩ := dvd_of_mod_eq_zero hp
  rw [byte, Nat.mul_add_div hpos, Nat.mul_add_mod, Nat.mul_div_cancel_left _ hpos]

/-! ### The current sector -/

/-- **A sector of the file is the current one.** -/
structure At (g : Geo) (l : List ℕ) (k : ℕ) (pl : Place) : Prop where
  cluster : l[k / g.fatsecperclus]? = some pl.currentcluster
  sector : pl.currentsector = g.sectorOf l k
  left : pl.sectorsincluster = g.fatsecperclus - k % g.fatsecperclus

/-- **The sectors of a cluster have all been transferred**, up to this sector of the file. -/
structure Past (g : Geo) (l : List ℕ) (k : ℕ) (pl : Place) : Prop where
  cluster : l[k / g.fatsecperclus - 1]? = some pl.currentcluster
  sector : pl.currentsector ≠ 0
  left : pl.sectorsincluster = 0
  boundary : k % g.fatsecperclus = 0
  pos : 0 < k

/-- **The fields for the current sector agree with the position.** -/
def Located (g : Geo) (l : List ℕ) (p : ℕ) (pl : Place) : Prop :=
  At g l (p / g.hwsectorsize) pl ∨
    p % g.hwsectorsize = 0 ∧ Past g l (p / g.hwsectorsize) pl

/-- The place after a transfer of sectors. -/
def Place.advance (m : ℕ) (pl : Place) : Place :=
  ⟨pl.sectorsincluster - m, pl.currentcluster, int32 (pl.currentsector + m)⟩

theorem At.lt (ha : At g l k pl) (h : g.Healthy) : k < l.length * g.fatsecperclus :=
  (div_lt_iff_lt_mul h.secperclus_pos).mp (List.getElem?_eq_some_iff.mp ha.cluster).1

theorem At.left_pos (ha : At g l k pl) (h : g.Healthy) : 0 < pl.sectorsincluster := by
  have := mod_lt k h.secperclus_pos
  rw [ha.left]
  omega

theorem Past.div_pos (hpast : Past g l k pl) : 0 < k / g.fatsecperclus := by
  rcases Nat.eq_zero_or_pos (k / g.fatsecperclus) with hzero | hpos
  · have hdiv := div_add_mod k g.fatsecperclus
    have := hpast.boundary
    have := hpast.pos
    rw [hzero] at hdiv
    omega
  · exact hpos

theorem At.advance (ha : At g l k pl) (h : g.Healthy) (ho : Owns g P K l fs) (hm : 0 < m)
    (hle : m ≤ pl.sectorsincluster) :
    At g l (k + m) (pl.advance m) ∨ Past g l (k + m) (pl.advance m) := by
  have hpos := h.secperclus_pos
  have hleft := ha.left
  have hin := ho.inside h (ha.lt h) (m := m) (by omega)
  have hsmall := h.small
  have hsector : int32 (pl.currentsector + m) = (g.sectorOf l k + m : ℕ) := by
    have hend := hin.2
    rw [ha.sector, int32_of_lt (by omega) (by omega)]
    omega
  rcases lt_or_ge (k % g.fatsecperclus + m) g.fatsecperclus with hlt | hge
  · refine .inl ⟨?_, ?_, ?_⟩
    · rw [(div_mod_add hlt).1]
      exact ha.cluster
    · rw [Geo.sectorOf_add hlt]
      exact hsector
    · rw [(div_mod_add hlt).2]
      change pl.sectorsincluster - m = _
      omega
  · obtain ⟨hdiv, hmod'⟩ := div_mod_add_end (p := k) (j := m) (m := 1) hpos (by omega)
    refine .inr ⟨?_, ?_, ?_, hmod', by omega⟩
    · rw [hdiv]
      exact ha.cluster
    · change int32 (pl.currentsector + m) ≠ 0
      omega
    · change pl.sectorsincluster - m = 0
      omega

theorem Located.le (hl : Located g l p pl) (h : g.Healthy) : p ≤ l.length * g.clustersize := by
  have hpmod := div_add_mod' p g.hwsectorsize
  have hss := h.sectorsize_pos
  rcases hl with ha | ⟨hzero, hpast⟩
  · have hlt := ha.lt h
    rw [div_lt_iff_lt_mul hss, mul_assoc] at hlt
    exact le_of_lt hlt
  · have hlt := (List.getElem?_eq_some_iff.mp hpast.cluster).1
    have hkmod := div_add_mod' (p / g.hwsectorsize) g.fatsecperclus
    have hboundary := hpast.boundary
    have hk : p / g.hwsectorsize ≤ l.length * g.fatsecperclus := by
      rw [← hkmod, hboundary]
      exact mul_le_mul_right _ (by omega)
    rw [← hpmod, hzero, Geo.clustersize, ← mul_assoc]
    exact mul_le_mul_right _ hk

theorem Geo.Healthy.two_pow_bits_le (_ : g.Healthy) : 2 ^ g.fstype.bits ≤ 2 ^ 28 := by
  cases g.fstype <;> decide

/-- **`fat_cluster2sector`** of a cluster that there is. -/
theorem Geo.Healthy.cluster2sector_eq (h : g.Healthy) (hc2 : 2 ≤ c) (hcn : c < g.nclusters) :
    g.cluster2sector c = (g.firstSector c : ℕ) := by
  have hsectors := h.sectors
  have hsmall := h.small
  have hbound := lt_of_lt_of_le h.last h.two_pow_bits_le
  have hle : (c - 2) * g.fatsecperclus ≤ (g.nclusters - 2) * g.fatsecperclus :=
    mul_le_mul_right _ (by omega)
  have hcluster : uint32 ((c : ℤ) - 2) = c - 2 := by
    rw [uint32_of_lt (by omega) (by omega)]
    omega
  have hn : uint32 ((g.nclusters : ℤ) - 2) = g.nclusters - 2 := by
    rw [uint32_of_lt (by omega) (by omega)]
    omega
  rw [Geo.cluster2sector, hcluster]
  rw [if_neg (by omega), uint32_natCast (by omega), int32_natCast (by omega), Geo.firstSector,
    add_comm]

theorem at_enter (h : g.Healthy) (ho : Owns g P K l fs)
    (hc : l[k / g.fatsecperclus]? = some c) (hk : k % g.fatsecperclus = 0) :
    At g l k ⟨g.fatsecperclus, c, g.cluster2sector c⟩ := by
  obtain ⟨hc2, hcn⟩ := ho.chain.range c (mem_of_getElem? hc)
  refine ⟨hc, ?_, ?_⟩
  · rw [Geo.sectorOf_eq hc, hk]
    exact h.cluster2sector_eq hc2 hcn
  · rw [hk, Nat.sub_zero]

/-! ### The next cluster -/

namespace Kept

theorem readCluster (hs : Kept g P K l s) (h : g.Healthy) (hP : ∀ n, P n → g.database ≤ n)
    (hl : Located g l p s.place) (hp : p < l.length * g.clustersize) :
    ∃ s', Call.Returns (readCluster g) s () s' ∧ Moved g P K l l s s' ∧
      At g l (p / g.hwsectorsize) s'.place := by
  unfold Fat.readCluster
  rcases hl with ha | ⟨-, hpast⟩
  · refine ⟨s, ?_, hs.same.toMoved, ha⟩
    have hpos : 0 < s.ff.sectorsincluster := ha.left_pos h
    rw [returns_get_bind_iff, if_neg (by omega)]
    exact returns_pure
  · have hk := h.sector_lt hp
    obtain ⟨d, hd⟩ := exists_cluster hk
    have hpos := hpast.div_pos
    have hcur : l[p / g.hwsectorsize / g.fatsecperclus - 1]? = some s.ff.currentcluster :=
      hpast.cluster
    have hd' : l[p / g.hwsectorsize / g.fatsecperclus - 1 + 1]? = some d := by
      rw [Nat.sub_add_cancel hpos]
      exact hd
    have hcrange := hs.owns.chain.range _ (mem_of_getElem? hcur)
    have hdrange := hs.owns.chain.range d (mem_of_getElem? hd)
    obtain ⟨fs', hget, hsets, -⟩ := fatGetcluster_sets h hP hs.owns.cached hcrange.1 hcrange.2
    rw [hs.owns.chain.next _ _ d hcur hd'] at hget
    have hmoved := hs.onFs h (hs.owns.congr hsets.cached hsets.table) hsets.leaves
      (prefix_refl l)
    have hkept := hmoved.kept
    refine ⟨{ s with fs := fs', ff := s.ff.enter g d }, ?_,
      ⟨{ hkept with }, prefix_refl l, hmoved.head,
        hmoved.view⟩, at_enter h hkept.owns hd hpast.boundary⟩
    have hleft : s.ff.sectorsincluster = 0 := hpast.left
    rw [returns_get_bind_iff, if_pos (by omega), (returns_onFs hget).bind_iff, if_neg (by omega)]
    exact returns_modify

/-- The start of a turn of the loop of `fat_write`: the file may get a cluster. -/
theorem writeCluster (hs : Kept g P K l s) (h : g.Healthy) (hP : ∀ n, P n → g.database ≤ n)
    (hl : Located g l p s.place) (hp : p < K * g.clustersize) :
    ∃ l' s', Call.Returns (writeCluster g) s () s' ∧ Moved g P K l l' s s' ∧
      At g l' (p / g.hwsectorsize) s'.place := by
  unfold Fat.writeCluster
  rcases hl with ha | ⟨-, hpast⟩
  · refine ⟨l, s, ?_, hs.same.toMoved, ha⟩
    have hpos : 0 < s.ff.sectorsincluster := ha.left_pos h
    rw [returns_get_bind_iff, if_neg (by omega)]
    exact returns_pure
  · have hpos := hpast.div_pos
    have hroom : p / g.hwsectorsize / g.fatsecperclus < K :=
      (div_lt_iff_lt_mul h.secperclus_pos).mpr (h.sector_lt hp)
    have hcur : l[p / g.hwsectorsize / g.fatsecperclus - 1]? = some s.ff.currentcluster :=
      hpast.cluster
    obtain ⟨d, l', fs', hextend, howns, hleaves, hpre, hd⟩ :=
      hs.owns.fatExtendchain h hP hcur (by omega)
    rw [Nat.sub_add_cancel hpos] at hd
    have hdrange := howns.chain.range d (mem_of_getElem? hd)
    have hmoved := hs.onFs h howns hleaves hpre
    have hkept := hmoved.kept
    refine ⟨l', { s with fs := fs', ff := s.ff.enter g d }, ?_,
      ⟨{ hkept with }, hpre, hmoved.head, hmoved.view⟩,
      at_enter h howns hd hpast.boundary⟩
    have hleft : s.ff.sectorsincluster = 0 := hpast.left
    rw [returns_get_bind_iff, if_pos (by omega), (returns_onFs hextend).bind_iff, if_neg (by omega)]
    exact returns_modify

end Kept

/-! ### Reading -/

theorem Geo.Healthy.sectorindex_eq (h : g.Healthy) (hp : p < 2 ^ 31) :
    g.sectorindex p = p % g.hwsectorsize := by
  rw [Geo.sectorindex, uint32_natCast (by omega), h.secNdx_eq]

theorem At.located (ha : At g l (p / g.hwsectorsize) pl)
    (hj : p % g.hwsectorsize + j < g.hwsectorsize) : Located g l (p + j) pl := by
  refine .inl ?_
  rw [(div_mod_add hj).1]
  exact ha

theorem At.located_advance (ha : At g l (p / g.hwsectorsize) pl) (h : g.Healthy)
    (ho : Owns g P K l fs) (hm : 0 < m) (hle : m ≤ pl.sectorsincluster)
    (hj : p % g.hwsectorsize + j = m * g.hwsectorsize) : Located g l (p + j) (pl.advance m) := by
  obtain ⟨hdiv, hmod⟩ := div_mod_add_end h.sectorsize_pos hj
  rw [Located, hdiv, hmod]
  exact (ha.advance h ho hm hle).imp id fun hpast => ⟨rfl, hpast⟩

namespace Kept

/-- **A turn of the loop of `fat_read`**: at least one byte is read, from the place where the file
is. -/
theorem readTurn (hs : Kept g P K l s) (h : g.Healthy) (ha : At g l (p / g.hwsectorsize) s.place)
    (hpos : s.fpos = p) (hp : p < 2 ^ 31) (hn : 0 < n) :
    ∃ m s', 0 < m ∧ m ≤ n ∧ Call.Returns (readTurn g n) s (s.bytes g l p m) s' ∧
      Moved g P K l l s s' ∧ Located g l (p + m) s'.place := by
  have hss := h.sectorsize_pos
  have hk := ha.lt h
  have hmod := mod_lt p hss
  have hcur : s.ff.currentsector = g.sectorOf l (p / g.hwsectorsize) := ha.sector
  unfold Fat.readTurn
  by_cases hdirect : 0 < n / g.hwsectorsize ∧ p % g.hwsectorsize = 0
  · -- whole sectors of the cluster are read into the buffer of the caller
    obtain ⟨m, hm⟩ : ∃ m, min (n / g.hwsectorsize) s.ff.sectorsincluster = m := ⟨_, rfl⟩
    have hleftpos : 0 < s.ff.sectorsincluster := ha.left_pos h
    have hmpos : 0 < m := by omega
    have hmleft : m ≤ s.ff.sectorsincluster := by omega
    have hmn : m * g.hwsectorsize ≤ n :=
      le_trans (mul_le_mul_right _ (by omega)) (div_mul_le_self n g.hwsectorsize)
    have hleft : s.ff.sectorsincluster =
      g.fatsecperclus - p / g.hwsectorsize % g.fatsecperclus := ha.left
    obtain ⟨mid, hinv, hsame, hdirty, -⟩ := hs.fatFfcacheinvalidate h
    have hread := fatHwread_returns hsame.kept.owns.cached.faults
      (hsame.kept.owns.inside h hk (m := m) (by omega))
    have hkept := hsame.kept
    have hplace : s.place = mid.place := hsame.place.symm
    refine ⟨m * g.hwsectorsize, { mid with ff := mid.ff.advance m },
      Nat.mul_pos hmpos hss, hmn, ?_,
      ⟨{ hkept with }, prefix_refl l, hsame.head,
        hsame.view⟩, ?_⟩
    · rw [returns_get_bind_iff, hpos, h.sectorindex_eq hp, if_pos hdirect, hm,
        hinv.ignore.bind_iff, hcur, (returns_onFs hread).bind_iff]
      have hbytes : slice
          (fun i => mid.fs.disk (g.sectorOf l (p / g.hwsectorsize) * g.hwsectorsize + i)) 0
          (m * g.hwsectorsize) = s.bytes g l p (m * g.hwsectorsize) := by
        refine map_congr_left fun j hj => ?_
        have hj' : j / g.hwsectorsize < m :=
          (div_lt_iff_lt_mul hss).mpr (mem_range.mp hj)
        have hsector : g.sectorOf l (p / g.hwsectorsize + j / g.hwsectorsize) =
            g.sectorOf l (p / g.hwsectorsize) + j / g.hwsectorsize :=
          Geo.sectorOf_add (by omega)
        have hk' := add_lt_of_lt hk (j := j / g.hwsectorsize) (by omega)
        rw [byte_add_of_aligned h hdirect.2, ← hsame.view _ hk' _ (mod_lt j hss),
          view_of_clean hdirty, hsector, add_mul, add_assoc, div_add_mod', zero_add]
      rw [hbytes]
      exact returns_pure
    · rw [hplace] at ha
      exact ha.located_advance h hkept.owns hmpos (by rw [← hplace]; exact hmleft) (by omega)
  · -- a part of a sector is taken out of the cache
    obtain ⟨mid, hread, hsame, -, hbuffer⟩ := hs.fatFfcacheread h (.inr ⟨_, hk, rfl⟩)
    have hplace : s.place = mid.place := hsame.place.symm
    have hbytes : ∀ m, p % g.hwsectorsize + m ≤ g.hwsectorsize →
        mid.ff.buffer.slice (p % g.hwsectorsize) m = s.bytes g l p m := by
      intro m hm
      refine map_congr_left fun j hj => ?_
      have hj' := mem_range.mp hj
      rw [byte_add (by omega), hbuffer _ hk rfl _ (by omega)]
    by_cases hpart : n < g.hwsectorsize - p % g.hwsectorsize
    · refine ⟨n, mid, hn, le_refl n, ?_, hsame.toMoved, ?_⟩
      · rw [returns_get_bind_iff, hpos, h.sectorindex_eq hp, if_neg hdirect, hcur,
          hread.bind_iff, returns_get_bind_iff, if_pos hpart, hbytes n (by omega)]
        exact returns_pure
      · rw [← hplace]
        exact ha.located (by omega)
    · have hkept := hsame.kept
      refine ⟨g.hwsectorsize - p % g.hwsectorsize, { mid with ff := mid.ff.advance 1 }, by omega,
        by omega, ?_, ⟨{ hkept with }, prefix_refl l,
          hsame.head, hsame.view⟩, ?_⟩
      · rw [returns_get_bind_iff, hpos, h.sectorindex_eq hp, if_neg hdirect, hcur,
          hread.bind_iff, returns_get_bind_iff, if_neg hpart, hbytes _ (by omega)]
        exact returns_pure
      · rw [hplace] at ha
        exact ha.located_advance h hkept.owns one_pos (ha.left_pos h) (by omega)

/-- **The loop of `fat_read`** reads so many bytes of the file. -/
theorem readLoop (h : g.Healthy) (hP : ∀ n, P n → g.database ≤ n) (fuel : ℕ) :
    ∀ (n p : ℕ) (out : List UInt8) (s : Sys), Kept g P K l s → Located g l p s.place →
      s.fpos = p → n < fuel → p + n ≤ l.length * g.clustersize → p + n < 2 ^ 31 →
      ∃ s', Call.Returns (readLoop g fuel n out) s (out ++ s.bytes g l p n) s' ∧
        Kept g P K l s' ∧ s'.head = { s.head with fpos := (p + n : ℕ) } ∧
        Located g l (p + n) s'.place ∧
        ∀ q < l.length * g.clustersize, s'.byte g l q = s.byte g l q := by
  induction fuel with
  | zero => exact fun n p out s _ _ _ hn => absurd hn (not_lt_zero n)
  | succ fuel ih =>
    intro n p out s hs hl hpos hn hp hsmall
    unfold Fat.readLoop
    rcases Nat.eq_zero_or_pos n with rfl | hnpos
    · refine ⟨s, ?_, hs, ?_, hl, fun _ _ => rfl⟩
      · rw [bytes, range_zero, map_nil, append_nil]
        exact returns_pure
      · rw [add_zero, ← hpos]
        rfl
    · obtain ⟨s₁, hcluster, hmoved₁, ha⟩ := hs.readCluster h hP hl (by omega)
      have hpos₁ : s₁.fpos = p := (congrArg Head.fpos hmoved₁.head).trans hpos
      obtain ⟨m, s₂, hmpos, hmn, hturn, hmoved₂, hl₂⟩ :=
        hmoved₁.kept.readTurn h ha hpos₁ (by omega) hnpos
      have hmoved := hmoved₁.trans hmoved₂
      have hpos₂ : s₂.fpos = p := (congrArg Head.fpos hmoved.head).trans hpos
      have hkept := hmoved.kept
      have hfpos : int32 (s₂.fpos + m) = (p + m : ℕ) := by
        rw [int32_of_lt (by omega) (by omega)]
        omega
      obtain ⟨s', hloop, hkept', hhead', hl', hbyte'⟩ := ih (n - m) (p + m)
        (out ++ s₁.bytes g l p m) { s₂ with fpos := int32 (s₂.fpos + m) }
        { hkept with } hl₂ hfpos (by omega) (by omega)
        (by omega)
      have hend : p + m + (n - m) = p + n := by omega
      rw [hend] at hhead' hl'
      refine ⟨s', ?_, hkept', ?_, hl', fun q hq => ?_⟩
      · have hbytes : out ++ s.bytes g l p n =
            out ++ s₁.bytes g l p m ++ bytes g l { s₂ with fpos := int32 (s₂.fpos + m) }
              (p + m) (n - m) := by
          have hsplit : s.bytes g l p n = s.bytes g l p (m + (n - m)) := by
            rw [Nat.add_sub_cancel' hmn]
          rw [hsplit, bytes_add, hmoved₁.bytes h (by omega), ← append_assoc]
          congr 1
          exact (hmoved.bytes h (by omega)).symm
        rw [if_neg (by omega), hcluster.bind_iff, hturn.bind_iff, hbytes, length_bytes]
        exact hloop
      · rw [hhead', ← hmoved.head]
        rfl
      · exact (hbyte' q hq).trans (hmoved.byte h hq)

end Kept

/-! ### Writing -/

/-- **Bytes were written at a position**, and the others of the file are the same. -/
structure Written (g : Geo) (l l' : List ℕ) (s s' : Sys) (p w : ℕ) (data : List UInt8) : Prop where
  inside : ∀ j < w, s'.byte g l' (p + j) = data.getD j 0
  outside : ∀ q < l.length * g.clustersize, q < p ∨ p + w ≤ q ∧ (q : ℤ) < s.ff.size →
    s'.byte g l' q = s.byte g l q

namespace Kept

/-- The current sector is put into the cache: if it is not read, what is in the cache does not
matter. -/
theorem writeSector (hs : Kept g P K l s) (h : g.Healthy) (ha : At g l (p / g.hwsectorsize) s.place)
    (hpos : s.fpos = p) (hp : p + n < 2 ^ 31) (hsize : 0 ≤ s.ff.size ∧ s.ff.size < 2 ^ 31) :
    ∃ s', Call.Returns (writeSector g (p % g.hwsectorsize) n) s () s' ∧ Owns g P K l s'.fs ∧
      s'.place = s.place ∧ s'.head = s.head ∧
      s'.ff.cachesector = g.sectorOf l (p / g.hwsectorsize) ∧
      (∀ k < l.length * g.fatsecperclus, k ≠ p / g.hwsectorsize → ∀ i < g.hwsectorsize,
        s'.fs.disk (g.sectorOf l k * g.hwsectorsize + i) = s.view g l k i) ∧
      ((∀ i < g.hwsectorsize, s'.ff.buffer i = s.view g l (p / g.hwsectorsize) i) ∨
        p % g.hwsectorsize = 0 ∧ (g.hwsectorsize ≤ n ∨ s.ff.size ≤ p + n)) := by
  have hk := ha.lt h
  have hcur : s.ff.currentsector = g.sectorOf l (p / g.hwsectorsize) := ha.sector
  have hsum : uint32 (s.fpos + n) = p + n := by
    rw [uint32_of_lt (by omega) (by omega)]
    omega
  have hsize' : uint32 s.ff.size = s.ff.size.toNat := uint32_of_lt hsize.1 (by omega)
  unfold Fat.writeSector
  by_cases hskip : p % g.hwsectorsize = 0 ∧
      (g.hwsectorsize ≤ n ∨ uint32 s.ff.size ≤ uint32 (s.fpos + n))
  · obtain ⟨mid, hflush, hsame, hdirty⟩ := hs.fatFfcacheflush h
    have hcur' : mid.ff.currentsector = g.sectorOf l (p / g.hwsectorsize) :=
      (congrArg Place.currentsector hsame.place).trans hcur
    refine ⟨{ mid with ff := { mid.ff with cachesector := mid.ff.currentsector } }, ?_,
      hsame.kept.owns, hsame.place, hsame.head, hcur', fun k hk _ i hi => ?_,
      .inr ⟨hskip.1, hskip.2.imp id fun hle => ?_⟩⟩
    · rw [returns_get_bind_iff, if_pos hskip, hflush.bind_iff]
      exact returns_modify
    · rw [← hsame.view k hk i hi, view_of_clean hdirty]
    · omega
  · obtain ⟨mid, hread, hsame, hsector, hbuffer⟩ := hs.fatFfcacheread h (.inr ⟨_, hk, rfl⟩)
    refine ⟨mid, ?_, hsame.kept.owns, hsame.place, hsame.head, hsector, fun k' hk' hne i hi => ?_,
      .inl fun i hi => hbuffer _ hk rfl i hi⟩
    · rw [returns_get_bind_iff, if_neg hskip, hcur]
      exact hread
    · rw [← hsame.view k' hk' i hi, view, if_neg]
      rintro ⟨-, heq⟩
      refine hne (hs.owns.sectorOf_inj h hk' hk ?_)
      omega

theorem writeDirect (hs : Kept g P K l s) (h : g.Healthy) (ha : At g l (p / g.hwsectorsize) s.place)
    (halign : p % g.hwsectorsize = 0) (hclean : s.ff.valid = false)
    (hle : m ≤ s.ff.sectorsincluster) (data : List UInt8) :
    Written g l l s
      { s with
        fs := { s.fs with
          disk := s.fs.disk.blit (g.sectorOf l (p / g.hwsectorsize) * g.hwsectorsize)
            (m * g.hwsectorsize) (ofList data) }
        ff := { s.ff.advance m with modified := true } } p (m * g.hwsectorsize) data := by
  have hss := h.sectorsize_pos
  have hk := ha.lt h
  have hleft : s.ff.sectorsincluster =
    g.fatsecperclus - p / g.hwsectorsize % g.fatsecperclus := ha.left
  have hcluster := mod_lt (p / g.hwsectorsize) h.secperclus_pos
  have hdirty : s.ff.dirty = false := by
    cases hd : s.ff.dirty with
    | false => rfl
    | true =>
      rw [(hs.dirty hd).1] at hclean
      cases hclean
  refine ⟨fun j hj => ?_, fun q hq hout => ?_⟩
  · have hj' : j / g.hwsectorsize < m := (div_lt_iff_lt_mul hss).mpr hj
    rw [byte_add_of_aligned h halign, view_of_clean (by exact hdirty), Geo.sectorOf_add (by omega)]
    change s.fs.disk.blit _ _ _ _ = _
    rw [blit_blocks (Nat.mod_lt j hss), if_pos ⟨Nat.le_add_right _ _, Nat.add_lt_add_left hj' _⟩,
      Nat.add_sub_cancel_left, Nat.div_add_mod']
    rfl
  · have hq' := h.sector_lt hq
    rw [byte, byte, view_of_clean (by exact hdirty), view_of_clean hdirty]
    change s.fs.disk.blit _ _ _ _ = _
    rw [blit_blocks (mod_lt q hss), if_neg]
    rintro ⟨hge, hlt⟩
    -- the sector would be one of those that are written
    obtain ⟨j, hj⟩ := Nat.exists_eq_add_of_le hge
    have hsector : g.sectorOf l (p / g.hwsectorsize + j) = g.sectorOf l (p / g.hwsectorsize) + j :=
      Geo.sectorOf_add (by omega)
    have heq := hs.owns.sectorOf_inj h hq' (add_lt_of_lt hk (by omega))
      (hj.trans hsector.symm)
    have hqmod := div_add_mod' q g.hwsectorsize
    have hpmod := div_add_mod' p g.hwsectorsize
    have hqlt := mod_lt q hss
    have hjm : (j + 1) * g.hwsectorsize ≤ m * g.hwsectorsize := mul_le_mul_right _ (by omega)
    rw [heq, add_mul] at hqmod
    rw [add_mul] at hjm
    omega

theorem writeCached (s s' : Sys) (h : g.Healthy) {b : Bytes} {w : ℕ} {data : List UInt8}
    (ho : Owns g P K l s'.fs) (hk : p / g.hwsectorsize < l.length * g.fatsecperclus)
    (hdirty : s'.ff.dirty = true) (hvalid : s'.ff.valid = true)
    (hsector : s'.ff.cachesector = g.sectorOf l (p / g.hwsectorsize))
    (hbuffer : s'.ff.buffer = b.blit (p % g.hwsectorsize) w (ofList data))
    (hw : w = min (g.hwsectorsize - p % g.hwsectorsize) data.length)
    (hdisk : ∀ k < l.length * g.fatsecperclus, k ≠ p / g.hwsectorsize → ∀ i < g.hwsectorsize,
      s'.fs.disk (g.sectorOf l k * g.hwsectorsize + i) = s.view g l k i)
    (hb : (∀ i < g.hwsectorsize, b i = s.view g l (p / g.hwsectorsize) i) ∨
      p % g.hwsectorsize = 0 ∧ (g.hwsectorsize ≤ data.length ∨ s.ff.size ≤ p + data.length)) :
    Kept g P K l s' ∧ Written g l l s s' p w data := by
  have hss := h.sectorsize_pos
  have hview : ∀ i, s'.view g l (p / g.hwsectorsize) i =
      b.blit (p % g.hwsectorsize) w (ofList data) i := fun i => by
    rw [view, if_pos ⟨hdirty, hsector⟩, hbuffer]
  refine ⟨⟨ho, fun _ => ⟨hvalid, ?_⟩, fun _ => .inr ⟨_, hk, hsector⟩, fun _ hd => ?_⟩,
    fun j hj => ?_, fun q hq hout => ?_⟩
  · rw [hsector]
    exact h.sectorOf_ne_zero
  · rw [hdirty] at hd
    cases hd
  · rw [byte_add (by omega), hview, blit_of_inside (by omega) (by omega), Nat.add_sub_cancel_left]
    rfl
  · have hq' := h.sector_lt hq
    have hqlt := mod_lt q hss
    by_cases heq : q / g.hwsectorsize = p / g.hwsectorsize
    · have hqmod := div_add_mod' q g.hwsectorsize
      have hpmod := div_add_mod' p g.hwsectorsize
      rw [heq] at hqmod
      rw [byte, byte, heq, hview, blit_of_outside (by omega)]
      rcases hb with hread | ⟨halign, hend⟩
      · exact hread _ hqlt
      · -- nothing of the file is behind what is written
        omega
    · rw [byte, byte, ← hdisk _ hq' heq _ hqlt, view, if_neg]
      rintro ⟨-, hcur⟩
      refine heq (ho.sectorOf_inj h hq' hk ?_)
      omega

/-- **A turn of the loop of `fat_write`**: at least one byte is written, at the place where the file
is. -/
theorem writeTurn (hs : Kept g P K l s) (h : g.Healthy) {data : List UInt8}
    (ha : At g l (p / g.hwsectorsize) s.place) (hpos : s.fpos = p) (hp : p + data.length < 2 ^ 31)
    (hsize : 0 ≤ s.ff.size ∧ s.ff.size < 2 ^ 31) (hdata : 0 < data.length) :
    ∃ w s', 0 < w ∧ w ≤ data.length ∧ Call.Returns (writeTurn g data) s w s' ∧ Kept g P K l s' ∧
      s'.head = s.head ∧ Written g l l s s' p w data ∧ Located g l (p + w) s'.place := by
  have hss := h.sectorsize_pos
  have hk := ha.lt h
  have hmod := mod_lt p hss
  have hcur : s.ff.currentsector = g.sectorOf l (p / g.hwsectorsize) := ha.sector
  unfold Fat.writeTurn
  by_cases hdirect : 0 < data.length / g.hwsectorsize ∧ p % g.hwsectorsize = 0
  · obtain ⟨m, hm⟩ : ∃ m, min (data.length / g.hwsectorsize) s.ff.sectorsincluster = m := ⟨_, rfl⟩
    have hleftpos : 0 < s.ff.sectorsincluster := ha.left_pos h
    have hmpos : 0 < m := by omega
    have hmn : m * g.hwsectorsize ≤ data.length :=
      le_trans (mul_le_mul_right _ (by omega)) (div_mul_le_self _ g.hwsectorsize)
    have hleft : s.ff.sectorsincluster =
      g.fatsecperclus - p / g.hwsectorsize % g.fatsecperclus := ha.left
    obtain ⟨mid, hinv, hsame, hdirty, hvalid⟩ := hs.fatFfcacheinvalidate h
    have hkept := hsame.kept
    have hin := hkept.owns.inside h hk (m := m) (by omega)
    have hwrite := fatHwwrite_returns (ofList data) hkept.owns.cached.faults hin
    have hplace : s.place = mid.place := hsame.place.symm
    rw [hplace] at ha
    have hmleft : m ≤ mid.ff.sectorsincluster := by
      have heq : s.ff.sectorsincluster = mid.ff.sectorsincluster :=
        congrArg Place.sectorsincluster hplace
      omega
    have hwritten := hkept.writeDirect h ha hdirect.2 hvalid hmleft data
    refine ⟨m * g.hwsectorsize, _, Nat.mul_pos hmpos hss, hmn, ?_, ?_, ?_,
      ⟨hwritten.inside, fun q hq hout => ?_⟩, ?_⟩
    · rw [returns_get_bind_iff, hpos, h.sectorindex_eq (by omega), if_pos hdirect, hm,
        hinv.ignore.bind_iff, hcur, (returns_onFs hwrite).bind_iff]
      exact returns_pure
    · refine ⟨hkept.owns.blit h Geo.database_le_sectorOf _, hkept.dirty, hkept.valid, fun hv => ?_⟩
      rw [show mid.ff.valid = true from hv] at hvalid
      cases hvalid
    · exact hsame.head
    · have hsize' : mid.ff.size = s.ff.size := congrArg Head.size hsame.head
      rw [hwritten.outside q hq (by rw [hsize']; exact hout)]
      exact hsame.byte h hq
    · exact ha.located_advance h hkept.owns hmpos hmleft (by omega)
  · obtain ⟨mid, hsector, howns, hplace, hhead, hcache, hdisk, hbuffer⟩ :=
      hs.writeSector h ha hpos hp hsize
    obtain ⟨w, hw⟩ : ∃ w, min (g.hwsectorsize - p % g.hwsectorsize) data.length = w := ⟨_, rfl⟩
    have hw' := hw.symm
    obtain ⟨ff, hff, hcache', hhead', hloc⟩ : ∃ ff,
        (if data.length < g.hwsectorsize - p % g.hwsectorsize then mid.ff
          else mid.ff.advance 1) = ff ∧
        ff.cachesector = mid.ff.cachesector ∧ head { mid with ff := ff } = mid.head ∧
        Located g l (p + w) (place { mid with ff := ff }) := by
      rw [← hplace] at ha
      split_ifs with hpart
      · exact ⟨_, rfl, rfl, rfl, ha.located (by omega)⟩
      · exact ⟨_, rfl, rfl, rfl,
          ha.located_advance h howns one_pos (ha.left_pos h) (by omega)⟩
    obtain ⟨hkept, hwritten⟩ := writeCached s { mid with
        ff := { ff with
          buffer := mid.ff.buffer.blit (p % g.hwsectorsize) w (ofList data)
          dirty := true
          valid := true
          modified := true } } h howns hk rfl rfl (hcache'.trans hcache) rfl hw' hdisk hbuffer
    refine ⟨w, _, by omega, by omega, ?_, hkept, hhead'.trans hhead, hwritten, hloc⟩
    rw [returns_get_bind_iff, hpos, h.sectorindex_eq (by omega), if_neg hdirect,
      hsector.bind_iff, hw, ← hff]
    exact returns_pure

/-- **The loop of `fat_write`** writes the bytes; the file gets the clusters that it needs. -/
theorem writeLoop (h : g.Healthy) (hP : ∀ n, P n → g.database ≤ n) (fuel : ℕ) :
    ∀ (data : List UInt8) (p : ℕ) (l : List ℕ) (s : Sys), Kept g P K l s →
      Located g l p s.place → s.fpos = p → data.length < fuel →
      p + data.length ≤ K * g.clustersize → p + data.length < 2 ^ 31 →
      0 ≤ s.ff.size ∧ s.ff.size < 2 ^ 31 →
      ∃ l' s', Call.Returns (writeLoop g fuel data) s () s' ∧ Kept g P K l' s' ∧ l <+: l' ∧
        s'.head = { s.head with fpos := (p + data.length : ℕ) } ∧
        Located g l' (p + data.length) s'.place ∧
        Written g l l' s s' p data.length data := by
  induction fuel with
  | zero => exact fun data p l s _ _ _ hn => absurd hn (not_lt_zero _)
  | succ fuel ih =>
    intro data p l s hs hl hpos hn hp hsmall hsize
    unfold Fat.writeLoop
    rcases Nat.eq_zero_or_pos data.length with hzero | hdata
    · have hnil := length_eq_zero_iff.mp hzero
      refine ⟨l, s, ?_, hs, prefix_refl l, ?_, ?_, fun j hj => ?_, fun _ _ _ => rfl⟩
      · rw [if_pos hnil]
        exact returns_pure
      · rw [hzero, add_zero, ← hpos]
        rfl
      · rw [hzero]
        exact hl
      · omega
    · obtain ⟨l₁, s₁, hcluster, hmoved, ha⟩ := hs.writeCluster h hP hl (by omega)
      have hpos₁ : s₁.fpos = p := (congrArg Head.fpos hmoved.head).trans hpos
      have hsize₁ : s₁.ff.size = s.ff.size := congrArg Head.size hmoved.head
      obtain ⟨w, s₂, hwpos, hwn, hturn, hkept, hhead, hwritten, hl₂⟩ :=
        hmoved.kept.writeTurn h ha hpos₁ hsmall (by rw [hsize₁]; exact hsize) hdata
      have hpos₂ : s₂.fpos = p := (congrArg Head.fpos hhead).trans hpos₁
      have hsize₂ : s₂.ff.size = s.ff.size := (congrArg Head.size hhead).trans hsize₁
      have hfpos : int32 (s₂.fpos + w) = (p + w : ℕ) := by
        rw [int32_of_lt (by omega) (by omega)]
        omega
      have hdrop : (data.drop w).length = data.length - w := length_drop
      obtain ⟨l', s', hloop, hkept', hpre, hhead', hl', hwritten'⟩ := ih (data.drop w) (p + w) l₁
        { s₂ with fpos := int32 (s₂.fpos + w) } { hkept with }
        hl₂ hfpos (by omega) (by omega) (by omega) (by rw [← hsize₂] at hsize; exact hsize)
      have hend : p + w + (data.drop w).length = p + data.length := by omega
      rw [hend] at hhead' hl'
      have hlen : l.length * g.clustersize ≤ l₁.length * g.clustersize :=
        mul_le_mul_right _ hmoved.pre.length_le
      refine ⟨l', s', ?_, hkept', hmoved.pre.trans hpre, ?_, hl', fun j hj => ?_,
        fun q hq hout => ?_⟩
      · rw [if_neg fun hnil => by rw [hnil] at hdata; exact lt_irrefl 0 hdata,
          hcluster.bind_iff, hturn.bind_iff]
        exact hloop
      · rw [hhead', ← hmoved.head, ← hhead]
        rfl
      · rcases lt_or_ge j w with hlt | hge
        · -- written in this turn, and left alone by those after it
          have hle := hl₂.le h
          exact (hwritten'.outside (p + j) (by omega) (.inl (by omega))).trans
            (hwritten.inside j hlt)
        · have := hwritten'.inside (j - w) (by omega)
          rw [show p + w + (j - w) = p + j by omega, getD_eq_getElem?_getD,
            getElem?_drop, Nat.add_sub_cancel' hge] at this
          exact this
      · have hout₁ : q < p ∨ p + w ≤ q ∧ (q : ℤ) < s₁.ff.size := by omega
        have hout₂ : q < p + w ∨ p + w + (data.drop w).length ≤ q ∧ (q : ℤ) < s₂.ff.size := by omega
        calc s'.byte g l' q = s₂.byte g l₁ q := hwritten'.outside q (by omega) hout₂
          _ = s₁.byte g l₁ q := hwritten.outside q (by omega) hout₁
          _ = s.byte g l q := hmoved.byte h hq

end Kept

end GreenboneFeeder.Fat
