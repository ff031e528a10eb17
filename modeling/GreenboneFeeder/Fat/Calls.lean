import GreenboneFeeder.Fat.Transfer

/-!
# The calls on an open file

`fat_read`, `fat_write` and `fat_seek` keep the fields of an open file in agreement (`Fat.Sound`),
and do to its bytes what their names say.

There are two exceptions. Reading a file that has no cluster yet makes a sector current that is
none. And a seek behind the end of the file sets the current sector only before the size of the file
is changed, so it leaves the one from before; nothing is lost then only if no sector is current yet.
-/

namespace GreenboneFeeder.Fat

open Words Successors List Call Nat

variable {g : Geo} {P : ℕ → Prop} {K n p t c : ℕ} {l l' : List ℕ} {s s' : Sys} {pl : Place}

/-! ### An open file -/

/-- **No sector is current yet**, but the cluster of the position is known if there is one. -/
def Fresh (g : Geo) (l : List ℕ) (p : ℕ) (pl : Place) : Prop :=
  pl.currentsector = 0 ∧
    (l = [] ∨ l[p / g.hwsectorsize / g.fatsecperclus]? = some pl.currentcluster)

/-- **The fields of an open file agree**, with the chain of its clusters and with its position. -/
structure Sound (g : Geo) (P : ℕ → Prop) (K : ℕ) (l : List ℕ) (p : ℕ) (s : Sys) : Prop where
  kept : Kept g P K l s
  mounted : s.fs.mounted = true
  rdok : s.ff.rdok = true
  wrok : s.ff.wrok = true
  start : s.ff.startcluster = (l.headD 0 : ℕ)
  fpos : s.fpos = p
  le : (p : ℤ) ≤ s.ff.size
  size : s.ff.size ≤ (l.length * g.clustersize : ℕ)
  small : s.ff.size < 2 ^ 31
  located : Located g l p s.place ∨ Fresh g l p s.place

theorem headD_of_extends (hpre : l <+: l') (hl : l ≠ []) : l'.headD 0 = l.headD 0 := by
  obtain ⟨t, rfl⟩ := hpre
  cases l with
  | nil => exact absurd rfl hl
  | cons c l => rfl

theorem Located.ne_nil (hl : Located g l p pl) : l ≠ [] := by
  rintro rfl
  rcases hl with ha | ⟨-, hpast⟩
  · cases ha.cluster
  · cases hpast.cluster

theorem Located.currentsector_ne_zero (hl : Located g l p pl) (h : g.Healthy) :
    pl.currentsector ≠ 0 := by
  rcases hl with ha | ⟨-, hpast⟩
  · rw [ha.sector]
    exact h.sectorOf_ne_zero
  · exact hpast.sector

namespace Sound

theorem located_of_ne_zero (hs : Sound g P K l p s) (hcur : s.ff.currentsector ≠ 0) :
    Located g l p s.place :=
  hs.located.resolve_right fun hfresh => hcur hfresh.1

theorem fresh_of_eq_zero (hs : Sound g P K l p s) (h : g.Healthy)
    (hcur : s.ff.currentsector = 0) : Fresh g l p s.place :=
  hs.located.resolve_left fun hl => hl.currentsector_ne_zero h hcur

theorem eq_zero_of_nil (hs : Sound g P K [] p s) : p = 0 := by
  have hle := hs.le
  have hsize := hs.size
  rw [length_nil] at hsize
  omega

theorem startcluster_eq_zero (hs : Sound g P K l p s) : s.ff.startcluster = 0 ↔ l = [] := by
  rw [hs.start]
  cases l with
  | nil => exact iff_of_true rfl rfl
  | cons c l =>
    have hrange := hs.kept.owns.chain.range c mem_cons_self
    rw [headD_cons]
    exact iff_of_false (by omega) (cons_ne_nil c l)

theorem next (hs : Sound g P K l p s) (hkept : Kept g P K l' s') {z : ℤ}
    (hhead : s'.head = { s.head with
      size := z, startcluster := (l'.headD 0 : ℕ), fpos := (t : ℕ) }) (hle : (t : ℤ) ≤ z)
    (hsize : z ≤ (l'.length * g.clustersize : ℕ)) (hsmall : z < 2 ^ 31)
    (hloc : Located g l' t s'.place ∨ Fresh g l' t s'.place) : Sound g P K l' t s' := by
  have hz : s'.ff.size = z := congrArg Head.size hhead
  exact ⟨hkept, (congrArg Head.mounted hhead).trans hs.mounted,
    (congrArg Head.rdok hhead).trans hs.rdok, (congrArg Head.wrok hhead).trans hs.wrok,
    congrArg Head.startcluster hhead, congrArg Head.fpos hhead, hz ▸ hle, hz ▸ hsize, hz ▸ hsmall,
    hloc⟩

theorem head_eq (hs : Sound g P K l p s) :
    s.head = { s.head with startcluster := (l.headD 0 : ℕ) } := by
  rw [← hs.start]
  rfl

end Sound

/-! ### The current sector -/

theorem Geo.Healthy.sectoroffset_eq (h : g.Healthy) (hp : p < 2 ^ 31) :
    g.sectoroffset p = p / g.hwsectorsize % g.fatsecperclus := by
  obtain ⟨k, -, hk⟩ := h.secperclus
  have hdiv : Int.tdiv (p : ℤ) g.hwsectorsize = (p / g.hwsectorsize : ℕ) := Int.ofNat_tdiv p _
  have hlt : p / g.hwsectorsize < 2 ^ 32 :=
    lt_of_le_of_lt (div_le_self p _) (by omega)
  rw [Geo.sectoroffset, hdiv, uint32_natCast hlt, hk, and_low]

/-- **`fat_currentsector`** makes the sector of a position in the file the current one. -/
theorem Kept.fatCurrentsector (hs : Kept g P K l s) (h : g.Healthy) (hp : (p : ℤ) ≤ s.ff.size)
    (hsmall : p < 2 ^ 31)
    (hc : l[p / g.hwsectorsize / g.fatsecperclus]? = some s.ff.currentcluster) :
    ∃ s', Call.Returns (fatCurrentsector g p) s () s' ∧ Moved g P K l l s s' ∧
      At g l (p / g.hwsectorsize) s'.place := by
  obtain ⟨hc2, hcn⟩ := hs.owns.chain.range _ (mem_of_getElem? hc)
  have hk : p / g.hwsectorsize < l.length * g.fatsecperclus :=
    (div_lt_iff_lt_mul h.secperclus_pos).mp (List.getElem?_eq_some_iff.mp hc).1
  have hin := (hs.owns.inside_one h hk).2
  have hdevice := h.small
  have hsector : int32 (g.cluster2sector s.ff.currentcluster +
      (p / g.hwsectorsize % g.fatsecperclus : ℕ)) = g.sectorOf l (p / g.hwsectorsize) := by
    rw [Geo.sectorOf_eq hc] at hin ⊢
    rw [h.cluster2sector_eq hc2 hcn, int32_of_lt (by omega) (by omega)]
    omega
  refine ⟨{ s with
      ff := { s.ff with
        currentsector := g.sectorOf l (p / g.hwsectorsize)
        sectorsincluster := g.fatsecperclus - p / g.hwsectorsize % g.fatsecperclus } }, ?_,
    ⟨{ hs with }, prefix_refl l, rfl, fun _ _ _ _ => rfl⟩,
    hc, rfl, rfl⟩
  unfold Fat.fatCurrentsector
  rw [returns_get_bind_iff, if_pos hp, h.sectoroffset_eq hsmall, ← hsector]
  exact returns_modify

/-! ### Reading -/

theorem returns_fatCheckmount (hm : s.fs.mounted = true) :
    Call.Returns fatCheckmount s () s := by
  unfold fatCheckmount
  rw [returns_get_bind_iff, if_pos hm]
  exact returns_pure

variable (h : g.Healthy) (hP : ∀ n, P n → g.database ≤ n)

include h hP

/-- **`fat_read`** reads as many bytes as there are, and moves the file behind them. -/
theorem Sound.fatRead (hs : Sound g P K l p s) (hl : l ≠ []) (n : ℕ) :
    ∃ m s', m = min n (s.ff.size - p).toNat ∧
      Call.Returns (fatRead g n) s (s.bytes g l p m) s' ∧ Sound g P K l (p + m) s' ∧
      s'.ff.size = s.ff.size ∧ ∀ q < l.length * g.clustersize, s'.byte g l q = s.byte g l q := by
  have hle := hs.le
  have hsize := hs.size
  have hsmall := hs.small
  obtain ⟨m, hm⟩ : ∃ m, min n (s.ff.size - p).toNat = m := ⟨_, rfl⟩
  have hleft : uint32 (s.ff.size - s.fpos) = (s.ff.size - p).toNat := by
    rw [hs.fpos]
    exact uint32_of_lt (by omega) (by omega)
  -- the place that the loop starts from
  obtain ⟨mid, hmoved, hloc, hstart⟩ : ∃ mid, Moved g P K l l s mid ∧ Located g l p mid.place ∧
      ∀ out s', Call.Returns (readLoop g (m + 1) m []) mid out s' →
        Call.Returns (Fat.fatRead g n) s out s' := by
    unfold Fat.fatRead
    by_cases hcur : s.ff.currentsector = 0
    · obtain ⟨mid, hcurrent, hmoved, ha⟩ := hs.kept.fatCurrentsector h hle (by omega)
        ((hs.fresh_of_eq_zero h hcur).2.resolve_left hl)
      refine ⟨mid, hmoved, .inl ha, fun out s' hloop => ?_⟩
      rw [(returns_fatCheckmount hs.mounted).bind_iff, returns_get_bind_iff, if_pos hs.rdok,
        hleft, hm, if_pos hcur, hs.fpos, hcurrent.bind_iff]
      exact hloop
    · refine ⟨s, hs.kept.same.toMoved, hs.located_of_ne_zero hcur, fun out s' hloop => ?_⟩
      rw [(returns_fatCheckmount hs.mounted).bind_iff, returns_get_bind_iff, if_pos hs.rdok,
        hleft, hm, if_neg hcur]
      exact hloop
  have hpos : mid.fpos = p := (congrArg Head.fpos hmoved.head).trans hs.fpos
  obtain ⟨s', hloop, hkept, hhead, hloc', hbyte⟩ := Kept.readLoop h hP (m + 1) m p [] mid
    hmoved.kept hloc hpos (lt_succ_self m) (by omega) (by omega)
  rw [hmoved.head] at hhead
  rw [hmoved.bytes h (by omega)] at hloop
  refine ⟨m, s', hm.symm, hstart _ _ hloop, hs.next hkept ?_ (by omega) hsize
    hsmall (.inl hloc'), congrArg Head.size hhead,
    fun q hq => (hbyte q hq).trans (hmoved.byte h hq)⟩
  rw [hhead, hs.head_eq]
  rfl

/-! ### Writing -/

/-- The first sector to write to is the current one; a file without clusters gets one. -/
theorem Sound.writeStart (hs : Sound g P K l p s) (hK : 0 < K) :
    ∃ l' s', Call.Returns (writeStart g) s () s' ∧ Kept g P K l' s' ∧ l <+: l' ∧
      s'.head = { s.head with startcluster := (l'.headD 0 : ℕ) } ∧ Located g l' p s'.place ∧
      ∀ q < l.length * g.clustersize, s'.byte g l' q = s.byte g l q := by
  have hle := hs.le
  have hsmall := hs.small
  unfold Fat.writeStart
  by_cases hcur : s.ff.currentsector = 0
  · have hfresh := hs.fresh_of_eq_zero h hcur
    rcases eq_or_ne l [] with rfl | hl
    · -- the file gets its first cluster
      obtain rfl := hs.eq_zero_of_nil
      obtain ⟨d, fs', hcreate, howns, hleaves⟩ := hs.kept.owns.fatCreatechain h hP hK
      have hd := howns.chain.range d mem_cons_self
      have hbound := lt_of_lt_of_le h.last h.two_pow_bits_le
      have hmoved := hs.kept.onFs h howns hleaves nil_prefix
      have hkept := hmoved.kept
      have hkept' : Kept g P K [d] { s with
          fs := fs'
          ff := { s.ff with
            startcluster := d, currentcluster := d, sectorsincluster := g.fatsecperclus } } :=
        { hkept with }
      have hfirst : [d][0 / g.hwsectorsize / g.fatsecperclus]? = some d := by
        rw [Nat.zero_div, Nat.zero_div]
        rfl
      obtain ⟨s', hcurrent, hmoved', ha⟩ := hkept'.fatCurrentsector h hle (by omega) hfirst
      rw [← hs.fpos] at hcurrent
      refine ⟨[d], s', ?_, hmoved'.kept, nil_prefix, ?_, .inl ha, fun q hq => ?_⟩
      · rw [returns_get_bind_iff, if_pos hcur, if_pos (hs.startcluster_eq_zero.mpr rfl),
          (returns_onFs hcreate).number.bind_iff, uint32_natCast (by omega)]
        exact hcurrent
      · rw [hmoved'.head]
        exact congrArg (fun x : Head => { x with startcluster := (d : ℤ) }) hmoved.head
      · rw [length_nil, zero_mul] at hq
        exact absurd hq (not_lt_zero q)
    · obtain ⟨s', hcurrent, hmoved, ha⟩ := hs.kept.fatCurrentsector h hle (by omega)
        (hfresh.2.resolve_left hl)
      refine ⟨l, s', ?_, hmoved.kept, prefix_refl l, hmoved.head.trans hs.head_eq, .inl ha,
        fun q hq => hmoved.byte h hq⟩
      rw [returns_get_bind_iff, if_pos hcur,
        if_neg fun hzero => hl (hs.startcluster_eq_zero.mp hzero), hs.fpos]
      exact hcurrent
  · refine ⟨l, s, ?_, hs.kept, prefix_refl l, hs.head_eq, hs.located_of_ne_zero hcur,
      fun _ _ => rfl⟩
    rw [returns_get_bind_iff, if_neg hcur]
    exact returns_pure

/-- **`fat_write`** writes the bytes, and moves the file behind them. -/
theorem Sound.fatWrite (hs : Sound g P K l p s)
    (hK : 0 < K) {data : List UInt8} (hfit : p + data.length ≤ K * g.clustersize)
    (hsmall : p + data.length < 2 ^ 31) :
    ∃ l' s', Call.Returns (fatWrite g data) s data.length s' ∧
      Sound g P K l' (p + data.length) s' ∧ s'.ff.size = max s.ff.size (p + data.length : ℕ) ∧
      Written g l l' s s' p data.length data := by
  have hle := hs.le
  have hsize := hs.size
  have hsize' := hs.small
  obtain ⟨l₁, s₁, hstart, hkept₁, hpre₁, hhead₁, hloc₁, hbyte₁⟩ := hs.writeStart h hP hK
  have hpos₁ : s₁.fpos = p := (congrArg Head.fpos hhead₁).trans hs.fpos
  have hsize₁ : s₁.ff.size = s.ff.size := congrArg Head.size hhead₁
  obtain ⟨l', s₂, hloop, hkept₂, hpre₂, hhead₂, hloc₂, hwritten⟩ :=
    Kept.writeLoop h hP (data.length + 1) data p l₁ s₁ hkept₁ hloc₁ hpos₁ (lt_succ_self _) hfit
      hsmall (by omega)
  have hpos₂ : s₂.fpos = (p + data.length : ℕ) := congrArg Head.fpos hhead₂
  have hsize₂ : s₂.ff.size = s.ff.size := (congrArg Head.size hhead₂).trans hsize₁
  have hhead : s₂.head = { s.head with
      startcluster := (l'.headD 0 : ℕ), fpos := (p + data.length : ℕ) } := by
    rw [hhead₂, hhead₁, headD_of_extends hpre₂ hloc₁.ne_nil]
  have hend := hloc₂.le h
  have hlen : l.length * g.clustersize ≤ l'.length * g.clustersize :=
    mul_le_mul_right _ (hpre₁.trans hpre₂).length_le
  have hlen₁ : l.length * g.clustersize ≤ l₁.length * g.clustersize :=
    mul_le_mul_right _ hpre₁.length_le
  have hrange : ¬ uint32 (s.ff.size + data.length) < uint32 s.ff.size := by
    rw [uint32_of_lt (by omega) (by omega), uint32_of_lt (by omega) (by omega)]
    omega
  have hreturns : Call.Returns (Fat.fatWrite g data) s data.length
      (if s₂.ff.size < s₂.fpos then { s₂ with ff := { s₂.ff with size := s₂.fpos } } else s₂) := by
    unfold Fat.fatWrite
    rw [(returns_fatCheckmount hs.mounted).bind_iff, returns_get_bind_iff, if_pos hs.wrok,
      if_neg hrange, hstart.bind_iff, hloop.bind_iff]
    exact returns_pure
  have hbyte : Written g l l' s s₂ p data.length data :=
    ⟨hwritten.inside, fun q hq hout => by
      rw [hwritten.outside q (by omega) (by rw [hsize₁]; exact hout), hbyte₁ q hq]⟩
  refine ⟨l', _, hreturns, ?_⟩
  by_cases hgrow : s₂.ff.size < s₂.fpos
  · rw [if_pos hgrow]
    refine ⟨hs.next { hkept₂ with } (z := s₂.fpos) ?_
      (by omega) (by omega) (by omega) (.inl hloc₂), ?_, hbyte.inside, hbyte.outside⟩
    · exact congrArg (fun x : Head => { x with size := s₂.fpos }) hhead
    · change s₂.fpos = _
      omega
  · rw [if_neg hgrow]
    refine ⟨hs.next hkept₂ (z := s.ff.size) hhead (by omega) (by omega) (by omega)
      (.inl hloc₂), ?_, hbyte⟩
    omega

/-! ### Seeking -/

/-- **The loop of `fat_seek`** goes to the cluster of the position; the file gets the clusters up to
it. -/
theorem Kept.seekLoop (fuel : ℕ) :
    ∀ (i t c : ℕ) (l : List ℕ) (s : Sys), Kept g P K l s → l[i]? = some c →
      s.ff.wrok = true → s.fpos = (i * g.clustersize : ℕ) → t / g.clustersize < fuel →
      i + t / g.clustersize < K → i * g.clustersize + t < 2 ^ 31 →
      ∃ l' s', Call.Returns (seekLoop g fuel c t) s (t % g.clustersize : ℕ) s' ∧
        Kept g P K l' s' ∧ l <+: l' ∧
        l'[i + t / g.clustersize]? = some s'.ff.currentcluster ∧
        s'.head = { s.head with fpos := ((i + t / g.clustersize) * g.clustersize : ℕ) } ∧
        s'.ff.currentsector = s.ff.currentsector ∧
        ∀ q < l.length * g.clustersize, s'.byte g l' q = s.byte g l q := by
  have hcs : 0 < g.clustersize := Nat.mul_pos h.secperclus_pos h.sectorsize_pos
  induction fuel with
  | zero => exact fun i t c l s _ _ _ _ hfuel => absurd hfuel (not_lt_zero _)
  | succ fuel ih =>
    intro i t c l s hs hc hwrok hpos hfuel hK hsmall
    unfold Fat.seekLoop
    have hs' : Kept g P K l { s with ff := { s.ff with currentcluster := c } } :=
      { hs with }
    have hposition : uint32 (t : ℤ) = t := uint32_natCast (by omega)
    by_cases hlt : t < g.clustersize
    · refine ⟨l, _, ?_, hs', prefix_refl l, ?_, ?_, rfl, fun _ _ => rfl⟩
      · rw [if_pos (by rw [hposition]; exact hlt), mod_eq_of_lt hlt]
        exact returns_pure
      · rw [div_eq_of_lt hlt]
        exact hc
      · rw [div_eq_of_lt hlt, add_zero, ← hpos]
        rfl
    · have hdiv : t / g.clustersize = (t - g.clustersize) / g.clustersize + 1 := by
        rw [← Nat.add_div_right _ hcs, Nat.sub_add_cancel (by omega)]
      have hmod : t % g.clustersize = (t - g.clustersize) % g.clustersize :=
        mod_eq_sub_mod (by omega)
      have hone : 0 < t / g.clustersize := div_pos (by omega) hcs
      obtain ⟨d, l₁, fs₁, hextend, howns, hleaves, hpre, hd⟩ :=
        hs.owns.fatExtendchain h hP hc (by omega)
      have hdrange := howns.chain.range d (mem_of_getElem? hd)
      have hmoved := hs'.onFs h howns hleaves hpre
      have hkept := hmoved.kept
      have hfpos : int32 (s.fpos + g.clustersize) = ((i + 1) * g.clustersize : ℕ) := by
        rw [add_mul, int32_of_lt (by omega) (by omega)]
        omega
      obtain ⟨l', s', hloop, hkept', hpre', hcur', hhead', hsector', hbyte'⟩ := ih (i + 1)
        (t - g.clustersize) d l₁
        { s with
          fs := fs₁, ff := { s.ff with currentcluster := c }
          fpos := int32 (s.fpos + g.clustersize) }
        { hkept with } hd hwrok hfpos (by omega) (by omega)
        (by rw [add_mul]; omega)
      have hindex : i + 1 + (t - g.clustersize) / g.clustersize = i + t / g.clustersize := by omega
      rw [hindex] at hcur' hhead'
      refine ⟨l', s', ?_, hkept', hpre.trans hpre', hcur', ?_, hsector', fun q hq => ?_⟩
      · have hrest : int32 ((t : ℤ) - g.clustersize) = (t - g.clustersize : ℕ) := by
          rw [int32_of_lt (by omega) (by omega)]
          omega
        rw [modifyFf, returns_modify_bind_iff, if_neg (by rw [hposition]; exact hlt),
          returns_get_bind_iff, if_pos hwrok,
          (returns_onFs (s := { s with ff := { s.ff with currentcluster := c } }) hextend).bind_iff,
          if_neg (by omega), if_neg (by omega), ← Geo.clustersize, hrest, hmod]
        exact hloop
      · rw [hhead']
        exact congrArg (fun x : Head =>
          { x with fpos := ((i + t / g.clustersize) * g.clustersize : ℕ) }) hmoved.head
      · have hlen : l.length * g.clustersize ≤ l₁.length * g.clustersize :=
          mul_le_mul_right _ hpre.length_le
        exact (hbyte' q (by omega)).trans (hmoved.byte h hq)

omit h hP in
theorem Geo.div_clustersize (g : Geo) (t : ℕ) :
    t / g.clustersize = t / g.hwsectorsize / g.fatsecperclus := by
  rw [Geo.clustersize, Nat.mul_comm, Nat.div_div_eq_div_mul]

/-- **The file is moved to a position**, from its first cluster on. Behind the end of the file, the
current sector is left as it was. -/
theorem Kept.seekChain (hs : Kept g P K l s)
    (hc : l.head? = some c) (hwrok : s.ff.wrok = true) (hpos : s.fpos = 0)
    (hK : t / g.clustersize < K) (hsmall : t < 2 ^ 31)
    (hsafe : s.ff.size < t → s.ff.currentsector = 0) :
    ∃ l' s', Call.Returns (seekChain g c t) s () s' ∧ Kept g P K l' s' ∧ l <+: l' ∧
      s'.head = { s.head with fpos := (t : ℕ) } ∧
      (At g l' (t / g.hwsectorsize) s'.place ∨ Fresh g l' t s'.place) ∧
      t / g.clustersize < l'.length ∧
      ∀ q < l.length * g.clustersize, s'.byte g l' q = s.byte g l q := by
  have hfirst : l[0]? = some c := by rw [← List.head?_eq_getElem?, hc]
  obtain ⟨l', s₁, hloop, hkept, hpre, hcur, hhead, hsector, hbyte⟩ := Kept.seekLoop h hP
    (t / g.clustersize + 1) 0 t c l s hs hfirst hwrok (by rw [hpos, zero_mul]; rfl)
    (lt_succ_self _) (by omega) (by omega)
  rw [zero_add] at hcur hhead
  have hlen := (List.getElem?_eq_some_iff.mp hcur).1
  have hsplit := div_add_mod' t g.clustersize
  have hfpos₁ : s₁.fpos = (t / g.clustersize * g.clustersize : ℕ) := congrArg Head.fpos hhead
  have hfpos : int32 (s₁.fpos + (t % g.clustersize : ℕ)) = t := by
    rw [int32_of_lt (by omega) (by omega)]
    omega
  have hsize₁ : s₁.ff.size = s.ff.size := congrArg Head.size hhead
  have hkept₂ : Kept g P K l' { s₁ with fpos := (t : ℕ) } :=
    { hkept with }
  have hindex : l'[t / g.hwsectorsize / g.fatsecperclus]? = some s₁.ff.currentcluster := by
    rw [← g.div_clustersize]
    exact hcur
  -- the current sector is set, or none is current
  obtain ⟨s₂, hcurrent, hmoved, hplace⟩ : ∃ s₂,
      Call.Returns (ignore (Fat.fatCurrentsector g t)) { s₁ with fpos := (t : ℕ) } () s₂ ∧
      Moved g P K l' l' { s₁ with fpos := (t : ℕ) } s₂ ∧
      (At g l' (t / g.hwsectorsize) s₂.place ∨ Fresh g l' t s₂.place) := by
    by_cases hle : (t : ℤ) ≤ s₁.ff.size
    · obtain ⟨s₂, hcurrent, hmoved, ha⟩ := hkept₂.fatCurrentsector h hle hsmall hindex
      exact ⟨s₂, hcurrent.ignore, hmoved, .inl ha⟩
    · refine ⟨_, returns_ignore_of_error (e := -enospc) ?_, hkept₂.same.toMoved,
        .inr ⟨?_, .inr hindex⟩⟩
      · have hget : Call.Returns get { s₁ with fpos := (t : ℕ) } _ _ := rfl
        unfold Fat.fatCurrentsector
        rw [hget.bind_eq, if_neg hle]
        rfl
      · exact hsector.trans (hsafe (by omega))
  have hhead₂ : s₂.head = { s.head with fpos := (t : ℕ) } := by
    rw [hmoved.head]
    exact congrArg (fun x : Head => { x with fpos := (t : ℤ) }) hhead
  -- the sector is put into the cache if the position is inside of it
  obtain ⟨s₃, hload, hsame⟩ : ∃ s₃,
      Call.Returns (if g.sectorindex (t % g.clustersize : ℕ) ≠ 0 then do
        let s ← get
        Fat.fatFfcacheread g s.ff.currentsector
      else pure ()) s₂ () s₃ ∧ Same g P K l' s₂ s₃ := by
    by_cases hindex : g.sectorindex (t % g.clustersize : ℕ) ≠ 0
    · obtain ⟨sector, hsector, hcases⟩ : ∃ sector : ℕ, s₂.ff.currentsector = sector ∧
          (sector = 0 ∨ ∃ k < l'.length * g.fatsecperclus, sector = g.sectorOf l' k) := by
        rcases hplace with ha | hfresh
        · exact ⟨_, ha.sector, .inr ⟨_, ha.lt h, rfl⟩⟩
        · exact ⟨0, hfresh.1, .inl rfl⟩
      obtain ⟨s₃, hread, hsame, -⟩ := hmoved.kept.fatFfcacheread h hcases
      refine ⟨s₃, ?_, hsame⟩
      rw [if_pos hindex, returns_get_bind_iff, hsector]
      exact hread
    · refine ⟨s₂, ?_, hmoved.kept.same⟩
      rw [if_neg hindex]
      exact returns_pure
  have hbytes : ∀ q < l.length * g.clustersize, s₃.byte g l' q = s.byte g l q := by
    intro q hq
    have hq' : q < l'.length * g.clustersize :=
      lt_of_lt_of_le hq (mul_le_mul_right _ hpre.length_le)
    rw [hsame.byte h hq', hmoved.byte h hq']
    exact hbyte q hq
  refine ⟨l', s₃, ?_, hsame.kept, hpre, hsame.head.trans hhead₂, ?_, hlen, hbytes⟩
  · unfold Fat.seekChain
    dsimp only
    have hturns : uint32 (t : ℤ) / (g.fatsecperclus * g.hwsectorsize) + 1 =
        t / g.clustersize + 1 := by
      rw [uint32_natCast (by omega)]
      rfl
    rw [hturns, hloop.bind_iff, returns_modify_bind_iff, hfpos, returns_get_bind_iff,
      hcurrent.bind_iff]
    exact hload
  · rw [hsame.place]
    exact hplace

omit h hP in
theorem Sound.seekEnd (hs : Sound g P K l p s) (hkept : Kept g P K l' s')
    (hhead : s'.head = { s.head with startcluster := (l'.headD 0 : ℕ), fpos := (t : ℕ) })
    (hloc : Located g l' t s'.place ∨ Fresh g l' t s'.place)
    (hpre : l <+: l') (hlen : t ≤ l'.length * g.clustersize) (hsmall : t < 2 ^ 31) :
    ∃ s'', Call.Returns seekEnd s' () s'' ∧ Sound g P K l' t s'' ∧
      s''.ff.size = max s.ff.size t ∧ ∀ q, s''.byte g l' q = s'.byte g l' q := by
  have hpos : s'.fpos = t := congrArg Head.fpos hhead
  have hsize : s'.ff.size = s.ff.size := congrArg Head.size hhead
  have hwrok : s'.ff.wrok = true := (congrArg Head.wrok hhead).trans hs.wrok
  have hsize' := hs.size
  have hlen' : l.length * g.clustersize ≤ l'.length * g.clustersize :=
    mul_le_mul_right _ hpre.length_le
  have hold := hs.small
  refine ⟨_, returns_modify, ?_⟩
  by_cases hgrow : s'.ff.size < s'.fpos
  · rw [if_pos ⟨hwrok, hgrow⟩]
    refine ⟨hs.next { hkept with } (z := s'.fpos) ?_ (by omega)
      (by omega) (by omega) hloc, ?_, fun _ => rfl⟩
    · exact congrArg (fun x : Head => { x with size := s'.fpos }) hhead
    · change s'.fpos = _
      omega
  · rw [if_neg fun hand => hgrow hand.2]
    refine ⟨hs.next hkept (z := s.ff.size) hhead (by omega) (by omega) hold hloc, ?_,
      fun _ => rfl⟩
    omega

theorem Sound.seekTo {l₁ : List ℕ} {s₁ : Sys} (hs : Sound g P K l p s)
    (hkept : Kept g P K l₁ s₁) (hpre : l <+: l₁) (hc : l₁.head? = some c)
    (hhead : s₁.head = { s.head with startcluster := (l₁.headD 0 : ℕ), fpos := 0 })
    (hK : t / g.clustersize < K) (hsmall : t < 2 ^ 31)
    (hsafe : s.ff.size < t → s₁.ff.currentsector = 0) :
    ∃ l' s', Call.Returns (seekChain g c t >>= fun _ => Fat.seekEnd) s₁ () s' ∧
      Sound g P K l' t s' ∧ s'.ff.size = max s.ff.size t ∧
      ∀ q < l₁.length * g.clustersize, s'.byte g l' q = s₁.byte g l₁ q := by
  have hcs : 0 < g.clustersize := Nat.mul_pos h.secperclus_pos h.sectorsize_pos
  have hsize : s₁.ff.size = s.ff.size := congrArg Head.size hhead
  have hwrok : s₁.ff.wrok = true := (congrArg Head.wrok hhead).trans hs.wrok
  obtain ⟨l', s₂, hchain, hkept₂, hpre₂, hhead₂, hplace, hlen, hbyte⟩ :=
    hkept.seekChain h hP hc hwrok (congrArg Head.fpos hhead) hK hsmall (by rw [hsize]; exact hsafe)
  have hne : l₁ ≠ [] := by
    rintro rfl
    cases hc
  have hhead' : s₂.head = { s.head with startcluster := (l'.headD 0 : ℕ), fpos := (t : ℕ) } := by
    rw [hhead₂, hhead, headD_of_extends hpre₂ hne]
  have hle : t ≤ l'.length * g.clustersize :=
    le_of_lt ((div_lt_iff_lt_mul hcs).mp hlen)
  obtain ⟨s', hend, hsound, hmax, hbyte'⟩ := hs.seekEnd hkept₂ hhead' (hplace.imp .inl id)
    (hpre.trans hpre₂) hle hsmall
  refine ⟨l', s', ?_, hsound, hmax, fun q hq => (hbyte' q).trans (hbyte q hq)⟩
  rw [hchain.bind_iff]
  exact hend

/-- **`fat_seek`** sets the position. The size of the file is extended to it. -/
theorem Sound.fatSeek (hs : Sound g P K l p s)
    {offset : ℤ} {whence : Whence} (htarget : s.target offset whence = (t : ℕ))
    (hsmall : t < 2 ^ 31) (hK : 0 < t → t / g.clustersize < K)
    (hsafe : s.ff.size < t → s.ff.currentsector = 0) :
    ∃ l' s', Call.Returns (fatSeek g offset whence) s () s' ∧ Sound g P K l' t s' ∧
      s'.ff.size = max s.ff.size t ∧
      ∀ q < l.length * g.clustersize, s'.byte g l' q = s.byte g l q := by
  obtain ⟨mid, hflush, hsame, -⟩ := hs.kept.fatFfcacheflush h
  have hkept := hsame.kept
  -- the file is moved to its start
  obtain ⟨s₁, hs₁⟩ : ∃ s₁ : Sys, { mid with
      fpos := 0, ff := { mid.ff with sectorsincluster := g.fatsecperclus } } = s₁ := ⟨_, rfl⟩
  have hkept₁ : Kept g P K l s₁ := by
    rw [← hs₁]
    exact { hkept with }
  have hhead₁ : s₁.head = { s.head with startcluster := (l.headD 0 : ℕ), fpos := 0 } := by
    rw [← hs₁, ← hs.start]
    exact congrArg (fun x : Head => { x with fpos := 0 }) hsame.head
  have hcur₁ : s₁.ff.currentsector = s.ff.currentsector := by
    rw [← hs₁]
    exact congrArg Place.currentsector hsame.place
  have hbyte₁ : ∀ q < l.length * g.clustersize, s₁.byte g l q = s.byte g l q := by
    rw [← hs₁]
    exact fun q hq => hsame.byte h hq
  have hposition : (if s.ff.size < s.target offset whence ∧ s.ff.wrok = false then s.ff.size
      else s.target offset whence) = (t : ℕ) := by
    rw [hs.wrok, if_neg fun hand => Bool.noConfusion hand.2, htarget]
  unfold Fat.fatSeek
  simp only [returns_get_bind_iff, (returns_fatCheckmount hs.mounted).bind_iff,
    hflush.bind_iff, hposition, returns_modify_bind_iff, hs₁]
  rcases eq_or_ne l [] with rfl | hl
  · have hstart : s.ff.startcluster = 0 := hs.startcluster_eq_zero.mpr rfl
    have hcur : s.ff.currentsector = 0 :=
      (hs.located.resolve_left fun hloc => hloc.ne_nil rfl).1
    rcases Nat.eq_zero_or_pos t with rfl | hpos
    · -- the file stays empty
      obtain ⟨s', hend, hsound, hmax, hbyte⟩ := hs.seekEnd hkept₁ hhead₁
        (.inr ⟨hcur₁.trans hcur, .inl rfl⟩) (prefix_refl []) (zero_le _) hsmall
      refine ⟨[], s', ?_, hsound, hmax, fun q hq => (hbyte q).trans (hbyte₁ q hq)⟩
      rw [if_neg fun hand => (Int.lt_irrefl 0 hand.2), if_neg fun hne => hne hstart]
      exact hend
    · -- the file gets its first cluster
      obtain ⟨d, fs', hcreate, howns, hleaves⟩ :=
        hkept₁.owns.fatCreatechain h hP (zero_lt_of_lt (hK hpos))
      have hd := howns.chain.range d mem_cons_self
      have hmoved := hkept₁.onFs h howns hleaves nil_prefix
      have hkept₂ : Kept g P K [d]
          { s₁ with fs := fs', ff := { s₁.ff with startcluster := d } } :=
        { hmoved.kept with }
      have hhead₂ : Sys.head { s₁ with fs := fs', ff := { s₁.ff with startcluster := d } } =
          { s.head with startcluster := (d : ℕ), fpos := 0 } := by
        refine (congrArg (fun x : Head => { x with startcluster := (d : ℤ) }) hmoved.head).trans ?_
        rw [hhead₁]
      obtain ⟨l', s', hseek, hsound, hmax, hbyte⟩ := hs.seekTo h hP hkept₂
        nil_prefix rfl hhead₂ (hK hpos) hsmall fun _ => hcur₁.trans hcur
      refine ⟨l', s', ?_, hsound, hmax, fun q hq => ?_⟩
      · rw [if_pos ⟨hstart, by omega⟩, (returns_onFs hcreate).bind_iff, if_pos (by omega)]
        exact hseek
      · rw [length_nil, zero_mul] at hq
        exact absurd hq (not_lt_zero q)
  · have hstart : s.ff.startcluster ≠ 0 := fun hzero => hl (hs.startcluster_eq_zero.mp hzero)
    obtain ⟨c, l₀, rfl⟩ := exists_cons_of_ne_nil hl
    have hc := hs.kept.owns.chain.range c mem_cons_self
    have hbound := lt_of_lt_of_le h.last h.two_pow_bits_le
    have hroom : t / g.clustersize < K := by
      rcases Nat.eq_zero_or_pos t with rfl | hpos
      · have hlen := hs.kept.owns.room
        rw [length_cons] at hlen
        rw [Nat.zero_div]
        omega
      · exact hK hpos
    obtain ⟨l', s', hseek, hsound, hmax, hbyte⟩ := hs.seekTo h hP hkept₁ (prefix_refl _)
      rfl hhead₁ hroom hsmall fun hlt => hcur₁.trans (hsafe hlt)
    refine ⟨l', s', ?_, hsound, hmax, fun q hq => (hbyte q hq).trans (hbyte₁ q hq)⟩
    have hcluster : uint32 s.ff.startcluster = c := by
      rw [hs.start, headD_cons, uint32_natCast (by omega)]
    rw [if_neg fun hand => hstart hand.1, if_pos hstart, hcluster]
    exact hseek

end GreenboneFeeder.Fat
