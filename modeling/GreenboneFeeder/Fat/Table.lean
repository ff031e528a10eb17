import GreenboneFeeder.Fat.Model

/-!
# The entries of the FAT

The file allocation table as it is seen through the cache of the mountpoint (`Fat.Fs.fat`), and the
number that an entry stands for in each format (`Fat.entry`). Reading an entry changes neither
(`Fat.fatGetcluster_spec`), and writing one changes only this one (`Fat.fatPutcluster_spec`), also
when it shares a byte with its neighbour or lies in two sectors. A set of sectors is not touched
when the cache is written back as long as the cached sector is none of them (`Fat.Cached`).
-/

namespace GreenboneFeeder.Fat

open Nat

open Words Call Bytes UInt8

/-! ### Healthy volumes -/

/-- The number of bits of an entry. -/
def Fstype.bits : Fstype → ℕ
  | .fat12 => 12
  | .fat16 => 16
  | .fat32 => 28

/-- The number of bytes of the FAT that the entries of so many clusters take. -/
def Fstype.bytes (n : ℕ) : Fstype → ℕ
  | .fat12 => (3 * n + 1) / 2
  | .fat16 => 2 * n
  | .fat32 => 4 * n

/-- **A volume as it should be**: sectors and clusters of a power of two, first the copies of the
FAT, then the data, all on the device, and room in the FAT for all clusters. -/
structure Geo.Healthy (g : Geo) : Prop where
  sectorsize : ∃ k, g.hwsectorsize = 2 ^ (k + 2)
  secperclus : ∃ k ≤ 7, g.fatsecperclus = 2 ^ k
  numfats : 0 < g.fatnumfats
  fatbase : 0 < g.fatbase
  database : g.fatbase + g.fatnumfats * g.nfatsects ≤ g.database
  clusters : 2 ≤ g.nclusters
  sectors : g.database + (g.nclusters - 2) * g.fatsecperclus ≤ g.hwnsectors
  small : g.hwnsectors < 2 ^ 31
  fits : g.fstype.bytes g.nclusters ≤ g.nfatsects * g.hwsectorsize
  last : g.nclusters < 2 ^ g.fstype.bits

section

variable {g : Geo}

namespace Geo.Healthy

theorem sectorsize_pos (h : g.Healthy) : 0 < g.hwsectorsize := by
  obtain ⟨k, hk⟩ := h.sectorsize
  rw [hk]
  exact Nat.two_pow_pos _

theorem secperclus_pos (h : g.Healthy) : 0 < g.fatsecperclus := by
  obtain ⟨k, -, hk⟩ := h.secperclus
  rw [hk]
  exact Nat.two_pow_pos _

theorem four_dvd (h : g.Healthy) : 4 ∣ g.hwsectorsize := by
  obtain ⟨k, hk⟩ := h.sectorsize
  exact ⟨2 ^ k, by rw [hk, Nat.pow_add, Nat.mul_comm]⟩

theorem secNdx_eq (h : g.Healthy) (n : ℕ) : g.secNdx n = n % g.hwsectorsize := by
  obtain ⟨k, hk⟩ := h.sectorsize
  rw [Geo.secNdx, hk, and_two_pow_sub_one_eq_mod]

variable {n : ℕ}

theorem inside_fat (h : g.Healthy) (hn : n < g.nfatsects) :
    g.Inside (g.fatbase + n : ℕ) 1 := by
  have hnumfats := h.numfats
  have hdatabase := h.database
  have hsectors := h.sectors
  have hone : g.nfatsects ≤ g.fatnumfats * g.nfatsects := Nat.le_mul_of_pos_left _ hnumfats
  exact ⟨by omega, by omega⟩

end Geo.Healthy

end

/-! ### The FAT, seen through the cache -/

variable (g : Geo)

/-- **A byte of the FAT**, from the cache if it is there. -/
def Fs.fat (fs : Fs) : Bytes := fun x =>
  if fs.currentsector = (g.fatbase + x / g.hwsectorsize : ℕ) then
    fs.buffer (x % g.hwsectorsize)
  else fs.disk ((g.fatbase + x / g.hwsectorsize) * g.hwsectorsize + x % g.hwsectorsize)

/-- **The cache is sound**: a clean sector of the FAT is the one on the disk, and a dirty sector is
not one of those to be left alone. -/
structure Cached (P : ℕ → Prop) (fs : Fs) : Prop where
  faults : fs.faults = []
  clean : fs.dirty = false → ∀ n < g.nfatsects, fs.currentsector = (g.fatbase + n : ℕ) →
    ∀ i < g.hwsectorsize, fs.buffer i = fs.disk ((g.fatbase + n) * g.hwsectorsize + i)
  inside : fs.dirty = true → g.Inside fs.currentsector 1
  apart : fs.dirty = true → ∀ n, P n → fs.currentsector ≠ n

/-- **What the cache leaves alone**: the FAT, the sectors of the set, and the other fields. -/
structure Keeps (P : ℕ → Prop) (fs fs' : Fs) : Prop where
  fat : ∀ x < g.nfatsects * g.hwsectorsize, fs'.fat g x = fs.fat g x
  disk : ∀ n, P n → ∀ i < g.hwsectorsize,
    fs'.disk (n * g.hwsectorsize + i) = fs.disk (n * g.hwsectorsize + i)
  mounted : fs'.mounted = fs.mounted
  fsifreecount : fs'.fsifreecount = fs.fsifreecount

variable {g} {P : ℕ → Prop} {fs fs' fs'' : Fs} {sector : ℕ}

theorem Keeps.refl (fs : Fs) : Keeps g P fs fs := ⟨fun _ _ => rfl, fun _ _ _ _ => rfl, rfl, rfl⟩

theorem Keeps.trans (h : Keeps g P fs fs') (h' : Keeps g P fs' fs'') : Keeps g P fs fs'' where
  fat x hx := (h'.fat x hx).trans (h.fat x hx)
  disk n hn i hi := (h'.disk n hn i hi).trans (h.disk n hn i hi)
  mounted := h'.mounted.trans h.mounted
  fsifreecount := h'.fsifreecount.trans h.fsifreecount

/-! ### The device -/

theorem fatHwread_returns (hfaults : fs.faults = []) (hin : g.Inside sector n) :
    Call.Returns (fatHwread g sector n) fs (fun i => fs.disk (sector * g.hwsectorsize + i))
      fs := by
  unfold fatHwread
  rw [returns_get_bind_iff, returns_modify_bind_iff, hfaults, if_pos ⟨rfl, hin⟩, returns_pure_iff]
  refine ⟨rfl, ?_⟩
  cases fs
  cases hfaults
  rfl

theorem fatHwwrite_returns (buffer : Bytes) (hfaults : fs.faults = []) (hin : g.Inside sector n) :
    Call.Returns (fatHwwrite g buffer sector n) fs ()
      { fs with
        disk := fs.disk.blit (sector * g.hwsectorsize) (n * g.hwsectorsize) buffer } := by
  unfold fatHwwrite
  rw [returns_get_bind_iff, returns_modify_bind_iff, hfaults, if_pos ⟨rfl, hin⟩]
  rfl

/-! ### The cache -/

theorem blit_sector {disk buffer : Bytes} {n i : ℕ} (hi : i < g.hwsectorsize) :
    disk.blit (sector * g.hwsectorsize) (1 * g.hwsectorsize) buffer (n * g.hwsectorsize + i) =
      if n = sector then buffer i else disk (n * g.hwsectorsize + i) := by
  rw [blit_blocks hi]
  by_cases hn : n = sector
  · subst hn
    rw [if_pos (by omega), if_pos rfl, Nat.sub_self, Nat.zero_mul, Nat.zero_add]
  · rw [if_neg (by omega), if_neg hn]

theorem writeCopies_returns (h : g.Healthy) (k : ℕ) :
    ∀ (fs : Fs) (sector : ℕ), fs.faults = [] → fs.currentsector = sector → g.fatbase ≤ sector →
      sector + k * g.nfatsects < g.database →
      ∃ disk, Call.Returns (writeCopies g k) fs ()
          { fs with disk := disk, currentsector := (sector + k * g.nfatsects : ℕ) } ∧
        ∀ n i, i < g.hwsectorsize → n < g.fatbase + g.nfatsects ∨ g.database ≤ n →
          disk (n * g.hwsectorsize + i) = fs.disk (n * g.hwsectorsize + i) := by
  induction k with
  | zero =>
    intro fs sector _ hsector _ _
    refine ⟨fs.disk, ?_, fun _ _ _ _ => rfl⟩
    rw [Nat.zero_mul, Nat.add_zero, ← hsector]
    exact returns_pure
  | succ k ih =>
    intro fs sector hfaults hsector hlow hhigh
    have hsectors := h.sectors
    rw [Nat.add_mul] at hhigh
    have hnext : fs.currentsector + g.nfatsects = (sector + g.nfatsects : ℕ) := by
      rw [hsector, Int.natCast_add]
    have hin : g.Inside (sector + g.nfatsects : ℕ) 1 := ⟨by omega, by omega⟩
    obtain ⟨disk, hcopies, hdisk⟩ := ih
      { fs with
        currentsector := (sector + g.nfatsects : ℕ)
        disk := fs.disk.blit ((sector + g.nfatsects) * g.hwsectorsize) (1 * g.hwsectorsize)
          fs.buffer } (sector + g.nfatsects) hfaults rfl (by omega) (by omega)
    have hend : sector + (k + 1) * g.nfatsects = sector + g.nfatsects + k * g.nfatsects := by
      rw [Nat.add_mul]
      omega
    refine ⟨disk, ?_, fun n i hi hn => ?_⟩
    · rw [writeCopies, returns_modify_bind_iff, returns_get_bind_iff]
      rw [hnext, (fatHwwrite_returns _ (by exact hfaults) hin).bind_iff, hend]
      exact hcopies
    · rw [hdisk n i hi hn]
      exact (blit_sector hi).trans (if_neg (by omega))

/-- The state after a dirty sector was written to the disk, with the copies of the FAT. -/
theorem cached_of_written (hP : ∀ n, P n → g.database ≤ n) {disk : Bytes} {c : ℤ}
    (hc : Cached g P fs) (hdirty : fs.dirty = true) (hsector : fs.currentsector = sector)
    (hdisk : ∀ n i, i < g.hwsectorsize → n < g.fatbase + g.nfatsects ∨ g.database ≤ n →
      disk (n * g.hwsectorsize + i) =
        if n = sector then fs.buffer i else fs.disk (n * g.hwsectorsize + i))
    (hc' : ∀ n < g.nfatsects, c = (g.fatbase + n : ℕ) → c = sector) (hpos : 0 < g.hwsectorsize) :
    Cached g P { fs with disk := disk, currentsector := c, dirty := false } ∧
      Keeps g P fs { fs with disk := disk, currentsector := c, dirty := false } := by
  refine ⟨⟨hc.faults, fun _ n hn hcur i hi => ?_, fun h => (by cases h), fun h => (by cases h)⟩,
    ⟨fun x hx => ?_, fun n hn i hi => ?_, rfl, rfl⟩⟩
  · have heq : g.fatbase + n = sector := by
      have := (hc' n hn hcur).symm.trans hcur
      omega
    exact ((hdisk (g.fatbase + n) i hi (.inl (by omega))).trans (if_pos heq)).symm
  · have hsec : x / g.hwsectorsize < g.nfatsects :=
      Nat.div_lt_of_lt_mul (by rwa [Nat.mul_comm] at hx)
    have hi : x % g.hwsectorsize < g.hwsectorsize := mod_lt _ hpos
    have hd := hdisk (g.fatbase + x / g.hwsectorsize) _ hi (.inl (by omega))
    unfold Fs.fat
    dsimp only
    rw [hsector, hd]
    by_cases heq : g.fatbase + x / g.hwsectorsize = sector
    · rw [if_pos heq, ite_self, if_pos (by omega)]
    · rw [if_neg heq, if_neg (show (sector : ℤ) ≠ _ by omega), if_neg fun hcur => ?_]
      have := (hc' _ hsec hcur).symm.trans hcur
      omega
  · have hne : n ≠ sector := fun heq => hc.apart hdirty n hn (by rw [hsector, heq])
    exact (hdisk n i hi (.inr (hP n hn))).trans (if_neg hne)

/-- **`fat_fscacheflush`**: the dirty sector is on the disk then. -/
theorem fatFscacheflush_spec (h : g.Healthy) (hP : ∀ n, P n → g.database ≤ n) (hc : Cached g P fs) :
    ∃ fs', Call.Returns (fatFscacheflush g) fs () fs' ∧ Cached g P fs' ∧ Keeps g P fs fs' ∧
      fs'.dirty = false := by
  unfold fatFscacheflush
  cases hdirty : fs.dirty with
  | false =>
    refine ⟨fs, ?_, hc, .refl fs, hdirty⟩
    rw [returns_get_bind_iff, hdirty]
    exact returns_pure
  | true =>
    have hin := hc.inside hdirty
    obtain ⟨sector, hsector⟩ := Int.eq_ofNat_of_zero_le hin.1
    rw [hsector] at hin
    have hwrite := fatHwwrite_returns fs.buffer hc.faults hin
    have hdatabase := h.database
    obtain ⟨k, hk⟩ := Nat.exists_eq_add_of_le h.numfats
    rw [hk, Nat.add_mul] at hdatabase
    by_cases hfat : (g.fatbase : ℤ) ≤ fs.currentsector ∧
        fs.currentsector < g.fatbase + g.nfatsects
    · obtain ⟨disk, hcopies, hdisk⟩ := writeCopies_returns h k
        { fs with
          disk := fs.disk.blit (sector * g.hwsectorsize) (1 * g.hwsectorsize) fs.buffer } sector
        hc.faults hsector (by omega) (by omega)
      -- the sector of a copy is not one of the first FAT
      have hcopy : ∀ n < g.nfatsects, ((sector + k * g.nfatsects : ℕ) : ℤ) = (g.fatbase + n : ℕ) →
          ((sector + k * g.nfatsects : ℕ) : ℤ) = sector := by
        intro n hn heq
        rcases Nat.eq_zero_or_pos k with rfl | hk'
        · rw [Nat.zero_mul, Nat.add_zero]
        · have : g.nfatsects ≤ k * g.nfatsects := Nat.le_mul_of_pos_left _ hk'
          omega
      obtain ⟨hcached, hkeeps⟩ := cached_of_written hP hc hdirty hsector
        (fun n i hi hn => (hdisk n i hi hn).trans (blit_sector hi)) hcopy h.sectorsize_pos
      refine ⟨_, ?_, hcached, hkeeps, rfl⟩
      rw [returns_get_bind_iff, hdirty, if_pos rfl, hsector, hwrite.bind_iff,
        if_pos (hsector ▸ hfat), hk, Nat.add_sub_cancel_left, hcopies.bind_iff]
      exact returns_modify
    · obtain ⟨hcached, hkeeps⟩ := cached_of_written hP hc hdirty hsector (c := sector)
        (fun n i hi _ => blit_sector hi) (fun _ _ _ => rfl) h.sectorsize_pos
      refine ⟨_, ?_, hcached, hkeeps, rfl⟩
      rw [returns_get_bind_iff, hdirty, if_pos rfl, hsector, hwrite.bind_iff,
        if_neg (hsector ▸ hfat), ← hsector]
      exact returns_modify

/-- **`fat_fscacheread`**: the sector is in the cache then. -/
theorem fatFscacheread_spec (h : g.Healthy) (hP : ∀ n, P n → g.database ≤ n)
    (hc : Cached g P fs) (hin : g.Inside sector 1) :
    ∃ fs', Call.Returns (fatFscacheread g sector) fs () fs' ∧ Cached g P fs' ∧ Keeps g P fs fs' ∧
      fs'.currentsector = sector := by
  unfold fatFscacheread
  by_cases hcur : fs.currentsector = sector
  · refine ⟨fs, ?_, hc, .refl fs, hcur⟩
    rw [returns_get_bind_iff, if_pos hcur]
    exact returns_pure
  · obtain ⟨mid, hflush, hcached, hkeeps, hdirty⟩ := fatFscacheflush_spec h hP hc
    have hread := fatHwread_returns (g := g) hcached.faults hin
    refine ⟨{ mid with
      buffer := fun i => mid.disk (sector * g.hwsectorsize + i)
      currentsector := sector }, ?_, ⟨hcached.faults, ?_, ?_, ?_⟩, hkeeps.trans ⟨?_, ?_, rfl, rfl⟩,
      rfl⟩
    · rw [returns_get_bind_iff, if_neg hcur, hflush.bind_iff, hread.bind_iff]
      exact returns_modify
    · intro _ n hn heq i hi
      have : sector = g.fatbase + n := by
        have heq' : (sector : ℤ) = (g.fatbase + n : ℕ) := heq
        omega
      rw [← this]
    · intro hd
      rw [show mid.dirty = true from hd] at hdirty
      cases hdirty
    · intro hd
      rw [show mid.dirty = true from hd] at hdirty
      cases hdirty
    · intro x hx
      have hsec : x / g.hwsectorsize < g.nfatsects :=
        Nat.div_lt_of_lt_mul (by rwa [Nat.mul_comm] at hx)
      have hi : x % g.hwsectorsize < g.hwsectorsize := mod_lt _ h.sectorsize_pos
      have hdisk : mid.fat g x =
          mid.disk ((g.fatbase + x / g.hwsectorsize) * g.hwsectorsize + x % g.hwsectorsize) := by
        unfold Fs.fat
        split_ifs with hcur'
        · exact hcached.clean hdirty _ hsec hcur' _ hi
        · rfl
      rw [hdisk]
      unfold Fs.fat
      dsimp only
      split_ifs with hcur'
      · rw [show sector = g.fatbase + x / g.hwsectorsize by omega]
      · rfl
    · exact fun _ _ _ _ => rfl

/-! ### What the entries say -/

/-- **The number that an entry stands for**, in the bytes of a FAT. -/
def entry (b : Bytes) (c : ℕ) : Fstype → ℕ
  | .fat12 =>
    let w := (b (c * 3 / 2)).toNat + 256 * (b (c * 3 / 2 + 1)).toNat
    if c % 2 = 1 then w / 16 else w % 4096
  | .fat16 => b.load 2 (2 * c)
  | .fat32 => b.load 4 (4 * c) % 2 ^ 28

/-- The first byte of an entry of 12 bits, which may keep half of the old one. -/
def lsb12 (c v : ℕ) (old : UInt8) : UInt8 :=
  if c % 2 = 1 then ofNat (16 * v + old.toNat % 16) else ofNat v

/-- The second byte. -/
def msb12 (c v : ℕ) (old : UInt8) : UInt8 :=
  if c % 2 = 1 then ofNat (v / 16)
  else ofNat (16 * (old.toNat / 16) + v / 256 % 16)

/-- The bytes of a FAT after an entry was written. -/
def setEntry (b : Bytes) (c v : ℕ) : Fstype → Bytes
  | .fat12 =>
    (b.write (c * 3 / 2) (lsb12 c v (b (c * 3 / 2)))).write (c * 3 / 2 + 1)
      (msb12 c v (b (c * 3 / 2 + 1)))
  | .fat16 => b.store 2 (2 * c) (v % 2 ^ 16)
  | .fat32 => b.store 4 (4 * c) (2 ^ 28 * (b.load 4 (4 * c) / 2 ^ 28) + v % 2 ^ 28)

/-- Two entries of the FAT share a byte at most: what is written to one is not seen in another. -/
theorem entry_setEntry {b : Bytes} {c d v : ℕ} {t : Fstype} :
    entry (setEntry b c v t) d t = if d = c then v % 2 ^ t.bits else entry b d t := by
  cases t with
  | fat12 =>
    have hbyte : ∀ x, (b x).toNat < 256 := fun x => (b x).toNat_lt
    have hlow := hbyte (d * 3 / 2)
    -- the byte that the entry may share with one of its neighbours
    have hbefore : d * 3 / 2 + 1 = c * 3 / 2 →
        (b (d * 3 / 2 + 1)).toNat = (b (c * 3 / 2)).toNat := fun h => by rw [h]
    have hafter : d * 3 / 2 = c * 3 / 2 + 1 →
        (b (d * 3 / 2)).toNat = (b (c * 3 / 2 + 1)).toNat := fun h => by rw [h]
    simp only [entry, setEntry, Fstype.bits, lsb12, msb12]
    by_cases hodd : c % 2 = 1
    · simp only [write_apply, apply_ite toNat, toNat_ofNat']
      split_ifs <;> omega
    · simp only [write_apply, apply_ite toNat, toNat_ofNat']
      split_ifs <;> omega
  | fat16 =>
    simp only [entry, setEntry, Fstype.bits]
    split_ifs with hd
    · rw [hd, load_store_self]
      omega
    · exact load_store_of_disjoint (by omega)
  | fat32 =>
    simp only [entry, setEntry, Fstype.bits]
    split_ifs with hd
    · rw [hd, load_store_self]
      omega
    · rw [load_store_of_disjoint (by omega)]

/-! ### Reading an entry -/

theorem Fs.fat_of_cached {n i : ℕ} (hcur : fs.currentsector = (g.fatbase + n : ℕ))
    (hi : i < g.hwsectorsize) : fs.fat g (n * g.hwsectorsize + i) = fs.buffer i := by
  have hpos : 0 < g.hwsectorsize := by omega
  have hdiv : (n * g.hwsectorsize + i) / g.hwsectorsize = n := by
    rw [mul_comm, mul_add_div hpos, div_eq_of_lt hi, add_zero]
  have hmod : (n * g.hwsectorsize + i) % g.hwsectorsize = i := by
    rw [mul_comm, mul_add_mod, mod_eq_of_lt hi]
  unfold Fs.fat
  rw [hdiv, hmod, if_pos hcur]

theorem fatFscacheread_fat (h : g.Healthy) (hP : ∀ n, P n → g.database ≤ n) (hc : Cached g P fs)
    (hn : n < g.nfatsects) :
    ∃ fs', Call.Returns (fatFscacheread g (g.fatbase + n : ℕ)) fs () fs' ∧ Cached g P fs' ∧
      Keeps g P fs fs' ∧ fs'.currentsector = (g.fatbase + n : ℕ) ∧
      ∀ i < g.hwsectorsize, fs'.buffer i = fs.fat g (n * g.hwsectorsize + i) := by
  obtain ⟨fs', hread, hcached, hkeeps, hcur⟩ := fatFscacheread_spec h hP hc (h.inside_fat hn)
  refine ⟨fs', hread, hcached, hkeeps, hcur, fun i hi => ?_⟩
  have hend : (n + 1) * g.hwsectorsize ≤ g.nfatsects * g.hwsectorsize :=
    Nat.mul_le_mul_right _ hn
  rw [Nat.add_mul] at hend
  rw [← Fs.fat_of_cached hcur hi]
  exact hkeeps.fat _ (by omega)

theorem div_mod_succ {o k : ℕ} (hk : 0 < k) :
    k ≤ o % k + 1 ∧ (o + 1) / k = o / k + 1 ∧ (o + 1) % k = 0 ∨
      o % k + 1 < k ∧ (o + 1) / k = o / k ∧ (o + 1) % k = o % k + 1 := by
  have hlt := mod_lt o hk
  have hsucc : o + 1 = k * (o / k) + (o % k + 1) := by
    have := div_add_mod o k
    omega
  rcases Nat.lt_or_ge (o % k + 1) k with hin | hout
  · right
    rw [hsucc, mul_add_div hk, mul_add_mod, div_eq_of_lt hin, mod_eq_of_lt hin]
    exact ⟨hin, rfl, rfl⟩
  · left
    have heq : o % k + 1 = k := by omega
    rw [hsucc, heq, Nat.mul_add_div hk, Nat.mul_add_mod, Nat.div_self hk, Nat.mod_self]
    exact ⟨Nat.le_refl k, rfl, rfl⟩

theorem mod_add_le {o k w : ℕ} (hk : 0 < k) (hw : w ∣ k) (ho : w ∣ o) : o % k + w ≤ k := by
  obtain ⟨a, rfl⟩ := hw
  obtain ⟨b, rfl⟩ := ho
  rw [mul_mod_mul_left]
  have hlt : b % a < a := Nat.mod_lt _ (Nat.pos_of_mul_pos_right (Nat.mul_comm w a ▸ hk))
  calc w * (b % a) + w = w * (b % a + 1) := rfl
    _ ≤ w * a := mul_le_mul_left w hlt

theorem word_eq {lo hi : ℕ} (hlo : lo < 256) : lo ||| hi <<< 8 = lo + 256 * hi := by
  have hpow : (2 : ℕ) ^ 8 = 256 := by decide
  rw [Nat.shiftLeft_eq, Nat.mul_comm, Nat.or_comm, high_or_low hlo, Nat.add_comm, hpow]

section

variable (h : g.Healthy) (hP : ∀ n, P n → g.database ≤ n) (hc : Cached g P fs)

include h hP hc

theorem load_spec {w c : ℕ} (hw : w ∣ g.hwsectorsize) (hwpos : 0 < w)
    (hfit : w * c + w ≤ g.nfatsects * g.hwsectorsize) :
    ∃ fs', Call.Returns (fatFscacheread g (g.fatbase + g.secNsectors (w * c) : ℕ)) fs () fs' ∧
      Cached g P fs' ∧ Keeps g P fs fs' ∧
      fs'.currentsector = (g.fatbase + w * c / g.hwsectorsize : ℕ) ∧
      fs'.buffer.load w (g.secNdx (w * c)) = (fs.fat g).load w (w * c) := by
  have hpos := h.sectorsize_pos
  have hsec : w * c / g.hwsectorsize < g.nfatsects :=
    Nat.div_lt_of_lt_mul (by rw [Nat.mul_comm g.hwsectorsize]; omega)
  obtain ⟨fs', hread, hcached, hkeeps, hcur, hbuffer⟩ := fatFscacheread_fat h hP hc hsec
  refine ⟨fs', hread, hcached, hkeeps, hcur, load_eq_of_forall fun i hi => ?_⟩
  have hin := mod_add_le hpos hw (Nat.dvd_mul_right w c)
  rw [h.secNdx_eq, hbuffer _ (by omega), ← Nat.add_assoc, Nat.div_add_mod']

theorem fat12_first {o : ℕ} (hfit : o + 1 < g.nfatsects * g.hwsectorsize) :
    ∃ fs', Call.Returns (fatFscacheread g (g.fatbase + g.secNsectors o : ℕ)) fs () fs' ∧
      Keeps g P fs fs' ∧ fs'.buffer (g.secNdx o) = fs.fat g o ∧
      ∃ fs'', Call.Returns (fat12Byte g (g.fatbase + g.secNsectors o) (g.secNdx o + 1)) fs'
          (fs.fat g (o + 1)).toNat fs'' ∧ Cached g P fs'' ∧ Keeps g P fs' fs'' := by
  have hpos := h.sectorsize_pos
  have hlt := Nat.mod_lt o hpos
  have hsec : (o + 1) / g.hwsectorsize < g.nfatsects :=
    Nat.div_lt_of_lt_mul (by rw [Nat.mul_comm g.hwsectorsize]; omega)
  have hle : o / g.hwsectorsize ≤ (o + 1) / g.hwsectorsize := Nat.div_le_div_right (Nat.le_succ o)
  obtain ⟨fs', hread, hcached, hkeeps, hcur, hbuffer⟩ :=
    fatFscacheread_fat h hP hc (Nat.lt_of_le_of_lt hle hsec)
  refine ⟨fs', hread, hkeeps, ?_, ?_⟩
  · rw [h.secNdx_eq, hbuffer _ hlt, Nat.div_add_mod']
  unfold fat12Byte
  rw [h.secNdx_eq]
  rcases div_mod_succ (o := o) hpos with ⟨hge, hdiv, hmod⟩ | ⟨hin, hdiv, hmod⟩
  · obtain ⟨fs'', hread', hcached', hkeeps', -, hbuffer'⟩ := fatFscacheread_fat h hP hcached hsec
    refine ⟨fs'', ?_, hcached', hkeeps'⟩
    have hsector : ((g.fatbase + g.secNsectors o : ℕ) : ℤ) + 1 =
        (g.fatbase + (o + 1) / g.hwsectorsize : ℕ) := by
      rw [Geo.secNsectors]
      omega
    have haddr : (o + 1) / g.hwsectorsize * g.hwsectorsize + 0 = o + 1 := by
      rw [← hmod, Nat.div_add_mod']
    rw [if_pos hge, hsector, hread'.orError.bind_iff, returns_get_bind_iff, hbuffer' 0 hpos,
      haddr, hkeeps.fat _ hfit]
    exact returns_pure
  · refine ⟨fs', ?_, hcached, .refl fs'⟩
    have haddr : o / g.hwsectorsize * g.hwsectorsize + (o % g.hwsectorsize + 1) = o + 1 := by
      rw [← Nat.add_assoc, Nat.div_add_mod']
    rw [if_neg (by omega), returns_get_bind_iff, hbuffer _ hin, haddr]
    exact returns_pure

/-- **`fat_getcluster`** returns the entry, and changes none. -/
theorem fatGetcluster_spec {c : ℕ} (hc2 : 2 ≤ c) (hcn : c < g.nclusters) :
    ∃ fs', Call.Returns (fatGetcluster g c) fs (entry (fs.fat g) c g.fstype) fs' ∧
      Cached g P fs' ∧ Keeps g P fs fs' := by
  have hfits := h.fits
  have hfour := h.four_dvd
  unfold fatGetcluster
  rw [if_pos ⟨hc2, hcn⟩]
  cases htype : g.fstype with
  | fat16 =>
    rw [htype, Fstype.bytes] at hfits
    obtain ⟨fs', hread, hcached, hkeeps, -, hload⟩ :=
      load_spec h hP hc (w := 2) (c := c) (Nat.dvd_trans (by decide) hfour) (by decide) (by omega)
    refine ⟨fs', ?_, hcached, hkeeps⟩
    rw [hread.orError.bind_iff, returns_get_bind_iff, hload]
    exact returns_pure
  | fat32 =>
    rw [htype, Fstype.bytes] at hfits
    obtain ⟨fs', hread, hcached, hkeeps, -, hload⟩ :=
      load_spec h hP hc (w := 4) (c := c) hfour (by decide) (by omega)
    refine ⟨fs', ?_, hcached, hkeeps⟩
    rw [hread.orError.bind_iff, returns_get_bind_iff, hload]
    rw [show (0x0fffffff : ℕ) = 2 ^ 28 - 1 by decide, and_low]
    exact returns_pure
  | fat12 =>
    rw [htype, Fstype.bytes] at hfits
    obtain ⟨mid, hread, hkeeps, hlow, hbyte⟩ :=
      fat12_first h hP hc (o := c * 3 / 2) (by omega)
    obtain ⟨fs', hread', hcached', hkeeps'⟩ := hbyte
    refine ⟨fs', ?_, hcached', hkeeps.trans hkeeps'⟩
    rw [hread.orError.bind_iff, returns_get_bind_iff]
    rw [hread'.bind_iff, hlow, word_eq (toNat_lt _)]
    by_cases hodd : c % 2 = 1
    · rw [and_one_is_mod, if_pos (by omega), entry, if_pos hodd, shiftRight_eq_div_pow]
      exact returns_pure
    · rw [and_one_is_mod, if_neg (by omega), entry, if_neg hodd,
        show (0x0fff : ℕ) = 2 ^ 12 - 1 by decide, and_low]
      exact returns_pure

end

/-! ### Writing an entry -/

theorem Fs.fat_write (fs : Fs) {n i : ℕ} {v : UInt8} {d : Bool}
    (hcur : fs.currentsector = (g.fatbase + n : ℕ)) (hi : i < g.hwsectorsize) :
    Fs.fat g { fs with buffer := fs.buffer.write i v, dirty := d } =
      (fs.fat g).write (n * g.hwsectorsize + i) v := by
  have hpos : 0 < g.hwsectorsize := by omega
  funext x
  have hx := div_add_mod' x g.hwsectorsize
  unfold Fs.fat
  dsimp only
  rw [write_apply, write_apply, hcur]
  by_cases heq : x = n * g.hwsectorsize + i
  · have hdiv : x / g.hwsectorsize = n := by
      rw [heq, mul_comm, mul_add_div hpos, div_eq_of_lt hi, add_zero]
    have hmod : x % g.hwsectorsize = i := by
      rw [heq, mul_comm, mul_add_mod, mod_eq_of_lt hi]
    rw [if_pos heq, hdiv, if_pos rfl, if_pos hmod]
  · rw [if_neg heq]
    by_cases hsec : ((g.fatbase + n : ℕ) : ℤ) = (g.fatbase + x / g.hwsectorsize : ℕ)
    · have hn : x / g.hwsectorsize = n := by omega
      rw [if_pos hsec, if_pos hsec, if_neg fun hmod => heq (by rw [← hx, hn, hmod])]
    · rw [if_neg hsec, if_neg hsec]

theorem Fs.fat_store {n w : ℕ} {d : Bool} (hcur : fs.currentsector = (g.fatbase + n : ℕ)) :
    ∀ {i v : ℕ}, i + w ≤ g.hwsectorsize →
      Fs.fat g { fs with buffer := fs.buffer.store w i v, dirty := d } =
        (fs.fat g).store w (n * g.hwsectorsize + i) v := by
  induction w with
  | zero => exact fun _ => rfl
  | succ w ih =>
    intro i v hi
    have hrest := ih (i := i + 1) (v := v / 256) (by omega)
    have hbyte := Fs.fat_write
      { fs with buffer := fs.buffer.store w (i + 1) (v / 256), dirty := d } (d := d)
      (v := ofNat v) hcur (show i < g.hwsectorsize by omega)
    rw [hrest] at hbyte
    exact hbyte

theorem Cached.modified (hc : Cached g P fs) (buffer : Bytes) (h : g.Healthy)
    (hP : ∀ n, P n → g.database ≤ n) (hcur : fs.currentsector = (g.fatbase + n : ℕ))
    (hn : n < g.nfatsects) :
    Cached g P { fs with buffer := buffer, dirty := true } where
  faults := hc.faults
  clean hd := by cases hd
  inside _ := by
    rw [hcur]
    exact h.inside_fat hn
  apart _ m hm heq := by
    have hcur' : fs.currentsector = m := heq
    have hdatabase := h.database
    have hnumfats := h.numfats
    have hone : g.nfatsects ≤ g.fatnumfats * g.nfatsects := Nat.le_mul_of_pos_left _ hnumfats
    have := hP m hm
    omega

theorem fat12PutLsb_returns (fs : Fs) (c v i : ℕ) :
    Call.Returns (fat12PutLsb c v i) fs ()
      { fs with buffer := fs.buffer.write i (lsb12 c v (fs.buffer i)) } := by
  unfold fat12PutLsb
  rw [returns_get_bind_iff, and_one_is_mod, lsb12]
  by_cases hodd : c % 2 = 1
  · have hmod : (fs.buffer i).toNat % 2 ^ 4 < 2 ^ 4 := mod_lt _ (by decide)
    rw [if_pos (by omega), if_pos hodd, show (0x0f : ℕ) = 2 ^ 4 - 1 by decide, and_low,
      Nat.shiftLeft_eq, Nat.mul_comm v, Nat.or_comm, high_or_low hmod]
    exact returns_modify
  · rw [if_neg (by omega), if_neg hodd]
    exact returns_modify

theorem fat12PutMsb_returns (fs : Fs) (c v i : ℕ) :
    Call.Returns (fat12PutMsb c v i) fs ()
      { fs with buffer := fs.buffer.write i (msb12 c v (fs.buffer i)) } := by
  unfold fat12PutMsb
  rw [returns_get_bind_iff, and_one_is_mod, msb12, shiftRight_eq_div_pow,
    shiftRight_eq_div_pow]
  by_cases hodd : c % 2 = 1
  · rw [if_pos (by omega), if_pos hodd]
    exact returns_modify
  · have hlt : (fs.buffer i).toNat < 2 ^ (4 + 4) := (fs.buffer i).toNat_lt
    have hmod : v / 2 ^ 8 % 2 ^ 4 < 2 ^ 4 := mod_lt _ (by decide)
    rw [if_neg (by omega), if_neg hodd, show (0xf0 : ℕ) = 2 ^ 4 * (2 ^ 4 - 1) by decide,
      and_high hlt, show (0x0f : ℕ) = 2 ^ 4 - 1 by decide, and_low, high_or_low hmod]
    exact returns_modify

variable (g) in
/-- **What a change of the FAT leaves alone**: the sectors of the set, and the other fields. -/
structure Changes (P : ℕ → Prop) (b : Bytes) (fs fs' : Fs) : Prop where
  fat : ∀ x < g.nfatsects * g.hwsectorsize, fs'.fat g x = b x
  disk : ∀ n, P n → ∀ i < g.hwsectorsize,
    fs'.disk (n * g.hwsectorsize + i) = fs.disk (n * g.hwsectorsize + i)
  mounted : fs'.mounted = fs.mounted
  fsifreecount : fs'.fsifreecount = fs.fsifreecount

section

variable (h : g.Healthy) (hP : ∀ n, P n → g.database ≤ n) (hc : Cached g P fs)

include h hP hc

theorem store_spec {w c v : ℕ} (hw : w ∣ g.hwsectorsize) (hwpos : 0 < w)
    (hfit : w * c + w ≤ g.nfatsects * g.hwsectorsize) :
    ∃ mid, Call.Returns (fatFscacheread g (g.fatbase + g.secNsectors (w * c) : ℕ)) fs () mid ∧
      mid.buffer.load w (g.secNdx (w * c)) = (fs.fat g).load w (w * c) ∧
      Cached g P
        { mid with buffer := mid.buffer.store w (g.secNdx (w * c)) v, dirty := true } ∧
      Changes g P ((fs.fat g).store w (w * c) v) fs
        { mid with buffer := mid.buffer.store w (g.secNdx (w * c)) v, dirty := true } := by
  have hpos := h.sectorsize_pos
  have hsec : w * c / g.hwsectorsize < g.nfatsects :=
    Nat.div_lt_of_lt_mul (by rw [Nat.mul_comm g.hwsectorsize]; omega)
  obtain ⟨mid, hread, hcached, hkeeps, hcur, hload⟩ := load_spec h hP hc hw hwpos hfit
  refine ⟨mid, hread, hload, hcached.modified _ h hP hcur hsec, fun x hx => ?_, hkeeps.disk,
    hkeeps.mounted, hkeeps.fsifreecount⟩
  have hin := mod_add_le hpos hw (Nat.dvd_mul_right w c)
  rw [h.secNdx_eq, Fs.fat_store hcur hin, Nat.div_add_mod']
  exact store_apply_congr (hkeeps.fat x hx)

theorem put12_spec {c v : ℕ} (htype : g.fstype = .fat12)
    (hfit : c * 3 / 2 + 1 < g.nfatsects * g.hwsectorsize) :
    ∃ fs', Call.Returns (putEntry g c v) fs () fs' ∧ Cached g P { fs' with dirty := true } ∧
      Changes g P (setEntry (fs.fat g) c v .fat12) fs { fs' with dirty := true } := by
  have hpos := h.sectorsize_pos
  obtain ⟨o, ho⟩ : ∃ o, c * 3 / 2 = o := ⟨_, rfl⟩
  rw [ho] at hfit
  have hlt := Nat.mod_lt o hpos
  have hsec : (o + 1) / g.hwsectorsize < g.nfatsects :=
    Nat.div_lt_of_lt_mul (by rw [Nat.mul_comm g.hwsectorsize]; omega)
  have hle : o / g.hwsectorsize ≤ (o + 1) / g.hwsectorsize := Nat.div_le_div_right (Nat.le_succ o)
  have hsec' := Nat.lt_of_le_of_lt hle hsec
  obtain ⟨mid, hread, hcached, hkeeps, hcur, hbuffer⟩ := fatFscacheread_fat h hP hc hsec'
  have hlow : mid.buffer (o % g.hwsectorsize) = fs.fat g o := by
    rw [hbuffer _ hlt, Nat.div_add_mod']
  -- the FAT after the first byte was put into the cache
  have hfirst : ∀ d, Fs.fat g
      { mid with
        buffer := mid.buffer.write (o % g.hwsectorsize) (lsb12 c v (fs.fat g o)), dirty := d } =
      (mid.fat g).write o (lsb12 c v (fs.fat g o)) := fun d => by
    rw [Fs.fat_write mid hcur hlt, Nat.div_add_mod']
  have hput := fat12PutLsb_returns mid c v (o % g.hwsectorsize)
  rw [hlow] at hput
  unfold putEntry
  rw [htype]
  dsimp only
  rw [h.secNdx_eq, Geo.secNsectors, setEntry, ho]
  rcases div_mod_succ (o := o) hpos with ⟨hge, hdiv, hmod⟩ | ⟨hin, hdiv, hmod⟩
  · -- the second byte is in the next sector
    have hcached' := hcached.modified
      (mid.buffer.write (o % g.hwsectorsize) (lsb12 c v (fs.fat g o))) h hP hcur hsec'
    obtain ⟨last, hread', hcached'', hkeeps', hcur', hbuffer'⟩ :=
      fatFscacheread_fat h hP hcached' hsec
    have haddr : (o + 1) / g.hwsectorsize * g.hwsectorsize + 0 = o + 1 := by
      rw [← hmod, Nat.div_add_mod']
    have hhigh : last.buffer 0 = fs.fat g (o + 1) := by
      rw [hbuffer' 0 hpos, haddr, hfirst, write_of_ne (by omega), hkeeps.fat _ hfit]
    have hput' := fat12PutMsb_returns last c v 0
    rw [hhigh] at hput'
    refine ⟨{ last with buffer := last.buffer.write 0 (msb12 c v (fs.fat g (o + 1))) }, ?_,
      hcached''.modified _ h hP hcur' hsec, fun x hx => ?_, fun n hn i hi => ?_, ?_, ?_⟩
    · have hsector : ((g.fatbase + o / g.hwsectorsize : ℕ) : ℤ) + 1 =
          (g.fatbase + (o + 1) / g.hwsectorsize : ℕ) := by
        omega
      rw [hread.bind_iff, hput.bind_iff, if_pos hge, returns_modify_bind_iff, hsector,
        hread'.bind_iff]
      exact hput'
    · rw [Fs.fat_write last hcur' hpos, haddr, write_apply, write_apply,
        hkeeps'.fat x hx, hfirst, write_apply, write_apply, hkeeps.fat x hx]
    · exact (hkeeps'.disk n hn i hi).trans (hkeeps.disk n hn i hi)
    · exact hkeeps'.mounted.trans hkeeps.mounted
    · exact hkeeps'.fsifreecount.trans hkeeps.fsifreecount
  · have haddr : o / g.hwsectorsize * g.hwsectorsize + (o % g.hwsectorsize + 1) = o + 1 := by
      rw [← Nat.add_assoc, Nat.div_add_mod']
    have hhigh : mid.buffer.write (o % g.hwsectorsize) (lsb12 c v (fs.fat g o))
        (o % g.hwsectorsize + 1) = fs.fat g (o + 1) := by
      rw [write_of_ne (by omega), hbuffer _ hin, haddr]
    have hput' := fat12PutMsb_returns
      { mid with buffer := mid.buffer.write (o % g.hwsectorsize) (lsb12 c v (fs.fat g o)) } c v
      (o % g.hwsectorsize + 1)
    dsimp only at hput'
    rw [hhigh] at hput'
    refine ⟨{ mid with
        buffer := (mid.buffer.write (o % g.hwsectorsize) (lsb12 c v (fs.fat g o))).write
          (o % g.hwsectorsize + 1) (msb12 c v (fs.fat g (o + 1))) }, ?_,
      hcached.modified _ h hP hcur hsec', fun x hx => ?_, hkeeps.disk, hkeeps.mounted,
      hkeeps.fsifreecount⟩
    · rw [hread.bind_iff, hput.bind_iff, if_neg (by omega)]
      exact hput'
    · have hsecond := Fs.fat_write
        { mid with buffer := mid.buffer.write (o % g.hwsectorsize) (lsb12 c v (fs.fat g o)) }
        (v := msb12 c v (fs.fat g (o + 1))) (d := true) hcur hin
      rw [haddr, hfirst] at hsecond
      rw [hsecond, write_apply, write_apply, write_apply, write_apply, hkeeps.fat x hx]

/-- **`fat_putcluster`** writes the entry. -/
theorem fatPutcluster_spec {c v : ℕ} (hc2 : 2 ≤ c) (hcn : c < g.nclusters) :
    ∃ fs', Call.Returns (fatPutcluster g c v) fs () fs' ∧ Cached g P fs' ∧
      Changes g P (setEntry (fs.fat g) c v g.fstype) fs fs' := by
  have hfits := h.fits
  have hfour := h.four_dvd
  unfold fatPutcluster
  rw [if_pos (.inr ⟨hc2, hcn⟩)]
  cases htype : g.fstype with
  | fat16 =>
    rw [htype, Fstype.bytes] at hfits
    obtain ⟨mid, hread, -, hcached, hchanges⟩ := store_spec h hP hc (w := 2) (c := c)
      (v := v % 2 ^ 16) (Nat.dvd_trans (by decide) hfour) (by decide) (by omega)
    refine ⟨_, ?_, hcached, hchanges⟩
    have hput : Call.Returns (putEntry g c v) fs ()
        { mid with buffer := mid.buffer.store 2 (g.secNdx (2 * c)) (v % 2 ^ 16) } := by
      unfold putEntry
      rw [htype]
      dsimp only
      rw [hread.bind_iff, show (0xffff : ℕ) = 2 ^ 16 - 1 by decide, and_low]
      exact returns_modify
    rw [hput.ignore.bind_iff]
    exact returns_modify
  | fat32 =>
    rw [htype, Fstype.bytes] at hfits
    obtain ⟨mid, hread, hload, hcached, hchanges⟩ := store_spec h hP hc (w := 4) (c := c)
      (v := 2 ^ 28 * ((fs.fat g).load 4 (4 * c) / 2 ^ 28) + v % 2 ^ 28) hfour (by decide)
      (by omega)
    refine ⟨_, ?_, hcached, hchanges⟩
    have hput : Call.Returns (putEntry g c v) fs ()
        { mid with
          buffer := mid.buffer.store 4 (g.secNdx (4 * c))
            (2 ^ 28 * ((fs.fat g).load 4 (4 * c) / 2 ^ 28) + v % 2 ^ 28) } := by
      have hlt : (fs.fat g).load 4 (4 * c) < 2 ^ (28 + 4) := load_lt
      have hmod : v % 2 ^ 28 < 2 ^ 28 := mod_lt _ (by decide)
      unfold putEntry
      rw [htype]
      dsimp only
      rw [hread.bind_iff, returns_get_bind_iff, hload,
        show (0xf0000000 : ℕ) = 2 ^ 28 * (2 ^ 4 - 1) by decide, and_high hlt,
        show (0x0fffffff : ℕ) = 2 ^ 28 - 1 by decide, and_low, high_or_low hmod]
      exact returns_modify
    rw [hput.ignore.bind_iff]
    exact returns_modify
  | fat12 =>
    rw [htype, Fstype.bytes] at hfits
    obtain ⟨fs', hput, hcached, hchanges⟩ := put12_spec h hP hc (v := v) htype
      (show c * 3 / 2 + 1 < _ by omega)
    refine ⟨_, ?_, hcached, hchanges⟩
    rw [hput.ignore.bind_iff]
    exact returns_modify

end

end GreenboneFeeder.Fat
