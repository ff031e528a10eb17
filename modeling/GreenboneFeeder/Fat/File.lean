import GreenboneFeeder.Fat.Calls
import GreenboneFeeder.Lib.Overlay
import GreenboneFeeder.Lib.Run

/-!
# An open file is an array of bytes with a position

The abstract file (`Fat.File`) is a list of bytes, some of which are not specified, and a position.
An open file on a FAT volume behaves like it in every sequence of calls (`Fat.file_behaves`), unless
a file without clusters is read, or the position is set behind the end of the file while there is a
current sector.
-/

namespace GreenboneFeeder.Fat

open Words Successors Overlay List

/-! ### The abstract file -/

inductive Event where
  | read (buflen : ℕ)
  | write (data : List UInt8)
  | seek (offset : ℤ) (whence : Whence)
deriving DecidableEq, Repr

/-- What a call returns. -/
inductive Result (β : Type) where
  | read (data : List β)
  | write (nbytes : ℕ)
  | seek
deriving DecidableEq, Repr

/-- **A file**: its bytes, as far as they are specified, and a position. -/
structure File where
  content : List (Option UInt8)
  pos : ℕ
deriving DecidableEq, Repr

/-- The position that a seek goes to. -/
def File.target (f : File) (offset : ℤ) : Whence → ℤ
  | .set => offset
  | .cur => offset + f.pos
  | .fileEnd => offset + f.content.length

/-- What is read at the position. -/
def File.ahead (f : File) (buflen : ℕ) : List (Option UInt8) := (f.content.drop f.pos).take buflen

/-- The file is extended with bytes that are not specified. -/
def File.extend (f : File) (n : ℕ) : List (Option UInt8) :=
  f.content ++ replicate (n - f.content.length) none

/-- **The abstract calls.** -/
def File.step (f : File) : Event → Result (Option UInt8) × File
  | .read buflen => (.read (f.ahead buflen), { f with pos := f.pos + (f.ahead buflen).length })
  | .write data =>
    (.write data.length,
      ⟨overwrite f.content f.pos (data.map some), f.pos + data.length⟩)
  | .seek offset whence =>
    (.seek, ⟨f.extend (f.target offset whence).toNat, (f.target offset whence).toNat⟩)

/-- The results of a sequence of calls. -/
def File.steps : File → List Event → List (Result (Option UInt8))
  | _, [] => []
  | f, e :: events => (f.step e).1 :: (f.step e).2.steps events

/-- The bytes are those that are specified. -/
def Matches (spec : List (Option UInt8)) (data : List UInt8) : Prop :=
  data.length = spec.length ∧ ∀ (j : ℕ) (v : UInt8), spec[j]? = some (some v) → data[j]? = some v

/-- **The result is the specified one.** -/
def Result.Agrees : Result (Option UInt8) → Result UInt8 → Prop
  | .read spec, .read data => Matches spec data
  | .write n, .write n' => n' = n
  | .seek, .seek => True
  | _, _ => False

/-! ### The calls on the open file -/

variable (g : Geo)

/-- A call on the open file. -/
def Event.call : Event → Call Sys (Result UInt8)
  | .read buflen => do
    let data ← fatRead g buflen
    pure (.read data)
  | .write data => do
    let nbytes ← fatWrite g data
    pure (.write nbytes)
  | .seek offset whence => do
    fatSeek g offset whence
    pure .seek

/-- A sequence of calls that all succeed. -/
def calls : List Event → Call Sys (List (Result UInt8))
  | [] => pure []
  | e :: events => do
    let result ← e.call g
    let results ← calls events
    pure (result :: results)

/-- The state after a call that succeeds. -/
def step (s : Sys) (e : Event) : Option Sys :=
  match e.call g s with
  | some (.ok _, s') => some s'
  | _ => none

/-- **The calls that the position allows**: it stays in the range of `off_t` and in the room for the
file. -/
def File.Allows (K : ℕ) (f : File) : Event → Prop
  | .read _ => True
  | .write data =>
    0 < K ∧ f.pos + data.length ≤ K * g.clustersize ∧ f.pos + data.length < 2 ^ 31
  | .seek offset whence =>
    0 ≤ f.target offset whence ∧ f.target offset whence < 2 ^ 31 ∧
      (0 < f.target offset whence → f.target offset whence < (K * g.clustersize : ℕ))

instance (K : ℕ) (f : File) (e : Event) : Decidable (f.Allows g K e) := by
  cases e <;> unfold File.Allows <;> infer_instance

/-- **The calls that are safe**: a file without clusters is not read, and no position behind the end
is sought when a sector is current. -/
def Safe (s : Sys) : Event → Prop
  | .read _ => s.ff.startcluster ≠ 0
  | .write _ => True
  | .seek offset whence => s.target offset whence ≤ s.ff.size ∨ s.ff.currentsector = 0

instance (s : Sys) (e : Event) : Decidable (Safe s e) := by
  cases e <;> unfold Safe <;> infer_instance

/-! ### A file that was just opened -/

/-- The sectors of the clusters of a file, and of those that are free. -/
def Reserved (l : List ℕ) (fs : Fs) (n : ℕ) : Prop :=
  ∃ c, (c ∈ l ∨ c ∈ free 2 g.nclusters (fs.table g)) ∧
    ∃ j < g.fatsecperclus, n = g.firstSector c + j

/-- **A file as `fat_open` leaves it**: its clusters are a chain that is long enough for its size,
and the cache of the mountpoint has nothing to write to the sectors of the file or to those that are
free. -/
structure Opened (l : List ℕ) (s : Sys) : Prop where
  cached : Cached g (Reserved g l s.fs) s.fs
  chain : Successors.Chain 2 g.nclusters (s.fs.table g) l
  mounted : s.fs.mounted = true
  rdok : s.ff.rdok = true
  wrok : s.ff.wrok = true
  startcluster : s.ff.startcluster = (l.headD 0 : ℕ)
  currentcluster : s.ff.currentcluster = l.headD 0
  currentsector : s.ff.currentsector = 0
  valid : s.ff.valid = false
  dirty : s.ff.dirty = false
  fpos : s.fpos = 0
  size_nonneg : 0 ≤ s.ff.size
  size_le : s.ff.size ≤ (l.length * g.clustersize : ℕ)
  size_lt : s.ff.size < 2 ^ 31

/-- The clusters that the file has, and those that it may get. -/
def room (l : List ℕ) (s : Sys) : ℕ := l.length + (free 2 g.nclusters (s.fs.table g)).card

/-- What is in an open file. -/
def Sys.file (l : List ℕ) (s : Sys) : File := ⟨(s.bytes g l 0 s.ff.size.toNat).map some, 0⟩

/-! ### The simulation -/

/-- **The open file holds what the abstract one says.** -/
structure Represents (P : ℕ → Prop) (K : ℕ) (l : List ℕ) (f : File) (s : Sys) : Prop where
  sound : Sound g P K l f.pos s
  size : s.ff.size = f.content.length
  byte : ∀ (q : ℕ) (v : UInt8), f.content[q]? = some (some v) → s.byte g l q = v

variable {g} {P : ℕ → Prop} {K : ℕ} {l l' : List ℕ} {f : File} {s s' : Sys}

theorem Sys.getElem?_bytes {p n j : ℕ} (hj : j < n) :
    (s.bytes g l p n)[j]? = some (s.byte g l (p + j)) := by
  rw [Sys.bytes, getElem?_map, getElem?_range hj, Option.map_some]

namespace Represents

theorem pos_le (hr : Represents g P K l f s) : f.pos ≤ f.content.length := by
  have hle := hr.sound.le
  rw [hr.size] at hle
  omega

theorem lt_of_eq (hr : Represents g P K l f s) {q : ℕ} {o : Option UInt8}
    (hq : f.content[q]? = some o) : q < l.length * g.clustersize ∧ (q : ℤ) < s.ff.size := by
  have hlt := (List.getElem?_eq_some_iff.mp hq).1
  have hsize := hr.sound.size
  have heq := hr.size
  omega

theorem target_eq (hr : Represents g P K l f s) {offset : ℤ} {whence : Whence}
    (hnonneg : 0 ≤ f.target offset whence) (hlt : f.target offset whence < 2 ^ 31) :
    s.target offset whence = f.target offset whence := by
  cases whence with
  | set => rfl
  | cur =>
    rw [Sys.target, hr.sound.fpos]
    exact int32_of_lt hnonneg hlt
  | fileEnd =>
    rw [Sys.target, hr.size]
    exact int32_of_lt hnonneg hlt

variable (h : g.Healthy) (hP : ∀ n, P n → g.database ≤ n)

include h hP

section

variable (hr : Represents g P K l f s)

include hr

theorem read (hsafe : s.ff.startcluster ≠ 0) (n : ℕ) :
    ∃ data s', Call.Returns (fatRead g n) s data s' ∧ Matches (f.ahead n) data ∧
      Represents g P K l { f with pos := f.pos + (f.ahead n).length } s' := by
  have hl : l ≠ [] := fun hnil => hsafe (hr.sound.startcluster_eq_zero.mpr hnil)
  obtain ⟨m, s', hm, hread, hsound, hsize, hbyte⟩ := hr.sound.fatRead h hP hl n
  have hlen : (f.ahead n).length = m := by
    rw [File.ahead, length_take, length_drop, hm, hr.size]
    omega
  refine ⟨_, s', hread, ⟨?_, fun j v hj => ?_⟩, ?_, hsize.trans hr.size, fun q v hq => ?_⟩
  · rw [Sys.length_bytes, hlen]
  · have hj' := (List.getElem?_eq_some_iff.mp hj).1
    rw [hlen] at hj'
    rw [File.ahead, getElem?_take_of_lt (by omega), getElem?_drop] at hj
    rw [Sys.getElem?_bytes hj', hr.byte _ v hj]
  · rw [hlen]
    exact hsound
  · exact (hbyte q (hr.lt_of_eq hq).1).trans (hr.byte q v hq)

theorem write {data : List UInt8} (hallows : f.Allows g K (.write data)) :
    ∃ l' s', Call.Returns (fatWrite g data) s data.length s' ∧
      Represents g P K l' (f.step (.write data)).2 s' := by
  obtain ⟨hK, hfit, hsmall⟩ := hallows
  obtain ⟨l', s', hwrite, hsound, hsize, hwritten⟩ := hr.sound.fatWrite h hP hK hfit hsmall
  have hle := hr.pos_le
  refine ⟨l', s', hwrite, hsound, ?_, fun q v hq => ?_⟩
  · rw [hsize, hr.size]
    change _ = ((overwrite f.content f.pos (data.map some)).length : ℤ)
    rw [overwrite, length_append, length_append, length_take, length_drop, length_map]
    omega
  · change (overwrite f.content f.pos (data.map some))[q]? = _ at hq
    rw [getElem?_overwrite hle, length_map] at hq
    split_ifs at hq with hin
    · have hval := hwritten.inside (q - f.pos) (by omega)
      rw [getElem?_map, Option.map_eq_some_iff] at hq
      obtain ⟨w, hw, hwv⟩ := hq
      rw [Nat.add_sub_cancel' hin.1, getD_eq_getElem?_getD, hw, Option.some.inj hwv] at hval
      exact hval
    · have hlt := hr.lt_of_eq hq
      exact (hwritten.outside q hlt.1 (by omega)).trans (hr.byte q v hq)

theorem seek {offset : ℤ} {whence : Whence}
    (hallows : f.Allows g K (.seek offset whence)) (hsafe : Safe s (.seek offset whence)) :
    ∃ l' s', Call.Returns (fatSeek g offset whence) s () s' ∧
      Represents g P K l' (f.step (.seek offset whence)).2 s' := by
  obtain ⟨hnonneg, hsmall, hroom⟩ := hallows
  have htarget := hr.target_eq hnonneg hsmall
  obtain ⟨t, ht⟩ := Int.eq_ofNat_of_zero_le hnonneg
  have hcs : 0 < g.clustersize := Nat.mul_pos h.secperclus_pos h.sectorsize_pos
  rw [ht] at htarget hsmall hroom
  have hK : 0 < t → t / g.clustersize < K := fun hpos =>
    (Nat.div_lt_iff_lt_mul hcs).mpr (by omega)
  have hsafe' : s.ff.size < t → s.ff.currentsector = 0 := fun hlt =>
    hsafe.resolve_left (by omega)
  obtain ⟨l', s', hseek, hsound, hsize, hbyte⟩ :=
    hr.sound.fatSeek h hP htarget (by omega) hK hsafe'
  have hnext : (f.step (.seek offset whence)).2 = ⟨f.extend t, t⟩ := by
    rw [File.step, ht]
    rfl
  rw [hnext]
  refine ⟨l', s', hseek, hsound, ?_, fun q v hq => ?_⟩
  · rw [hsize, hr.size, File.extend, length_append, length_replicate]
    omega
  · rcases Nat.lt_or_ge q f.content.length with hlt | hge
    · rw [File.extend, getElem?_append_left hlt] at hq
      exact (hbyte q (hr.lt_of_eq hq).1).trans (hr.byte q v hq)
    · -- the bytes of the gap are not specified
      rw [File.extend, getElem?_append_right hge] at hq
      have hnone := eq_of_mem_replicate (mem_of_getElem? hq)
      cases hnone

/-- **One call.** -/
theorem call {e : Event} (hallows : f.Allows g K e) (hsafe : Safe s e) :
    ∃ l' s' result, Call.Returns (e.call g) s result s' ∧ (f.step e).1.Agrees result ∧
      Represents g P K l' (f.step e).2 s' := by
  cases e with
  | read n =>
    obtain ⟨data, s', hread, hmatches, hr'⟩ := hr.read h hP hsafe n
    refine ⟨l, s', .read data, ?_, hmatches, hr'⟩
    rw [Event.call, hread.bind_iff]
    exact Call.returns_pure
  | write data =>
    obtain ⟨l', s', hwrite, hr'⟩ := hr.write h hP hallows
    refine ⟨l', s', .write data.length, ?_, rfl, hr'⟩
    rw [Event.call, hwrite.bind_iff]
    exact Call.returns_pure
  | seek offset whence =>
    obtain ⟨l', s', hseek, hr'⟩ := hr.seek h hP hallows hsafe
    refine ⟨l', s', .seek, ?_, trivial, hr'⟩
    rw [Event.call, hseek.bind_iff]
    exact Call.returns_pure

end

/-- **A sequence of calls.** -/
theorem calls (events : List Event) :
    ∀ (l : List ℕ) (f : File) (s : Sys), Represents g P K l f s →
      Run.AllSteps (fun f e => some (File.step f e).2) (File.Allows g K) f events →
      Run.AllSteps (step g) Safe s events →
      ∃ results s', Call.Returns (calls g events) s results s' ∧
        List.Forall₂ Result.Agrees (f.steps events) results := by
  induction events with
  | nil => exact fun l f s _ _ _ => ⟨[], s, Call.returns_pure, List.Forall₂.nil⟩
  | cons e events ih =>
    intro l f s hr hallows hsafe
    obtain ⟨l', mid, result, hcall, hagrees, hr'⟩ := hr.call h hP hallows.1 hsafe.1
    have hstep : step g s e = some mid := by
      rw [step, hcall]
    obtain ⟨results, s', hcalls, hall⟩ := ih l' (f.step e).2 mid hr' (hallows.2 _ rfl)
      (hsafe.2 mid hstep)
    refine ⟨result :: results, s', ?_, List.Forall₂.cons hagrees hall⟩
    rw [Fat.calls, hcall.bind_iff, hcalls.bind_iff]
    exact Call.returns_pure

end Represents

theorem Reserved.database_le {fs : Fs} {n : ℕ} (hn : Reserved g l fs n) : g.database ≤ n := by
  obtain ⟨c, -, j, -, rfl⟩ := hn
  rw [Geo.firstSector]
  omega

theorem Opened.represents (ho : Opened g l s) :
    Represents g (Reserved g l s.fs) (room g l s) l (s.file g l) s := by
  have hsize := ho.size_nonneg
  have hfresh : Fresh g l 0 s.place := by
    refine ⟨ho.currentsector, ?_⟩
    cases l with
    | nil => exact .inl rfl
    | cons c l =>
      refine .inr ?_
      rw [Nat.zero_div, Nat.zero_div]
      exact congrArg some ho.currentcluster.symm
  refine ⟨⟨⟨⟨ho.cached, ho.chain, rfl, fun c hc j hj => ⟨c, hc, j, hj, rfl⟩⟩, ?_, ?_, ?_⟩,
    ho.mounted, ho.rdok, ho.wrok, ho.startcluster, ho.fpos, hsize, ho.size_le, ho.size_lt,
    .inr hfresh⟩, ?_, fun q v hq => ?_⟩
  · intro hd
    rw [ho.dirty] at hd
    cases hd
  · intro hv
    rw [ho.valid] at hv
    cases hv
  · intro hv
    rw [ho.valid] at hv
    cases hv
  · rw [Sys.file, length_map, Sys.length_bytes]
    omega
  · rw [Sys.file, getElem?_map, Option.map_eq_some_iff] at hq
    obtain ⟨w, hw, hwv⟩ := hq
    have hlt := (List.getElem?_eq_some_iff.mp hw).1
    rw [Sys.length_bytes] at hlt
    rw [Sys.getElem?_bytes hlt, Nat.zero_add] at hw
    rw [Option.some.inj hw, Option.some.inj hwv]

/-- **A file is an array of bytes with a position.** On every healthy volume, for every file and
every sequence of safe calls that its room allows, all calls succeed and return what they return on
the abstract file. -/
theorem file_behaves (g : Geo) (h : g.Healthy) (l : List ℕ) (s : Sys) (hopened : Opened g l s)
    (events : List Event)
    (hallows : Run.AllSteps (fun f e => some (File.step f e).2) (File.Allows g (room g l s))
      (s.file g l) events) (hsafe : Run.AllSteps (step g) Safe s events) :
    ∃ results s', Call.Returns (calls g events) s results s' ∧
      List.Forall₂ Result.Agrees ((s.file g l).steps events) results :=
  Represents.calls h (fun _ hn => hn.database_le) events l _ s hopened.represents hallows hsafe

/-! ### A small volume -/

/-- Four clusters of one sector of 512 bytes each, and two FATs of one sector, with entries of 16
bits. -/
def smallGeo : Geo where
  hwsectorsize := 512
  hwnsectors := 7
  fatbase := 1
  database := 3
  nclusters := 6
  nfatsects := 1
  fatnumfats := 2
  fatsecperclus := 1
  fstype := .fat16

/-- An empty file, the only one. -/
def emptyFile : Sys where
  fs :=
    { disk := fun _ => 0
      faults := []
      mounted := true
      currentsector := 0
      buffer := fun _ => 0
      dirty := false
      fsinextfree := 0
      fsifreecount := 0xffffffff
      fsidirty := false }
  ff :=
    { valid := false
      dirty := false
      modified := false
      rdok := true
      wrok := true
      sectorsincluster := 1
      currentcluster := 0
      size := 0
      startcluster := 0
      currentsector := 0
      cachesector := 0
      buffer := fun _ => 0 }
  fpos := 0

theorem smallGeo_healthy : smallGeo.Healthy where
  sectorsize := ⟨7, rfl⟩
  secperclus := ⟨0, by decide, rfl⟩
  numfats := by decide
  fatbase := by decide
  database := by decide
  clusters := by decide
  sectors := by decide
  small := by decide
  fits := by decide
  last := by decide

theorem emptyFile_opened : Opened smallGeo [] emptyFile where
  cached := by
    refine ⟨rfl, fun _ n _ hcur => ?_, fun hd => (by cases hd), fun hd => (by cases hd)⟩
    have hcur' : (0 : ℤ) = (1 + n : ℕ) := hcur
    omega
  chain := ⟨fun _ hc => absurd hc not_mem_nil, nodup_nil,
    fun _ _ _ hc => (by cases hc), fun _ hc => (by cases hc)⟩
  mounted := rfl
  rdok := rfl
  wrok := rfl
  startcluster := rfl
  currentcluster := rfl
  currentsector := rfl
  valid := rfl
  dirty := rfl
  fpos := rfl
  size_nonneg := by decide
  size_le := by decide
  size_lt := by decide

/-- Bytes are written over the end of a cluster, and some of them are read. -/
theorem file_behaves_small : ∃ results s',
    Call.Returns (calls smallGeo [.seek 510 .set, .write [1, 2, 3, 4], .seek (-3) .cur, .read 5])
      emptyFile results s' ∧
    List.Forall₂ Result.Agrees ((emptyFile.file smallGeo []).steps
      [.seek 510 .set, .write [1, 2, 3, 4], .seek (-3) .cur, .read 5]) results :=
  file_behaves smallGeo smallGeo_healthy [] emptyFile emptyFile_opened
    [.seek 510 .set, .write [1, 2, 3, 4], .seek (-3) .cur, .read 5] (by decide)
    (by decide +kernel)

/-- **A byte is written to the wrong place.** The seek goes behind the end of the file, so the
sector of the first write stays the current one, and the second write goes there. -/
theorem write_behind_gap :
    (calls smallGeo [.write [1], .seek 600 .set, .write [2], .seek 600 .set, .read 1]
        emptyFile).map (fun r => r.1.toOption) =
      some (some [.write 1, .seek, .write 1, .seek, .read [0]]) ∧ (emptyFile.file smallGeo []).steps
        [.write [1], .seek 600 .set, .write [2], .seek 600 .set, .read 1] =
      [.write 1, .seek, .write 1, .seek, .read [some 2]] := by
  decide +kernel

end GreenboneFeeder.Fat
