import GreenboneFeeder.Nxffs.Frame
import GreenboneFeeder.Lib.Run
import Mathlib.Data.List.Perm.Basic

/-!
# At most one writer

A task that opens a file for writing takes `wrsem` and keeps it until the file is closed. So the
units of the semaphore, the tasks that are opening a file for writing and the files open for writing
should be one together. They are one more for every call of `nxffs_wrinode` (`Nxffs.Sys.Balanced`),
which gives `wrsem` back: in `nxffs_wrclose`, which then does the same once more, and in packing, in
the middle of a write.
-/

namespace GreenboneFeeder.Nxffs

open Option List Volume

open GreenboneFeeder.Frame

variable {φ : Type} {oflags : Oflags} {env : Supply} {ret : Except ℤ Unit} {name : Name}
  {v v' : Volume φ} {r : Ref}

/-! ### Opening and closing -/

namespace Volume

/-- `g_wrfile` is that of a file open for writing, with one reference. -/
def WriterOpen (v : Volume φ) : Prop :=
  v.wrfile.ofile.crefs = 1 ∧ v.wrfile.ofile.oflags.wrok = true

/-- An open file is in the list, or some file leads on to it. -/
def Linked (v : Volume φ) (r : Ref) : Prop :=
  v.ofiles = some r ∨ ∃ r', (v.ofile r').flink = some r

/-- **What every call keeps** that does not take `wrsem`, nor give it back but in
`nxffs_wrinode`. -/
structure Tracks (v v' : Volume φ) : Prop where
  posts : v'.wrsem + v.wrinodes = v.wrsem + v'.wrinodes
  grows : v.wrinodes ≤ v'.wrinodes
  readers : ∀ n, (v.readers n).oflags.wrok = false → (v'.readers n).oflags.wrok = false
  writer : v.WriterOpen → v'.WriterOpen

instance : Std.Refl (Tracks (φ := φ)) := ⟨fun _ => ⟨rfl, Nat.le_refl _, fun _ => id, id⟩⟩

instance : IsTrans (Volume φ) Tracks where
  trans _ _ _ h h' :=
    { posts := by
        have hp := h.posts
        have hp' := h'.posts
        omega
      grows := Nat.le_trans h.grows h'.grows
      readers := fun n => h'.readers n ∘ h.readers n
      writer := h'.writer ∘ h.writer }

variable {v v' : Volume φ}

theorem Moves.tracks (h : v.Moves v') : v.Tracks v' where
  posts := h.posts
  grows := h.grows
  readers n hn := (congrArg Oflags.wrok (h.oflags (.reader n))).trans hn
  writer hw := ⟨(h.crefs .writer).trans hw.1,
    (congrArg Oflags.wrok (h.oflags .writer)).trans hw.2⟩

theorem Moves.linked (h : v.Moves v') (hr : v'.Linked r) : v.Linked r := by
  rcases hr with hr | ⟨r', hr⟩
  · exact .inl (h.ofiles ▸ hr)
  · exact .inr ⟨r', h.flink r' ▸ hr⟩

/-- The count of references and the links of a file may change, but not the count of the
writer. -/
theorem Tracks.setOfile {f : Ofile} (hoflags : f.oflags = (v.ofile r).oflags)
    (hcrefs : r = .writer → f.crefs = v.wrfile.ofile.crefs) : v.Tracks (v.setOfile f r) where
  posts := by simp
  grows := by simp
  readers n hn := by
    show ((v.setOfile f r).ofile (.reader n)).oflags.wrok = false
    rw [ofile_setOfile]
    split
    · rename_i hr
      rw [hoflags, ← hr]
      exact hn
    · exact hn
  writer hw := by
    rcases r with - | n
    · exact ⟨(hcrefs rfl).trans hw.1, (congrArg Oflags.wrok hoflags).trans hw.2⟩
    · exact hw

theorem linked_of_setOfile {f : Ofile} {r' r₀ : Ref} (hflink : f.flink = (v.ofile r₀).flink)
    (h : (v.setOfile f r).Linked r') : v.Linked r' := by
  rcases h with h | ⟨r'', h⟩
  · exact .inl (by simpa using h)
  · rw [ofile_setOfile] at h
    split at h
    · exact .inr ⟨r₀, hflink ▸ h⟩
    · exact .inr ⟨r'', h⟩

theorem Tracks.addReader (v : Volume φ) (entry : Entry) : v.Tracks (v.addReader entry) where
  posts := rfl
  grows := Nat.le_refl _
  readers n hn := by
    rw [Volume.addReader]
    dsimp only
    rw [Function.update_apply]
    split
    · rfl
    · exact hn
  writer := id

theorem linked_of_addReader {entry : Entry} (h : (v.addReader entry).Linked .writer) :
    v.Linked .writer := by
  rcases h with h | ⟨r, h⟩
  · exact absurd (some.inj h) nofun
  · cases r with
    | writer => exact .inr ⟨.writer, h⟩
    | reader n =>
      dsimp only [ofile, addReader] at h
      rw [Function.update_apply] at h
      split at h
      · exact .inl h
      · exact .inr ⟨.reader n, h⟩

theorem linked_of_wrsem {n : ℕ} (h : { v with wrsem := n }.Linked r) : v.Linked r := by
  rcases h with h | ⟨r', h⟩
  · exact .inl h
  · exact .inr ⟨r', by cases r' <;> exact h⟩

theorem linked_of_walk {p : Ref → Bool} :
    ∀ {fuel : ℕ} {cur : Option Ref}, (∀ r', cur = some r' → v.Linked r') →
      v.walk p fuel cur = some (some r) → v.Linked r
  | 0, none, _, h => nomatch h
  | _ + 1, none, _, h => nomatch h
  | fuel + 1, some r', hcur, h => by
    rw [walk] at h
    split at h
    · exact some.inj (some.inj h) ▸ hcur r' rfl
    · exact linked_of_walk (fun r'' hr => .inr ⟨r', hr⟩) h

end Volume

section Calls

variable (M : Media φ) (cfg : Config)

theorem tracks_of_keeps {α : Type} {m : Call φ α} (h : KeepsFiles m) : Keeps Volume.Tracks m :=
  Keeps.mono h fun _ _ => Volume.Moves.tracks

theorem findofile_spec {r : Option Ref}
    (h : findofile name v = some (r, v')) : v' = v ∧ ∀ r', r = some r' → v.Linked r' := by
  obtain ⟨w, mid, hget, h⟩ := bind_eq_some.mp h
  cases hget
  obtain ⟨b, hwalk, hb⟩ := bind_eq_some_iff.mp h
  cases hb
  refine ⟨rfl, ?_⟩
  rintro r' rfl
  exact linked_of_walk (fun r'' hr => .inl hr) hwalk

theorem tracks_wrplace (name : Name) : Keeps Volume.Tracks (wrplace M cfg name) := by
  refine (tracks_of_keeps
    (keeps_findroom keeps_hdrroom keeps_pure)).bindOk rfl fun packed => ?_
  refine (tracks_of_keeps
    (keeps_findroom keeps_namroom keeps_pure)).bindOk rfl fun packed => ?_
  refine keeps_get.bind fun _ => (tracks_of_keeps keeps_flash).bindOk rfl fun _ => ?_
  exact (keeps_modify fun v => ⟨rfl, Nat.le_refl _, fun _ => id, id⟩).ret

/-- **A file that is created is open for writing** from then on, even if there is no room
for it. -/
theorem wrcreate_spec {truncate : Bool} (hwrok : oflags.wrok = true)
    (h : wrcreate M cfg name oflags truncate env v = some (ret, v')) :
    v.Tracks v' ∧ (v' = v ∧ ret ≠ .ok () ∨ v'.WriterOpen) := by
  rw [wrcreate] at h
  split at h
  · cases h
    exact ⟨refl_of _ _, .inl ⟨rfl, nofun⟩⟩
  split at h
  · cases h
    exact ⟨refl_of _ _, .inl ⟨rfl, nofun⟩⟩
  · obtain ⟨_, mid, hset, h⟩ := bind_eq_some.mp h
    have hmid : v.Tracks mid ∧ mid.WriterOpen := by
      obtain ⟨-, rfl⟩ := Prod.mk.inj (some.inj hset)
      exact ⟨⟨rfl, Nat.le_refl _, fun _ => id, fun _ => ⟨rfl, hwrok⟩⟩, rfl, hwrok⟩
    have htail : Volume.Tracks mid v' := by
      split at h
      · exact keeps_pure _ _ _ h
      · exact ((tracks_of_keeps keeps_modifyEntry).bind fun _ => tracks_wrplace M cfg name) _ _ _ h
    exact ⟨trans_of _ hmid.1 htail, .inr (htail.writer hmid.2)⟩

theorem wrprepare_spec (hwrok : oflags.wrok = true)
    (h : wrprepare M cfg name oflags env v = some (ret, v')) :
    v.Tracks v' ∧ (v.Moves v' ∧ ret ≠ .ok () ∨ v'.WriterOpen) := by
  obtain ⟨r, mid, hfind, h⟩ := bind_eq_some.mp h
  have hmid : v.Moves mid := keeps_flash _ _ _ hfind
  have hcreate {truncate : Bool}
      (h : wrcreate M cfg name oflags truncate env mid = some (ret, v')) :
      v.Tracks v' ∧ (v.Moves v' ∧ ret ≠ .ok () ∨ v'.WriterOpen) := by
    obtain ⟨ht, hopen⟩ := wrcreate_spec M cfg hwrok h
    refine ⟨trans_of _ hmid.tracks ht, hopen.imp_left ?_⟩
    rintro ⟨rfl, hret⟩
    exact ⟨hmid, hret⟩
  have hfail {e : ℤ} (h : (pure (.error e) : Call φ (Except ℤ Unit)) mid = some (ret, v')) :
      v.Tracks v' ∧ (v.Moves v' ∧ ret ≠ .ok () ∨ v'.WriterOpen) := by
    cases h
    exact ⟨hmid.tracks, .inl ⟨hmid, nofun⟩⟩
  cases r with
  | error e => exact hcreate h
  | ok entry =>
    obtain ⟨r, mid', hofile, h⟩ := bind_eq_some.mp h
    obtain ⟨rfl, -⟩ := findofile_spec hofile
    cases r with
    | some r => exact hfail h
    | none =>
      dsimp only at h
      split at h
      · exact hfail h
      split at h
      · exact hcreate h
      · exact hfail h

/-- **`nxffs_wropen`** gives `wrsem` back exactly if it fails. -/
theorem wropen_spec {ret : Except ℤ Ref} (hwrok : oflags.wrok = true)
    (h : wropen M cfg name oflags env v = some (ret, v')) :
    (ret = .ok .writer ∧ v.Tracks v' ∧ v'.WriterOpen) ∨
    (∃ e, ret = .error e) ∧ ∃ mid, v.Tracks mid ∧ (v.Moves mid ∨ mid.WriterOpen) ∧
      v' = { mid with wrsem := mid.wrsem + 1 } := by
  obtain ⟨r, mid, hprep, h⟩ := bind_eq_some.mp h
  obtain ⟨ht, hopen⟩ := wrprepare_spec M cfg hwrok hprep
  cases r with
  | ok _ =>
    cases h
    rcases hopen with ⟨-, hne⟩ | hopen
    · exact absurd rfl hne
    · exact .inl ⟨rfl, ht, hopen⟩
  | error e =>
    cases h
    exact .inr ⟨⟨e, rfl⟩, mid, ht, hopen.imp_left And.left, rfl⟩

/-- `nxffs_remofile` leads past one open file, and to none that was not led to. -/
theorem remofile_spec {a : Unit}
    (h : remofile r v = some (a, v')) : v.Tracks v' ∧ ∀ r', v'.Linked r' → v.Linked r' := by
  obtain ⟨w, mid, hget, h⟩ := bind_eq_some.mp h
  cases hget
  obtain ⟨_, mid, hlift, h⟩ := bind_eq_some.mp h
  obtain ⟨b, -, hlift⟩ := bind_eq_some_iff.mp hlift
  obtain ⟨rfl, rfl⟩ := Prod.mk.inj (some.inj hlift)
  rcases b with - | - | prev
  · obtain ⟨-, rfl⟩ := Prod.mk.inj (some.inj h)
    exact ⟨refl_of _ _, fun _ => id⟩
  · obtain ⟨-, rfl⟩ := Prod.mk.inj (some.inj h)
    refine ⟨⟨rfl, Nat.le_refl _, fun _ => id, id⟩, ?_⟩
    rintro r' (hr | ⟨r'', hr⟩)
    · exact .inr ⟨r, hr⟩
    · exact .inr ⟨r'', by cases r'' <;> exact hr⟩
  · obtain ⟨-, rfl⟩ := Prod.mk.inj (some.inj h)
    exact ⟨.setOfile rfl (by rintro rfl; rfl), fun _ => linked_of_setOfile rfl⟩

theorem keeps_freeofile (r : Ref) : KeepsFiles (φ := φ) (freeofile r) :=
  keeps_modify fun v => .setEntry v _ r

theorem keeps_wrfinish : KeepsFiles (wrfinish M cfg) := by
  refine keeps_get.bind fun v => Keeps.bindOk ?_ rfl fun _ => Keeps.bindOk ?_ rfl fun _ => ?_
  · exact .ite keeps_wrblkhdr keeps_pure
  · rw [wrremove]
    split
    · exact keeps_rminode
    · exact keeps_pure
  · exact keeps_get.bind fun _ => keeps_wrinode

/-- **Closing the file that is open for writing** gives `wrsem` back once, on top of what
`nxffs_wrinode` does. -/
theorem close_writer_spec (hopen : v.WriterOpen) (h : close M cfg .writer v = some (ret, v')) :
    ∃ mid, v.Tracks mid ∧ v' = { mid with wrsem := mid.wrsem + 1 } := by
  obtain ⟨w, mid, hget, h⟩ := bind_eq_some.mp h
  cases hget
  rw [if_pos (show (ofile _ .writer).crefs = 1 from hopen.1)] at h
  obtain ⟨_, mid, hrem, h⟩ := bind_eq_some.mp h
  rw [if_pos (show (ofile _ .writer).oflags.wrok = true from hopen.2)] at h
  obtain ⟨_, mid', hclose, h⟩ := bind_eq_some.mp h
  obtain ⟨_, mid'', hfinish, hpost⟩ := bind_eq_some.mp hclose
  obtain ⟨-, rfl⟩ := Prod.mk.inj (some.inj hpost)
  obtain ⟨_, v'', hfree, h⟩ := bind_eq_some.mp h
  obtain ⟨-, rfl⟩ := Prod.mk.inj (some.inj h)
  obtain ⟨-, rfl⟩ := Prod.mk.inj (some.inj hfree)
  have ht : Volume.Tracks _ mid'' :=
    trans_of _ (remofile_spec hrem).1 (keeps_wrfinish M cfg _ _ _ hfinish).tracks
  have hfree := Volume.Moves.setEntry mid'' { mid''.wrfile.ofile.entry with name := none } .writer
  exact ⟨_, trans_of _ ht hfree.tracks, rfl⟩

theorem close_reader_spec {n : ℕ} (hwrok : (v.readers n).oflags.wrok = false)
    (h : close M cfg (.reader n) v = some (ret, v')) :
    v.Tracks v' ∧ ∀ r', v'.Linked r' → v.Linked r' := by
  obtain ⟨w, mid, hget, h⟩ := bind_eq_some.mp h
  cases hget
  split at h
  · obtain ⟨_, mid, hrem, h⟩ := bind_eq_some.mp h
    rw [if_neg (show ¬ (ofile _ (.reader n)).oflags.wrok = true by
      rw [ofile, hwrok]; exact Bool.false_ne_true)] at h
    obtain ⟨_, v'', hfree, h⟩ := bind_eq_some.mp h
    obtain ⟨-, rfl⟩ := Prod.mk.inj (some.inj h)
    have hmoves := keeps_freeofile _ _ _ _ hfree
    obtain ⟨ht, hlink⟩ := remofile_spec hrem
    exact ⟨trans_of _ ht hmoves.tracks, fun r' hr => hlink r' (hmoves.linked hr)⟩
  · obtain ⟨-, rfl⟩ := Prod.mk.inj (some.inj h)
    exact ⟨.setOfile rfl (by rintro ⟨⟩), fun _ => linked_of_setOfile rfl⟩

/-- **`nxffs_rdopen`** opens a file that is not open for writing. -/
theorem rdopen_spec {ret : Except ℤ Ref} (hlinked : v.Linked .writer → v.WriterOpen)
    (h : rdopen M name env v = some (ret, v')) :
    v.Tracks v' ∧ (v'.Linked .writer → v.Linked .writer) ∧
      ∀ r, ret = .ok r → ∃ n, r = .reader n ∧ (v'.readers n).oflags.wrok = false := by
  obtain ⟨found, mid, hfind, h⟩ := bind_eq_some.mp h
  obtain ⟨rfl, hin⟩ := findofile_spec hfind
  have hfail {e : ℤ} {w : Volume φ} (hw : mid.Moves w)
      (h : (pure (.error e) : Call φ (Except ℤ Ref)) w = some (ret, v')) :
      mid.Tracks v' ∧ (v'.Linked .writer → mid.Linked .writer) ∧
        ∀ r, ret = .ok r → ∃ n, r = .reader n ∧ (v'.readers n).oflags.wrok = false := by
    cases h
    exact ⟨hw.tracks, hw.linked, nofun⟩
  cases found with
  | some r =>
    obtain ⟨w, mid', hget, h⟩ := bind_eq_some.mp h
    cases hget
    split at h
    · exact hfail (refl_of _ _) h
    · rename_i hwrok
      cases h
      cases r with
      | writer => exact absurd (hlinked (hin _ rfl)).2 hwrok
      | reader n =>
        refine ⟨.setOfile rfl (by rintro ⟨⟩), ?_, ?_⟩
        · exact linked_of_setOfile rfl
        · rintro r hr
          refine ⟨n, (Except.ok.inj hr).symm, ?_⟩
          simpa [setOfile, ofile] using hwrok
  | none =>
    dsimp only at h
    split at h
    · exact hfail (refl_of _ _) h
    obtain ⟨found, mid', hinode, h⟩ := bind_eq_some.mp h
    have hmoves : mid.Moves mid' := keeps_flash _ _ _ hinode
    cases found with
    | error e => exact hfail hmoves h
    | ok entry =>
      -- a new open file for reading, in front of the list
      cases h
      refine ⟨trans_of _ hmoves.tracks (.addReader mid' entry),
        fun hl => hmoves.linked (linked_of_addReader hl), ?_⟩
      · rintro r hr
        refine ⟨mid'.nreaders, (Except.ok.inj hr).symm, ?_⟩
        simp [addReader]

end Calls

/-! ### Runs -/

namespace Sys

/-- **The balance**: the units of `wrsem` and those who hold one are one together, and one
more for every call of `nxffs_wrinode`. -/
structure Balanced (s : Sys φ) : Prop where
  units : s.volume.wrsem + s.pending.length + s.files.count .writer = 1 + s.volume.wrinodes
  pending : ∀ p ∈ s.pending, p.2.wrok = true
  opened : .writer ∈ s.files → s.volume.WriterOpen
  linked : s.volume.Linked .writer → s.volume.WriterOpen
  readers : ∀ n, .reader n ∈ s.files → (s.volume.readers n).oflags.wrok = false

theorem balanced_init (m : φ) : (init m).Balanced where
  units := rfl
  pending _ h := nomatch h
  opened h := nomatch h
  linked h := by
    rcases h with h | ⟨r, h⟩
    · exact nomatch h
    · cases r <;> exact nomatch h
  readers _ h := nomatch h

theorem length_eraseIdx_of_getElem? {α : Type} {l : List α} {i : ℕ} {a : α}
    (h : l[i]? = some a) : (l.eraseIdx i).length + 1 = l.length := by
  obtain ⟨hi, -⟩ := List.getElem?_eq_some_iff.mp h
  rw [length_eraseIdx_of_lt hi]
  omega

theorem count_eraseIdx {α : Type} [DecidableEq α] {l : List α} {i : ℕ} {a : α}
    (h : l[i]? = some a) (b : α) :
    l.count b = (l.eraseIdx i).count b + if a = b then 1 else 0 := by
  obtain ⟨hi, rfl⟩ := List.getElem?_eq_some_iff.mp h
  rw [← (getElem_cons_eraseIdx_perm hi).count_eq b, count_cons]
  simp only [beq_iff_eq]

section Runs

variable {M : Media φ} {cfg : Config} {s s' : Sys φ}

/-- A call that tracks the volume and leads to nothing new keeps the balance. -/
theorem Balanced.tracks (h : s.Balanced) (ht : s.volume.Tracks v)
    (hl : v.Linked .writer → s.volume.Linked .writer) : { s with volume := v }.Balanced where
  units := by
    have hu := h.units
    have hp := ht.posts
    dsimp only
    omega
  pending := h.pending
  opened hw := ht.writer (h.opened hw)
  linked hw := ht.writer (h.linked (hl hw))
  readers n hn := ht.readers n (h.readers n hn)

/-- **Every event keeps the balance.** -/
theorem Balanced.step (h : s.Balanced) {e : Event φ} (hs : s.step M cfg e = some s') :
    s'.Balanced := by
  have hu := h.units
  cases e with
  | take name oflags =>
    rw [Sys.step] at hs
    split at hs
    · rename_i hc
      obtain ⟨hwrok, -, hpos⟩ := hc
      cases hs
      refine { h with units := ?_, pending := ?_ }
      · dsimp only [length_cons]
        omega
      · rintro p (- | ⟨-, hp⟩)
        · exact hwrok
        · exact h.pending p hp
    · exact nomatch hs
  | wropen i env =>
    obtain ⟨⟨name, oflags⟩, hi, hs⟩ := bind_eq_some_iff.mp hs
    obtain ⟨⟨ret, v⟩, hopen, hs⟩ := bind_eq_some_iff.mp hs
    cases hs
    have hlen := length_eraseIdx_of_getElem? hi
    have hpend : ∀ p ∈ s.pending.eraseIdx i, p.2.wrok = true :=
      fun p hp => h.pending p (mem_of_mem_eraseIdx hp)
    have hwrok := h.pending _ (mem_of_getElem? hi)
    rcases wropen_spec M cfg hwrok hopen with
      ⟨rfl, ht, hw⟩ | ⟨⟨e, rfl⟩, mid, ht, hmid, rfl⟩
    · -- the unit goes over to the open file
      refine ⟨?_, hpend, fun _ => hw, fun _ => hw, ?_⟩
      · have hp := ht.posts
        dsimp only [Sys.opened]
        rw [count_cons_self]
        omega
      · rintro n (- | ⟨-, hn⟩)
        exact ht.readers n (h.readers n hn)
    · -- the unit is given back
      refine ⟨?_, hpend, fun hin => ht.writer (h.opened hin), fun hl => ?_,
        fun n hn => ht.readers n (h.readers n hn)⟩
      · have hp := ht.posts
        dsimp only [Sys.opened]
        omega
      · rcases hmid with hmid | hmid
        · exact ht.writer (h.linked (hmid.linked (linked_of_wrsem hl)))
        · exact hmid
  | interrupt i =>
    obtain ⟨p, hi, hs⟩ := bind_eq_some_iff.mp hs
    cases hs
    have hlen := length_eraseIdx_of_getElem? hi
    refine ⟨?_, fun p hp => h.pending p (mem_of_mem_eraseIdx hp), h.opened,
      fun hl => h.linked (linked_of_wrsem hl), h.readers⟩
    dsimp only
    omega
  | rdopen name env =>
    obtain ⟨⟨ret, v⟩, hopen, hs⟩ := bind_eq_some_iff.mp hs
    cases hs
    obtain ⟨ht, hl, hr⟩ := rdopen_spec M h.linked hopen
    have hv := h.tracks ht hl
    cases ret with
    | error e => exact hv
    | ok r =>
      obtain ⟨n, rfl, hn⟩ := hr r rfl
      refine ⟨?_, hv.pending, ?_, hv.linked, ?_⟩
      · have hu := hv.units
        exact hu
      · rintro (- | ⟨-, hw⟩)
        exact hv.opened hw
      · rintro n' (- | ⟨-, hn'⟩)
        · exact hn
        · exact hv.readers n' hn'
  | write i buffer =>
    obtain ⟨r, hi, hs⟩ := bind_eq_some_iff.mp hs
    obtain ⟨⟨ret, v⟩, hwrite, hs⟩ := bind_eq_some_iff.mp hs
    cases hs
    have hmoves := keeps_write _ _ _ hwrite
    exact h.tracks hmoves.tracks hmoves.linked
  | close i =>
    obtain ⟨r, hi, hs⟩ := bind_eq_some_iff.mp hs
    obtain ⟨⟨ret, v⟩, hclose, hs⟩ := bind_eq_some_iff.mp hs
    cases hs
    have hcount := count_eraseIdx hi .writer
    cases r with
    | writer =>
      have hw := h.opened (mem_of_getElem? hi)
      obtain ⟨mid, ht, rfl⟩ := close_writer_spec M cfg hw hclose
      have hopen := ht.writer hw
      refine ⟨?_, h.pending, fun _ => hopen, fun _ => hopen,
        fun n hn => ht.readers n (h.readers n (mem_of_mem_eraseIdx hn))⟩
      have hp := ht.posts
      rw [if_pos rfl] at hcount
      dsimp only
      omega
    | reader n =>
      have hn := h.readers n (mem_of_getElem? hi)
      obtain ⟨ht, hl⟩ := close_reader_spec M cfg hn hclose
      have hv := h.tracks ht (hl .writer)
      refine ⟨?_, hv.pending, fun hw => hv.opened (mem_of_mem_eraseIdx hw), hv.linked,
        fun n hn => hv.readers n (mem_of_mem_eraseIdx hn)⟩
      have hu := hv.units
      rw [if_neg nofun] at hcount
      dsimp only at hu ⊢
      omega
  | media m =>
    cases hs
    have hmoves := Volume.Moves.media s.volume m
    exact h.tracks hmoves.tracks hmoves.linked

/-- **The semaphore lets in one writer exactly as long as no inode header has been written.** In
every run, whoever opens a file for writing or has one open is alone, and `wrsem` is `0` then and
`1` otherwise, if and only if `nxffs_wrinode` has never been called: neither because a file that was
written is closed, nor because an inode whose header lies in an earlier erase block is packed. -/
theorem single_writer_iff (m : φ) (es : List (Event φ))
    (hr : Run.run (Sys.step M cfg) (Sys.init m) es = some s) :
    (s.pending.length + s.files.count .writer ≤ 1 ∧
      s.volume.wrsem = if s.pending.length + s.files.count .writer = 0 then 1 else 0) ↔
    s.volume.wrinodes = 0 := by
  have h : s.Balanced := Run.invariant (fun _ _ _ h hs => h.step hs) es (balanced_init m) hr
  have hu := h.units
  constructor
  · rintro ⟨hle, hsem⟩
    split at hsem <;> omega
  · split <;> omega

end Runs

end Sys

/-! ### Two writers -/

/-- A FLASH on which everything succeeds and no file is found. -/
def blank : Media Unit where
  validblock n _ := (.ok n, ())
  nextentry _ _ := (.error (-enoent), ())
  findinode _ _ := (.error (-enoent), ())
  nextblock _ _ := (.error (-enoent), ())
  rdblkhdr _ _ := (.ok 0, ())
  wrreserve _ _ := (.ok (), ())
  wrverify _ _ := (.ok (), ())
  wrname _ _ _ := (.ok (), ())
  putInode _ _ := (.ok (), ())
  putDatHdr _ _ _ := (.ok (), ())
  markDeleted _ _ := (.ok (), ())
  wrcache _ := (.ok (), ())
  reformat _ := (.ok (), ())
  seek _ _ _ := ()
  ioblock _ := 0
  iooffset _ := 0
  froffset _ := 0
  setFroffset _ _ := ()
  crc32 _ _ _ := 0
  erased _ len _ := len
  copyin _ _ _ := ()
  bread _ _ := (.ok (), ())
  mtdErase _ _ := (.ok (), ())
  bwrite _ _ := (.ok (), ())
  packvalid _ _ := true
  packErase _ _ _ := ()
  packName _ _ _ := ()
  packCopy _ _ _ _ := ()
  packDatHdr _ _ _ := ()
  packInodeHdr _ _ _ := ()

def smallConfig : Config where
  blocksize := 64
  blkper := 2
  neraseblocks := 4
  maxnamlen := 16
  packthreshold := 8
  tailthreshold := 8
  rounds := 8

/-- A file is opened for writing, and closed. -/
def createFlags : Oflags := { wrok := true, creat := true }

def createFile (name : Name) : List (Event Unit) :=
  [.take name createFlags, .wropen 0 { utc := 0, nomem := false }]

/-- A file is being written. -/
theorem single_writer_iff_open :
    ∃ s, Run.run (Sys.step blank smallConfig) (Sys.init ()) (createFile [97]) = some s ∧
      s.files = [.writer] ∧
      ((s.pending.length + s.files.count .writer ≤ 1 ∧
        s.volume.wrsem = if s.pending.length + s.files.count .writer = 0 then 1 else 0) ↔
      s.volume.wrinodes = 0) :=
  Run.exists_eq_some (by decide) fun _ hs hfiles =>
    ⟨hfiles, Sys.single_writer_iff () (createFile [97]) hs⟩

/-- **Two files are open for writing at the same time** once a file has been written: closing
it gives `wrsem` back twice. -/
theorem two_writers :
    ∃ s s', Run.run (Sys.step blank smallConfig) (Sys.init ())
        (createFile [97] ++ [.close 0]) = some s ∧ s.files = [] ∧ s.volume.wrsem = 2 ∧
      Run.run (Sys.step blank smallConfig) s (createFile [98] ++ createFile [99]) = some s' ∧
      s'.files = [.writer, .writer] := by
  obtain ⟨s, hs, h⟩ := (any_eq_true _ _).mp
    (by decide : (Run.run (Sys.step blank smallConfig) (Sys.init ())
        (createFile [97] ++ [.close 0])).any (fun s => decide (s.files = [] ∧ s.volume.wrsem = 2) &&
          (Run.run (Sys.step blank smallConfig) s (createFile [98] ++ createFile [99])).any
            fun s' => decide (s'.files = [.writer, .writer])) = true)
  obtain ⟨hclosed, hopen⟩ := Bool.and_eq_true_iff.mp h
  obtain ⟨hfiles, hsem⟩ := of_decide_eq_true hclosed
  obtain ⟨s', hs', hfiles'⟩ := (any_eq_true _ _).mp hopen
  exact ⟨s, s', hs, hfiles, hsem, hs', of_decide_eq_true hfiles'⟩

end GreenboneFeeder.Nxffs
