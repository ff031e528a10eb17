import GreenboneFeeder.Nxffs.Model

/-!
# What packing and writing leave alone

Packing moves inodes about and writing appends to the open file. Neither opens or closes a file, so
the list of open files, the reference counts and the open flags stay as they are
(`Nxffs.Volume.Moves`). But every call of `nxffs_wrinode` gives the semaphore `wrsem` back once.
-/

namespace GreenboneFeeder.Nxffs

open GreenboneFeeder.Frame

variable {φ : Type} {round : Pack → Call φ (Pack × Round)}

theorem Volume.ofile_setOfile (v : Volume φ) (f : Ofile) (r r' : Ref) :
    (v.setOfile f r).ofile r' = if r' = r then f else v.ofile r' := by
  rcases r with - | n <;> rcases r' with - | n'
  · rfl
  · rfl
  · rfl
  · simp only [setOfile, ofile, Function.update_apply, Ref.reader.injEq]

@[simp] theorem Volume.wrsem_setOfile (v : Volume φ) (f : Ofile) (r : Ref) :
    (v.setOfile f r).wrsem = v.wrsem := by
  cases r <;> rfl

@[simp] theorem Volume.wrinodes_setOfile (v : Volume φ) (f : Ofile) (r : Ref) :
    (v.setOfile f r).wrinodes = v.wrinodes := by
  cases r <;> rfl

@[simp] theorem Volume.ofiles_setOfile (v : Volume φ) (f : Ofile) (r : Ref) :
    (v.setOfile f r).ofiles = v.ofiles := by
  cases r <;> rfl

/-- **The files stay open as they are**, and `wrsem` is given back once for every call of
`nxffs_wrinode`. -/
structure Volume.Moves (v v' : Volume φ) : Prop where
  posts : v'.wrsem + v.wrinodes = v.wrsem + v'.wrinodes
  grows : v.wrinodes ≤ v'.wrinodes
  ofiles : v'.ofiles = v.ofiles
  flink : ∀ r, (v'.ofile r).flink = (v.ofile r).flink
  crefs : ∀ r, (v'.ofile r).crefs = (v.ofile r).crefs
  oflags : ∀ r, (v'.ofile r).oflags = (v.ofile r).oflags

namespace Volume.Moves

instance : Std.Refl (Volume.Moves (φ := φ)) :=
  ⟨fun _ => ⟨rfl, Nat.le_refl _, rfl, fun _ => rfl, fun _ => rfl, fun _ => rfl⟩⟩

instance : IsTrans (Volume φ) Volume.Moves where
  trans _ _ _ h h' :=
    { posts := by
        have hp := h.posts
        have hp' := h'.posts
        omega
      grows := Nat.le_trans h.grows h'.grows
      ofiles := h'.ofiles.trans h.ofiles
      flink := fun r => (h'.flink r).trans (h.flink r)
      crefs := fun r => (h'.crefs r).trans (h.crefs r)
      oflags := fun r => (h'.oflags r).trans (h.oflags r) }

theorem media (v : Volume φ) (m : φ) : v.Moves { v with media := m } :=
  ⟨rfl, Nat.le_refl _, rfl, fun r => by cases r <;> rfl, fun r => by cases r <;> rfl,
    fun r => by cases r <;> rfl⟩

theorem post (v : Volume φ) :
    v.Moves { v with wrsem := v.wrsem + 1, wrinodes := v.wrinodes + 1 } :=
  ⟨by dsimp only; omega, Nat.le_succ _, rfl, fun r => by cases r <;> rfl,
    fun r => by cases r <;> rfl, fun r => by cases r <;> rfl⟩

theorem setEntry (v : Volume φ) (e : Entry) (r : Ref) :
    v.Moves (v.setOfile { v.ofile r with entry := e } r) := by
  refine ⟨by simp, by simp, by simp, fun r' => ?_, fun r' => ?_, fun r' => ?_⟩
  all_goals
    rw [ofile_setOfile]
    split
    · rename_i hr
      rw [hr]
    · rfl

theorem setWrfile (v : Volume φ) {w : Wrfile} (hw : w.ofile = v.wrfile.ofile) :
    v.Moves { v with wrfile := w } := by
  refine ⟨rfl, Nat.le_refl _, rfl, fun r => ?_, fun r => ?_, fun r => ?_⟩ <;>
    cases r <;> first | rfl | exact congrArg _ hw

end Volume.Moves

/-! ### The functions of the FLASH -/

section Calls

variable {α : Type} {M : Media φ} {cfg : Config} {pack : Pack} {p : Packing} {entry : Entry}
  {name : Name} {offset size : ℕ} {buffer : List UInt8}

/-- A call that only moves. -/
abbrev KeepsFiles (m : Call φ α) : Prop := Keeps Volume.Moves m

theorem keeps_flash {f : φ → α × φ} : KeepsFiles (flash f) := by
  rintro v a v' h
  obtain ⟨-, rfl⟩ := Prod.mk.inj (Option.some.inj h)
  exact .media v _

theorem keeps_peek {f : φ → α} : KeepsFiles (peek f) :=
  keeps_get.ret

theorem keeps_poke {f : φ → φ} : KeepsFiles (poke f) :=
  keeps_modify fun v => .media v _

theorem keeps_ioseek : KeepsFiles (ioseek M cfg offset) := keeps_poke

theorem keeps_iotell : KeepsFiles (iotell M cfg) := keeps_peek

theorem keeps_modifyEntry {f : Entry → Entry} : KeepsFiles (φ := φ) (modifyEntry f) :=
  keeps_modify fun v => .setEntry v _ .writer

theorem keeps_lift {o : Option α} : KeepsFiles (φ := φ) (StateT.lift o) := by
  rintro v a v' h
  obtain ⟨b, -, hb⟩ := Option.bind_eq_some_iff.mp h
  obtain ⟨-, rfl⟩ := Prod.mk.inj (Option.some.inj hb)
  exact refl_of _ _

theorem keeps_findofile : KeepsFiles (φ := φ) (findofile name) :=
  keeps_get.bind fun _ => keeps_lift

theorem keeps_wrinode : KeepsFiles (wrinode M entry) :=
  keeps_flash.bind fun _ => (keeps_modify .post).ret

theorem keeps_updateinode : KeepsFiles (φ := φ) (updateinode entry) := by
  refine keeps_findofile.bind fun r => ?_
  cases r with
  | none => exact keeps_pure
  | some r => exact keeps_modify fun v => .setEntry v _ r

theorem keeps_rminode : KeepsFiles (rminode M name) := by
  refine keeps_findofile.bind fun r => ?_
  cases r with
  | some r => exact keeps_pure
  | none =>
    refine keeps_flash.bindOk rfl fun entry => ?_
    exact keeps_flash

/-! ### Packing -/

theorem keeps_mediacheck : KeepsFiles (mediacheck M cfg) := by
  refine keeps_flash.bindOk rfl fun block => ?_
  refine keeps_poke.bind fun _ => keeps_iotell.bind fun _ =>
    keeps_flash.bind fun r => ?_
  cases r <;> exact keeps_pure

theorem keeps_dataEnd (datlen : ℕ) :
    ∀ fuel nbytes offset, KeepsFiles (dataEnd M datlen fuel nbytes offset)
  | 0, _, _ => keeps_none
  | fuel + 1, nbytes, offset => by
    refine .ite ?_ keeps_pure
    refine keeps_flash.bindOk rfl fun blkentry => ?_
    exact keeps_dataEnd datlen fuel _ _

theorem keeps_startpos : ∀ fuel pack offset, KeepsFiles (startpos M cfg fuel pack offset)
  | 0, _, _ => by
    rw [startpos]
    exact keeps_none
  | fuel + 1, pack, offset => by
    have hnext (offset : ℕ) : KeepsFiles (startpos.nextpos M cfg fuel pack offset) := by
      rw [startpos.nextpos]
      refine keeps_flash.bindOk rfl fun entry => ?_
      exact keeps_startpos fuel _ _
    rw [startpos]
    split
    · exact keeps_pure
    · refine (keeps_dataEnd _ _ _ _).bindOk rfl fun offset => ?_
      refine keeps_ioseek.bind fun _ => keeps_peek.bind fun _ => ?_
      refine .ite ?_ (hnext _)
      refine keeps_peek.bind fun _ => keeps_flash.bind fun r => ?_
      cases r with
      | error e => exact keeps_peek.ret
      | ok block =>
        exact keeps_poke.bind fun _ => keeps_iotell.bind fun _ => hnext _

theorem keeps_srcsetup : KeepsFiles (srcsetup M pack offset) := by
  refine .ite ?_ keeps_pure
  exact keeps_flash.bindOk rfl fun _ => keeps_pure

theorem keeps_headerPos : KeepsFiles (pack.headerPos M cfg) := by
  refine .ite ?_ keeps_pure
  exact .ite keeps_pure (keeps_poke.ret)

theorem keeps_namePos : KeepsFiles (pack.namePos M cfg) := by
  refine .ite ?_ keeps_pure
  exact .ite keeps_pure (keeps_poke.ret)

theorem keeps_destsetup : KeepsFiles (destsetup M cfg pack) := by
  refine keeps_headerPos.bind fun r => ?_
  rcases r with ⟨pack, - | -⟩
  · exact keeps_pure
  · refine keeps_namePos.bind fun r => ?_
    rcases r with ⟨pack, - | -⟩
    · exact keeps_pure
    · exact keeps_poke.ret

theorem keeps_wrinodehdr : KeepsFiles (wrinodehdr M cfg pack) := by
  rw [wrinodehdr]
  split
  · exact keeps_wrinode.ret
  · exact keeps_poke.bind fun _ => keeps_updateinode.ret

theorem keeps_wrdathdr : KeepsFiles (wrdathdr M cfg pack) :=
  .ite (keeps_poke.ret) keeps_pure

theorem keeps_packtransfer : KeepsFiles (packtransfer M cfg pack) := by
  refine .ite ?_ keeps_pure
  exact keeps_ioseek.bind fun _ => keeps_peek.bind fun _ =>
    keeps_poke.bind fun _ => keeps_poke.bind fun _ => keeps_poke.bind fun _ =>
    keeps_pure

theorem keeps_blockfull : KeepsFiles (blockfull M cfg pack) :=
  .ite (keeps_wrdathdr.ret) keeps_pure

theorem keeps_srcblockend : KeepsFiles (srcblockend M cfg pack) := by
  refine .ite ?_ keeps_blockfull
  refine Keeps.bindOk ?_ rfl fun pack => keeps_blockfull
  exact keeps_flash.bindOk rfl fun _ => keeps_pure

theorem keeps_nextinode : KeepsFiles (nextinode M cfg pack) := by
  refine keeps_wrdathdr.bind fun pack => keeps_wrinodehdr.bind fun pack =>
    keeps_flash.bindOk rfl fun entry => ?_
  refine keeps_srcsetup.bindOk rfl fun pack => ?_
  dsimp only
  split
  · exact keeps_pure
  · refine keeps_destsetup.bind fun r => ?_
    rcases r with ⟨pack, - | -⟩
    · exact keeps_pure
    · exact keeps_blockfull

theorem keeps_packblockRound : KeepsFiles (packblockRound M cfg pack) := by
  refine keeps_packtransfer.bind fun pack => ?_
  exact .ite keeps_nextinode keeps_srcblockend

theorem keeps_packwriterRound : KeepsFiles (packwriterRound M cfg pack) := by
  refine keeps_packtransfer.bind fun pack => ?_
  refine .ite ?_ keeps_srcblockend
  exact keeps_wrdathdr.bind fun _ => keeps_modifyEntry.ret

theorem keeps_packLoop (hround : ∀ pack, KeepsFiles (round pack)) :
    ∀ fuel pack, KeepsFiles (packLoop round fuel pack)
  | 0, _ => keeps_none
  | fuel + 1, pack => by
    refine (hround pack).bind fun r => ?_
    rcases r with ⟨pack, - | - | e⟩
    · exact keeps_packLoop hround fuel pack
    · exact keeps_pure
    · exact keeps_pure

theorem keeps_srcready : KeepsFiles (srcready M pack) :=
  .ite keeps_srcsetup keeps_pure

theorem keeps_packStream (hround : ∀ pack, KeepsFiles (round pack)) :
    KeepsFiles (packStream M cfg round pack) := by
  refine keeps_srcready.bindOk rfl fun pack => ?_
  refine keeps_destsetup.bind fun r => ?_
  rcases r with ⟨pack, - | -⟩
  · exact keeps_pure
  · exact keeps_packLoop hround _ _

theorem keeps_setupwriter : KeepsFiles (φ := φ) (setupwriter pack) := by
  refine keeps_get.bind fun v => (keeps_get.ret).bind fun _ => ?_
  split <;> exact keeps_pure

theorem keeps_packInodes : KeepsFiles (packInodes M cfg p) := by
  rw [packInodes]
  split
  · exact keeps_pure
  · refine (keeps_packStream fun _ => keeps_packblockRound).bind fun r => ?_
    rcases r with ⟨pack, e | -⟩
    · exact .ite (keeps_setupwriter.ret) keeps_pure
    · exact keeps_pure

theorem keeps_packOpen : KeepsFiles (packOpen M cfg p) := by
  refine .ite ?_ keeps_pure
  refine (keeps_packStream fun _ => keeps_packwriterRound).bind fun r => ?_
  rcases r with ⟨pack, e | -⟩
  · dsimp only
    split <;> exact keeps_pure
  · exact keeps_pure

theorem keeps_packGood : KeepsFiles (packGood M cfg p) := by
  refine keeps_peek.bind fun valid => ?_
  refine .ite ?_ keeps_pure
  refine keeps_packInodes.bindOk rfl fun p => ?_
  exact keeps_packOpen

theorem keeps_packIoblock {i : ℕ} : KeepsFiles (packIoblock M cfg p i) := by
  refine .ite ?_ keeps_pure
  refine keeps_packGood.bindOk rfl fun p => ?_
  exact .ite (keeps_poke.ret) keeps_pure

theorem keeps_packIoblocks : ∀ is p, KeepsFiles (packIoblocks M cfg is p)
  | [], _ => keeps_pure
  | i :: is, p => by
    refine keeps_packIoblock.bindOk rfl fun p => ?_
    exact keeps_packIoblocks is p

theorem keeps_packEblocks : ∀ eblocks p ret, KeepsFiles (packEblocks M cfg eblocks p ret)
  | [], _, _ => keeps_pure
  | eblock :: eblocks, p, ret => by
    refine keeps_flash.bindOk rfl fun _ => ?_
    refine (keeps_packIoblocks _ _).bindOk rfl fun p => ?_
    refine keeps_flash.bindOk rfl fun _ => ?_
    refine keeps_flash.bindOk rfl fun _ => ?_
    exact keeps_packEblocks eblocks p _

theorem keeps_startPack {iooffset : ℕ} {ret : Except ℤ Unit} :
    KeepsFiles (startPack M cfg p iooffset ret) :=
  keeps_poke.bind fun _ => keeps_packEblocks _ _ _

/-- **Packing only moves.** -/
theorem keeps_pack : KeepsFiles (Nxffs.pack M cfg) := by
  refine keeps_mediacheck.bind fun r => ?_
  rcases r with - | ⟨iooffset, pack⟩
  · refine keeps_setupwriter.bind fun r => ?_
    dsimp only
    split
    · exact keeps_startPack
    · refine keeps_flash.bindOk rfl fun _ => ?_
      refine keeps_flash.bindOk rfl fun block => ?_
      exact keeps_poke.ret
  · refine (keeps_startpos _ _ _).bind fun r => ?_
    rcases r with ⟨e, iooffset⟩ | ⟨pack, iooffset⟩
    · refine .ite ?_ keeps_pure
      refine keeps_peek.bind fun _ => ?_
      exact .ite (keeps_setupwriter.bind fun _ => keeps_startPack) keeps_pure
    · exact keeps_startPack

/-! ### Looking for room and writing -/

theorem keeps_reserve {note : ℕ → Call φ Unit} (hnote : ∀ pos, KeepsFiles (note pos)) :
    KeepsFiles (reserve M cfg size note) := by
  refine keeps_flash.bindOk rfl fun _ => ?_
  refine keeps_iotell.bind fun pos => (hnote pos).bind fun _ =>
    keeps_flash.bindOk rfl fun _ => ?_
  exact keeps_iotell.bind fun pos => (hnote pos).ret

theorem keeps_findroom {find : Call φ (Except ℤ Unit)} {repos : Call φ Unit} {fail : ℤ → ℤ}
    {packed : Bool} (hfind : KeepsFiles find) (hrepos : KeepsFiles repos) :
    KeepsFiles (findroom M cfg find fail repos packed) := by
  refine hfind.bind fun r => ?_
  cases r with
  | ok _ => exact keeps_pure
  | error e =>
    dsimp only
    split
    · exact keeps_pure
    · refine keeps_pack.bindOk rfl fun _ => ?_
      refine hrepos.bind fun _ => hfind.bind fun r => ?_
      cases r <;> exact keeps_pure

theorem keeps_hdrroom : KeepsFiles (hdrroom M cfg) :=
  keeps_reserve fun _ => keeps_modifyEntry

theorem keeps_namroom {namlen : ℕ} : KeepsFiles (namroom M cfg namlen) :=
  keeps_reserve fun _ => keeps_modifyEntry

theorem keeps_wralloc : KeepsFiles (wralloc M cfg size) := by
  refine keeps_findroom (keeps_reserve fun pos => ?_)
    (keeps_peek.bind fun _ => keeps_ioseek)
  exact keeps_modify fun v => .setWrfile v rfl

theorem keeps_reverify : KeepsFiles (reverify M) := by
  refine keeps_get.bind fun v => ?_
  split <;> exact keeps_pure

theorem keeps_wrblkhdr : KeepsFiles (wrblkhdr M cfg) := by
  refine keeps_get.bind fun v => keeps_ioseek.bind fun _ => keeps_flash.bind fun r => ?_
  have hreset (ret : Except ℤ Unit) : KeepsFiles (φ := φ) (do
      modify fun v => { v with wrfile := { v.wrfile with crc := 0, doffset := 0, datlen := 0 } }
      return ret) :=
    (keeps_modify fun v => .setWrfile v rfl).ret
  cases r with
  | error e => exact hreset _
  | ok _ => exact keeps_poke.bind fun _ => keeps_modifyEntry.bind fun _ => hreset _

theorem keeps_wrbytes {bytes : List UInt8} {nbytesleft : ℕ} :
    KeepsFiles (wrbytes M offset bytes nbytesleft) := by
  refine keeps_poke.bind fun _ => (keeps_modify fun v => .setWrfile v rfl).bind fun _ => ?_
  exact .ite keeps_flash keeps_pure

theorem keeps_wrappend : KeepsFiles (wrappend M cfg buffer) := by
  refine keeps_get.bind fun v => Keeps.bindOk ?_ rfl fun _ => Keeps.bindOk ?_ rfl fun _ =>
    keeps_pure
  · exact .ite keeps_wrbytes keeps_pure
  · exact .ite keeps_wrblkhdr keeps_pure

theorem keeps_wrready : KeepsFiles (wrready M cfg size) := by
  refine keeps_get.bind fun v => ?_
  refine .ite ?_ keeps_pure
  exact (keeps_modify fun v => .setWrfile v rfl).bind fun _ => keeps_wralloc

theorem keeps_writeLoop :
    ∀ fuel total, KeepsFiles (writeLoop M cfg buffer fuel total)
  | 0, _ => keeps_none
  | fuel + 1, total => by
    refine .ite ?_ keeps_pure
    refine keeps_wrready.bindOk rfl fun _ => ?_
    refine keeps_get.bind fun v => keeps_ioseek.bind fun _ =>
      keeps_reverify.bindOk rfl fun _ => ?_
    refine keeps_wrappend.bindOk rfl fun nwritten => ?_
    exact keeps_writeLoop fuel _

/-- **Writing only moves.** -/
theorem keeps_write {r : Ref} : KeepsFiles (write M cfg r buffer) := by
  refine keeps_get.bind fun v => ?_
  exact .ite (keeps_writeLoop _ _) keeps_pure

end Calls

end GreenboneFeeder.Nxffs
