import GreenboneFeeder.Lib.Frame
import Mathlib.Algebra.Group.Nat.Defs
import Mathlib.Logic.Function.Basic

/-!
# NXFFS: files, packing and the writer

Opening, writing and closing of `fs/nxffs`, with the packing that they may start
(`CONFIG_NXFFS_PREALLOCATED`). The file open for writing has its state in the one static variable
`g_wrfile`.

`Nxffs.Media` collects the functions that touch neither the open files nor the semaphores – the
device, its cache, the search for inodes and data blocks, the pack buffer – and the rest is modelled
over every choice of them. Loops that need not end have a bound on their rounds; a call that runs
into it does not return.
-/

namespace GreenboneFeeder.Nxffs

/-! ### Data -/

abbrev Name := List UInt8

/-- The open flags that are looked at. -/
structure Oflags where
  rdok : Bool := false
  wrok : Bool := false
  creat : Bool := false
  excl : Bool := false
  trunc : Bool := false
  deriving DecidableEq, Repr

/-- `struct nxffs_entry_s`. -/
structure Entry where
  hoffset : ℕ := 0
  noffset : ℕ := 0
  doffset : ℕ := 0
  name : Option Name := none
  utc : ℕ := 0
  datlen : ℕ := 0
  deriving DecidableEq, Repr

/-- `struct nxffs_blkentry_s`. -/
structure Blkentry where
  hoffset : ℕ
  datlen : ℕ

/-- The address of an open file: `g_wrfile`, or one that was allocated for reading. -/
inductive Ref where
  | writer
  | reader (n : ℕ)
  deriving DecidableEq, Repr

/-- `struct nxffs_ofile_s`. -/
structure Ofile where
  flink : Option Ref := none
  crefs : ℕ := 0
  oflags : Oflags := {}
  entry : Entry := {}

/-- `struct nxffs_wrfile_s`. -/
structure Wrfile where
  ofile : Ofile := {}
  truncate : Bool := false
  datlen : ℕ := 0
  doffset : ℕ := 0
  crc : UInt32 := 0

/-- `struct nxffs_volume_s`, with `g_wrfile` and the files open for reading. `wrsem` is the number
of available units. `wrinodes` is not in the code: it counts the calls of `nxffs_wrinode`. -/
structure Volume (φ : Type) where
  media : φ
  wrsem : ℕ := 1
  ofiles : Option Ref := none
  wrfile : Wrfile := {}
  readers : ℕ → Ofile := fun _ => {}
  nreaders : ℕ := 0
  wrinodes : ℕ := 0

/-- The geometry of the device and the options of the configuration, with the bound on the
rounds of a loop. -/
structure Config where
  blocksize : ℕ
  blkper : ℕ
  neraseblocks : ℕ
  maxnamlen : ℕ
  packthreshold : ℕ
  tailthreshold : ℕ
  rounds : ℕ

def sizeofBlockHdr : ℕ := 5

def sizeofInodeHdr : ℕ := 26

def sizeofDataHdr : ℕ := 10

def mindata : ℕ := 16

def enoent : ℤ := 2

def eio : ℤ := 5

def enomem : ℤ := 12

def eacces : ℤ := 13

def ebusy : ℤ := 16

def eexist : ℤ := 17

def einval : ℤ := 22

def enospc : ℤ := 28

def enosys : ℤ := 38

/-- **The FLASH**: what the functions that touch neither the open files nor the semaphores answer,
and how they change the device, the cache and the pack buffer. An error is the negated error number.
-/
structure Media (φ : Type) where
  validblock : ℕ → φ → Except ℤ ℕ × φ
  nextentry : ℕ → φ → Except ℤ Entry × φ
  findinode : Name → φ → Except ℤ Entry × φ
  nextblock : ℕ → φ → Except ℤ Blkentry × φ
  rdblkhdr : ℕ → φ → Except ℤ ℕ × φ
  wrreserve : ℕ → φ → Except ℤ Unit × φ
  wrverify : ℕ → φ → Except ℤ Unit × φ
  wrname : Entry → ℕ → φ → Except ℤ Unit × φ
  /-- `nxffs_wrinode` as far as it works on the FLASH -/
  putInode : Entry → φ → Except ℤ Unit × φ
  /-- the data block header, at an offset and for a length, is put in the cache and written -/
  putDatHdr : ℕ → ℕ → φ → Except ℤ Unit × φ
  /-- the inode is marked as deleted -/
  markDeleted : Entry → φ → Except ℤ Unit × φ
  wrcache : φ → Except ℤ Unit × φ
  reformat : φ → Except ℤ Unit × φ
  /-- `ioblock` and `iooffset` are set -/
  seek : ℕ → ℕ → φ → φ
  ioblock : φ → ℕ
  iooffset : φ → ℕ
  froffset : φ → ℕ
  setFroffset : ℕ → φ → φ
  /-- the CRC of a part of the cache -/
  crc32 : ℕ → ℕ → φ → UInt32
  /-- the number of erased bytes from an offset of the cache on, up to a length -/
  erased : ℕ → ℕ → φ → ℕ
  /-- bytes are copied to the cache -/
  copyin : ℕ → List UInt8 → φ → φ
  /-- an erase block is read into the pack buffer -/
  bread : ℕ → φ → Except ℤ Unit × φ
  mtdErase : ℕ → φ → Except ℤ Unit × φ
  /-- the pack buffer is written to an erase block -/
  bwrite : ℕ → φ → Except ℤ Unit × φ
  /-- the I/O block at an offset of the pack buffer is good -/
  packvalid : ℕ → φ → Bool
  /-- a part of the pack buffer is set to the erased state -/
  packErase : ℕ → ℕ → φ → φ
  packName : ℕ → Name → φ → φ
  /-- bytes are copied from the cache to the pack buffer -/
  packCopy : ℕ → ℕ → ℕ → φ → φ
  packDatHdr : ℕ → ℕ → φ → φ
  packInodeHdr : ℕ → Entry → φ → φ

/-- A call on the volume; it may fail to return. -/
abbrev Call (φ : Type) := StateT (Volume φ) Option

variable {φ : Type} (M : Media φ) (cfg : Config)

namespace Volume

def ofile (v : Volume φ) : Ref → Ofile
  | .writer => v.wrfile.ofile
  | .reader n => v.readers n

def setOfile (v : Volume φ) (f : Ofile) : Ref → Volume φ
  | .writer => { v with wrfile := { v.wrfile with ofile := f } }
  | .reader n => { v with readers := Function.update v.readers n f }

/-- A new file open for reading is put in front of the open files. -/
def addReader (v : Volume φ) (entry : Entry) : Volume φ :=
  { v with
    readers := Function.update v.readers v.nreaders
      { flink := v.ofiles, crefs := 1, oflags := { rdok := true }, entry := entry }
    nreaders := v.nreaders + 1
    ofiles := some (.reader v.nreaders) }

/-- The walk along `flink`, to the first open file that is looked for. As there are `nreaders + 1`
open files at most, a longer walk never ends. -/
def walk (v : Volume φ) (p : Ref → Bool) : ℕ → Option Ref → Option (Option Ref)
  | _, none => some none
  | 0, some _ => none
  | fuel + 1, some r => if p r then some (some r) else walk v p fuel (v.ofile r).flink

/-- The walk of `nxffs_remofile`, which remembers the file before. -/
def walkPrev (v : Volume φ) (r : Ref) : ℕ → Option Ref → Option Ref → Option (Option (Option Ref))
  | _, _, none => some none
  | 0, _, some _ => none
  | fuel + 1, prev, some curr =>
    if curr = r then some (some prev) else walkPrev v r fuel (some curr) (v.ofile curr).flink

end Volume

/-- A function of the FLASH is called. -/
def flash {α : Type} (f : φ → α × φ) : Call φ α := fun v =>
  some ((f v.media).1, { v with media := (f v.media).2 })

/-- Something is read off the FLASH state. -/
def peek {α : Type} (f : φ → α) : Call φ α := do
  let v ← get
  return f v.media

/-- The FLASH state is changed. -/
def poke (f : φ → φ) : Call φ Unit := modify fun v => { v with media := f v.media }

def ioseek (offset : ℕ) : Call φ Unit :=
  poke (M.seek (offset / cfg.blocksize) (offset % cfg.blocksize))

def iotell : Call φ ℕ := peek fun m => M.ioblock m * cfg.blocksize + M.iooffset m

/-- The entry of the file that is being written is changed. -/
def modifyEntry (f : Entry → Entry) : Call φ Unit := modify fun v =>
  { v with wrfile := { v.wrfile with
    ofile := { v.wrfile.ofile with entry := f v.wrfile.ofile.entry } } }

/-! ### The open files -/

def findofile (name : Name) : Call φ (Option Ref) := do
  let v ← get
  StateT.lift (v.walk (fun r => (v.ofile r).entry.name = some name) (v.nreaders + 2) v.ofiles)

def remofile (r : Ref) : Call φ Unit := do
  let v ← get
  match ← StateT.lift (v.walkPrev r (v.nreaders + 2) none v.ofiles) with
  | none => return
  | some none => set { v with ofiles := (v.ofile r).flink }
  | some (some prev) =>
    set (v.setOfile { v.ofile prev with flink := (v.ofile r).flink } prev)

/-- `nxffs_findwriter`: the writer has a name. -/
def findwriter : Call φ Bool := do
  let v ← get
  return v.wrfile.ofile.entry.name.isSome

/-- **`nxffs_wrinode`** gives the semaphore back, whether it succeeds or not. -/
def wrinode (entry : Entry) : Call φ (Except ℤ Unit) := do
  let ret ← flash (M.putInode entry)
  modify fun v => { v with wrsem := v.wrsem + 1, wrinodes := v.wrinodes + 1 }
  return ret

def updateinode (entry : Entry) : Call φ Unit := do
  match ← findofile (entry.name.getD []) with
  | none => return
  | some r => modify fun v => v.setOfile { v.ofile r with
      entry := { (v.ofile r).entry with
        hoffset := entry.hoffset, noffset := entry.noffset, doffset := entry.doffset } } r

def rminode (name : Name) : Call φ (Except ℤ Unit) := do
  match ← findofile name with
  | some _ => return .error (-ebusy)
  | none =>
    match ← flash (M.findinode name) with
    | .error e => return .error e
    | .ok entry => flash (M.markDeleted entry)

/-! ### Packing -/

/-- `struct nxffs_packstream_s`. -/
structure Packstream where
  entry : Entry := {}
  fpos : ℕ := 0
  blkoffset : ℕ := 0
  blklen : ℕ := 0
  blkpos : ℕ := 0

/-- `struct nxffs_pack_s`; `iobuffer` is an offset in the pack buffer. -/
structure Pack where
  src : Packstream := {}
  dest : Packstream := {}
  iobuffer : ℕ := 0
  ioblock : ℕ := 0
  block0 : ℕ := 0
  iooffset : ℕ := 0

section

variable (pack : Pack) (p : Packing)

def packtell : ℕ := pack.ioblock * cfg.blocksize + pack.iooffset

/-- `nxffs_mediacheck`: nothing stands for the offset zero. -/
def mediacheck : Call φ (Option (ℕ × Pack)) := do
  match ← flash (M.validblock 0) with
  | .error _ => return none
  | .ok block =>
    poke (M.seek block sizeofBlockHdr)
    let froffset ← iotell M cfg
    match ← flash (M.nextentry froffset) with
    | .error _ => return none
    | .ok entry => return some (froffset, { src := { entry := entry } })

/-- The source entry becomes that of the destination, which takes the name over. -/
def Pack.describe : Pack :=
  { pack with
    src := { pack.src with entry := { pack.src.entry with name := none } }
    dest := { pack.dest with entry := { pack.dest.entry with
      name := pack.src.entry.name, utc := pack.src.entry.utc, datlen := pack.src.entry.datlen } } }

/-- The offset behind the data blocks of an inode (the inner loop of `nxffs_startpos`). -/
def dataEnd (datlen : ℕ) : ℕ → ℕ → ℕ → Call φ (Except ℤ ℕ)
  | 0, _, _ => fun _ => none
  | fuel + 1, nbytes, offset =>
    if nbytes < datlen then do
      match ← flash (M.nextblock offset) with
      | .error e => return .error e
      | .ok blkentry =>
        dataEnd datlen fuel (nbytes + blkentry.datlen)
          (blkentry.hoffset + sizeofDataHdr + blkentry.datlen)
    else return .ok offset

/-- `nxffs_startpos`: an error comes with the free FLASH offset. -/
def startpos : ℕ → Pack → ℕ → Call φ (Except (ℤ × ℕ) (Pack × ℕ))
  | 0, _, _ => fun _ => none
  | fuel + 1, pack, offset =>
    if pack.src.entry.hoffset - offset > cfg.packthreshold then
      return .ok (pack.describe, offset)
    else do
      match ← dataEnd M pack.src.entry.datlen cfg.rounds 0 pack.src.entry.doffset with
      | .error e => return .error (e, offset)
      | .ok offset =>
        ioseek M cfg offset
        let iooffset ← peek M.iooffset
        if iooffset + sizeofInodeHdr > cfg.blocksize then
          let ioblock ← peek M.ioblock
          match ← flash (M.validblock (ioblock + 1)) with
          | .error _ =>
            let froffset ← peek M.froffset
            return .error (-enospc, froffset)
          | .ok block =>
            poke (M.seek block sizeofBlockHdr)
            nextpos fuel pack (← iotell M cfg)
        else nextpos fuel pack offset
where
  /-- the search goes on with the next inode -/
  nextpos (fuel : ℕ) (pack : Pack) (offset : ℕ) : Call φ (Except (ℤ × ℕ) (Pack × ℕ)) := do
    match ← flash (M.nextentry offset) with
    | .error _ => return .error (-enospc, offset)
    | .ok entry => startpos fuel { pack with src := { pack.src with entry := entry } } offset

def srcsetup (offset : ℕ) : Call φ (Except ℤ Pack) := do
  let src := { pack.src with blkoffset := offset, blkpos := 0 }
  if offset > 0 then
    match ← flash (M.rdblkhdr offset) with
    | .error e => return .error e
    | .ok blklen => return .ok { pack with src := { src with blklen := blklen } }
  else return .ok { pack with src := src }

/-- State 1 of `nxffs_destsetup`, the position of the inode header, if the block has room for
it. -/
def Pack.headerPos : Call φ (Pack × Bool) :=
  if pack.dest.entry.hoffset = 0 then
    if pack.iooffset + sizeofInodeHdr > cfg.blocksize then return (pack, false)
    else do
      poke (M.packErase (pack.iobuffer + pack.iooffset) sizeofInodeHdr)
      return ({ pack with
        dest := { pack.dest with entry := { pack.dest.entry with hoffset := packtell cfg pack } }
        iooffset := pack.iooffset + sizeofInodeHdr }, true)
  else return (pack, true)

/-- State 2 of `nxffs_destsetup`, the position of the name. -/
def Pack.namePos : Call φ (Pack × Bool) :=
  if pack.dest.entry.noffset = 0 then
    let name := pack.dest.entry.name.getD []
    if pack.iooffset + name.length > cfg.blocksize then return (pack, false)
    else do
      poke (M.packName (pack.iobuffer + pack.iooffset) name)
      return ({ pack with
        dest := { pack.dest with entry := { pack.dest.entry with noffset := packtell cfg pack } }
        iooffset := pack.iooffset + name.length }, true)
  else return (pack, true)

/-- A data block is begun where the destination stands, if it has room for its header and
some data. -/
def Pack.newBlock : Option Pack :=
  if pack.iooffset + sizeofDataHdr + min mindata pack.dest.entry.datlen > cfg.blocksize then none
  else some { pack with
    dest := { pack.dest with blkoffset := packtell cfg pack, blklen := 0, blkpos := 0 }
    iooffset := pack.iooffset + sizeofDataHdr }

/-- States 3 and 4 of `nxffs_destsetup`. -/
def Pack.dataPos : Pack × Bool :=
  if pack.src.entry.doffset > 0 then
    if pack.dest.entry.doffset = 0 then
      match pack.newBlock cfg with
      | none => (pack, false)
      | some pack => ({ pack with dest := { pack.dest with
          entry := { pack.dest.entry with doffset := pack.dest.blkoffset } } }, true)
    else if pack.dest.blkoffset = 0 then
      match pack.newBlock cfg with
      | none => (pack, false)
      | some pack => (pack, true)
    else (pack, true)
  else (pack, true)

/-- `nxffs_destsetup`: whether it succeeds; otherwise it returns `-ENOSPC`. -/
def destsetup : Call φ (Pack × Bool) := do
  match ← pack.headerPos M cfg with
  | (pack, false) => return (pack, false)
  | (pack, true) =>
    match ← pack.namePos M cfg with
    | (pack, false) => return (pack, false)
    | (pack, true) =>
      let r := pack.dataPos cfg
      poke (M.setFroffset (packtell cfg r.1))
      return r

/-- **`nxffs_wrinodehdr`**: the header of a destination inode that lies in an earlier erase
block is written by `nxffs_wrinode`. -/
def wrinodehdr : Call φ Pack := do
  let ioblock := pack.dest.entry.hoffset / cfg.blocksize
  let iooffset := pack.dest.entry.hoffset - ioblock * cfg.blocksize
  if ioblock < pack.block0 then
    let _ ← wrinode M pack.dest.entry
  else
    poke (M.packInodeHdr (iooffset + (ioblock - pack.block0) * cfg.blocksize) pack.dest.entry)
    updateinode pack.dest.entry
  return { pack with dest := {} }

def wrdathdr : Call φ Pack := do
  if pack.dest.blklen > 0 then
    poke (M.packDatHdr (pack.iobuffer + pack.dest.blkoffset % cfg.blocksize) pack.dest.blklen)
  return { pack with dest := { pack.dest with blkoffset := 0, blklen := 0, blkpos := 0 } }

def packtransfer : Call φ Pack := do
  let xfrlen := min (pack.src.blklen - pack.src.blkpos) (cfg.blocksize - pack.iooffset)
  if xfrlen > 0 then
    ioseek M cfg (pack.src.blkoffset + sizeofDataHdr + pack.src.blkpos)
    let iooffset ← peek M.iooffset
    poke (M.packCopy (pack.iobuffer + pack.iooffset) iooffset xfrlen)
    poke fun m => M.seek (M.ioblock m) (M.iooffset m + xfrlen) m
    poke fun m => M.setFroffset (M.froffset m + xfrlen) m
    return { pack with
      src := { pack.src with fpos := pack.src.fpos + xfrlen, blkpos := pack.src.blkpos + xfrlen }
      dest := { pack.dest with
        fpos := pack.dest.fpos + xfrlen
        blkpos := pack.dest.blkpos + xfrlen
        blklen := pack.dest.blklen + xfrlen }
      iooffset := pack.iooffset + xfrlen }
  else return pack

def endsrcblock : Call φ (Except ℤ Pack) := do
  match ← flash (M.nextblock (pack.src.blkoffset + sizeofDataHdr + pack.src.blklen)) with
  | .error e => return .error e
  | .ok blkentry => return .ok { pack with src := { pack.src with
      blkoffset := blkentry.hoffset, blklen := blkentry.datlen, blkpos := 0 } }

/-- How a round of packing ends: the function goes on, or it returns. -/
inductive Round where
  | more
  | done
  | fail (e : ℤ)

/-- The end of a round: with a full destination block the function returns. -/
def blockfull : Call φ (Pack × Round) := do
  if pack.iooffset ≥ cfg.blocksize then return (← wrdathdr M cfg pack, .done)
  else return (pack, .more)

/-- The end of a source block, and of a round. -/
def srcblockend : Call φ (Pack × Round) := do
  if pack.src.blkpos ≥ pack.src.blklen then
    match ← endsrcblock M pack with
    | .error e => return (pack, .fail e)
    | .ok pack => blockfull M cfg pack
  else blockfull M cfg pack

/-- What `nxffs_packblock` does when an inode has been copied: it goes on with the next one,
if there is one and there is room for its header. -/
def nextinode : Call φ (Pack × Round) := do
  let pack ← wrdathdr M cfg pack
  let pack ← wrinodehdr M cfg pack
  match ← flash (M.nextentry (pack.src.blkoffset + pack.src.blklen)) with
  | .error _ => return ({ pack with src := {} }, .fail (-enospc))
  | .ok entry =>
    match ← srcsetup M { pack with src := { entry := entry } } entry.doffset with
    | .error e => return (pack, .fail e)
    | .ok pack =>
      let pack := { pack with dest := {} }.describe
      if pack.iooffset + sizeofInodeHdr > cfg.blocksize then return (pack, .done)
      else
        match ← destsetup M cfg pack with
        | (pack, false) => return (pack, .done)
        | (pack, true) => blockfull M cfg pack

/-- A round of `nxffs_packblock`. -/
def packblockRound : Call φ (Pack × Round) := do
  let pack ← packtransfer M cfg pack
  if pack.src.fpos ≥ pack.src.entry.datlen then nextinode M cfg pack
  else srcblockend M cfg pack

/-- A round of `nxffs_packwriter`: when all data has been copied, the open file gets its new
offsets. -/
def packwriterRound : Call φ (Pack × Round) := do
  let pack ← packtransfer M cfg pack
  if pack.src.fpos ≥ pack.src.entry.datlen then
    let pack ← wrdathdr M cfg pack
    modifyEntry fun e => { e with
      hoffset := pack.dest.entry.hoffset
      noffset := pack.dest.entry.noffset
      doffset := pack.dest.entry.doffset }
    return (pack, .fail (-enospc))
  else srcblockend M cfg pack

/-- The rounds, one after another. -/
def packLoop (round : Pack → Call φ (Pack × Round)) : ℕ → Pack → Call φ (Pack × Except ℤ Unit)
  | 0, _ => fun _ => none
  | fuel + 1, pack => do
    match ← round pack with
    | (pack, .more) => packLoop round fuel pack
    | (pack, .done) => return (pack, .ok ())
    | (pack, .fail e) => return (pack, .error e)

/-- The source stream is set up if no block of it is being processed. -/
def srcready : Call φ (Except ℤ Pack) :=
  if pack.src.blkoffset = 0 then srcsetup M pack pack.src.entry.doffset else return .ok pack

/-- What `nxffs_packblock` and `nxffs_packwriter` share: the streams are set up, unless the
block has no room, and the rounds begin. -/
def packStream (round : Pack → Call φ (Pack × Round)) (pack : Pack) :
    Call φ (Pack × Except ℤ Unit) := do
  match ← srcready M pack with
  | .error e => return (pack, .error e)
  | .ok pack =>
    match ← destsetup M cfg pack with
    | (pack, false) => return (pack, .ok ())
    | (pack, true) => packLoop round cfg.rounds pack

def packblock : Call φ (Pack × Except ℤ Unit) :=
  packStream M cfg (packblockRound M cfg) pack

def packwriter : Call φ (Pack × Except ℤ Unit) :=
  packStream M cfg (packwriterRound M cfg) pack

/-- `nxffs_setupwriter`: the packing state for the file that is being written, if there is
one that has FLASH. -/
def setupwriter : Call φ (Pack × Bool) := do
  let v ← get
  let entry := v.wrfile.ofile.entry
  if (← findwriter) = true ∧ entry.hoffset > 0 then
    return ({ pack with
      dest := { entry := { name := entry.name, utc := entry.utc, datlen := entry.datlen } }
      src := { entry := { entry with name := none } } }, true)
  else return (pack, false)

/-- The variables of `nxffs_pack`; `wrfile` says whether the writer is still to be packed. -/
structure Packing where
  pack : Pack
  packed : Bool := false
  wrfile : Bool := false

/-- The inodes are packed into an I/O block, until there are no more. -/
def packInodes : Call φ (Except ℤ Packing) := do
  if p.packed then return .ok p
  else
    match ← packblock M cfg p.pack with
    | (pack, .ok ()) => return .ok { p with pack := pack }
    | (pack, .error e) =>
      if e = -enospc then
        let (pack, wrfile) ← setupwriter pack
        return .ok { pack := pack, packed := true, wrfile := wrfile }
      else return .error e

/-- What was written of the file that is open for writing is packed into an I/O block. -/
def packOpen : Call φ (Except ℤ Packing) := do
  if p.wrfile then
    match ← packwriter M cfg p.pack with
    | (pack, .ok ()) => return .ok { p with pack := pack }
    | (pack, .error e) =>
      if e = -enospc then return .ok { p with pack := pack, wrfile := false }
      else return .error e
  else return .ok p

/-- Inodes and the file open for writing are packed into an I/O block that is good. -/
def packGood : Call φ (Except ℤ Packing) := do
  if (← peek (M.packvalid p.pack.iobuffer)) then
    match ← packInodes M cfg p with
    | .error e => return .error e
    | .ok p => packOpen M cfg p
  else return .ok p

/-- The I/O block `i` of an erase block is packed. -/
def packIoblock (i : ℕ) : Call φ (Except ℤ Packing) := do
  let block := p.pack.block0 + i
  let iobuffer := i * cfg.blocksize
  if block ≥ p.pack.ioblock then
    let p := { p with pack := { p.pack with ioblock := block, iobuffer := iobuffer } }
    match ← packGood M cfg p with
    | .error e => return .error e
    | .ok p =>
      if p.pack.iooffset < cfg.blocksize then
        poke (M.packErase (iobuffer + p.pack.iooffset) (cfg.blocksize - p.pack.iooffset))
      return .ok { p with pack := { p.pack with iooffset := sizeofBlockHdr } }
  else return .ok p

def packIoblocks : List ℕ → Packing → Call φ (Except ℤ Packing)
  | [], p => return .ok p
  | i :: is, p => do
    match ← packIoblock M cfg p i with
    | .error e => return .error e
    | .ok p => packIoblocks is p

/-- The erase blocks are read, packed, erased and written, one after another. -/
def packEblocks : List ℕ → Packing → Except ℤ Unit → Call φ (Except ℤ Unit)
  | [], _, ret => return ret
  | eblock :: eblocks, p, _ => do
    let p := { p with pack := { p.pack with block0 := eblock * cfg.blkper } }
    match ← flash (M.bread eblock) with
    | .error e => return .error e
    | .ok () =>
      match ← packIoblocks M cfg (List.range cfg.blkper) p with
      | .error e => return .error e
      | .ok p =>
        match ← flash (M.mtdErase eblock) with
        | .error e => return .error e
        | .ok () =>
          match ← flash (M.bwrite eblock) with
          | .error e => return .error e
          | .ok () => packEblocks eblocks p (.ok ())

/-- `nxffs_pack` from the label `start_pack` on. -/
def startPack (iooffset : ℕ) (ret : Except ℤ Unit) : Call φ (Except ℤ Unit) := do
  let ioblock := iooffset / cfg.blocksize
  let p := { p with pack := { p.pack with
    ioblock := ioblock, iooffset := iooffset - ioblock * cfg.blocksize } }
  poke (M.setFroffset iooffset)
  let eblock := ioblock / cfg.blkper
  packEblocks M cfg (List.range' eblock (cfg.neraseblocks - eblock)) p ret

end

/-- **`nxffs_pack`.** -/
def pack : Call φ (Except ℤ Unit) := do
  match ← mediacheck M cfg with
  | none =>
    let (pack, wrfile) ← setupwriter {}
    if wrfile then
      startPack M cfg { pack := pack, packed := true, wrfile := true } sizeofBlockHdr (.ok ())
    else
      match ← flash M.reformat with
      | .error e => return .error e
      | .ok () =>
        match ← flash (M.validblock 0) with
        | .error e => return .error e
        | .ok block =>
          poke (M.setFroffset (block * cfg.blocksize + sizeofBlockHdr))
          return .ok ()
  | some (iooffset, pack) =>
    match ← startpos M cfg cfg.rounds pack iooffset with
    | .ok (pack, iooffset) => startPack M cfg { pack := pack } iooffset (.ok ())
    | .error (e, iooffset) =>
      if e = -enospc then
        let froffset ← peek M.froffset
        if iooffset + cfg.tailthreshold < froffset then
          let (pack, wrfile) ← setupwriter pack
          startPack M cfg { pack := pack, packed := true, wrfile := wrfile } iooffset
            (.error (-enospc))
        else return .ok ()
      else return .error e

/-! ### Opening -/

/-- The loops that look for room: a full volume is packed, once. `fail` is the error returned for
one of the search, `repos` what is done after packing. -/
def findroom (find : Call φ (Except ℤ Unit)) (fail : ℤ → ℤ) (repos : Call φ Unit) (packed : Bool) :
    Call φ (Except ℤ Bool) := do
  match ← find with
  | .ok () => return .ok packed
  | .error e =>
    if e ≠ -enospc ∨ packed then return .error (fail e)
    else
      match ← pack M cfg with
      | .error e => return .error e
      | .ok () =>
        repos
        match ← find with
        | .ok () => return .ok true
        | .error e => return .error (fail e)

/-- A part of the FLASH of a given size is reserved and verified to be erased; its position is
noted each time. -/
def reserve (size : ℕ) (note : ℕ → Call φ Unit) : Call φ (Except ℤ Unit) := do
  match ← flash (M.wrreserve size) with
  | .error e => return .error e
  | .ok () =>
    note (← iotell M cfg)
    match ← flash (M.wrverify size) with
    | .error e => return .error e
    | .ok () =>
      note (← iotell M cfg)
      return .ok ()

/-- `nxffs_hdrpos` and `nxffs_hdrerased` of opening. -/
def hdrroom : Call φ (Except ℤ Unit) :=
  reserve M cfg sizeofInodeHdr fun pos => modifyEntry fun e => { e with hoffset := pos }

/-- `nxffs_nampos` and `nxffs_namerased`. -/
def namroom (namlen : ℕ) : Call φ (Except ℤ Unit) :=
  reserve M cfg namlen fun pos => modifyEntry fun e => { e with noffset := pos }

/-- What the surroundings contribute to an open: the time, and whether memory could be had for
the name or the open file. -/
structure Supply where
  utc : ℕ
  nomem : Bool

variable (name : Name) (oflags : Oflags) (env : Supply)

/-- The end of `nxffs_wropen`: the file in `g_wrfile` gets its room, and is put in front of
the open files. -/
def wrplace : Call φ (Except ℤ Unit) := do
  match ← findroom M cfg (hdrroom M cfg) id (pure ()) false with
  | .error e => return .error e
  | .ok packed =>
    match ← findroom M cfg (namroom M cfg name.length) id (pure ()) packed with
    | .error e => return .error e
    | .ok _ =>
      match ← flash (M.wrname (← get).wrfile.ofile.entry name.length) with
      | .error e => return .error e
      | .ok () =>
        modify fun v => { v with
          wrfile := { v.wrfile with ofile := { v.wrfile.ofile with flink := v.ofiles } }
          ofiles := some .writer }
        return .ok ()

/-- The file is set up in `g_wrfile`. -/
def wrsetup (truncate : Bool) (utc : ℕ) : Call φ Unit := modify fun v =>
  { v with wrfile :=
    { ofile := { crefs := 1, oflags := oflags, entry := { utc := utc } }, truncate := truncate } }

/-- The part of `nxffs_wropen` that creates the file. -/
def wrcreate (truncate : Bool) (env : Supply) :
    Call φ (Except ℤ Unit) :=
  if !oflags.creat then return .error (-enoent)
  else if name.length > cfg.maxnamlen then return .error (-einval)
  else do
    wrsetup oflags truncate env.utc
    if env.nomem then return .error (-enomem)
    else
      modifyEntry fun e => { e with name := some name }
      wrplace M cfg name

/-- What `nxffs_wropen` does while it holds both semaphores. -/
def wrprepare : Call φ (Except ℤ Unit) := do
  match ← flash (M.findinode name) with
  | .error _ => wrcreate M cfg name oflags false env
  | .ok _ =>
    match ← findofile name with
    | some _ => return .error (-enosys)
    | none =>
      if oflags.creat && oflags.excl then return .error (-eexist)
      else if oflags.creat && oflags.trunc then wrcreate M cfg name oflags true env
      else return .error (-enosys)

/-- **`nxffs_wropen`** once it holds `wrsem` and `exclsem`; on an error it gives `wrsem`
back. -/
def wropen : Call φ (Except ℤ Ref) := do
  match ← wrprepare M cfg name oflags env with
  | .ok () => return .ok .writer
  | .error e =>
    modify fun v => { v with wrsem := v.wrsem + 1 }
    return .error e

/-- `nxffs_rdopen`. -/
def rdopen : Call φ (Except ℤ Ref) := do
  match ← findofile name with
  | some r =>
    let ofile := (← get).ofile r
    if ofile.oflags.wrok then return .error (-enosys)
    else
      modify fun v => v.setOfile { ofile with crefs := ofile.crefs + 1 } r
      return .ok r
  | none =>
    if env.nomem then return .error (-enomem)
    else
      match ← flash (M.findinode name) with
      | .error e => return .error e
      | .ok entry =>
        let v ← get
        set (v.addReader entry)
        return .ok (.reader v.nreaders)

/-! ### Writing -/

/-- `nxffs_hdrpos` and `nxffs_hdrerased` of writing. -/
def datroom (size : ℕ) : Call φ (Except ℤ Unit) :=
  reserve M cfg (sizeofDataHdr + size) fun pos =>
    modify fun v => { v with wrfile := { v.wrfile with doffset := pos } }

/-- `nxffs_wralloc`. -/
def wralloc (size : ℕ) : Call φ (Except ℤ Bool) :=
  findroom M cfg (datroom M cfg (min mindata size)) (fun _ => -enospc)
    (do ioseek M cfg (← peek M.froffset)) false

def reverify : Call φ (Except ℤ Unit) := do
  let v ← get
  if v.wrfile.datlen > 0 ∧
      M.crc32 (M.iooffset v.media + sizeofDataHdr) v.wrfile.datlen v.media ≠ v.wrfile.crc then
    return .error (-eio)
  else return .ok ()

/-- `nxffs_wrblkhdr`. -/
def wrblkhdr : Call φ (Except ℤ Unit) := do
  let w := (← get).wrfile
  ioseek M cfg w.doffset
  let ret ← flash (M.putDatHdr w.doffset w.datlen)
  match ret with
  | .error _ => pure ()
  | .ok () =>
    poke (M.setFroffset (w.doffset + w.datlen + sizeofDataHdr))
    modifyEntry fun e => { e with
      datlen := e.datlen + w.datlen
      doffset := if e.doffset = 0 then w.doffset else e.doffset }
  modify fun v => { v with wrfile := { v.wrfile with crc := 0, doffset := 0, datlen := 0 } }
  return ret

/-- Bytes are put in the cache behind those of the data block; the cache is written unless
the block is full. -/
def wrbytes (offset : ℕ) (bytes : List UInt8) (nbytesleft : ℕ) : Call φ (Except ℤ Unit) := do
  poke (M.copyin offset bytes)
  modify fun v =>
    let datlen := v.wrfile.datlen + bytes.length
    let crc := M.crc32 (M.iooffset v.media + sizeofDataHdr) datlen v.media
    { v with wrfile := { v.wrfile with datlen := datlen, crc := crc } }
  if nbytesleft > 0 then flash M.wrcache else return .ok ()

/-- `nxffs_wrappend`: the number of bytes appended. -/
def wrappend (buffer : List UInt8) : Call φ (Except ℤ ℕ) := do
  let v ← get
  let offset := M.iooffset v.media + v.wrfile.datlen + sizeofDataHdr
  let maxsize := M.erased offset (cfg.blocksize - offset) v.media
  let nbytestowrite := min maxsize buffer.length
  let nbytesleft := maxsize - nbytestowrite
  match ← (if nbytestowrite > 0 then wrbytes M offset (buffer.take nbytestowrite) nbytesleft
    else pure (.ok ())) with
  | .error e => return .error e
  | .ok () =>
    match ← (if nbytesleft = 0 then wrblkhdr M cfg else pure (.ok ())) with
    | .error e => return .error e
    | .ok () => return .ok nbytestowrite

/-- A data block is allocated if there is none. -/
def wrready (size : ℕ) : Call φ (Except ℤ Bool) := do
  if (← get).wrfile.doffset = 0 then
    modify fun v => { v with wrfile := { v.wrfile with datlen := 0 } }
    wralloc M cfg size
  else return .ok true

/-- The loop of `nxffs_write`. -/
def writeLoop (buffer : List UInt8) : ℕ → ℕ → Call φ ℤ
  | 0, _ => fun _ => none
  | fuel + 1, total =>
    if total < buffer.length then do
      match ← wrready M cfg (buffer.length - total) with
      | .error e => return e
      | .ok _ =>
        ioseek M cfg (← get).wrfile.doffset
        match ← reverify M with
        | .error e => return e
        | .ok () =>
          match ← wrappend M cfg (buffer.drop total) with
          -- `ret` is still that of `nxffs_reverify`
          | .error _ => return 0
          | .ok nwritten => writeLoop buffer fuel (total + nwritten)
    else return total

/-- `nxffs_write`, once it holds `exclsem`. -/
def write (r : Ref) (buffer : List UInt8) : Call φ ℤ := do
  if ((← get).ofile r).oflags.wrok then writeLoop M cfg buffer cfg.rounds 0
  else return -eacces

/-! ### Closing -/

/-- The file that a file open for writing replaces is removed. -/
def wrremove (w : Wrfile) : Call φ (Except ℤ Unit) :=
  match w.truncate, w.ofile.entry.name with
  | true, some name => rminode M name
  | _, _ => return .ok ()

/-- What `nxffs_wrclose` does before it gives `wrsem` back. -/
def wrfinish : Call φ (Except ℤ Unit) := do
  let w := (← get).wrfile
  match ← (if w.datlen > 0 then wrblkhdr M cfg else pure (.ok ())) with
  | .error e => return .error e
  | .ok () =>
    match ← wrremove M w with
    | .error e => return .error e
    | .ok () => wrinode M (← get).wrfile.ofile.entry

/-- **`nxffs_wrclose`**: `wrsem` is given back at the end, and by `nxffs_wrinode` too. -/
def wrclose : Call φ (Except ℤ Unit) := do
  let ret ← wrfinish M cfg
  modify fun v => { v with wrsem := v.wrsem + 1 }
  return ret

/-- `nxffs_freeofile`, as far as the open file is used again. -/
def freeofile (r : Ref) : Call φ Unit := modify fun v =>
  v.setOfile { v.ofile r with entry := { (v.ofile r).entry with name := none } } r

/-- **`nxffs_close`**, once it holds `exclsem`. -/
def close (r : Ref) : Call φ (Except ℤ Unit) := do
  let ofile := (← get).ofile r
  if ofile.crefs = 1 then
    remofile r
    if ofile.oflags.wrok then
      let ret ← wrclose M cfg
      freeofile r
      return ret
    else
      freeofile r
      return .ok ()
  else
    modify fun v => v.setOfile { ofile with crefs := ofile.crefs - 1 } r
    return .ok ()

/-! ### The system -/

/-- The volume, the tasks in `nxffs_wropen` that hold `wrsem` and have yet to take `exclsem`,
and what the files that are open point to. -/
structure Sys (φ : Type) where
  volume : Volume φ
  pending : List (Name × Oflags) := []
  files : List Ref := []

/-- What happens. A task that opens a file for writing waits until it can take `wrsem`; then it goes
on, or its wait for `exclsem` is interrupted. The FLASH may also be changed otherwise. -/
inductive Event (φ : Type) where
  | take (name : Name) (oflags : Oflags)
  | wropen (i : ℕ) (env : Supply)
  | interrupt (i : ℕ)
  | rdopen (name : Name) (env : Supply)
  | write (i : ℕ) (buffer : List UInt8)
  | close (i : ℕ)
  | media (m : φ)

namespace Sys

/-- A file is open for what was opened, if anything was. -/
def opened (s : Sys φ) (v : Volume φ) : Except ℤ Ref → Sys φ
  | .error _ => { s with volume := v }
  | .ok r => { s with volume := v, files := r :: s.files }

def step (s : Sys φ) : Event φ → Option (Sys φ)
  | .take name oflags =>
    -- `nxffs_open` calls `nxffs_wropen` only for these flags
    if oflags.wrok ∧ ¬ oflags.rdok ∧ 0 < s.volume.wrsem then
      some { s with
        volume := { s.volume with wrsem := s.volume.wrsem - 1 }
        pending := (name, oflags) :: s.pending }
    else none
  | .wropen i env => do
    let (name, oflags) ← s.pending[i]?
    let (ret, v) ← Nxffs.wropen M cfg name oflags env s.volume
    return { s with pending := s.pending.eraseIdx i }.opened v ret
  | .interrupt i => do
    let _ ← s.pending[i]?
    return { s with
      volume := { s.volume with wrsem := s.volume.wrsem + 1 }
      pending := s.pending.eraseIdx i }
  | .rdopen name env => do
    let (ret, v) ← Nxffs.rdopen M name env s.volume
    return s.opened v ret
  | .write i buffer => do
    let r ← s.files[i]?
    let (_, v) ← Nxffs.write M cfg r buffer s.volume
    return { s with volume := v }
  | .close i => do
    let r ← s.files[i]?
    let (_, v) ← Nxffs.close M cfg r s.volume
    return { s with volume := v, files := s.files.eraseIdx i }
  | .media m => some { s with volume := { s.volume with media := m } }

/-- The mounted volume. -/
def init (m : φ) : Sys φ := { volume := { media := m } }

end Sys

end GreenboneFeeder.Nxffs
