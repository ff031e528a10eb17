import GreenboneFeeder.Lib.Bytes
import GreenboneFeeder.Lib.Call
import GreenboneFeeder.Lib.Words

/-!
# FAT: sectors, the table and one open file

`fs/fat`: the device behind the one-sector cache of the mountpoint, the entries of the file
allocation table in three formats, the allocation of clusters, and reading, writing and seeking in
an open file, which has a one-sector cache of its own.

The device is a memory of bytes. Its operations succeed on the sectors that it has, except for those
in `faults`. Numbers of type `off_t` are integers, taken to 32 bits where the code computes them;
other numbers are natural numbers. There is no `CONFIG_FAT_DMAMEMORY`.
-/

namespace GreenboneFeeder.Fat

open Words Call

/-! ### The mountpoint -/

inductive Fstype where
  | fat12
  | fat16
  | fat32
deriving DecidableEq, Repr

/-- The fields of `struct fat_mountpt_s` that are set when the volume is mounted. -/
structure Geo where
  hwsectorsize : ℕ
  hwnsectors : ℕ
  fatbase : ℕ
  database : ℕ
  nclusters : ℕ
  nfatsects : ℕ
  fatnumfats : ℕ
  fatsecperclus : ℕ
  fstype : Fstype
deriving DecidableEq, Repr

/-- The other fields of `struct fat_mountpt_s`, with the device: its bytes, and which of the next
operations on it fail. -/
structure Fs where
  disk : Bytes
  faults : List Bool
  mounted : Bool
  currentsector : ℤ
  buffer : Bytes
  dirty : Bool
  fsinextfree : ℕ
  fsifreecount : ℕ
  fsidirty : Bool

def enodev : ℤ := 19

def eio : ℤ := 5

def eacces : ℤ := 13

def einval : ℤ := 22

def efbig : ℤ := 27

def enospc : ℤ := 28

variable (g : Geo)

/-! ### The device -/

variable (sector : ℤ) (cluster : ℕ)

/-- The sectors are sectors of the device. -/
def Geo.Inside (nsectors : ℕ) : Prop :=
  0 ≤ sector ∧ sector + nsectors ≤ g.hwnsectors

instance (sector : ℤ) (nsectors : ℕ) : Decidable (g.Inside sector nsectors) := by
  unfold Geo.Inside
  infer_instance

/-- `fat_hwread`, which returns what it puts into the buffer. -/
def fatHwread (nsectors : ℕ) : Call Fs Bytes := do
  let fs ← get
  modify fun fs => { fs with faults := fs.faults.tail }
  if fs.faults.headD false = false ∧ g.Inside sector nsectors then
    pure fun i => fs.disk (sector.toNat * g.hwsectorsize + i)
  else error (-eio)

/-- `fat_hwwrite`. -/
def fatHwwrite (buffer : Bytes) (sector : ℤ) (nsectors : ℕ) : Call Fs Unit := do
  let fs ← get
  modify fun fs => { fs with faults := fs.faults.tail }
  if fs.faults.headD false = false ∧ g.Inside sector nsectors then
    modify fun fs =>
      { fs with
        disk := fs.disk.blit (sector.toNat * g.hwsectorsize) (nsectors * g.hwsectorsize) buffer }
  else error (-eio)

/-! ### The cache of the mountpoint -/

/-- The loop of `fat_fscacheflush` over the copies of the FAT. -/
def writeCopies : ℕ → Call Fs Unit
  | 0 => pure ()
  | n + 1 => do
    modify fun fs => { fs with currentsector := fs.currentsector + g.nfatsects }
    let fs ← get
    fatHwwrite g fs.buffer fs.currentsector 1
    writeCopies n

/-- `fat_fscacheflush`. -/
def fatFscacheflush : Call Fs Unit := do
  let fs ← get
  if fs.dirty then
    fatHwwrite g fs.buffer fs.currentsector 1
    if (g.fatbase : ℤ) ≤ fs.currentsector ∧ fs.currentsector < g.fatbase + g.nfatsects then
      writeCopies g (g.fatnumfats - 1)
      modify fun fs => { fs with dirty := false }
    else modify fun fs => { fs with dirty := false }
  else pure ()

/-- `fat_fscacheread`. -/
def fatFscacheread : Call Fs Unit := do
  let fs ← get
  if fs.currentsector = sector then pure ()
  else
    fatFscacheflush g
    let buffer ← fatHwread g sector 1
    modify fun fs => { fs with buffer := buffer, currentsector := sector }

/-! ### The entries of the FAT -/

/-- `SEC_NSECTORS`, of a number of bytes that is not negative. -/
def Geo.secNsectors (n : ℕ) : ℕ := n / g.hwsectorsize

/-- A number, and `SEC_NDXMASK`. -/
def Geo.secNdx (n : ℕ) : ℕ := n &&& (g.hwsectorsize - 1)

/-- A byte of a cluster number in the format of FAT12 is read: when it is the second one, it may
lie in the next sector. -/
def fat12Byte (fatsector fatindex : ℕ) : Call Fs ℕ := do
  if g.hwsectorsize ≤ fatindex then
    orError (-einval) (fatFscacheread g (fatsector + 1))
    let fs ← get
    pure (fs.buffer 0).toNat
  else
    let fs ← get
    pure (fs.buffer fatindex).toNat

/-- `fat_getcluster`. -/
def fatGetcluster (clusterno : ℕ) : Call Fs ℕ :=
  if 2 ≤ clusterno ∧ clusterno < g.nclusters then
    match g.fstype with
    | .fat12 => do
      let fatoffset := clusterno * 3 / 2
      let fatsector := g.fatbase + g.secNsectors fatoffset
      orError (-einval) (fatFscacheread g fatsector)
      let fs ← get
      let fatindex := g.secNdx fatoffset
      let cluster := (fs.buffer fatindex).toNat
      let msb ← fat12Byte g fatsector (fatindex + 1)
      let cluster := cluster ||| msb <<< 8
      if clusterno &&& 1 ≠ 0 then pure (cluster >>> 4) else pure (cluster &&& 0x0fff)
    | .fat16 => do
      let fatoffset := 2 * clusterno
      orError (-einval) (fatFscacheread g (g.fatbase + g.secNsectors fatoffset : ℕ))
      let fs ← get
      pure (fs.buffer.load 2 (g.secNdx fatoffset))
    | .fat32 => do
      let fatoffset := 4 * clusterno
      orError (-einval) (fatFscacheread g (g.fatbase + g.secNsectors fatoffset : ℕ))
      let fs ← get
      pure (fs.buffer.load 4 (g.secNdx fatoffset) &&& 0x0fffffff)
  else error (-einval)

/-- A byte of the cached sector is replaced. -/
def putByte (i : ℕ) (value : ℕ) : Call Fs Unit :=
  modify fun fs => { fs with buffer := fs.buffer.write i (UInt8.ofNat value) }

/-- The first byte of a cluster number in the format of FAT12 is written. -/
def fat12PutLsb (clusterno nextcluster fatindex : ℕ) : Call Fs Unit := do
  let fs ← get
  if clusterno &&& 1 ≠ 0 then
    putByte fatindex (((fs.buffer fatindex).toNat &&& 0x0f) ||| nextcluster <<< 4)
  else putByte fatindex nextcluster

/-- The second byte of a cluster number in the format of FAT12 is written. -/
def fat12PutMsb (clusterno nextcluster fatindex : ℕ) : Call Fs Unit := do
  let fs ← get
  if clusterno &&& 1 ≠ 0 then putByte fatindex (nextcluster >>> 4)
  else putByte fatindex (((fs.buffer fatindex).toNat &&& 0xf0) ||| ((nextcluster >>> 8) &&& 0x0f))

/-- The part of `fat_putcluster` that depends on the format. Where a sector cannot be read, the
number that is returned is that of success. -/
def putEntry (clusterno nextcluster : ℕ) : Call Fs Unit :=
  match g.fstype with
  | .fat12 => do
    let fatoffset := clusterno * 3 / 2
    let fatsector := g.fatbase + g.secNsectors fatoffset
    fatFscacheread g fatsector
    let fatindex := g.secNdx fatoffset
    fat12PutLsb clusterno nextcluster fatindex
    if g.hwsectorsize ≤ fatindex + 1 then
      modify fun fs => { fs with dirty := true }
      fatFscacheread g (fatsector + 1)
      fat12PutMsb clusterno nextcluster 0
    else fat12PutMsb clusterno nextcluster (fatindex + 1)
  | .fat16 => do
    let fatoffset := 2 * clusterno
    fatFscacheread g (g.fatbase + g.secNsectors fatoffset : ℕ)
    modify fun fs =>
      { fs with buffer := fs.buffer.store 2 (g.secNdx fatoffset) (nextcluster &&& 0xffff) }
  | .fat32 => do
    let fatoffset := 4 * clusterno
    fatFscacheread g (g.fatbase + g.secNsectors fatoffset : ℕ)
    let fs ← get
    -- the upper four bits are kept
    let val := fs.buffer.load 4 (g.secNdx fatoffset) &&& 0xf0000000
    modify fun fs =>
      { fs with
        buffer := fs.buffer.store 4 (g.secNdx fatoffset) (val ||| (nextcluster &&& 0x0fffffff)) }

/-- `fat_putcluster`. -/
def fatPutcluster (clusterno nextcluster : ℕ) : Call Fs Unit :=
  if clusterno = 0 ∨ 2 ≤ clusterno ∧ clusterno < g.nclusters then do
    ignore (putEntry g clusterno nextcluster)
    modify fun fs => { fs with dirty := true }
  else error (-einval)

/-! ### The allocation of clusters -/

/-- The loop of `fat_extendchain`: the free cluster that it finds. -/
def search (startcluster : ℕ) : ℕ → ℕ → Call Fs (Option ℕ)
  | 0, _ => diverge
  | fuel + 1, newcluster =>
    let newcluster := newcluster + 1
    if g.nclusters ≤ newcluster ∧ startcluster < 2 then pure none
    else do
      let newcluster := if g.nclusters ≤ newcluster then 2 else newcluster
      let startsector ← fatGetcluster g newcluster
      if startsector = 0 then pure (some newcluster)
      else if newcluster = startcluster then pure none
      else search startcluster fuel newcluster

/-- A new cluster is linked to another one, if there is one. -/
def link (cluster newcluster : ℕ) : Call Fs Unit :=
  if cluster ≠ 0 then fatPutcluster g cluster newcluster else pure ()

/-- The end of `fat_extendchain`: a free cluster is searched for, marked as the end of a chain and
linked to the cluster, if there is one. -/
def allocate (cluster startcluster : ℕ) : Call Fs ℕ := do
  let found ← search g startcluster (g.nclusters + 1) startcluster
  match found with
  | none => pure 0
  | some newcluster =>
    fatPutcluster g newcluster 0x0fffffff
    link g cluster newcluster
    modify fun fs => { fs with fsinextfree := newcluster }
    modify fun fs =>
      if fs.fsifreecount = 0xffffffff then fs
      else { fs with fsifreecount := uint32 (fs.fsifreecount - 1), fsidirty := true }
    pure newcluster

/-- `fat_extendchain`. -/
def fatExtendchain : Call Fs ℕ := do
  let fs ← get
  if cluster = 0 then
    allocate g 0
      (if fs.fsinextfree = 0 ∨ g.nclusters ≤ fs.fsinextfree then 1 else fs.fsinextfree)
  else
    let startsector ← fatGetcluster g cluster
    if startsector < 2 then pure 0
    else if startsector < g.nclusters then pure startsector
    else allocate g cluster cluster

/-- `fat_createchain`. -/
def fatCreatechain : Call Fs ℕ := fatExtendchain g 0

/-- The loop of `fat_removechain`. -/
def removeLoop : ℕ → ℕ → Call Fs Unit
  | 0, _ => diverge
  | fuel + 1, cluster =>
    if 2 ≤ cluster ∧ cluster < g.nclusters then do
      let nextcluster ← fatGetcluster g cluster
      fatPutcluster g cluster 0
      modify fun fs =>
        if fs.fsifreecount = 0xffffffff then fs
        else { fs with fsifreecount := uint32 (fs.fsifreecount + 1), fsidirty := true }
      removeLoop fuel nextcluster
    else pure ()

/-- `fat_removechain`. -/
def fatRemovechain : Call Fs Unit := removeLoop g (g.nclusters + 1) cluster

/-- The loop of `fat_nfreeclusters` over the entries of 12 bits. An error number is not zero. -/
def nfree12 : ℕ → ℕ → ℕ → Call Fs ℕ
  | 0, _, nfreeclusters => pure nfreeclusters
  | k + 1, sector, nfreeclusters => do
    let cluster ← number (fatGetcluster g sector)
    nfree12 k (sector + 1) (nfreeclusters + if uint16 cluster = 0 then 1 else 0)

/-- Behind the end of a sector of the FAT, the next one is read. Its number is incremented twice. -/
def nfreeSector (fatsector : ℤ) (offset : ℕ) : Call Fs (ℤ × ℕ) :=
  if g.hwsectorsize ≤ offset then do
    fatFscacheread g fatsector
    pure (fatsector + 2, 0)
  else pure (fatsector, offset)

/-- The loop of `fat_nfreeclusters` over the other entries. -/
def nfreeRaw : ℕ → ℤ → ℕ → ℕ → Call Fs ℕ
  | 0, _, _, nfreeclusters => pure nfreeclusters
  | cluster + 1, fatsector, offset, nfreeclusters => do
    let (fatsector, offset) ← nfreeSector g fatsector offset
    let fs ← get
    let size := if g.fstype = .fat16 then 2 else 4
    nfreeRaw cluster fatsector (offset + size)
      (nfreeclusters + if fs.buffer.load size offset = 0 then 1 else 0)

/-- `fat_nfreeclusters`. -/
def fatNfreeclusters : Call Fs ℕ := do
  let fs ← get
  if fs.fsifreecount ≤ uint32 (g.nclusters - 2 : ℤ) then pure fs.fsifreecount
  else
    let nfreeclusters ←
      if g.fstype = .fat12 then nfree12 g (g.nclusters - 2) 2 0
      else nfreeRaw g g.nclusters g.fatbase g.hwsectorsize 0
    modify fun fs =>
      { fs with
        fsifreecount := nfreeclusters
        fsidirty := if g.fstype = .fat32 then true else fs.fsidirty }
    pure nfreeclusters

/-! ### The open file -/

/-- `struct fat_file_s`, as far as it is used for reading, writing and seeking; the flags of the
buffer and of the file are separate fields. -/
structure Ff where
  /-- `FFBUFF_VALID` -/
  valid : Bool
  /-- `FFBUFF_DIRTY` -/
  dirty : Bool
  /-- `FFBUFF_MODIFIED` -/
  modified : Bool
  /-- `O_RDOK` -/
  rdok : Bool
  /-- `O_WROK` -/
  wrok : Bool
  sectorsincluster : ℕ
  currentcluster : ℕ
  size : ℤ
  startcluster : ℤ
  currentsector : ℤ
  cachesector : ℤ
  buffer : Bytes

/-- The mountpoint, one open file, and its position (`f_pos` of `struct file`). -/
structure Sys where
  fs : Fs
  ff : Ff
  fpos : ℤ

/-- A call on the mountpoint. -/
def onFs {α : Type} : Call Fs α → Call Sys α := zoom Sys.fs fun s fs => { s with fs := fs }

/-- The fields of the open file are changed. -/
def modifyFf (f : Ff → Ff) : Call Sys Unit := modify fun s => { s with ff := f s.ff }

/-- `fat_checkmount`. -/
def fatCheckmount : Call Sys Unit := do
  let s ← get
  if s.fs.mounted then pure () else error (-enodev)

/-! ### The cache of the file -/

/-- `fat_ffcacheflush`. -/
def fatFfcacheflush : Call Sys Unit := do
  let s ← get
  if s.ff.cachesector ≠ 0 ∧ s.ff.dirty ∧ s.ff.valid then
    onFs (fatHwwrite g s.ff.buffer s.ff.cachesector 1)
    modifyFf fun ff => { ff with dirty := false }
  else pure ()

/-- `fat_ffcacheread`. -/
def fatFfcacheread : Call Sys Unit := do
  let s ← get
  if s.ff.cachesector ≠ sector ∨ s.ff.valid = false then
    fatFfcacheflush g
    let buffer ← onFs (fatHwread g sector 1)
    modifyFf fun ff => { ff with buffer := buffer, cachesector := sector, valid := true }
  else pure ()

/-- `fat_ffcacheinvalidate`. -/
def fatFfcacheinvalidate : Call Sys Unit := do
  let s ← get
  if s.ff.valid then
    fatFfcacheflush g
    modifyFf fun ff => { ff with valid := false, cachesector := 0 }
  else pure ()

/-! ### The current sector -/

/-- `fat_cluster2sector`. -/
def Geo.cluster2sector : ℤ :=
  let cluster := uint32 ((cluster : ℤ) - 2)
  if uint32 ((g.nclusters : ℤ) - 2) ≤ cluster then -einval
  else int32 (uint32 (cluster * g.fatsecperclus + g.database : ℕ))

/-- A file position, and `SEC_NDXMASK`. -/
def Geo.sectorindex (position : ℤ) : ℕ := g.secNdx (uint32 position)

/-- The number of the sector of a file position in its cluster. -/
def Geo.sectoroffset (position : ℤ) : ℕ :=
  uint32 (Int.tdiv position g.hwsectorsize) &&& (g.fatsecperclus - 1)

/-- `fat_currentsector`. -/
def fatCurrentsector (position : ℤ) : Call Sys Unit := do
  let s ← get
  if position ≤ s.ff.size then
    let sectoroffset := g.sectoroffset position
    modifyFf fun ff =>
      { ff with
        currentsector := int32 (g.cluster2sector ff.currentcluster + sectoroffset)
        sectorsincluster := g.fatsecperclus - sectoroffset }
  else error (-enospc)

/-- A transfer of sectors moves on to the sectors after them. -/
def Ff.advance (nsectors : ℕ) (ff : Ff) : Ff :=
  { ff with
    sectorsincluster := ff.sectorsincluster - nsectors
    currentsector := int32 (ff.currentsector + nsectors) }

/-- The first sector of a cluster becomes the current one. -/
def Ff.enter (ff : Ff) : Ff :=
  { ff with
    currentcluster := cluster
    currentsector := g.cluster2sector cluster
    sectorsincluster := g.fatsecperclus }

/-- The file position is moved on. -/
def move (nbytes : ℕ) : Call Sys Unit :=
  modify fun s => { s with fpos := int32 (s.fpos + nbytes) }

/-! ### Reading -/

/-- The start of a turn of the loop of `fat_read`: at the end of a cluster, the next one is taken
from the FAT. -/
def readCluster : Call Sys Unit := do
  let s ← get
  if s.ff.sectorsincluster < 1 then
    let cluster ← onFs (fatGetcluster g s.ff.currentcluster)
    if cluster < 2 ∨ g.nclusters ≤ cluster then error (-einval)
    else modifyFf (Ff.enter g cluster)
  else pure ()

/-- The rest of the turn: the bytes that were read. -/
def readTurn (buflen : ℕ) : Call Sys (List UInt8) := do
  let s ← get
  let sectorindex := g.sectorindex s.fpos
  let nsectors := buflen / g.hwsectorsize
  if 0 < nsectors ∧ sectorindex = 0 then
    let nsectors := min nsectors s.ff.sectorsincluster
    ignore (fatFfcacheinvalidate g)
    let data ← onFs (fatHwread g s.ff.currentsector nsectors)
    modifyFf (Ff.advance nsectors)
    pure (data.slice 0 (nsectors * g.hwsectorsize))
  else
    fatFfcacheread g s.ff.currentsector
    let s ← get
    let bytesread := g.hwsectorsize - sectorindex
    if buflen < bytesread then pure (s.ff.buffer.slice sectorindex buflen)
    else
      modifyFf (Ff.advance 1)
      pure (s.ff.buffer.slice sectorindex bytesread)

/-- The loop of `fat_read`, with what was read so far. -/
def readLoop : ℕ → ℕ → List UInt8 → Call Sys (List UInt8)
  | 0, _, _ => diverge
  | fuel + 1, buflen, out =>
    if buflen = 0 then pure out
    else do
      readCluster g
      let data ← readTurn g buflen
      move data.length
      readLoop fuel (buflen - data.length) (out ++ data)

/-- `fat_read`, which returns the bytes that it puts into the buffer. -/
def fatRead (buflen : ℕ) : Call Sys (List UInt8) := do
  fatCheckmount
  let s ← get
  if s.ff.rdok then
    let buflen := min buflen (uint32 (s.ff.size - s.fpos))
    if s.ff.currentsector = 0 then
      fatCurrentsector g s.fpos
      readLoop g (buflen + 1) buflen []
    else readLoop g (buflen + 1) buflen []
  else error (-eacces)

/-! ### Writing -/

/-- The start of a turn of the loop of `fat_write`: at the end of a cluster, the chain is extended
if it has no next one. -/
def writeCluster : Call Sys Unit := do
  let s ← get
  if s.ff.sectorsincluster < 1 then
    let cluster ← onFs (fatExtendchain g s.ff.currentcluster)
    if cluster < 2 ∨ g.nclusters ≤ cluster then error (-enospc)
    else modifyFf (Ff.enter g cluster)
  else pure ()

/-- The current sector is put into the cache of the file. It is not read if all of it that belongs
to the file is written. -/
def writeSector (sectorindex buflen : ℕ) : Call Sys Unit := do
  let s ← get
  if sectorindex = 0 ∧
      (g.hwsectorsize ≤ buflen ∨ uint32 s.ff.size ≤ uint32 (s.fpos + buflen)) then
    fatFfcacheflush g
    modifyFf fun ff => { ff with cachesector := ff.currentsector }
  else fatFfcacheread g s.ff.currentsector

/-- The rest of the turn, with the bytes that are left to write: the number of those that were
written. -/
def writeTurn (data : List UInt8) : Call Sys ℕ := do
  let s ← get
  let sectorindex := g.sectorindex s.fpos
  let nsectors := data.length / g.hwsectorsize
  if 0 < nsectors ∧ sectorindex = 0 then
    let nsectors := min nsectors s.ff.sectorsincluster
    ignore (fatFfcacheinvalidate g)
    onFs (fatHwwrite g (Bytes.ofList data) s.ff.currentsector nsectors)
    modifyFf fun ff => { ff.advance nsectors with modified := true }
    pure (nsectors * g.hwsectorsize)
  else
    writeSector g sectorindex data.length
    let writesize := min (g.hwsectorsize - sectorindex) data.length
    modifyFf fun ff =>
      { if data.length < g.hwsectorsize - sectorindex then ff else ff.advance 1 with
        buffer := ff.buffer.blit sectorindex writesize (Bytes.ofList data)
        dirty := true
        valid := true
        modified := true }
    pure writesize

/-- The loop of `fat_write`. -/
def writeLoop : ℕ → List UInt8 → Call Sys Unit
  | 0, _ => diverge
  | fuel + 1, data =>
    if data = [] then pure ()
    else do
      writeCluster g
      let writesize ← writeTurn g data
      move writesize
      writeLoop fuel (data.drop writesize)

/-- The first sector to write to: if the file has no cluster yet, it gets one. -/
def writeStart : Call Sys Unit := do
  let s ← get
  if s.ff.currentsector = 0 then
    if s.ff.startcluster = 0 then
      let cluster ← number (onFs (fatCreatechain g))
      modifyFf fun ff =>
        { ff with
          startcluster := cluster
          currentcluster := uint32 cluster
          sectorsincluster := g.fatsecperclus }
      fatCurrentsector g s.fpos
    else fatCurrentsector g s.fpos
  else pure ()

/-- `fat_write`. -/
def fatWrite (data : List UInt8) : Call Sys ℕ := do
  fatCheckmount
  let s ← get
  if s.ff.wrok then
    if uint32 (s.ff.size + data.length) < uint32 s.ff.size then error (-efbig)
    else
      writeStart g
      writeLoop g (data.length + 1) data
      modify fun s =>
        if s.ff.size < s.fpos then { s with ff := { s.ff with size := s.fpos } } else s
      pure data.length
  else error (-eacces)

/-! ### Seeking -/

inductive Whence where
  | set
  | cur
  | fileEnd
deriving DecidableEq, Repr

/-- The position that `fat_seek` is to go to. -/
def Sys.target (s : Sys) (offset : ℤ) : Whence → ℤ
  | .set => offset
  | .cur => int32 (offset + s.fpos)
  | .fileEnd => int32 (offset + s.ff.size)

/-- The loop of `fat_seek` along the clusters: what is left of the position in the cluster where
it ends. -/
def seekLoop : ℕ → ℕ → ℤ → Call Sys ℤ
  | 0, _, _ => diverge
  | fuel + 1, cluster, position => do
    modifyFf fun ff => { ff with currentcluster := cluster }
    let clustersize := g.fatsecperclus * g.hwsectorsize
    if uint32 position < clustersize then pure position
    else
      let s ← get
      let cluster ←
        onFs (if s.ff.wrok then fatExtendchain g cluster else fatGetcluster g cluster)
      if cluster = 0 then pure (clustersize : ℤ)
      else if g.nclusters ≤ cluster then error (-enospc)
      else
        move clustersize
        seekLoop fuel cluster (int32 (position - clustersize))

/-- The file is moved to a position, from its first cluster on. -/
def seekChain (position : ℤ) : Call Sys Unit := do
  let clustersize := g.fatsecperclus * g.hwsectorsize
  let position ← seekLoop g (uint32 position / clustersize + 1) cluster position
  modify fun s => { s with fpos := int32 (s.fpos + position) }
  let s ← get
  ignore (fatCurrentsector g s.fpos)
  if g.sectorindex position ≠ 0 then
    let s ← get
    fatFfcacheread g s.ff.currentsector
  else pure ()

/-- The end of `fat_seek`: the size of the file is extended to the position. -/
def seekEnd : Call Sys Unit :=
  modify fun s =>
    if s.ff.wrok ∧ s.ff.size < s.fpos then
      { s with ff := { s.ff with size := s.fpos, modified := true } }
    else s

/-- `fat_seek`. -/
def fatSeek (offset : ℤ) (whence : Whence) : Call Sys Unit := do
  let s ← get
  let position := s.target offset whence
  fatCheckmount
  fatFfcacheflush g
  let position := if s.ff.size < position ∧ s.ff.wrok = false then s.ff.size else position
  modify fun s =>
    { s with fpos := 0, ff := { s.ff with sectorsincluster := g.fatsecperclus } }
  if s.ff.startcluster = 0 ∧ 0 < position then
    let cluster ← onFs (fatCreatechain g)
    modifyFf fun ff => { ff with startcluster := cluster }
    if cluster ≠ 0 then
      seekChain g cluster position
      seekEnd
    else seekEnd
  else if s.ff.startcluster ≠ 0 then
    seekChain g (uint32 s.ff.startcluster) position
    seekEnd
  else seekEnd

end GreenboneFeeder.Fat
