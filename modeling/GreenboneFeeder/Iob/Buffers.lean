import GreenboneFeeder.Lib.CString
import GreenboneFeeder.Lib.Words

/-!
# Chains of I/O buffers

`iob_tryalloc`, `iob_alloc`, `iob_free`, `iob_copyin`, `iob_trimhead`, `iob_trimtail`, `iob_contig`
and `iob_concat` of `net/iob`, without the debug assertions. A buffer is a number, its place in
`g_iob_pool`. The length of the packet is a `uint16_t`; the length and the offset of a buffer are a
`uint8_t` or a `uint16_t`, as the size of a buffer requires. There is no result where the code
follows a `NULL` pointer or touches memory outside of the data of a buffer. The loops are bounded by
the number of buffers.
-/

namespace GreenboneFeeder.IobChain

open CString Words

/-- The configuration. -/
structure Config where
  /-- `CONFIG_IOB_BUFSIZE` -/
  bufsize : ℕ
  /-- `CONFIG_IOB_NBUFFERS` -/
  nbuffers : ℕ
  /-- `CONFIG_IOB_THROTTLE` -/
  throttle : ℕ
  bufsize_lt : bufsize < 2 ^ 16

/-- A value of `io_len` or `io_offset`. -/
def Config.narrow (cfg : Config) (n : ℕ) : ℕ := n % if cfg.bufsize < 256 then 2 ^ 8 else 2 ^ 16

/-- `struct iob_s`. -/
structure Iob where
  flink : Option ℕ
  len : ℕ
  offset : ℕ
  pktlen : ℕ
  data : List UInt8
  deriving DecidableEq, Repr

/-- The buffers, `g_iob_freelist`, and the counts of the two semaphores. -/
structure Pool where
  iobs : ℕ → Iob
  freelist : Option ℕ
  iobSem : ℤ
  throttleSem : ℤ

/-- A buffer is written. -/
def Pool.set (p : Pool) (i : ℕ) (iob : Iob) : Pool :=
  { p with iobs := Function.update p.iobs i iob }

variable (cfg : Config)

/-! ### Allocating and freeing -/

/-- The pool before it is initialised, with the counts that `iob_initialize` sets. -/
def zeroedPool : Pool where
  iobs := fun _ => ⟨none, 0, 0, 0, List.replicate cfg.bufsize 0⟩
  freelist := none
  iobSem := cfg.nbuffers
  throttleSem := cfg.nbuffers - cfg.throttle

/-- A buffer is put in front of the free list. -/
def putFree (p : Pool) (i : ℕ) : Pool :=
  { p.set i { p.iobs i with flink := p.freelist } with freelist := some i }

/-- **`iob_initialize`**: all buffers are put into the free list. -/
def iobInitialize : Pool := (List.range cfg.nbuffers).foldl putFree (zeroedPool cfg)

/-- The count of the semaphore that is selected. -/
def Pool.semcount (throttled : Bool) (p : Pool) : ℤ :=
  if 0 < cfg.throttle ∧ throttled then p.throttleSem else p.iobSem

/-- **`iob_tryalloc`.** -/
def iobTryalloc (throttled : Bool) (p : Pool) : Pool × Option ℕ :=
  if 0 < cfg.throttle ∧ p.semcount cfg throttled ≤ 0 then (p, none)
  else
    match p.freelist with
    | none => (p, none)
    | some i =>
      ({ iobs := Function.update p.iobs i
          { p.iobs i with flink := none, len := 0, offset := 0, pktlen := 0 }
         freelist := (p.iobs i).flink
         iobSem := p.iobSem - 1
         throttleSem := if 0 < cfg.throttle then p.throttleSem - 1 else p.throttleSem }, some i)

/-- What `iob_alloc` returns, if it does. -/
inductive Allocated where
  | buffer (iob : ℕ)
  | null
  /-- The task waits for a buffer. -/
  | waits
  deriving DecidableEq, Repr

/-- The loop of `iob_allocwait`: `sem_wait` returns while there is a count to take. -/
def allocwaitLoop (throttled : Bool) : ℕ → Pool → Pool × Allocated
  | 0, p => (p, .waits)
  | rounds + 1, p =>
    match iobTryalloc cfg throttled p with
    | (p, some i) => (p, .buffer i)
    | (p, none) =>
      let taken : Pool :=
        if 0 < cfg.throttle ∧ throttled then { p with throttleSem := p.throttleSem - 1 }
        else { p with iobSem := p.iobSem - 1 }
      if 0 < p.semcount cfg throttled then allocwaitLoop throttled rounds taken
      else (taken, .waits)

/-- **`iob_alloc`**, from the interrupt level or from a task. A round of the loop that does not end
it takes a count, so there are enough rounds. -/
def iobAlloc (interrupt throttled : Bool) (p : Pool) : Pool × Allocated :=
  if interrupt then
    match iobTryalloc cfg throttled p with
    | (p, some i) => (p, .buffer i)
    | (p, none) => (p, .null)
  else allocwaitLoop cfg throttled ((p.semcount cfg throttled).toNat + 1) p

/-- The length of the packet goes to the next buffer of the chain. -/
def passPktlen (p : Pool) (i : ℕ) : Pool :=
  let iob := p.iobs i
  match iob.flink with
  | none => p
  | some next =>
    p.set next
      { p.iobs next with pktlen := if iob.len < iob.pktlen then iob.pktlen - iob.len else 0 }

/-- **`iob_free`**: the next buffer of the chain is returned. -/
def iobFree (p : Pool) (i : ℕ) : Pool × Option ℕ :=
  let next := (p.iobs i).flink
  let p := passPktlen p i
  ({ iobs := Function.update p.iobs i { p.iobs i with flink := p.freelist }
     freelist := some i
     iobSem := p.iobSem + 1
     throttleSem := if 0 < cfg.throttle then p.throttleSem + 1 else p.throttleSem }, next)

/-! ### Walking -/

/-- The walk to the end of a chain: the last buffer and the one in front of it. -/
def findLast (iobs : ℕ → Iob) : ℕ → Option ℕ → ℕ → Option (Option ℕ × ℕ)
  | 0, _, _ => none
  | fuel + 1, penultimate, entry =>
    match (iobs entry).flink with
    | none => some (penultimate, entry)
    | some next => findLast iobs fuel (some entry) next

/-- The walk of `iob_copyin` to the buffer that has the offset. -/
def skipLoop (iobs : ℕ → Iob) : ℕ → ℕ → ℕ → Option (ℕ × ℕ)
  | 0, _, _ => none
  | fuel + 1, iob, offset =>
    if (iobs iob).len < offset then
      match (iobs iob).flink with
      | none => none
      | some next => skipLoop iobs fuel next (offset - (iobs iob).len)
    else some (iob, offset)

/-! ### Copying -/

/-- What `iob_copyin` returns, if it does. -/
inductive Copied where
  | ok
  | espipe
  | enomem
  /-- The task waits for a buffer. -/
  | waits
  deriving DecidableEq, Repr

/-- The last buffer of a chain is extended, up to the end of its data if necessary. -/
def extend (head i offset len : ℕ) (p : Pool) : Pool × ℕ :=
  let iob := p.iobs i
  let newlen := min (len + offset) (cfg.bufsize - iob.offset)
  let p := p.set head
    { p.iobs head with pktlen := uint16 ((p.iobs head).pktlen + ((newlen : ℤ) - iob.len)) }
  (p.set i { p.iobs i with len := cfg.narrow newlen }, newlen - offset)

/-- The number of bytes to copy into the buffer `i`; the last buffer is extended for it. -/
def copyAmount (head i offset len : ℕ) (p : Pool) : Pool × ℕ :=
  if (p.iobs i).len - offset < len then
    match (p.iobs i).flink with
    | some _ => (p, (p.iobs i).len - offset)
    | none => extend cfg head i offset len p
  else (p, len)

/-- The second loop of `iob_copyin`. -/
def copyLoop (interrupt throttled : Bool) (head : ℕ) :
    ℕ → ℕ → ℕ → List UInt8 → Pool → Option (Pool × Copied)
  | _, _, _, [], p => some (p, .ok)
  | 0, _, _, _ :: _, _ => none
  | fuel + 1, i, offset, c :: src, p => do
    let next := (p.iobs i).flink
    let dest := (p.iobs i).offset + offset
    let (p, ncopy) := copyAmount cfg head i offset (src.length + 1) p
    let data ← writeAt (p.iobs i).data dest ((c :: src).take ncopy)
    let p := p.set i { p.iobs i with data := data }
    let rest := (c :: src).drop ncopy
    match next with
    | some next => copyLoop interrupt throttled head fuel next 0 rest p
    | none =>
      if rest = [] then some (p, .ok)
      else
        match iobAlloc cfg interrupt throttled p with
        | (p, .buffer next) =>
          copyLoop interrupt throttled head fuel next 0 rest
            (p.set i { p.iobs i with flink := some next })
        | (p, .null) => some (p, .enomem)
        | (p, .waits) => some (p, .waits)

/-- **`iob_copyin`.** -/
def iobCopyin (interrupt throttled : Bool) (head : ℕ) (src : List UInt8) (offset : ℕ) (p : Pool) :
    Option (Pool × Copied) :=
  if (p.iobs head).pktlen < offset then some (p, .espipe)
  else do
    let (i, offset) ← skipLoop p.iobs cfg.nbuffers head offset
    copyLoop cfg interrupt throttled head cfg.nbuffers i offset src p

/-! ### Trimming -/

/-- The loop of `iob_trimhead`, with the first buffer and the length of the packet. -/
def trimheadLoop : ℕ → ℕ → ℕ → ℕ → Pool → Option (Pool × ℕ × ℕ)
  | 0, _, _, _, _ => none
  | fuel + 1, i, trimlen, pktlen, p =>
    if 0 < trimlen then
      let iob := p.iobs i
      if iob.len ≤ trimlen then
        let pktlen := uint16 ((pktlen : ℤ) - iob.len)
        match iob.flink with
        | none => some (p.set i { iob with len := 0, offset := 0 }, i, pktlen)
        | some next => trimheadLoop fuel next (trimlen - iob.len) pktlen (iobFree cfg p i).1
      else
        some (p.set i { iob with
          len := iob.len - trimlen
          offset := cfg.narrow (iob.offset + trimlen) }, i, uint16 ((pktlen : ℤ) - trimlen))
    else some (p, i, pktlen)

/-- **`iob_trimhead`.** -/
def iobTrimhead (i trimlen : ℕ) (p : Pool) : Option (Pool × ℕ) :=
  if 0 < trimlen then do
    let (p, i, pktlen) ← trimheadLoop cfg (cfg.nbuffers + 1) i trimlen (p.iobs i).pktlen p
    some (p.set i { p.iobs i with pktlen := pktlen }, i)
  else some (p, i)

/-- The last buffer of a chain is emptied: nothing of it is left. -/
def consumeLast (head last : ℕ) (p : Pool) : Pool :=
  let len := (p.iobs last).len
  let p := p.set head { p.iobs head with pktlen := uint16 ((p.iobs head).pktlen - (len : ℤ)) }
  (iobFree cfg (p.set last { p.iobs last with len := 0 }) last).1

/-- The loop of `iob_trimtail`. -/
def trimtailLoop (head : ℕ) : ℕ → ℤ → Pool → Option (Pool × Option ℕ)
  | 0, _, _ => none
  | fuel + 1, len, p =>
    if 0 < len then do
      let (penultimate, last) ← findLast p.iobs cfg.nbuffers none head
      if ((p.iobs last).len : ℤ) ≤ len then
        let rest := len - (p.iobs last).len
        let p := consumeLast cfg head last p
        match penultimate with
        | none => some (p, none)
        | some penultimate =>
          trimtailLoop head fuel rest (p.set penultimate { p.iobs penultimate with flink := none })
      else
        let p := p.set head { p.iobs head with pktlen := uint16 ((p.iobs head).pktlen - len) }
        some (p.set last { p.iobs last with len := (p.iobs last).len - len.toNat }, some head)
    else some (p, some head)

/-- **`iob_trimtail`**: the chain that is left. -/
def iobTrimtail (head trimlen : ℕ) (p : Pool) : Option (Pool × Option ℕ) :=
  if 0 < trimlen then trimtailLoop cfg head (cfg.nbuffers + 1) (int32 trimlen) p
  else some (p, some head)

/-! ### Packing -/

/-- The data of the first buffer are moved to its beginning. -/
def dropOffset (i : ℕ) (p : Pool) : Option Pool :=
  let iob := p.iobs i
  if 0 < iob.offset then do
    let data ← moveDown iob.len iob.offset 0 iob.data
    some (p.set i { iob with data := data, offset := 0 })
  else some p

/-- What is missing in the first buffer is moved there from the second one. -/
def pull (i next len : ℕ) (p : Pool) : Option Pool := do
  let ncopy := min (len - (p.iobs i).len) (p.iobs next).len
  let bytes ← readAt (p.iobs next).data (p.iobs next).offset ncopy
  let data ← writeAt (p.iobs i).data (p.iobs i).len bytes
  let p := p.set i { p.iobs i with data := data, len := cfg.narrow ((p.iobs i).len + ncopy) }
  some (p.set next { p.iobs next with
    offset := cfg.narrow ((p.iobs next).offset + ncopy)
    len := (p.iobs next).len - ncopy })

/-- The loop of `iob_contig`. -/
def contigLoop (i len : ℕ) : ℕ → Pool → Option Pool
  | 0, _ => none
  | fuel + 1, p => do
    let next ← (p.iobs i).flink
    let p ← pull cfg i next len p
    let p :=
      if (p.iobs next).len = 0 then
        let (p, flink) := iobFree cfg p next
        p.set i { p.iobs i with flink := flink }
      else p
    if (p.iobs i).len < len then contigLoop i len fuel p else some p

/-- **`iob_contig`**; the flag is false for `-ENOSPC`. -/
def iobContig (i len : ℕ) (p : Pool) : Option (Pool × Bool) :=
  if len ≤ (p.iobs i).len then some (p, true)
  else if len ≤ (p.iobs i).pktlen then do
    let p ← dropOffset i p
    let p ← contigLoop cfg i len cfg.nbuffers p
    some (p, true)
  else some (p, false)

/-- **`iob_concat`.** -/
def iobConcat (iob1 iob2 : ℕ) (p : Pool) : Option Pool := do
  let (_, last) ← findLast p.iobs cfg.nbuffers none iob1
  some (p.set last { p.iobs last with
    flink := some iob2
    pktlen := uint16 ((p.iobs last).pktlen + (p.iobs iob2).pktlen : ℕ) })

end GreenboneFeeder.IobChain
