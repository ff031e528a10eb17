import GreenboneFeeder.Lib.CString
import Mathlib.Data.Int.Notation

/-!
# Environment variables

`setenv`, `unsetenv` and `getenv` of `sched/environ`. The strings `name=value` of a task group stand
one behind the other in one block, `tg_envp`, of `tg_envsize` bytes. A string that is removed is
overwritten by those behind it. A pointer into the block is its distance from `tg_envp`. There is no
result where the code touches a byte outside of the block, or a block that has been freed.
-/

namespace GreenboneFeeder.Environ

open CString

/-- `OK`. -/
def ok : ℤ := 0

/-- `ERROR`. -/
def error : ℤ := -1

/-- `ENOENT`. -/
def enoent : ℤ := 2

/-- `ENOMEM`. -/
def enomem : ℤ := 12

/-- `EINVAL`. -/
def einval : ℤ := 22

/-- The character `=`. -/
def eqSign : UInt8 := 61

/-- A string of C: its characters, without the terminator. -/
structure Str where
  chars : List UInt8
  nul_notMem : 0 ∉ chars
  deriving DecidableEq, Repr

/-- The string with its terminator, as it is in memory. -/
def Str.mem (s : Str) : List UInt8 := s.chars ++ [0]

/-- What a pointer to a block of memory points to. -/
inductive Pointer where
  | null
  | block (bytes : List UInt8)
  /-- The block has been freed. -/
  | freed
  deriving DecidableEq, Repr

/-- The bytes that can be accessed. -/
def Pointer.bytes : Pointer → List UInt8
  | .block bytes => bytes
  | _ => []

/-- The fields of the task group, and `errno`. -/
structure Group where
  envp : Pointer := .null
  envsize : ℕ := 0
  errno : ℤ := 0
  deriving DecidableEq, Repr

/-! ### Memory allocation -/

variable (junk : ℕ → UInt8)

/-- `kumm_malloc`, of more than zero bytes; `junk` is what the memory holds. -/
def kummMalloc (size : ℕ) : Pointer :=
  .block ((List.range size).map junk)

/-- **`kumm_realloc`**: the new pointer, and what the old one points to if there is none. Memory for
more than zero bytes is always found; for zero bytes the block is freed. -/
def kummRealloc (oldmem : Pointer) (size : ℕ) : Option (Pointer × Pointer) :=
  match oldmem with
  | .null => some (kummMalloc junk size, .null)
  | .block bytes =>
    if size = 0 then some (.null, .freed)
    else some (.block (bytes.take size ++ (List.range (size - bytes.length)).map junk), .freed)
  | .freed => none

/-! ### Searching and removing -/

/-- **`env_cmpname`**: the walk along the two strings to the first difference. -/
def envCmpname : List UInt8 → List UInt8 → Option Bool
  | c :: pszname, d :: peqname =>
    if c = d then envCmpname pszname peqname else some (c = 0 ∧ d = eqSign)
  | _, _ => none

/-- The loop of `env_findvar`, from `ptr` on; it advances with each round, so that `fuel` rounds for
the `fuel` bytes that are left are enough. -/
def findLoop (pname : Str) (mem : List UInt8) (stop : ℕ) : ℕ → ℕ → Option ℕ
  | 0, ptr => if ptr < stop then none else some ptr
  | fuel + 1, ptr =>
    if ptr < stop then do
      if ← envCmpname pname.mem (mem.drop ptr) then some ptr
      else
        let len ← strlen 0 (mem.drop ptr)
        findLoop pname mem stop fuel (ptr + (len + 1))
    else some ptr

/-- **`env_findvar`.** -/
def envFindvar (g : Group) (pname : Str) : Option (Option ℕ) := do
  let ptr ← findLoop pname g.envp.bytes g.envsize g.envsize 0
  some (if ptr < g.envsize then some ptr else none)

/-- **`env_removevar`.** -/
def envRemovevar (g : Group) (pvar : ℕ) : Option (Group × ℤ) :=
  if pvar < g.envsize then do
    let len := (← strlen 0 (g.envp.bytes.drop pvar)) + 1
    let bytes ← moveDown (g.envsize - (pvar + len)) (pvar + len) pvar g.envp.bytes
    some ({ g with envp := .block bytes, envsize := g.envsize - len }, ok)
  else some (g, error)

/-! ### The interface -/

/-- **`unsetenv`.** -/
def unsetenv (name : Str) (g : Group) : Option (Group × ℤ) := do
  match ← envFindvar g name with
  | none => some (g, ok)
  | some pvar =>
    let (g, _) ← envRemovevar g pvar
    let (newenvp, envp) ← kummRealloc junk g.envp g.envsize
    if newenvp = .null then some ({ g with envp := envp, errno := enomem }, error)
    else some ({ g with envp := newenvp }, ok)

/-- The second half of `setenv`: the block is allocated or grows, and the new string is written at
its end. -/
def appendVar (name value : Str) (g : Group) : Option (Group × ℤ) := do
  let varlen := name.chars.length + value.chars.length + 2
  if g.envp = .null then
    let newenvp := kummMalloc junk varlen
    let bytes ← writeAt newenvp.bytes 0 (name.chars ++ eqSign :: value.mem)
    some ({ g with envp := .block bytes, envsize := varlen }, ok)
  else
    let newsize := g.envsize + varlen
    let (newenvp, envp) ← kummRealloc junk g.envp newsize
    if newenvp = .null then some ({ g with envp := envp, errno := enomem }, error)
    else
      let bytes ← writeAt newenvp.bytes g.envsize (name.chars ++ eqSign :: value.mem)
      some ({ g with envp := .block bytes, envsize := newsize }, ok)

/-- `setenv` with what becomes of its second half; a pointer that is `NULL` is nothing. -/
def setenvBy (append : Str → Str → Group → Option (Group × ℤ)) (junk : ℕ → UInt8)
    (name value : Option Str) (overwrite : Bool) (g : Group) : Option (Group × ℤ) :=
  match name with
  | none => some ({ g with errno := einval }, error)
  | some name =>
    match value with
    | none => if overwrite then unsetenv junk name g else some (g, ok)
    | some value =>
      if value.chars = [] then
        if overwrite then unsetenv junk name g else some (g, ok)
      else do
        match ← if g.envp = .null then some none else envFindvar g name with
        | none => append name value g
        | some pvar =>
          if overwrite then
            let (g, _) ← envRemovevar g pvar
            append name value g
          else some (g, ok)

/-- **`setenv`.** -/
def setenv : Option Str → Option Str → Bool → Group → Option (Group × ℤ) :=
  setenvBy (appendVar junk) junk

/-- The second half of `setenv` where no more memory is to be had: `kumm_malloc` returns `NULL`, and
so does `kumm_realloc` unless the size is at most `room`, that of the chunk the block lies in. -/
def appendNomem (room : ℕ) (name value : Str) (g : Group) : Option (Group × ℤ) :=
  if g.envp ≠ .null ∧ g.envsize + (name.chars.length + value.chars.length + 2) ≤ room then
    appendVar junk name value g
  else some ({ g with errno := enomem }, error)

/-- **`setenv`** where no more memory is to be had. -/
def setenvNomem (room : ℕ) : Option Str → Option Str → Bool → Group → Option (Group × ℤ) :=
  setenvBy (appendNomem junk room) junk

/-- The string behind the first `=`, as `strchr` finds it: nothing if there is none. -/
def strchrEq : List UInt8 → Option (Option (List UInt8))
  | [] => none
  | c :: cs => if c = eqSign then some (some cs) else if c = 0 then some none else strchrEq cs

/-- **`getenv`**: the string that the returned pointer points to. -/
def getenv (name : Option Str) (g : Group) : Option (Group × Option (List UInt8)) :=
  match name with
  | none => some ({ g with errno := einval }, none)
  | some name => do
    match ← envFindvar g name with
    | none => some ({ g with errno := enoent }, none)
    | some pvar =>
      match ← strchrEq (g.envp.bytes.drop pvar) with
      | none => some ({ g with errno := einval }, none)
      | some pvalue => do
        let len ← strlen 0 pvalue
        some (g, some (pvalue.take len))

end GreenboneFeeder.Environ
