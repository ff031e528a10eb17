import Mathlib.Tactic.Common

/-!
# Branches of the P-code optimiser

The local optimiser of the Pascal P-code (`insn16/popt`) rewrites pairs of neighbouring
instructions. `BranchOptimize` joins a comparison with the `NOT` or the conditional jump behind it,
and takes a `NOT` or `NEG` into the jump. A comparison of two values compares the value on the top
of the stack with the one below, a jump the one below with the top, so a rewritten order comparison
takes the jump in the same cases for equal values only; `NEG` also leaves the least value as it is.
`Pcode.branchOptimize_iff` says exactly when a rewritten pair does what it did.
-/

namespace GreenboneFeeder.Pcode

/-- The comparisons, of signed values. -/
inductive Cmp where
  | equ | neq | lt | gte | gt | lte
deriving DecidableEq

def Cmp.holds (c : Cmp) (a b : BitVec 16) : Bool :=
  match c with
  | .equ => a.toInt = b.toInt
  | .neq => a.toInt ≠ b.toInt
  | .lt => a.toInt < b.toInt
  | .gte => a.toInt ≥ b.toInt
  | .gt => a.toInt > b.toInt
  | .lte => a.toInt ≤ b.toInt

def Cmp.negate : Cmp → Cmp
  | .equ => .neq
  | .neq => .equ
  | .lt => .gte
  | .gte => .lt
  | .gt => .lte
  | .lte => .gt

/-- The comparison with zero that a negated value is in, where the rewriting has one. -/
def Cmp.mirror : Cmp → Option Cmp
  | .lt => some .gt
  | .gte => some .lte
  | .gt => some .lt
  | .lte => some .gte
  | _ => none

/-- The instructions that the rewriting looks at. -/
inductive Op where
  /-- `oNOT`. -/
  | not
  /-- `oNEG`. -/
  | neg
  /-- `oEQU` to `oLTE`, comparisons of two values. -/
  | cmp (c : Cmp)
  /-- `oEQUZ` to `oLTEZ`, comparisons with zero. -/
  | cmpz (c : Cmp)
  /-- `oJEQUZ` to `oJLTEZ`, jumps that compare a value with zero. -/
  | jcmpz (c : Cmp) (label : BitVec 16)
  /-- `oJEQU` to `oJLTE`, jumps that compare two values. -/
  | jcmp (c : Cmp) (label : BitVec 16)
  | other (op arg1 : BitVec 8) (arg2 : BitVec 16)
deriving DecidableEq

/-! ### The interpreter -/

/-- The data stack, its top first. -/
abbrev Stack := List (BitVec 16)

/-- `PTRUE` and `PFALSE`. -/
def truth (b : Bool) : BitVec 16 := if b then 0xffff#16 else 0#16

/-- An instruction without immediate data, `pexec8`. -/
def pexec8 : Op → Stack → Option Stack
  | .not, tos :: st => some (~~~tos :: st)
  | .neg, tos :: st => some (-tos :: st)
  | .cmp c, sparm :: tos :: st => some (truth (c.holds sparm tos) :: st)
  | .cmpz c, sparm :: st => some (truth (c.holds sparm 0#16) :: st)
  | _, _ => none

/-- An instruction with a label, `pexec24`: the stack and where it branches out to. -/
def pexec24 : Op → Stack → Option (Stack × Option (BitVec 16))
  | .jcmpz c imm16, sparm1 :: st => some (st, if c.holds sparm1 0#16 then some imm16 else none)
  | .jcmp c imm16, sparm1 :: sparm2 :: st =>
    some (st, if c.holds sparm2 sparm1 then some imm16 else none)
  | _, _ => none

/-- Instructions in sequence, up to the first jump that is taken. -/
def exec : List Op → Stack → Option (Stack × Option (BitVec 16))
  | [], st => some (st, none)
  | op :: code, st =>
    match pexec8 op st with
    | some st => exec code st
    | none =>
      match pexec24 op st with
      | some (st, none) => exec code st
      | r => r

/-! ### The rewriting -/

/-- **The instruction two neighbouring ones are rewritten to**, in a round of `BranchOptimize`. -/
def branchOptimize : Op → Op → Option Op
  | .not, .jcmpz .equ label => some (.jcmpz .neq label)
  | .not, .jcmpz .neq label => some (.jcmpz .equ label)
  | .neg, .jcmpz c label => c.mirror.map fun c => .jcmpz c label
  | .cmp c, .not => some (.cmp c.negate)
  | .cmp c, .jcmpz .equ label => some (.jcmp c.negate label)
  | .cmp c, .jcmpz .neq label => some (.jcmp c label)
  | .cmpz c, .not => some (.cmpz c.negate)
  | .cmpz c, .jcmpz .equ label => some (.jcmpz c.negate label)
  | .cmpz c, .jcmpz .neq label => some (.jcmpz c label)
  | _, _ => none

/-- When a rewritten pair does the same on the top of the stack `x` and the value below it. -/
def Keeps : Op → Op → BitVec 16 → BitVec 16 → Prop
  | .neg, _, x, _ => x ≠ 0x8000#16
  | .cmp c, .jcmpz .., x, y => c = .equ ∨ c = .neq ∨ x = y
  | _, _, _, _ => True

/-! ### Comparisons -/

variable {c c' : Cmp} {x y label : BitVec 16} {b : Bool} {st : Stack}

theorem holds_negate : c.negate.holds x y = !c.holds x y := by
  cases c <;> simp only [Cmp.negate, Cmp.holds, ← decide_not, decide_eq_decide] <;> omega

theorem holds_swap : c.holds x y = c.holds y x ↔ c = .equ ∨ c = .neq ∨ x = y := by
  rw [← BitVec.toInt_inj]
  cases c <;> simp [Cmp.holds, eq_comm] <;> omega

/-- **A `NEG` is taken into a comparison with zero**, but for the least value. -/
theorem holds_mirror (hc : c.mirror = some c') :
    c'.holds x 0#16 = c.holds (-x) 0#16 ↔ x ≠ 0x8000#16 := by
  constructor
  · rintro h rfl
    revert h
    cases c <;> cases hc <;> decide
  · intro hx
    have hneg := BitVec.toInt_neg_of_ne_intMin (w := 16) hx
    cases c <;> cases hc <;> simp [Cmp.holds, hneg]

theorem holds_truth : Cmp.equ.holds (truth b) 0#16 = !b ∧ Cmp.neq.holds (truth b) 0#16 = b := by
  cases b <;> decide

theorem not_truth : ~~~truth b = truth !b := by
  cases b <;> decide

theorem exec_jcmpz :
    exec [.jcmpz c label] (x :: st) =
      some (st, if c.holds x 0#16 then some label else none) := by
  simp only [exec, pexec8, pexec24]
  cases c.holds x 0#16 <;> rfl

/-- Two jumps go on in the same way if they are taken in the same cases. -/
theorem exec_jcmpz_inj :
    some (st, if b then some label else none) = exec [.jcmpz c label] (x :: st) ↔
      b = c.holds x 0#16 := by
  rw [exec_jcmpz]
  cases b <;> cases c.holds x 0#16 <;> simp

theorem exec_jcmp :
    exec [.jcmp c label] (x :: y :: st) =
      some (st, if c.holds y x then some label else none) := by
  simp only [exec, pexec8, pexec24]
  cases c.holds y x <;> rfl

/-- **A rewritten pair does what it did exactly when it keeps the comparison**: the same value is
left, or the jump is taken in the same cases. -/
theorem branchOptimize_iff (op₁ op₂ op : Op) (x y : BitVec 16) (st : Stack)
    (h : branchOptimize op₁ op₂ = some op) (hnot : op₁ = .not → ∃ b, x = truth b) :
    exec [op] (x :: y :: st) = exec [op₁, op₂] (x :: y :: st) ↔ Keeps op₁ op₂ x y := by
  unfold branchOptimize at h
  split at h
  · cases h
    obtain ⟨b, rfl⟩ := hnot rfl
    change _ = exec [.jcmpz _ _] (~~~truth b :: y :: st) ↔ True
    rw [exec_jcmpz, exec_jcmpz_inj, not_truth, holds_truth.1, holds_truth.2]
    simp
  · cases h
    obtain ⟨b, rfl⟩ := hnot rfl
    change _ = exec [.jcmpz _ _] (~~~truth b :: y :: st) ↔ True
    rw [exec_jcmpz, exec_jcmpz_inj, not_truth, holds_truth.1, holds_truth.2]
    simp
  · obtain ⟨c', hc, rfl⟩ := Option.map_eq_some_iff.mp h
    change _ = exec [.jcmpz _ _] (-x :: y :: st) ↔ x ≠ 0x8000#16
    rw [exec_jcmpz, exec_jcmpz_inj]
    exact holds_mirror hc
  · cases h
    simp [exec, pexec8, not_truth, holds_negate, Keeps]
  · cases h
    change _ = exec [.jcmpz _ _] (_ :: st) ↔ _
    rw [exec_jcmp, exec_jcmpz_inj, holds_truth.1, holds_negate, Bool.not_inj_iff, eq_comm]
    exact holds_swap
  · cases h
    change _ = exec [.jcmpz _ _] (_ :: st) ↔ _
    rw [exec_jcmp, exec_jcmpz_inj, holds_truth.2, eq_comm]
    exact holds_swap
  · cases h
    simp [exec, pexec8, not_truth, holds_negate, Keeps]
  · cases h
    change _ = exec [.jcmpz _ _] (_ :: y :: st) ↔ True
    rw [exec_jcmpz, exec_jcmpz_inj, holds_truth.1, holds_negate]
    simp
  · cases h
    change _ = exec [.jcmpz _ _] (_ :: y :: st) ↔ True
    rw [exec_jcmpz, exec_jcmpz_inj, holds_truth.2]
    simp
  · cases h

/-- **A rewritten pair takes the jump where it did not**: `LT` on 2 above 1. -/
theorem branchOptimize_lt :
    branchOptimize (.cmp .lt) (.jcmpz .neq 7#16) = some (.jcmp .lt 7#16) ∧
      exec [.cmp .lt, .jcmpz .neq 7#16] [2#16, 1#16] = some ([], none) ∧
      exec [.jcmp .lt 7#16] [2#16, 1#16] = some ([], some 7#16) := by
  decide

theorem branchOptimize_iff_lt :
    exec [.jcmp .lt 7#16] [3#16, 3#16] = exec [.cmp .lt, .jcmpz .neq 7#16] [3#16, 3#16] ↔
      Keeps (.cmp .lt) (.jcmpz .neq 7#16) 3#16 3#16 :=
  branchOptimize_iff _ _ _ _ _ [] rfl (by rintro ⟨⟩)

end GreenboneFeeder.Pcode
