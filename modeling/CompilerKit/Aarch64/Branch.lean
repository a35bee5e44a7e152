import CompilerKit.Aarch64.Encoding
import CompilerKit.Assembly.Command

/-! # Branches to labels

Until its label is bound, a branch is a word that says how to complete it: a kind in the low five bits
and, above them, the flag test or the width and number of the register.
-/
namespace CompilerKit.Aarch64

open Assembler

def emitInstr (i : Instr) : Assembler Unit := emit [.number 4 i]

def emitInstrs (is : List Instr) : Assembler Unit := emit (is.map (.number 4))

/-- Writes an instruction at a position, or at the end if the position is -1. -/
def placeInstr (position : Int) (i : Instr) : Assembler Unit :=
  if position = -1 then emitInstr i else overwrite position (.number 4 i)

inductive Branch where
  | always
  | onFlag (c : FlagTest)
  /-- If the register is zero, or if it is not. The size is the number of bits to compare. -/
  | onRegister (nonZero : Bool) (size : BitVec 32) (r : Register)
  deriving DecidableEq

namespace Branch

def instr (b : Branch) (distance : BitVec 32) : Instr :=
  match b with
  | always => Instr.branch false distance
  | onFlag c => Instr.branchIf c distance
  | onRegister nonZero size r => Instr.compareBranch nonZero (.ofSize size) r distance

/-- The word that stands for the branch until its distance is known. A size that is not 64 is kept as
32 here, though `instr` takes a size that is not 32 as 64. -/
def pending : Branch → Instr
  | onFlag c => c.encoding.setWidth 32 <<< 5
  | always => 1
  | onRegister nonZero size r =>
    (if nonZero then 2 else 3) ||| Instr.rd r <<< 6 ||| if size = 64 then 32 else 0

def toLabel (b : Branch) (l : Nat) : Assembler Unit := do
  match (← label l).position? with
  | some target => emitInstr (b.instr (BitVec.ofInt 32 (target - (← position))))
  | none =>
    await l
    emitInstr b.pending

end Branch

/-- What a pending word stands for. Kind 4 is no branch but takes the position itself. -/
inductive Pending where
  | branch (b : Branch)
  | address
  deriving DecidableEq

namespace Pending

/-- Reads a pending word; words that no branch leaves behind are refused. The register after the
numbered ones are the zero register and the stack pointer. -/
def ofInstr (i : Instr) : Result Pending :=
  let information := (i >>> 5).toNat
  let onRegister (nonZero : Bool) : Result Pending :=
    let n := information / 2
    if n < 34 then
      .ok (.branch (.onRegister nonZero (if information % 2 = 1 then 64 else 32)
        (.general (BitVec.ofNat 5 (min n 31)))))
    else .error .outOfRange
  match (i &&& 31).toNat with
  | 0 => match FlagTest.ofEncoding? information with
    | some c => .ok (.branch (.onFlag c))
    | none => .error .outOfRange
  | 1 => .ok (.branch .always)
  | 2 => onRegister true
  | 3 => onRegister false
  | 4 => .ok .address
  | _ => .error .outOfRange

end Pending

def patch (branch target : Int) : Assembler Unit := do
  match Pending.ofInstr (BitVec.ofNat 32 (← read branch 4)) with
  | .error f => throw f
  | .ok .address => overwrite branch (.number 4 (BitVec.ofInt 32 target))
  | .ok (.branch b) => placeInstr branch (b.instr (BitVec.ofInt 32 (target - branch)))

def bindLabel (l : Nat) : Assembler Unit := bindWith patch l

/-- Pads the code with instructions that do nothing, up to or beyond a multiple of `modulus`. -/
def align (modulus : Int) : Assembler Unit := do
  if modulus = 0 then throw .divisionByZero
  let rest := Int.tmod (← position) modulus
  if rest ≠ 0 then
    emitInstrs (List.replicate ((modulus - rest + 3) / 4).toNat Instr.nop)

end CompilerKit.Aarch64
