import CompilerKit.Amd64.Padding
import CompilerKit.Amd64.Register
import CompilerKit.Assembly.Command

/-! # Branches

A branch to a known position takes the short form if it reaches. A branch to a label that is not
bound yet is long unless the short form is asked for, and holds zero until it is patched.
-/
namespace CompilerKit.Amd64

open Assembler

/-- The two branch instructions, in their short and long forms. -/
inductive Branch where
  | always
  | onFlag (c : FlagTest)
  deriving DecidableEq

namespace Branch

def shortOpcode : Branch → Chunks
  | always => [0xEB]
  | onFlag c => [.byte (7#4 ++ c.encoding)]

def longOpcode : Branch → Chunks
  | always => [0xE9]
  | onFlag c => [0x0F, .byte (8#4 ++ c.encoding)]

def short (b : Branch) (displacement : Int) : Chunks :=
  b.shortOpcode ++ [.byte (BitVec.ofInt 8 displacement)]

def long (b : Branch) (displacement : Int) : Chunks :=
  b.longOpcode ++ [.number 4 (BitVec.ofInt 32 displacement)]

def longSize (b : Branch) : Nat := b.longOpcode.length + 4

/-- A branch from `position` to `target`; distances are taken modulo 2^32. -/
def between (b : Branch) (position target : Int) (forceLong : Bool) : Chunks :=
  let distance := (BitVec.ofInt 32 (target - position)).toInt
  if !forceLong && fitsByte (distance - 2) then b.short (distance - 2)
  else b.long (distance - b.longSize)

def toPosition (b : Branch) (target : Int) (forceLong : Bool) : Assembler Unit := do
  emit (b.between (← position) target forceLong)

def toLabel (b : Branch) (l : Nat) : Assembler Unit := do
  match (← label l).position? with
  | some target => b.toPosition target false
  | none =>
    await l
    emit (b.long 0)

def toLabelShort (b : Branch) (l : Nat) : Assembler Unit := do
  match (← label l).position? with
  | some target => emit (b.short (target - (← position) - 2))
  | none =>
    await l
    emit (b.short 0)

/-! Branches on a condition that is not there. They break off where it is to be written; a branch to a
label waits for the label all the same. -/

def breakOff (before : Chunks) : Assembler Unit := do
  emit before
  throw .absent

def unfinishedToPosition (target : Int) (forceLong : Bool) : Assembler Unit := do
  let distance := (BitVec.ofInt 32 (target - (← position))).toInt
  breakOff (if !forceLong && fitsByte (distance - 2) then [] else [0x0F])

def unfinishedToLabel (l : Nat) : Assembler Unit := do
  match (← label l).position? with
  | some target => unfinishedToPosition target false
  | none =>
    await l
    breakOff [0x0F]

def unfinishedToLabelShort (l : Nat) : Assembler Unit := do
  if (← label l).position?.isNone then await l
  breakOff []

end Branch

/-- Lets the branch at `branch` lead to `target`. An entry of a jump table starts with a zero byte
and the distance from the table's start, and becomes the distance of the target from there. -/
def patch (branch target : Int) : Assembler Unit := do
  let opcode ← read branch 1
  if opcode = 0 then
    let distance ← read (branch + 1) 2
    overwrite branch (.number 4 (BitVec.ofInt 32 (target - (branch - distance))))
  else if opcode = 0xEB ∨ opcode / 16 = 7 then
    let displacement := (BitVec.ofInt 32 (target - (branch + 2))).toInt
    unless fitsByte displacement do throw (.branchTooFar displacement)
    overwrite (branch + 1) (.byte (BitVec.ofInt 8 displacement))
  else
    let skipped := if opcode = 0x0F then 2 else 1
    overwrite (branch + skipped)
      (.number 4 (BitVec.ofInt 32 (target - (branch + 4 + skipped))))

def bindLabel (l : Nat) : Assembler Unit := bindWith patch l

def align (modulus : Int) : Assembler Unit := do
  if modulus = 0 then throw .divisionByZero
  emit (Padding.toMultiple (← position) modulus)

end CompilerKit.Amd64
