import CompilerKit.Fault
import CompilerKit.FloatingPoint.Format
import CompilerKit.Kind

/-! # Constants

Constants known at compile time. A floating point constant holds the bits of its datum, so that two
constants are equal exactly if they are the same datum.
-/
namespace CompilerKit

inductive Constant where
  /-- The word is the value of an integer, or the bits of a datum, sign extended. -/
  | primitive (kind : Kind) (value : Word)
  | null
  deriving DecidableEq

namespace Constant

open FloatingPoint

def ofInt32 (i : Int) : Constant := .primitive .int (Word.signExtend (BitVec.ofInt 64 i) 32)

def ofWord (x : Word) : Constant := .primitive .long x

def ofKind (k : Kind) (x : Word) : Result Constant :=
  if k.isInteger then .ok (.primitive k (k.clip x))
  else .error (.invalidArgument s!"not an integer kind: {k.name}")

/-- The integer constant of a width that some kind has. -/
def ofBits (bits : Nat) (x : Word) : Result Constant :=
  match Kind.ofBits? bits with
  | some k => .ok (.primitive k (k.clip x))
  | none => .error (.invalidArgument s!"unsupported integer width: {bits}")

def ofSingle (bits : Nat) : Constant :=
  .primitive .float (Word.signExtend (BitVec.ofNat 64 bits) 32)

def ofDouble (bits : Nat) : Constant := .primitive .double (BitVec.ofNat 64 bits)

def ofFloat (k : Kind) (bits : Nat) : Constant :=
  if k = .float then ofSingle bits else ofDouble bits

def kind : Constant → Kind
  | primitive k _ => k
  | null => .object

def word : Constant → Result Word
  | primitive _ x => .ok x
  | null => .error .familyMismatch

/-- Zero of an integer kind, positive zero, or null. -/
def isDefault : Constant → Bool
  | primitive _ x => x = 0
  | null => true

def formatOf (k : Kind) : Format := if k = .float then .single else .double

def rawBits (k : Kind) (x : Word) : Nat :=
  if k = .float then (Word.zeroExtend x 32).toNat else x.toNat

def datum (k : Kind) (x : Word) : Datum := (formatOf k).decode (rawBits k x)

end Constant

end CompilerKit
