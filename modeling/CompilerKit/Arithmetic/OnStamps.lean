import CompilerKit.Arithmetic.Operator
import CompilerKit.Stamp.Integer.Transfer

/-! # Operators on stamps

The operators on stamps. An operator that a stamp's family lacks is absent; operands of different
families do not match.
-/
namespace CompilerKit

open FloatingPoint

def UnaryOp.onStamp (op : UnaryOp) : Stamp → Result Stamp
  | .int s =>
    match op with
    | .neg => .ok (.int s.neg)
    | .not => .ok (.int s.not)
    | .abs => .ok (.int s.abs)
    | .sqrt => .error .absent
  | .float s =>
    match op with
    | .neg => .ok (.float s.neg)
    | .abs => .ok (.float s.abs)
    | .not | .sqrt => .ok (.float (.full s.bits))
  | _ => .error .absent

def BinaryOp.onInt : BinaryOp → IntStamp → IntStamp → IntStamp
  | add => .add
  | sub => .sub
  | mul => .mul
  | div => .div
  | rem => .rem
  | and => .and
  | or => .or
  | xor => .xor

/-- Nothing is known of the result of floating point arithmetic. -/
def BinaryOp.onStamp (op : BinaryOp) : Stamp → Stamp → Result Stamp
  | .int a, .int b => .ok (.int (op.onInt a b))
  | .int _, _ => .error .familyMismatch
  | .float a, _ => .ok (.float (.full a.bits))
  | _, _ => .error .absent

def ShiftOp.onInt : ShiftOp → IntStamp → IntStamp → IntStamp
  | shl => .shl
  | shr => .shr
  | ushr => .ushr

def ShiftOp.onStamp (op : ShiftOp) : Stamp → Stamp → Result Stamp
  | .int a, .int amount => .ok (.int (op.onInt a amount))
  | .int _, _ => .error .familyMismatch
  | _, _ => .error .absent

def ShiftOp.takesOver : ShiftOp → Stamp → Stamp → Bool
  | shl, .int a, .int amount => a.up = 0 || a.shiftsNothing amount
  | _, .int a, .int amount => a.shiftsNothing amount
  | _, _, _ => false

def ResizeOp.onInt : ResizeOp → Nat → Nat → IntStamp → IntStamp
  | zeroExtend => .zeroExtend
  | signExtend => .signExtend
  | narrow => .narrow

def ResizeOp.onStamp (op : ResizeOp) (inputBits resultBits : Nat) : Stamp → Result Stamp
  | .int s => .ok (.int (op.onInt inputBits resultBits s))
  | _ => .error .absent

/-- The integers a floating point value truncates to; zero is one of them if it can be
not-a-number. -/
private def truncated (bits : Nat) (s : FloatStamp) : IntStamp :=
  let lo := s.lo.truncate bits
  let hi := s.hi.truncate bits
  if s.nonNaN then .ofBounds bits lo hi
  else if (0 : Word).slt lo then .ofBounds bits 0 hi
  else if hi.slt 0 then .ofBounds bits lo 0
  else .ofBounds bits lo hi

private def toSingle (s : IntStamp) : FloatStamp :=
  let near (x : Word) : Double := .ofSingle (Format.single.encode (.ofInt x.toInt))
  ⟨32, near s.lo, near s.hi, true⟩

private def toDouble (s : IntStamp) : FloatStamp :=
  let near (x : Word) : Double := .ofDatum (Format.double.decode (Format.double.encode (.ofInt x.toInt)))
  ⟨64, near s.lo, near s.hi, true⟩

def FloatConvert.onStamp : FloatConvert → Stamp → Result Stamp
  | f2i, .float s | d2i, .float s => .ok (.int (truncated 32 s))
  | f2l, .float s | d2l, .float s => .ok (.int (truncated 64 s))
  | f2d, .float s => .ok (.float ⟨64, s.lo, s.hi, s.nonNaN⟩)
  | d2f, .float s => .ok (.float ⟨32, .ofSingle s.lo.toSingle, .ofSingle s.hi.toSingle, s.nonNaN⟩)
  | i2f, .int s | l2f, .int s => .ok (.float (toSingle s))
  | i2d, .int s | l2d, .int s => .ok (.float (toDouble s))
  | _, _ => .error .absent

/-- The amount bits that count when a value of this stamp is shifted. -/
def Stamp.shiftMask : Stamp → Result Nat
  | .int s => .ok s.shiftMask
  | _ => .error .familyMismatch

end CompilerKit
