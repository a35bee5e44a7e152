import CompilerKit.Arithmetic.Operator

/-! # Operators on constants

The operators on constants.
-/
namespace CompilerKit

open FloatingPoint

private def onWord (c : Constant) (f : Word → Word) : Result Constant := do
  Constant.ofKind c.kind (f (← c.word))

/-- The bits of a datum with its sign bit changed. -/
private def withSign (k : Kind) (x : Word) (f : Word → Word → Word) : Constant :=
  let sign := Word.shl 1 (k.bits - 1)
  Constant.ofFloat k (f (BitVec.ofNat 64 (Constant.rawBits k x)) sign).toNat

def UnaryOp.onConstant (op : UnaryOp) (c : Constant) : Result Constant :=
  match c with
  | .null => .error .absent
  | .primitive k x =>
    if k.isInteger then
      match op with
      | .neg => onWord c fun x => -x
      | .not => onWord c fun x => ~~~x
      | .abs => onWord c Word.abs
      | .sqrt => .error .absent
    else if k.isFloat then
      match op with
      | .neg => .ok (withSign k x fun x sign => x ^^^ sign)
      | .abs => .ok (withSign k x fun x sign => x &&& ~~~sign)
      | .not => .ok (Constant.ofFloat k (~~~x).toNat)
      | .sqrt =>
        .ok (Constant.ofFloat k ((Constant.formatOf k).onBits .sqrt (Constant.rawBits k x)))
    else .error .absent

/-- Integers wrap; a quotient is truncated towards zero. -/
def BinaryOp.onWords (op : BinaryOp) (x y : Word) : Result Word :=
  match op with
  | add => .ok (x + y)
  | sub => .ok (x - y)
  | mul => .ok (x * y)
  | div => if y = 0 then .error .divisionByZero else .ok (x.sdiv y)
  | rem => if y = 0 then .error .divisionByZero else .ok (x.srem y)
  | and => .ok (x &&& y)
  | or => .ok (x ||| y)
  | xor => .ok (x ^^^ y)

private def BinaryOp.onFloats (op : BinaryOp) (k : Kind) (x y : Word) : Constant :=
  let exact (f : Datum → Datum → Datum) :=
    Constant.ofFloat k
      ((Constant.formatOf k).onBits₂ f (Constant.rawBits k x) (Constant.rawBits k y))
  match op with
  | .add => exact .add
  | .sub => exact .sub
  | .mul => exact .mul
  | .div => exact .div
  | .rem => exact .rem
  | .and => Constant.ofFloat k (x &&& y).toNat
  | .or => Constant.ofFloat k (x ||| y).toNat
  | .xor => Constant.ofFloat k (x ^^^ y).toNat

def BinaryOp.onConstants (op : BinaryOp) (a b : Constant) : Result Constant :=
  match a with
  | .null => .error .absent
  | .primitive k x => do
    let y ← b.word
    if k.isInteger then Constant.ofKind k (← op.onWords x y)
    else if k.isFloat then return op.onFloats k x y
    else throw .absent

/-- Whether `a ∘ n = a` for every `a`. -/
def BinaryOp.isNeutral (op : BinaryOp) (f : Family) (n : Constant) : Result Bool :=
  match f with
  | .integer => do
    match op with
    | rem => return false
    | add | sub | or | xor => return (← n.word) = 0
    | mul | div => return (← n.word) = 1
    | and =>
      let m := Word.mask n.kind.bits
      return (← n.word) &&& m = m
  | .floating => do
    if op = rem then return false
    let x ← n.word
    unless n.kind.isFloat do throw .unreachable
    let bits := Constant.rawBits n.kind x
    let format := Constant.formatOf n.kind
    match op with
    | add => return bits = format.signOf true
    | sub | or | xor => return bits = 0
    | mul | div => return bits = format.encode (.ofInt 1)
    | and => return bits = Nat.pow 2 n.kind.bits - 1
    | rem => return false

/-- The value of `a ∘ a`, for the operators that have one such value. -/
def BinaryOp.zero? (op : BinaryOp) : Stamp → Result (Option Constant)
  | .int s =>
    match op with
    | sub | xor => return some (← Constant.ofBits s.bits 0)
    | _ => .ok none
  | _ => .ok none

def ShiftOp.onConstant (op : ShiftOp) (c : Constant) (amount : Int) : Result Constant :=
  let n (width : Int) : Nat := (amount % width).toNat
  match c with
  | .primitive .int x =>
    let low := x.truncate 32
    let shifted : BitVec 32 :=
      match op with
      | shl => low <<< n 32
      | shr => low.sshiftRight (n 32)
      | ushr => low >>> n 32
    .ok (Constant.ofInt32 shifted.toInt)
  | .primitive .long x =>
    .ok <| Constant.ofWord <|
      match op with
      | shl => Word.shl x (n 64)
      | shr => Word.sar x (n 64)
      | ushr => Word.ushr x (n 64)
  | .primitive k _ => if k.isInteger then .error .unreachable else .error .absent
  | .null => .error .absent

def ResizeOp.onWord (op : ResizeOp) (inputBits resultBits : Nat) (x : Word) : Word :=
  match op with
  | zeroExtend => Word.zeroExtend x inputBits
  | signExtend => Word.signExtend x inputBits
  | narrow => Word.narrow x resultBits

def ResizeOp.onConstant (op : ResizeOp) (inputBits resultBits : Nat) (c : Constant) :
    Result Constant := do
  Constant.ofBits resultBits (op.onWord inputBits resultBits (← c.word))

def FloatConvert.onConstant (op : FloatConvert) (c : Constant) : Result Constant := do
  let x ← c.word
  let single := Constant.datum .float x
  let double := Constant.datum .double x
  let whole (bits : Nat) (d : Datum) : Word :=
    BitVec.ofInt 64 (d.truncate (Word.minValue bits).toInt (Word.maxValue bits).toInt)
  return match op with
    | f2i => .primitive .int (whole 32 single)
    | d2i => .primitive .int (whole 32 double)
    | f2l => .primitive .long (whole 64 single)
    | d2l => .primitive .long (whole 64 double)
    | i2f => Constant.ofSingle (Format.single.encode (.ofInt (Word.lowInt x)))
    | l2f => Constant.ofSingle (Format.single.encode (.ofInt x.toInt))
    | i2d => Constant.ofDouble (Format.double.encode (.ofInt (Word.lowInt x)))
    | l2d => Constant.ofDouble (Format.double.encode (.ofInt x.toInt))
    | f2d => Constant.ofDouble (Format.single.convert .double (Constant.rawBits .float x))
    | d2f => Constant.ofSingle (Format.double.convert .single (Constant.rawBits .double x))

end CompilerKit
