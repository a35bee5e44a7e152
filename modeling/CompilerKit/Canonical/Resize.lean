import CompilerKit.Canonical.Rule

/-! # Rules for conversions

Changes of width, conversions between integers and floating point numbers, and reinterpretation of
bits.
-/

namespace CompilerKit.Canonical

open Reduction

def resizeToSame (inputBits resultBits : Nat) : UnaryRule := fun _ _ x =>
  if inputBits = resultBits then keep x else pass

def foldResize (op : ResizeOp) (inputBits resultBits : Nat) : UnaryRule := fun g s x =>
  match g.constant? x with
  | some c => build do Term.primitive s (← op.onConstant inputBits resultBits c)
  | none => pass

/-- Two changes of width of one kind are one. -/
def resizeTwice (op : ResizeOp) (resultBits : Nat) : UnaryRule := fun g _ x =>
  match g.shape? x with
  | some (.unary (.resize op' inner _) v) =>
    if op' = op then build (Term.resize g op inner resultBits (.node v)) else pass
  | _ => pass

/-- A narrowed extension is a narrowing or an extension of the extended value. It is kept if the
extended value would only live longer. -/
def narrowExtended (resultBits : Nat) : UnaryRule := fun g _ x =>
  match g.shape? x with
  | some (.unary (.resize op inner _) v) =>
    if op = .narrow || g.usageCount v == 1 && 1 < g.usageCount x then pass
    else if resultBits = inner then keep v
    else if resultBits < inner then build (Term.resize g .narrow inner resultBits (.node v))
    else build (Term.resize g op inner resultBits (.node v))
  | _ => pass

/-- A zero extended value has no sign to extend. -/
def signExtendZeroExtended (resultBits : Nat) : UnaryRule := fun g _ x =>
  match g.shape? x with
  | some (.unary (.resize .zeroExtend inner outer) v) =>
    if inner < outer then build (Term.resize g .zeroExtend inner resultBits (.node v)) else pass
  | _ => pass

/-- A value without sign bit is zero extended. -/
def signExtendPositive (inputBits resultBits : Nat) : UnaryRule := fun g _ x =>
  match g.stamp x with
  | .int t =>
    if t.up &&& Word.shl 1 (inputBits - 1) = 0 then
      build (Term.resize g .zeroExtend inputBits resultBits (.node x))
    else pass
  | _ => pass

/-- Narrowing and extending back does nothing to a value that fits. -/
def zeroExtendNarrowed : UnaryRule := fun g s x =>
  match g.shape? x with
  | some (.unary (.resize .narrow _ _) v) =>
    match g.stamp v with
    | .int t =>
      if (g.stamp v).isCompatible s && (t.up ||| t.down) &&& ~~~Word.mask (g.stamp x).bits == 0 then
        keep v
      else pass
    | _ => pass
  | _ => pass

def resize (op : ResizeOp) (inputBits resultBits : Nat) : UnaryRule :=
  firstUnary <|
    [resizeToSame inputBits resultBits, foldResize op inputBits resultBits,
      resizeTwice op resultBits] ++
    match op with
    | .narrow => [narrowExtended resultBits]
    | .signExtend =>
      [signExtendZeroExtended resultBits, signExtendPositive inputBits resultBits]
    | .zeroExtend => [zeroExtendNarrowed]

def foldConvert (op : FloatConvert) : UnaryRule := fun g _ x =>
  match g.constant? x with
  | some c => build do Term.primitive (← op.onStamp (g.stamp x)) (← op.onConstant c)
  | none => pass

/-- There and back again, if nothing was lost on the way. -/
def convertBack (op : FloatConvert) : UnaryRule := fun g _ x =>
  match g.shape? x with
  | some (.unary (.convert op') v) => if op'.isLossless && op' = op.reverse then keep v else pass
  | _ => pass

def convert (op : FloatConvert) : UnaryRule := firstUnary [foldConvert op, convertBack op]

/-- The constant with the same bits in the family of a stamp. -/
def reinterpretConstant (s : Stamp) (k : Kind) (x : Word) : Result Constant := do
  if max 8 k.bits < max 8 s.bits then throw .truncated
  match s with
  | .int t =>
    match Kind.ofBits? t.bits with
    | some k => return .primitive k (k.clip (Word.signExtend x (max 8 t.bits)))
    | none => throw .unreachable
  | .float t =>
    match t.bits with
    | 32 => return .ofSingle (Word.zeroExtend x 32).toNat
    | 64 => return .ofDouble x.toNat
    | _ => throw .unreachable
  | _ => throw .familyMismatch

def reinterpret : UnaryRule := fun g s x =>
  match g.constant? x with
  | some (.primitive k c) => build do Term.constant s (← reinterpretConstant s k c)
  | some .null => .error .familyMismatch
  | none =>
    if s.isCompatible (g.stamp x) then keep x
    else
      match g.shape? x with
      | some (.unary (.reinterpret _) v) => become (.unary (.reinterpret s) s (.node v))
      | _ => pass

end CompilerKit.Canonical
