import CompilerKit.Canonical.Rule

/-! # Rules for divisions that trap

A division by zero is kept, so that it traps where it did.
-/

namespace CompilerKit.Canonical

open Reduction

/-- A rule for a constant divisor, unless the dividend is constant too. -/
def onDivisor (rule : Graph Label → Stamp → NodeId → Word → Reduction) : BinaryRule :=
  fun g s x y =>
    match g.constant? x, g.constant? y with
    | none, some (.primitive _ c) => rule g s x c
    | _, _ => pass

def foldSigned (f : Word → Word → Word) : BinaryRule := fun g s x y =>
  match g.constant? x, g.constant? y with
  | some (.primitive _ a), some (.primitive _ b) =>
    if b = 0 then pass else build (Term.integer s (f a b))
  | _, _ => pass

/-- Constants, by an unsigned operation on values of the width. -/
def foldUnsigned (f : Word → Word → Word) : BinaryRule := fun g s x y =>
  match g.constant? x, g.constant? y with
  | some (.primitive _ a), some (.primitive _ b) =>
    let divisor := Word.zeroExtend b s.bits
    if divisor = 0 then pass else build (Term.integer s (f (Word.zeroExtend a s.bits) divisor))
  | _, _ => pass

def quotientByUnit : BinaryRule :=
  onDivisor fun g _ x c =>
    if c = 1 then keep x
    else if c = -1 then build (Term.arith1 g .neg (.node x))
    else pass

/-- A quotient by a power of two, up to sign, is a shift. A dividend that can be negative or is not a
multiple is first rounded towards zero. -/
def quotientByPower : BinaryRule :=
  onDivisor fun g s x c =>
    let magnitude := Word.abs c
    match g.stamp x with
    | .int t =>
      if Word.isPowerOfTwo magnitude then build do
        let exponent := Word.log2 magnitude
        let rounded ←
          if t.canBeNegative || t.up &&& (magnitude - 1) ≠ 0 then do
            let sign ← Term.shift g .shr (.node x) (.ofInt ((s.bits : Int) - 1))
            let round ← Term.shift g .ushr sign (.ofInt ((s.bits : Int) - exponent))
            Term.arith g .add (.node x) round
          else pure (.node x)
        let quotient ← Term.shift g .shr rounded (.ofInt exponent)
        if c.slt 0 then Term.arith1 g .neg quotient else return quotient
      else pass
    | _ => pass

private def bothConstant (g : Graph Label) (x y : NodeId) : Bool := g.isConstant x && g.isConstant y

/-- `(a - a % b) / b` is `a / b`. -/
def quotientOfMultiple : BinaryRule := fun g s x y =>
  match g.binary? (.arith .sub) x with
  | some (a, r) =>
    match g.binary? (.divide .remainder) r with
    | some (p, q) =>
      if !bothConstant g x y && (g.stamp x).isCompatible s && (g.stamp r).isCompatible s &&
          a == p && y == q then
        build (Term.divide g .quotient (.node a) (.node y))
      else pass
    | none => pass
  | none => pass

/-- The same division follows at once. -/
def quotientRepeated (next : Option NodeId) : BinaryRule := fun g s x y =>
  match next with
  | some n =>
    if !bothConstant g x y && g.binary? (.divide .quotient) n == some (x, y) && g.stamp n = s then
      keep n
    else pass
  | none => pass

def remainderByUnit : BinaryRule :=
  onDivisor fun _ s _ c => if c = 1 ∨ c = -1 then build (Term.integer s 0) else pass

def remainderByPower : BinaryRule :=
  onDivisor fun g s x c =>
    match g.stamp x with
    | .int t =>
      if Word.isPowerOfTwo c && t.isPositive then build do
        Term.arith g .and (.node x) (← Term.integer s (c - 1))
      else pass
    | _ => pass

def unsignedQuotientByPower : BinaryRule :=
  onDivisor fun g s x c =>
    let divisor := Word.zeroExtend c s.bits
    if divisor = 1 then keep x
    else if Word.isPowerOfTwo divisor then
      build (Term.shift g .ushr (.node x) (.ofInt (Word.log2 divisor)))
    else pass

def unsignedRemainderByPower : BinaryRule :=
  onDivisor fun g s x c =>
    let divisor := Word.zeroExtend c s.bits
    if divisor = 1 then build (Term.integer s 0)
    else if Word.isPowerOfTwo divisor then build do
      Term.arith g .and (.node x) (← Term.integer s (divisor - 1))
    else pass

/-- The rules of a division; `next` follows it in the flow of control. -/
def divide (next : Option NodeId) : Division → BinaryRule
  | .quotient => firstBinary
    [foldSigned BitVec.sdiv, quotientByUnit, quotientByPower, quotientOfMultiple,
      quotientRepeated next]
  | .remainder => firstBinary [foldSigned BitVec.srem, remainderByUnit, remainderByPower]
  | .unsignedQuotient => firstBinary [foldUnsigned BitVec.udiv, unsignedQuotientByPower]
  | .unsignedRemainder => firstBinary [foldUnsigned BitVec.umod, unsignedRemainderByPower]

end CompilerKit.Canonical
