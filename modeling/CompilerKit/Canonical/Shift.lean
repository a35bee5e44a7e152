import CompilerKit.Canonical.Rule

/-! # Rules for shifts

The amount of a shift counts modulo the width of the shifted value.
-/

namespace CompilerKit.Canonical

open Reduction

def amountUnder (mask : Nat) (c : Word) : Nat := (c &&& BitVec.ofNat 64 mask).toNat

def constantWord? (g : Graph Label) (i : NodeId) : Option Word :=
  match g.constant? i with
  | some (.primitive _ x) => some x
  | _ => none

/-- A shift by a constant: its operator, its operand and the amount, counted under a mask. -/
def shiftByConstant? (g : Graph Label) (mask : Nat) (i : NodeId) : Option (ShiftOp × NodeId × Nat) :=
  match g.shape? i with
  | some (.binary (.shift op) u v) => (constantWord? g v).map fun c => (op, u, amountUnder mask c)
  | _ => none

def sizedConstant (s : Stamp) (x : Word) : Term :=
  if s.stackKind = .long then .ofWord x else .ofInt (Word.lowInt x)

/-- A rule for a constant amount: it is given the mask, the amount and the constant itself. -/
def onConstantAmount (rule : Graph Label → Stamp → NodeId → Nat → Nat → Word → Reduction) : BinaryRule :=
  fun g s x y =>
    match constantWord? g y with
    | some c => do
      let mask ← s.shiftMask
      rule g s x mask (amountUnder mask c) c
    | none => pass

def foldShift (op : ShiftOp) : BinaryRule := fun g s x y =>
  match g.constant? x, constantWord? g y with
  | some a, some c => build do Term.primitive s (← op.onConstant a (Word.lowInt c))
  | _, _ => pass

def shiftByNothing : BinaryRule :=
  onConstantAmount fun _ _ x _ amount _ => if amount = 0 then keep x else pass

/-- An amount outside of the mask is brought inside. -/
def reduceAmount (op : ShiftOp) : BinaryRule :=
  onConstantAmount fun g _ x _ amount c =>
    if Word.lowInt c ≠ amount then build (Term.shift g op (.node x) (.ofInt amount)) else pass

/-- The bits that survive a left shift after a right shift by the same amount. -/
def highBits (s : Stamp) (amount : Nat) : Term :=
  sizedConstant s (Word.shl (BitVec.allOnes 64) amount)

/-- The bits that survive a right shift after a left shift by the same amount. -/
def lowBits (s : Stamp) (amount : Nat) : Term :=
  if s.stackKind = .long then .ofWord (Word.ushr (BitVec.allOnes 64) amount)
  else .ofInt (Word.lowInt (Word.ushr (Word.mask 32) amount))

def mergeLeft : BinaryRule :=
  onConstantAmount fun g s x mask amount _ =>
    match shiftByConstant? g mask x with
    | some (.shl, u, inner) =>
      let total := amount + inner
      if total &&& mask ≠ total then build (Term.ofKind s.stackKind 0)
      else build (Term.shift g .shl (.node u) (.ofInt total))
    | some (_, u, inner) =>
      if inner = amount then build (Term.arith g .and (.node u) (highBits s amount)) else pass
    | none => pass

/-- The result of shifting out everything but the sign. -/
def signOnly (g : Graph Label) (s : Stamp) (u : NodeId) (mask : Nat) : Reduction :=
  match g.stamp u with
  | .int t =>
    if t.isPositive then build (Term.ofKind s.stackKind 0)
    else if t.isStrictlyNegative then build (Term.ofKind s.stackKind (-1))
    else build (Term.shift g .shr (.node u) (.ofInt mask))
  | _ => .error .familyMismatch

def mergeRight : BinaryRule :=
  onConstantAmount fun g s x mask amount _ =>
    match shiftByConstant? g mask x with
    | some (.shr, u, inner) =>
      let total := amount + inner
      if total &&& mask ≠ total then signOnly g s u mask
      else build (Term.shift g .shr (.node u) (.ofInt total))
    | _ => pass

def mergeUnsigned : BinaryRule :=
  onConstantAmount fun g s x mask amount _ =>
    match shiftByConstant? g mask x with
    | some (.ushr, u, inner) =>
      let total := amount + inner
      if total &&& mask ≠ total then build (Term.ofKind s.stackKind 0)
      else build (Term.shift g .ushr (.node u) (.ofInt total))
    | some (.shl, u, inner) =>
      if inner = amount then build (Term.arith g .and (.node u) (lowBits s amount)) else pass
    | _ => pass

/-- A value without sign is shifted without sign. -/
def shiftPositive : BinaryRule := fun g _ x y =>
  match g.stamp x with
  | .int t => if t.isPositive then build (Term.shift g .ushr (.node x) (.node y)) else pass
  | _ => pass

def shift : ShiftOp → BinaryRule
  | .shl => firstBinary [foldShift .shl, shiftByNothing, mergeLeft, reduceAmount .shl]
  | .shr => firstBinary
    [foldShift .shr, shiftPositive, shiftByNothing, mergeRight, reduceAmount .shr]
  | .ushr => firstBinary [foldShift .ushr, shiftByNothing, mergeUnsigned, reduceAmount .ushr]

/-- Whether a shift of a value may be done after narrowing the value, so that the narrowed results
agree. -/
def isNarrowable (op : ShiftOp) (resultBits : Nat) (x amount : IntStamp) : Bool :=
  let narrowMask := BitVec.ofNat 64 (resultBits - 1)
  let wideMask := BitVec.ofNat 64 x.shiftMask
  let sameAmount := amount.up &&& (wideMask &&& ~~~narrowMask) == 0
  match op with
  | .shl => sameAmount
  | .shr => sameAmount && (Word.minValue resultBits).sle x.lo && x.hi.sle (Word.maxValue resultBits)
  | .ushr => sameAmount && x.up &&& ~~~narrowMask == 0

end CompilerKit.Canonical
