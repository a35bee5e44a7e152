import CompilerKit.Constant

/-! # Conditions

Comparison conditions, signed and unsigned. `implies`, `join` and `meet` relate two conditions on the
same pair of operands; `fold` decides one on constants.
-/
namespace CompilerKit

inductive Condition where
  | eq | ne | lt | le | gt | ge | aboveOrEqual | belowOrEqual | above | below
  deriving DecidableEq

namespace Condition

def all : List Condition := [eq, ne, lt, le, gt, ge, aboveOrEqual, belowOrEqual, above, below]

def name : Condition → String
  | eq => "EQ"
  | ne => "NE"
  | lt => "LT"
  | le => "LE"
  | gt => "GT"
  | ge => "GE"
  | aboveOrEqual => "AE"
  | belowOrEqual => "BE"
  | above => "AT"
  | below => "BT"

def ofName? (s : String) : Option Condition := all.find? (·.name = s)

def operator : Condition → String
  | eq => "=="
  | ne => "!="
  | lt => "<"
  | le => "<="
  | gt => ">"
  | ge => ">="
  | aboveOrEqual => "|>=|"
  | belowOrEqual => "|<=|"
  | above => "|>|"
  | below => "|<|"

/-- What the condition says of an ordered pair of operands. -/
def holds (c : Condition) (signed unsigned : Ordering) : Bool :=
  match c with
  | eq => signed.isEq
  | ne => signed.isNe
  | lt => signed.isLT
  | le => signed.isLE
  | gt => signed.isGT
  | ge => signed.isGE
  | aboveOrEqual => unsigned.isGE
  | belowOrEqual => unsigned.isLE
  | above => unsigned.isGT
  | below => unsigned.isLT

def check {w : Nat} (c : Condition) (x y : BitVec w) : Bool :=
  c.holds (compare x.toInt y.toInt) (compare x.toNat y.toNat)

def isCanonical : Condition → Bool
  | eq | lt | below => true
  | _ => false

def canonicalFlip : Condition → Bool
  | le | gt | belowOrEqual | above => true
  | _ => false

def canonicalNegate : Condition → Bool
  | ne | le | ge | belowOrEqual | aboveOrEqual => true
  | _ => false

def negate : Condition → Condition
  | eq => ne
  | ne => eq
  | lt => ge
  | le => gt
  | gt => le
  | ge => lt
  | below => aboveOrEqual
  | belowOrEqual => above
  | above => belowOrEqual
  | aboveOrEqual => below

/-- The same comparison with its operands exchanged. -/
def flip : Condition → Condition
  | eq => eq
  | ne => ne
  | lt => gt
  | le => ge
  | gt => lt
  | ge => le
  | below => above
  | belowOrEqual => aboveOrEqual
  | above => below
  | aboveOrEqual => belowOrEqual

def isUnsigned : Condition → Bool
  | below | belowOrEqual | above | aboveOrEqual => true
  | _ => false

def isCommutative : Condition → Bool
  | eq | ne => true
  | _ => false

def implies (c d : Condition) : Bool :=
  c = d || match c, d with
    | eq, le | eq, ge | eq, belowOrEqual | eq, aboveOrEqual => true
    | lt, le | lt, ne | gt, ge | gt, ne => true
    | below, belowOrEqual | below, ne | above, aboveOrEqual | above, ne => true
    | _, _ => false

/-- The condition that holds exactly if both do, where there is one. -/
def join (c d : Condition) : Option Condition :=
  if c = d then some c else match c, d with
    | eq, le | eq, ge | eq, belowOrEqual | eq, aboveOrEqual => some eq
    | ne, lt | ne, gt | ne, below | ne, above => some d
    | ne, le => some lt
    | ne, ge => some gt
    | ne, belowOrEqual => some below
    | ne, aboveOrEqual => some above
    | le, ge | le, eq => some eq
    | le, ne | le, lt => some lt
    | lt, ne | lt, le => some lt
    | ge, le | ge, eq => some eq
    | ge, ne | ge, gt => some gt
    | gt, ne | gt, ge => some gt
    | belowOrEqual, aboveOrEqual | belowOrEqual, eq => some eq
    | belowOrEqual, ne | belowOrEqual, below => some below
    | below, ne | below, belowOrEqual => some below
    | aboveOrEqual, belowOrEqual | aboveOrEqual, eq => some eq
    | aboveOrEqual, ne | aboveOrEqual, above => some above
    | above, ne | above, aboveOrEqual => some above
    | _, _ => none

/-- The condition that holds exactly if one of the two does, where there is one. -/
def meet (c d : Condition) : Option Condition :=
  if c = d then some c else match c, d with
    | eq, le | eq, ge | eq, belowOrEqual | eq, aboveOrEqual => some d
    | eq, lt => some le
    | eq, gt => some ge
    | eq, below => some belowOrEqual
    | eq, above => some aboveOrEqual
    | ne, lt | ne, gt | ne, below | ne, above => some ne
    | le, eq | le, lt => some le
    | lt, eq | lt, le => some le
    | lt, ne | lt, gt => some ne
    | ge, eq | ge, gt => some ge
    | gt, eq | gt, ge => some ge
    | gt, ne | gt, lt => some ne
    | belowOrEqual, eq | belowOrEqual, below => some belowOrEqual
    | below, eq | below, belowOrEqual => some belowOrEqual
    | below, ne | below, above => some ne
    | aboveOrEqual, eq | aboveOrEqual, above => some aboveOrEqual
    | above, eq | above, aboveOrEqual => some aboveOrEqual
    | above, ne | above, below => some ne
    | _, _ => none

private def unexpectedCondition (c : Condition) : Fault := .unexpected s!"expected condition: {c.name}"

/-- Decides the condition on two constants. Floating point numbers have no unsigned order; if one
is not a number, the answer is `unordered`. -/
def fold (c : Condition) (x y : Constant) (unordered : Bool) : Result Bool :=
  match x with
  | .primitive k a => do
    let b ← y.word
    match k with
    | .boolean | .byte | .char | .short | .int =>
      return c.check (a.truncate 32) (b.truncate 32)
    | .long => return c.check a b
    | .float | .double =>
      match (Constant.datum k a).compare (Constant.datum k b) with
      | none => return unordered
      | some order => if c.isUnsigned then throw (unexpectedCondition c) else return c.holds order order
    | k => throw (.unexpected s!"expected value kind {k.name} while folding condition: {c.name}")
  | .null =>
    match c with
    | .eq => .ok (y = .null)
    | .ne => .ok (y ≠ .null)
    | c => .error (unexpectedCondition c)

@[simp] theorem negate_negate (c : Condition) : c.negate.negate = c := by cases c <;> rfl

@[simp] theorem flip_flip (c : Condition) : c.flip.flip = c := by cases c <;> rfl

end Condition

end CompilerKit
