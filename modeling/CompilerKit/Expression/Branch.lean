import CompilerKit.Expression.Shape
import CompilerKit.Stamp.Integer.Transfer

/-! # What a condition tells about its operands

A condition is decided if the stamps of its operands leave no choice. Where it is taken to hold or to
fail, it can tighten the stamp of an operand.
-/

namespace CompilerKit

abbrev Learnt := Result (Option Stamp)

namespace IntStamp

/-! The truth of `x < y`, signed and unsigned, and of `x & y = 0`. -/

def decideLess (x y : IntStamp) : Option Bool :=
  if x.hi.slt y.lo then some true else if y.hi.sle x.lo then some false else none

def decideBelow (x y : IntStamp) : Option Bool :=
  if y.isPositive then
    if x.isPositive && x.hi.slt y.lo then some true
    else if x.isStrictlyNegative || y.hi.sle x.lo then some false
    else none
  else none

def decideTest (x y : IntStamp) : Option Bool :=
  if x.up &&& y.up = 0 then some true
  else if x.down &&& y.down ≠ 0 then some false
  else none

/-! What is learnt of each operand where the comparison holds, and where it fails. -/

/-- The first operand of a comparison that holds: `x < y`. -/
def lessHoldsX (x y : IntStamp) : Option IntStamp :=
  if y.hi = Word.minValue x.bits then none
  else if y.hi.sle x.hi then some (ofBoundsWithin x.bits x.lo (y.hi - 1) x)
  else none

/-- The first operand of a comparison that fails: `y ≤ x`. -/
def lessFailsX (x y : IntStamp) : Option IntStamp :=
  if x.lo.slt y.lo then some (ofBoundsWithin x.bits y.lo x.hi x) else none

def lessHoldsY (x y : IntStamp) : Option IntStamp :=
  if x.lo = Word.maxValue x.bits then none
  else if y.lo.sle x.lo then some (ofBoundsWithin x.bits (x.lo + 1) y.hi y)
  else none

def lessFailsY (x y : IntStamp) : Option IntStamp :=
  if x.hi.slt y.hi then some (ofBoundsWithin x.bits y.lo x.hi y) else none

def belowHoldsX (x y : IntStamp) : Option IntStamp :=
  if y.isStrictlyPositive && (y.hi.sle x.hi || !x.isPositive) then
    some (ofBoundsWithin x.bits (Word.smax 0 x.lo) (Word.smin x.hi (y.hi - 1)) x)
  else none

def belowFailsX (x y : IntStamp) : Option IntStamp :=
  if x.isPositive && y.isPositive && x.lo.slt y.lo then
    some (ofBoundsWithin x.bits y.lo x.hi x)
  else none

def belowHoldsY (x y : IntStamp) : Option IntStamp :=
  if x.isPositive && y.isPositive && x.lo ≠ Word.maxValue x.bits && y.lo.sle x.lo then
    some (ofBoundsWithin x.bits (x.lo + 1) y.hi y)
  else none

def belowFailsY (x y : IntStamp) : Option IntStamp :=
  if x.isPositive && (x.hi.slt y.hi || !y.isPositive) then
    some (ofBoundsWithin x.bits (Word.smax 0 y.lo) (Word.smin x.hi y.hi) y)
  else none

/-- No bit that is always set in the other operand is set in this one. -/
def testHolds (x other : IntStamp) : Option IntStamp :=
  let up := ~~~other.down &&& x.up
  if x.up ≠ up then some ((ofMasks x.bits x.down up).join x) else none

/-- The only bit the other operand can have is set in this one. -/
def testFails (x other : IntStamp) : Option IntStamp :=
  let down := x.down ||| other.up
  if Word.bitCount other.up = 1 && x.down ≠ down then some ((ofMasks x.bits down x.up).join x)
  else none

end IntStamp

namespace Graph

private def decideEquals (g : Graph Label) (x y : NodeId) : Result (Option Bool) := do
  if (← g.joined x y).isEmpty then return some false
  else if (g.stamp x).neverDistinct (g.stamp y) then return some true
  else return none

def decide? (g : Graph Label) (op : Binary) (x y : NodeId) : Result (Option Bool) :=
  match op, g.stamp x, g.stamp y with
  | .compare .intEquals, .int _, .int _ => decideEquals g x y
  | .compare .floatEquals, .float _, .float _ => decideEquals g x y
  | .compare .objectEquals, .object _, .object _ => decideEquals g x y
  | .compare .pointerEquals, .object _, .object _ => decideEquals g x y
  | .compare .intLess, .int a, .int b => .ok (a.decideLess b)
  | .compare .intBelow, .int a, .int b => .ok (a.decideBelow b)
  | .test, .int a, .int b => .ok (a.decideTest b)
  | _, _, _ => .ok none

private def learnInt (f : IntStamp → IntStamp → Option IntStamp) : Stamp → Stamp → Learnt
  | .int a, .int b => .ok ((f a b).map .int)
  | _, _ => .ok none

/-- The stamp of a pointer that equals another one, if it says more. -/
private def learnPointer (g : Graph Label) (x y : NodeId) : Learnt := do
  let s ← g.joined x y
  return if s = g.stamp x then none else some s

/-- What is learnt of the first operand where the condition holds, or fails if it is negated. -/
def learnX (g : Graph Label) (op : Binary) (x y : NodeId) (negated : Bool) : Learnt :=
  let a := g.stamp x
  let b := g.stamp y
  match op, negated with
  | .compare .intEquals, false | .compare .floatEquals, false => some <$> g.joined x y
  | .compare .objectEquals, false | .compare .pointerEquals, false => learnPointer g x y
  | .compare .intLess, false => learnInt IntStamp.lessHoldsX a b
  | .compare .intLess, true => learnInt IntStamp.lessFailsX a b
  | .compare .intBelow, false => learnInt IntStamp.belowHoldsX a b
  | .compare .intBelow, true => learnInt IntStamp.belowFailsX a b
  | .test, false => learnInt IntStamp.testHolds a b
  | .test, true => learnInt IntStamp.testFails a b
  | _, _ => .ok none

def learnY (g : Graph Label) (op : Binary) (x y : NodeId) (negated : Bool) : Learnt :=
  let a := g.stamp x
  let b := g.stamp y
  match op, negated with
  | .compare .intEquals, false | .compare .floatEquals, false => some <$> g.joined x y
  | .compare .objectEquals, false | .compare .pointerEquals, false => learnPointer g y x
  | .compare .intLess, false => learnInt IntStamp.lessHoldsY a b
  | .compare .intLess, true => learnInt IntStamp.lessFailsY a b
  | .compare .intBelow, false => learnInt IntStamp.belowHoldsY a b
  | .compare .intBelow, true => learnInt IntStamp.belowFailsY a b
  | .test, false => learnInt IntStamp.testHolds b a
  | .test, true => learnInt IntStamp.testFails b a
  | _, _ => .ok none

def decideNull? (g : Graph Label) (x : NodeId) : Option Bool :=
  match g.stamp x with
  | .object .alwaysNull => some true
  | .object n => if n.isNonNull then some false else none
  | _ => none

def learnNull (g : Graph Label) (x : NodeId) (negated : Bool) : Result Stamp :=
  if negated then (g.stamp x).join (.object .nonNull) else .ok (.object .alwaysNull)

end Graph

end CompilerKit
