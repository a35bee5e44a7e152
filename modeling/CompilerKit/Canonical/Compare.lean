import CompilerKit.Canonical.Logic
import CompilerKit.Canonical.Shift

/-! # Rules for comparisons -/

namespace CompilerKit

open Reduction

/-! Construction of comparisons, with the cases that are plain at sight resolved. -/

namespace Term

def foldComparison (c : Comparison) (g : Graph Label) (x y : NodeId) : Reduction :=
  match g.constant? x, g.constant? y with
  | some a, some b => return some (truth (← c.condition.fold a b c.unorderedIsTrue))
  | _, _ => pass

/-- The operands of a commutative node in the order of their identifiers; a constant stays behind. -/
def commuted (g : Graph Label) (x y : NodeId) : NodeId × NodeId :=
  if !g.isConstant y && y < x then (y, x) else (x, y)

/-- A choice between values, one of which is the other operand, is its condition. -/
def equalsChoice (g : Graph Label) (choice other : NodeId) : Option Term :=
  match g.shape? choice with
  | some (.select c t f) =>
    if t = other then some (.node c)
    else if f = other then some (Term.negated g (.node c))
    else none
  | _ => none

def isChoice (g : Graph Label) (x : NodeId) : Bool :=
  match g.shape? x with
  | some (.select _ _ _) => true
  | _ => false

/-- The truth of a comparison that the nodes or their stamps decide. -/
def synonymLess (decideOn : IntStamp → IntStamp → Option Bool) (g : Graph Label) (x y : NodeId) :
    Option Term :=
  if g.sameValue x y then some (truth false)
  else
    match g.stamp x, g.stamp y with
    | .int a, .int b => (decideOn a b).map truth
    | _, _ => none

def synonymPointer (g : Graph Label) (x y : NodeId) : Reduction := do
  if g.sameValue x y then return some (truth true)
  else if ← g.alwaysDistinct x y then return some (truth false)
  else if g.stamp x = .object .alwaysNull then return some (isNull (.node y))
  else if g.stamp y = .object .alwaysNull then return some (isNull (.node x))
  else return none

def orElse (r : Reduction) (t : Term) : Result Term := return (← r).getD t

def comparison (g : Graph Label) (c : Comparison) (x y : NodeId) : Result Term :=
  let plain := compare c (.node x) (.node y)
  let (x', y') := commuted g x y
  match c with
  | .intEquals =>
    let choice := if isChoice g x then equalsChoice g x y else equalsChoice g y x
    orElse (foldComparison c g x y) (choice.getD (compare c (.node x') (.node y')))
  | .intLess => orElse (foldComparison c g x y) ((synonymLess IntStamp.decideLess g x y).getD plain)
  | .intBelow => orElse (foldComparison c g x y) ((synonymLess IntStamp.decideBelow g x y).getD plain)
  | .floatEquals => orElse (foldComparison c g x y) (compare c (.node x') (.node y'))
  | .floatLess _ => orElse (foldComparison c g x y) plain
  | .objectEquals => do
    match ← foldComparison c g x y with
    | some t => return t
    | none => orElse (synonymPointer g x y) plain
  | .pointerEquals => orElse (synonymPointer g x y) plain

end Term

namespace Canonical

/-! Conversions of an operand. -/

/-- A conversion: its operand, whether it keeps the order of a comparison, and whether it extends. -/
structure Conversion where
  operand : NodeId
  preservesOrder : Bool
  extends_ : Bool
  /-- The converted constant. -/
  there : Constant → Result Constant
  back : Constant → Result Constant

def conversion? (g : Graph Label) (c : Condition) (i : NodeId) : Option Conversion :=
  match g.shape? i with
  | some (.unary (.resize op inputBits resultBits) v) =>
    let preserves :=
      match op with
      | .narrow => false
      | .signExtend => true
      | .zeroExtend => c ≠ .lt && c ≠ .le && c ≠ .gt && c ≠ .ge
    some ⟨v, preserves, op ≠ .narrow, op.onConstant inputBits resultBits,
      op.reverse.onConstant resultBits inputBits⟩
  | some (.unary (.convert op) v) =>
    some ⟨v, op.isLossless, false, op.onConstant, op.reverse.onConstant⟩
  | _ => none

/-- The same comparison of other operands: it follows the family of their stamps. -/
def recompare (c : Comparison) (g : Graph Label) (x y : Term) : Result Term :=
  match c, x.stamp g, y.stamp g with
  | .intEquals, .float _, .float _ => .ok (.compare .floatEquals x y)
  | .intEquals, .int _, .int _ => .ok (.compare .intEquals x y)
  | .intEquals, .object _, .object _ | .intEquals, .object _, .pointer => .ok (.compare c x y)
  | .intEquals, .pointer, .object _ | .intEquals, .pointer, .pointer => .ok (.compare c x y)
  | .intLess, .float _, .float _ => .ok (.compare (.floatLess true) x y)
  | .intLess, .int _, .int _ => .ok (.compare .intLess x y)
  | .intBelow, _, _ => .ok (.compare .intBelow x y)
  | .floatEquals, .float _, .float _ => .ok (.compare .floatEquals x y)
  | .floatEquals, .int _, .int _ => .ok (.compare .intEquals x y)
  | .floatLess b, .float _, .float _ => .ok (.compare (.floatLess b) x y)
  | .floatLess _, .int _, .int _ => .ok (.compare .intLess x y)
  | .objectEquals, .object _, .object _ => .ok (.compare .objectEquals x y)
  | .objectEquals, .object _, .pointer => .ok (.compare .pointerEquals x y)
  | .objectEquals, .pointer, .object _ => .ok (.compare .pointerEquals x y)
  | .objectEquals, .pointer, .pointer => .ok (.compare .pointerEquals x y)
  | .pointerEquals, _, _ => .ok (.compare .pointerEquals x y)
  | _, _, _ => .error .unreachable

/-- The operands in their places. -/
def arranged (flipped : Bool) (x y : Term) : Term × Term :=
  if flipped then (y, x) else (x, y)

/-- Of a choice between constants, the comparison with a constant leaves the condition. -/
def compareChoice (c : Comparison) (g : Graph Label) (constant : Constant) (cond t f : NodeId)
    (flipped : Bool) : Reduction :=
  let rel := if flipped then c.condition.flip else c.condition
  match g.constant? t, g.constant? f with
  | some a, some b => do
    let onTrue ← rel.fold a constant c.unorderedIsTrue
    let onFalse ← rel.fold b constant c.unorderedIsTrue
    if onTrue = onFalse then become (.truth onTrue)
    else if onTrue then keep cond
    else become (Term.negated g (.node cond))
  | _, _ => pass

private def nodeText (i : NodeId) (name : String) : String := s!"{i}|{name}"

private def constantText : Constant → String
  | .primitive k x =>
    let hex := String.ofList (Nat.toDigits 16 x.toNat)
    s!"{k.name.toLower}[{x.toInt}|0x{hex}]"
  | .null => "Object[null]"

/-- The fault of a comparison that a three-way comparison is not made for. -/
def orderFault (c : Comparison) (self i : NodeId) (constant : Constant) (flipped : Bool) : Fault :=
  let short := if c = .intBelow then "|<|" else c.condition.operator
  let place := nodeText self short
  let ordered := nodeText i "NormalizeCompare"
  let value := constantText constant
  .unexpected s!"NormalizeCompareNode connected to {place} ({value} {ordered} {flipped})"

/-- A three-way comparison against zero is the comparison of its operands. -/
def compareOrder (c : Comparison) (self : NodeId) (g : Graph Label) (constant : Constant)
    (i x y : NodeId) (unorderedIsLess flipped : Bool) : Reduction :=
  let (a, b) := arranged flipped (.node x) (.node y)
  let floating := (g.stamp x).stackKind.isFloat
  let isZero := constant = .primitive .int 0
  match c with
  | .intEquals =>
    if isZero then become (.compare (if floating then .floatEquals else .intEquals) a b) else pass
  | .intLess =>
    if isZero then
      become (.compare (if floating then .floatLess (flipped ^^ unorderedIsLess) else .intLess) a b)
    else pass
  | _ => .error (orderFault c self i constant flipped)

/-- A converted value against a constant is the value against the constant converted back, if the
constant survives. Extensions are kept if the extended value would only live longer. -/
def compareConverted (c : Comparison) (g : Graph Label) (constant : Constant) (i : NodeId)
    (v : Conversion) (flipped : Bool) : Reduction :=
  if v.extends_ && 1 < g.usageCount i && g.usageCount v.operand == 1 then pass
  else if !v.preservesOrder then pass
  else do
    let back ← v.back constant
    if (← v.there back) = constant then
      let (x, y) := arranged flipped (.node v.operand) (← Term.constant (g.stamp v.operand) back)
      build (recompare c g x y)
    else pass

/-- Equality with zero of a masked, subtracted or shifted value. -/
def equalsZero (g : Graph Label) (constant : Constant) (i : NodeId) : Reduction :=
  let shifted (u v : NodeId) (bits : Stamp → Nat → Term) : Reduction :=
    match constantWord? g v with
    | some c => do
      let mask ← (g.stamp i).shiftMask
      become (.test (.node u) (bits (g.stamp u) (amountUnder mask c)))
    | none => pass
  if constant = .null || !constant.isDefault then pass
  else
    match g.shape? i with
    | some (.binary (.arith .and) a b) => become (.test (.node a) (.node b))
    | some (.binary (.arith .sub) a b) => build (Term.comparison g .intEquals a b)
    | some (.binary (.shift .shl) u v) => shifted u v lowBits
    | some (.binary (.shift .shr) u v) =>
      match g.stamp u with
      | .int s => if s.isPositive then shifted u v highBits else pass
      | _ => pass
    | some (.binary (.shift .ushr) u v) => shifted u v highBits
    | _ => pass

/-- A value masked to one bit that equals the bit: the bit is set. -/
def equalsBit (g : Graph Label) (constant : Constant) (i : NodeId) : Reduction :=
  match constant, g.shape? i with
  | .primitive _ x, some (.binary (.arith .and) a b) =>
    if Word.bitCount x = 1 && g.constant? b = some constant then
      become (.negation (.test (.node a) (.node b)))
    else pass
  | _, _ => pass

/-- A choice, a three-way comparison or a converted value against a constant. -/
def compareComputed (c : Comparison) (self : NodeId) (g : Graph Label) (constant : Constant)
    (i : NodeId) (flipped : Bool) : Reduction :=
  match g.shape? i with
  | some (.select cond t f) => compareChoice c g constant cond t f flipped
  | some (.binary (.order unorderedIsLess) x y) =>
    compareOrder c self g constant i x y unorderedIsLess flipped
  | _ =>
    match conversion? g c.condition i with
    | some v => compareConverted c g constant i v flipped
    | none => pass

def compareWithConstant (c : Comparison) (self : NodeId) (g : Graph Label) (constant : Constant)
    (i : NodeId) (flipped : Bool) : Reduction :=
  let general := compareComputed c self g constant i flipped
  if c = .intEquals then
    (equalsZero g constant i).otherwise ((equalsBit g constant i).otherwise general)
  else general

/-- Two values converted in ways that keep the order compare like the values. -/
def compareBothConverted (c : Comparison) (g : Graph Label) (x y : NodeId) : Reduction :=
  match conversion? g c.condition x, conversion? g c.condition y with
  | some u, some v =>
    if u.preservesOrder && v.preservesOrder &&
        (g.stamp u.operand).isCompatible (g.stamp v.operand) then
      if u.extends_ && (1 < g.usageCount x || 1 < g.usageCount y) then pass
      else build (recompare c g (.node u.operand) (.node v.operand))
    else pass
  | _, _ => pass

def compareCommon (c : Comparison) (self : NodeId) : BinaryRule := fun g _ x y =>
  match g.constant? x, g.constant? y with
  | some _, some _ => Term.foldComparison c g x y
  | some a, none => compareWithConstant c self g a y true
  | none, some b => compareWithConstant c self g b x false
  | none, none => compareBothConverted c g x y

/-! Rules of single comparisons. -/

def equalsDecided : BinaryRule := fun g _ x y => do
  if g.sameValue x y then become (.truth true)
  else if ← g.alwaysDistinct x y then become (.truth false)
  else pass

def lessDecided (decideOn : IntStamp → IntStamp → Option Bool) : BinaryRule := fun g _ x y =>
  .ok (Term.synonymLess decideOn g x y)

/-- Values of the same sign compare the same way with and without it. -/
def lessSameSign : BinaryRule := fun g _ x y =>
  match g.stamp x, g.stamp y with
  | .int a, .int b =>
    if a.sameSign b then become (.compare .intBelow (.node x) (.node y)) else pass
  | _, _ => pass

/-- Whether a difference may leave the width below, counting the least value as outside. -/
def subtractMayUnderflow (x y least : Word) : Bool :=
  let r := x - y
  ((x ^^^ y) &&& (x ^^^ r)).slt 0 || r.sle least

def subtractMayOverflow (x y greatest : Word) : Bool :=
  let r := x - y
  ((x ^^^ y) &&& (x ^^^ r)).slt 0 || greatest.slt r

/-- A difference that stays in range is negative exactly if the first operand is the lesser. -/
def lessDifference : BinaryRule := fun g _ x y =>
  match g.constant? y, g.binary? (.arith .sub) x with
  | some c, some (a, b) =>
    if c.isDefault then
      match g.stamp a, g.stamp b with
      | .int s, .int t =>
        if !subtractMayUnderflow s.lo t.hi (Word.minValue s.bits) &&
            !subtractMayOverflow s.hi t.lo (Word.maxValue s.bits) then
          become (.compare .intLess (.node a) (.node b))
        else pass
      | _, _ => .error .familyMismatch
    else pass
  | _, _ => pass

/-- Zero is below every value but itself. -/
def belowFromZero : BinaryRule := fun g _ x y =>
  match constantWord? g x with
  | some c =>
    if c = 0 then build do return Term.negated g (← Term.comparison g .intEquals x y) else pass
  | none => pass

def floatEqualsDecided : BinaryRule := fun g _ x y =>
  match g.stamp x, g.stamp y with
  | .float a, .float b => do
    if g.sameValue x y && a.nonNaN && b.nonNaN then become (.truth true)
    else if ← g.alwaysDistinct x y then become (.truth false)
    else pass
  | _, _ => pass

def floatLessDecided (unorderedIsTrue : Bool) : BinaryRule := fun g _ x y =>
  if g.sameValue x y && !unorderedIsTrue then become (.truth false) else pass

def pointerDecided : BinaryRule := fun g _ x y => Term.synonymPointer g x y

def compare (c : Comparison) (self : NodeId) : BinaryRule :=
  let common := compareCommon c self
  match c with
  | .intEquals => firstBinary [equalsDecided, common]
  | .intLess => firstBinary [common, lessDecided IntStamp.decideLess, lessSameSign, lessDifference]
  | .intBelow => firstBinary [common, lessDecided IntStamp.decideBelow, belowFromZero]
  | .floatEquals => firstBinary [common, floatEqualsDecided]
  | .floatLess b => firstBinary [common, floatLessDecided b]
  | .objectEquals | .pointerEquals => firstBinary [pointerDecided, common]

def test : BinaryRule := fun g _ x y =>
  match constantWord? g x, constantWord? g y with
  | some a, some b => become (.truth (a &&& b = 0))
  | _, _ =>
    match g.stamp x, g.stamp y with
    | .int a, .int b => .ok ((a.decideTest b).map .truth)
    | _, _ => pass

end Canonical

end CompilerKit
