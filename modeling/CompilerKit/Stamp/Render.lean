import CompilerKit.Arithmetic.Operator
import CompilerKit.Text

/-! # Printed stamps

The printed forms of stamps and of the operators that a stamp's family has.
-/
namespace CompilerKit

def Word.hex (x : Word) : String := Text.hex 16 x.toNat

/-- The width, the bounds unless they are those of the width, and the masks that say more. -/
def IntStamp.render (s : IntStamp) : String :=
  let bounds :=
    if s.lo = s.hi then s!" [{s.lo.toInt}]"
    else if s.lo ≠ Word.minValue s.bits || s.hi ≠ Word.maxValue s.bits then
      s!" [{s.lo.toInt} - {s.hi.toInt}]"
    else ""
  let down := if s.down ≠ 0 then " ⇊" ++ Word.hex s.down else ""
  let up := if s.up ≠ Word.mask s.bits then " ⇈" ++ Word.hex s.up else ""
  s!"i{s.bits}" ++ bounds ++ down ++ up

def Stamp.renderPlain? : Stamp → Option String
  | .object n => some n.render
  | .pointer => some "void*"
  | .void => some "void"
  | .illegal => some "ILLEGAL"
  | .int s => some s.render
  | .float _ => none

/-- What a stamp says about signs and not-a-number, in a fixed order. -/
def Stamp.traits : Stamp → List Bool
  | .int s => [s.isUnrestricted, s.isPositive, s.isNegative, s.isStrictlyPositive,
      s.isStrictlyNegative, s.canBePositive, s.canBeNegative]
  | .float s => [s.isUnrestricted, s.isNaN, s.nonNaN, s.isConstant]
  | _ => []

namespace Family

def label : Family → String
  | integer => "IntegerStamp"
  | floating => "FloatStamp"

/-- Each operator of a family with its number in it. The conversions are numbered in the order of
their definition and printed in another. -/
private def entries : Family → List (Option (String × Nat)) × List (FloatConvert × Nat)
  | integer =>
    ([some ("-", 1), some ("+", 2), some ("-", 3), some ("*", 4), some ("/", 5), some ("%", 6),
      some ("~", 7), some ("&", 8), some ("|", 9), some ("^", 10), some ("<<", 11),
      some (">>", 12), some (">>>", 13), some ("ABS", 14), none, some ("ZeroExtend", 15),
      some ("SignExtend", 16), some ("Narrow", 17)],
     [(.i2f, 18), (.l2f, 19), (.i2d, 20), (.l2d, 21)])
  | floating =>
    ([some ("-", 1), some ("+", 2), some ("-", 3), some ("*", 4), some ("/", 5), some ("%", 6),
      some ("~", 7), some ("&", 8), some ("|", 9), some ("^", 10), none, none, none,
      some ("ABS", 11), some ("SQRT", 12), none, none, none],
     [(.f2i, 13), (.f2l, 14), (.d2i, 15), (.d2l, 16), (.f2d, 17), (.d2f, 18)])

private def describe (label : String) : Option (String × Nat) → String
  | some (symbol, number) => s!"{symbol}\x7b{label}${number}\x7d"
  | none => "null"

def renderTable (family : Option Family) : String :=
  let (plain, conversions) :=
    match family with
    | some f => f.entries
    | none => (List.replicate 18 none, [])
  let label := (family.map Family.label).getD ""
  let conversion (c : FloatConvert) := (conversions.lookup c).map (c.name, ·)
  "ArithmeticOpTable[" ++ ",".intercalate (plain.map (describe label)) ++ ",floatConvert[" ++
    ",".intercalate (FloatConvert.all.map (describe label ∘ conversion)) ++ "]]"

end Family

end CompilerKit
