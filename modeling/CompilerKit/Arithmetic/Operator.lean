import CompilerKit.FloatConvert
import CompilerKit.Stamp.Basic

/-! # Arithmetic operators

The arithmetic operators and what is known of each in the integer and the floating point family.
-/
namespace CompilerKit

inductive UnaryOp where
  | neg | not | abs | sqrt
  deriving DecidableEq

inductive BinaryOp where
  | add | sub | mul | div | rem | and | or | xor
  deriving DecidableEq

inductive ShiftOp where
  | shl | shr | ushr
  deriving DecidableEq

/-- Changes of an integer's width. -/
inductive ResizeOp where
  | zeroExtend | signExtend | narrow
  deriving DecidableEq

/-- The families of values that have arithmetic. -/
inductive Family where
  | integer | floating
  deriving DecidableEq

def Stamp.family? : Stamp → Option Family
  | .int _ => some .integer
  | .float _ => some .floating
  | _ => none

def Kind.family? (k : Kind) : Option Family := (Stamp.ofKind k).family?

namespace UnaryOp

def all : List UnaryOp := [neg, not, abs, sqrt]

def name : UnaryOp → String
  | neg => "neg"
  | not => "not"
  | abs => "abs"
  | sqrt => "sqrt"

def ofName? (s : String) : Option UnaryOp := all.find? (·.name = s)

def symbol : UnaryOp → String
  | neg => "-"
  | not => "~"
  | abs => "ABS"
  | sqrt => "SQRT"

def isDefinedOn : UnaryOp → Family → Bool
  | sqrt, f => f = .floating
  | _, _ => true

end UnaryOp

namespace BinaryOp

def all : List BinaryOp := [add, sub, mul, div, rem, and, or, xor]

def name : BinaryOp → String
  | add => "add"
  | sub => "sub"
  | mul => "mul"
  | div => "div"
  | rem => "rem"
  | and => "and"
  | or => "or"
  | xor => "xor"

def ofName? (s : String) : Option BinaryOp := all.find? (·.name = s)

def symbol : BinaryOp → String
  | add => "+"
  | sub => "-"
  | mul => "*"
  | div => "/"
  | rem => "%"
  | and => "&"
  | or => "|"
  | xor => "^"

/-- Whether operands may be regrouped. Subtraction and division of integers count, provided the
right inverses are inserted. -/
def isAssociative : BinaryOp → Family → Bool
  | and, _ | or, _ | xor, _ => true
  | rem, _ => false
  | _, f => f = .integer

def isCommutative : BinaryOp → Bool
  | add | mul | and | or | xor => true
  | sub | div | rem => false

def render (op : BinaryOp) (f : Family) : String :=
  op.symbol ++ match op.isAssociative f, op.isCommutative with
    | true, true => "[AC]"
    | true, false => "[A]"
    | false, true => "[C]"
    | false, false => ""

end BinaryOp

namespace ShiftOp

def all : List ShiftOp := [shl, shr, ushr]

def name : ShiftOp → String
  | shl => "shl"
  | shr => "shr"
  | ushr => "ushr"

def ofName? (s : String) : Option ShiftOp := all.find? (·.name = s)

def symbol : ShiftOp → String
  | shl => "<<"
  | shr => ">>"
  | ushr => ">>>"

end ShiftOp

namespace ResizeOp

def all : List ResizeOp := [zeroExtend, signExtend, narrow]

def name : ResizeOp → String
  | zeroExtend => "zeroExtend"
  | signExtend => "signExtend"
  | narrow => "narrow"

def ofName? (s : String) : Option ResizeOp := all.find? (·.name = s)

def symbol : ResizeOp → String
  | zeroExtend => "ZeroExtend"
  | signExtend => "SignExtend"
  | narrow => "Narrow"

def reverse : ResizeOp → ResizeOp
  | zeroExtend | signExtend => narrow
  | narrow => signExtend

def isLossless : ResizeOp → Bool
  | narrow => false
  | _ => true

end ResizeOp

def FloatConvert.source : FloatConvert → Family
  | i2f | l2f | i2d | l2d => .integer
  | _ => .floating

inductive Operator where
  | unary (op : UnaryOp)
  | binary (op : BinaryOp)
  | shift (op : ShiftOp)
  | resize (op : ResizeOp)
  | convert (op : FloatConvert)
  deriving DecidableEq

namespace Operator

def ofName? (s : String) : Option Operator :=
  (UnaryOp.ofName? s).map unary <|> (BinaryOp.ofName? s).map binary <|>
    (ShiftOp.ofName? s).map shift <|> (ResizeOp.ofName? s).map resize <|>
    (FloatConvert.ofName? s).map convert

def isDefinedOn : Operator → Option Family → Bool
  | _, none => false
  | unary op, some f => op.isDefinedOn f
  | binary _, some _ => true
  | shift _, some f | resize _, some f => f = .integer
  | convert op, some f => op.source = f

end Operator

end CompilerKit
