import CompilerKit.Word

/-! # Kinds of values

The kinds of values a program handles.
-/
namespace CompilerKit

inductive Kind where
  | boolean | byte | short | char | int | float | long | double | object | void | illegal
  deriving DecidableEq

namespace Kind

def all : List Kind :=
  [boolean, byte, short, char, int, float, long, double, object, void, illegal]

def name : Kind → String
  | boolean => "Boolean"
  | byte => "Byte"
  | short => "Short"
  | char => "Char"
  | int => "Int"
  | float => "Float"
  | long => "Long"
  | double => "Double"
  | object => "Object"
  | void => "Void"
  | illegal => "Illegal"

def ofName? (s : String) : Option Kind := all.find? (·.name = s)

/-- The width of a primitive value; the other kinds have none. -/
def bits : Kind → Nat
  | boolean => 1
  | byte => 8
  | short | char => 16
  | int | float => 32
  | long | double => 64
  | object | void | illegal => 0

/-- Integers narrower than 32 bits are widened when they are computed with. -/
def stack : Kind → Kind
  | boolean | byte | short | char => int
  | k => k

def isInteger : Kind → Bool
  | boolean | byte | short | char | int | long => true
  | _ => false

def isFloat : Kind → Bool
  | float | double => true
  | _ => false

def isUnsigned : Kind → Bool
  | boolean | char => true
  | _ => false

def minValue (k : Kind) : Word := if k.isUnsigned then 0 else Word.minValue k.bits

def maxValue (k : Kind) : Word :=
  if k.isUnsigned then Word.mask k.bits else Word.maxValue k.bits

/-- The value of an integer kind that a word stands for. Every word but zero is true. -/
def clip (k : Kind) (x : Word) : Word :=
  match k with
  | boolean => if x = 0 then 0 else 1
  | char => Word.zeroExtend x 16
  | k => Word.signExtend x k.bits

def ofBits? : Nat → Option Kind
  | 1 => some boolean
  | 8 => some byte
  | 16 => some short
  | 32 => some int
  | 64 => some long
  | _ => none

end Kind

end CompilerKit
