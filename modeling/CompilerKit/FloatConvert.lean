/-! # Conversions of numbers

Conversions between integers and floating point numbers.
-/
namespace CompilerKit

inductive FloatConvert where
  | f2i | d2i | f2l | d2l | i2f | l2f | d2f | i2d | l2d | f2d
  deriving DecidableEq

namespace FloatConvert

def all : List FloatConvert := [f2i, d2i, f2l, d2l, i2f, l2f, d2f, i2d, l2d, f2d]

def name : FloatConvert → String
  | f2i => "F2I"
  | d2i => "D2I"
  | f2l => "F2L"
  | d2l => "D2L"
  | i2f => "I2F"
  | l2f => "L2F"
  | d2f => "D2F"
  | i2d => "I2D"
  | l2d => "L2D"
  | f2d => "F2D"

def ofName? (s : String) : Option FloatConvert := all.find? (·.name = s)

def reverse : FloatConvert → FloatConvert
  | f2i => i2f
  | d2i => i2d
  | f2l => l2f
  | d2l => l2d
  | i2f => f2i
  | l2f => f2l
  | d2f => f2d
  | i2d => d2i
  | l2d => d2l
  | f2d => d2f

@[simp] theorem reverse_reverse (c : FloatConvert) : c.reverse.reverse = c := by
  cases c <;> rfl

/-- Every value survives the conversion and back. -/
def isLossless : FloatConvert → Bool
  | f2d | i2d => true
  | _ => false

end FloatConvert

end CompilerKit
