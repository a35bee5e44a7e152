import CompilerKit.Constant
import CompilerKit.FloatingPoint.Double

/-! # Floating point stamps

Floating point stamps: bounds of a number and whether it can be not-a-number. The stamp of a value
that is always not-a-number has such bounds.
-/
namespace CompilerKit

open FloatingPoint

structure FloatStamp where
  bits : Nat
  lo : Double
  hi : Double
  nonNaN : Bool
  deriving DecidableEq

namespace FloatStamp

def full (bits : Nat) : FloatStamp := ⟨bits, .negInfinity, .infinity, false⟩

def empty (bits : Nat) : FloatStamp := ⟨bits, .infinity, .negInfinity, true⟩

def hasValues (s : FloatStamp) : Bool := s.lo.le s.hi || !s.nonNaN

def isNaN (s : FloatStamp) : Bool := s.lo.isNaN

def isUnrestricted (s : FloatStamp) : Bool :=
  s.lo == .negInfinity && s.hi == .infinity && !s.nonNaN

def contains (s : FloatStamp) (v : Double) : Bool :=
  if v.isNaN then !s.nonNaN else s.lo.le v && v.le s.hi

def isConstant (s : FloatStamp) : Bool := s.nonNaN && s.lo == s.hi

def constant? (s : FloatStamp) : Option Constant :=
  if s.isConstant then
    match s.bits with
    | 32 => some (Constant.ofSingle s.lo.toSingle)
    | 64 => some (Constant.ofDouble s.lo.bits.toNat)
    | _ => none
  else none

/-- Bounds that are not-a-number do not count. -/
private def meetBound (op : Double → Double → Double) (x y : Double) : Double :=
  if x.isNaN then y else if y.isNaN then x else op x y

def meet (s t : FloatStamp) : FloatStamp :=
  ⟨s.bits, meetBound Double.min s.lo t.lo, meetBound Double.max s.hi t.hi, s.nonNaN && t.nonNaN⟩

def join (s t : FloatStamp) : FloatStamp :=
  ⟨s.bits, Double.max s.lo t.lo, Double.min s.hi t.hi, s.nonNaN || t.nonNaN⟩

def neg (s : FloatStamp) : FloatStamp := ⟨s.bits, s.hi.neg, s.lo.neg, s.nonNaN⟩

def abs (s : FloatStamp) : FloatStamp :=
  if s.isNaN then s else ⟨s.bits, .zero, Double.max s.lo.neg s.hi, s.nonNaN⟩

def single (bits : Nat) (v : Double) : FloatStamp := ⟨bits, v, v, !v.isNaN⟩

end FloatStamp

end CompilerKit
