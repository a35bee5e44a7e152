import CompilerKit.FloatingPoint.Format
import CompilerKit.Word

/-! # Double precision numbers

Double precision numbers as the bits of their data, with not-a-number in its canonical form.
-/
namespace CompilerKit.FloatingPoint

structure Double where
  bits : Word
  deriving DecidableEq, Inhabited

namespace Double

def datum (x : Double) : Datum := Format.double.decode x.bits.toNat

def ofDatum (d : Datum) : Double := ⟨BitVec.ofNat 64 (Format.double.encode d)⟩

def ofBits (bits : Word) : Double :=
  if (Format.double.decode bits.toNat).isNaN then ofDatum .nan else ⟨bits⟩

instance (n : Nat) : OfNat Double n := ⟨ofDatum (.ofInt n)⟩

def zero : Double := ⟨0⟩

def infinity : Double := ofDatum (.infinite false)

def negInfinity : Double := ofDatum (.infinite true)

def isNaN (x : Double) : Bool := x.datum.isNaN

def isNegativeZero (x : Double) : Bool := x.bits = Word.shl 1 63

def neg (x : Double) : Double := if x.isNaN then x else ⟨x.bits ^^^ Word.shl 1 63⟩

def add (x y : Double) : Double := ofDatum (x.datum.add y.datum)

def div (x y : Double) : Double := ofDatum (x.datum.div y.datum)

def lt (x y : Double) : Bool := x.datum.compare y.datum = some .lt

def le (x y : Double) : Bool := (x.datum.compare y.datum).any (·.isLE)

/-- Numerical equality: the two zeros are equal, not-a-number equals nothing. -/
def beq (x y : Double) : Bool := x.datum.compare y.datum = some .eq

/-- The total order: negative zero is below positive zero, and not-a-number above all numbers. -/
def order (x y : Double) : Ordering :=
  if x.lt y then .lt
  else if y.lt x then .gt
  else compare (ofBits x.bits).bits.toInt (ofBits y.bits).bits.toInt

/-- The lesser number; negative zero is below positive zero, and not-a-number absorbs. -/
def min (x y : Double) : Double :=
  if x.isNaN then x
  else if y.isNaN then y
  else if x.beq y then if y.isNegativeZero then y else x
  else if x.lt y then x else y

/-- The greater number; negative zero is below positive zero, and not-a-number absorbs. -/
def max (x y : Double) : Double :=
  if x.isNaN then x
  else if y.isNaN then y
  else if x.beq y then if x.isNegativeZero then y else x
  else if x.lt y then y else x

/-- Truncation to a signed integer of the given width, held inside its range. -/
def truncate (bits : Nat) (x : Double) : Word :=
  BitVec.ofInt 64 (x.datum.truncate (Word.minValue bits).toInt (Word.maxValue bits).toInt)

def toSingle (x : Double) : Nat := Format.single.encode x.datum

def ofSingle (bits : Nat) : Double := ofDatum (Format.single.decode bits)

end Double

end CompilerKit.FloatingPoint
