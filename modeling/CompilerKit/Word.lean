import CompilerKit.Fault

/-! # Words

Machine words. A value of `w` bits, `1 ≤ w ≤ 64`, is kept sign extended in a 64-bit word; masks are
kept zero extended.
-/
namespace CompilerKit

abbrev Word := BitVec 64

namespace Word

/-- Shift amounts are taken modulo the word size. -/
def shl (x : Word) (n : Nat) : Word := x <<< (n % 64)

/-- Logical right shift; the amount is taken modulo the word size. -/
def ushr (x : Word) (n : Nat) : Word := x >>> (n % 64)

/-- Arithmetic right shift; the amount is taken modulo the word size. -/
def sar (x : Word) (n : Nat) : Word := x.sshiftRight (n % 64)

/-- The word whose low `w` bits are set. -/
def mask (w : Nat) : Word := if w = 64 then BitVec.allOnes 64 else shl 1 w - 1

/-- The least signed value of `w` bits. -/
def minValue (w : Nat) : Word := shl (BitVec.allOnes 64) (w - 1)

/-- The greatest signed value of `w` bits. -/
def maxValue (w : Nat) : Word := mask (w - 1)

def zeroExtend (x : Word) (w : Nat) : Word :=
  if w < 64 then x &&& ~~~(shl (BitVec.allOnes 64) w) else x

def signExtend (x : Word) (w : Nat) : Word :=
  if w < 64 then
    if ushr x (w - 1) &&& 1 = 1 then x ||| shl (BitVec.allOnes 64) w
    else x &&& ~~~(shl (BitVec.allOnes 64) w)
  else x

/-- The low `w` bits, sign extended. -/
def narrow (x : Word) (w : Nat) : Word := signExtend (x &&& mask w) w

def smin (x y : Word) : Word := if x.sle y then x else y

def smax (x y : Word) : Word := if x.sle y then y else x

/-- Absolute value; the least word is its own absolute value. -/
def abs (x : Word) : Word := if x.slt 0 then -x else x

def leadingZeros (x : Word) : Nat := if x = 0 then 64 else 63 - x.toNat.log2

def bitCount (x : Word) : Nat := (List.range 64).countP fun i => x.getLsbD i

def isPowerOfTwo (x : Word) : Bool := (0 : Word).slt x && x &&& (x - 1) == 0

/-- The position of the highest set bit. -/
def log2 (x : Word) : Nat := 63 - leadingZeros x

/-- The low half as a signed number. -/
def lowInt (x : Word) : Int := (x.truncate 32).toInt

end Word

/-! Numbers of any width: how many bits a number needs, whether it fits into a field, and rounding to a
multiple of another number. Quotients are truncated and products wrap around. -/

namespace Numeric

/-- The number of bits up to the highest one set. -/
def bitLength {w : Nat} (x : BitVec w) : Nat := if x = 0 then 0 else x.toNat.log2 + 1

/-- Whether a number, read as unsigned, fits into `n` bits. -/
def fitsUnsigned {w : Nat} (n : Int) (x : BitVec w) : Bool := bitLength x ≤ n

/-- Whether a number, read as signed, fits into `n` bits; widths are taken modulo that of the
number. -/
def fitsSigned {w : Nat} (n : Int) (x : BitVec w) : Bool :=
  let half : BitVec w := 1 <<< ((n - 1) % w).toNat
  (-half).sle x && x.sle (half - 1)

/-- The least exponent whose power of two is at least `n`. -/
def log2Ceil (n : Int) : Nat := if n ≤ 1 then 0 else (n - 1).toNat.log2 + 1

/-- The `n` lowest bits, all set; a negative number is taken modulo the width. -/
def lowBits (w : Nat) (n : Int) : BitVec w :=
  if n < w then (1 <<< (n % w).toNat) - 1 else BitVec.allOnes w

/-- The multiple of `m` that truncation leads to; for numbers that are not negative, the greatest one
up to `n`. -/
def roundDown {w : Nat} (n m : BitVec w) : Result (BitVec w) :=
  if m = 0 then .error .divisionByZero else .ok (n.sdiv m * m)

/-- For positive numbers, the least multiple of `m` from `n` on. -/
def roundUp {w : Nat} (n m : BitVec w) : Result (BitVec w) := roundDown (n + m - 1) m

end Numeric

end CompilerKit
