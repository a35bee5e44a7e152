import CompilerKit.FloatingPoint.Double

/-! # Decimal text

The digits of a number are found from the left, until they tell the number from its neighbours; the
last of them is then rounded. Whole numbers below 2^63 are written with all the digits that the format
resolves. Numbers of a moderate size are written with a point only, the others with a power of ten.
-/
namespace CompilerKit.FloatingPoint

/-- The number `0.d₁d₂… * 10 ^ exponent`. -/
structure Decimal where
  digits : List Nat
  exponent : Int
  deriving DecidableEq

namespace Decimal

def digitText (digits : List Nat) : String := String.ofList (digits.map Nat.digitChar)

/-- The text behind a point, which is never empty. -/
def fractionText (digits : List Nat) : String := digitText (if digits.isEmpty then [0] else digits)

/-- Numbers from a thousandth up to ten millions are written without a power of ten. -/
def render (d : Decimal) : String :=
  let before := d.exponent.toNat
  if 0 < d.exponent ∧ d.exponent < 8 then
    let whole := d.digits.take before
    digitText (whole ++ List.replicate (before - whole.length) 0) ++ "." ++
      fractionText (d.digits.drop before)
  else if -3 < d.exponent ∧ d.exponent ≤ 0 then
    "0." ++ digitText (List.replicate (-d.exponent).toNat 0 ++ d.digits)
  else
    digitText (d.digits.take 1) ++ "." ++ fractionText (d.digits.drop 1) ++ "E" ++
      toString (d.exponent - 1)

/-- Adds one to a number whose digits are given from the right, unless it needs one digit more. -/
def successor? : List Nat → Option (List Nat)
  | [] => none
  | 9 :: ds => (successor? ds).map (0 :: ·)
  | d :: ds => some ((d + 1) :: ds)

/-- One more in the last place. -/
def roundUp (d : Decimal) : Decimal :=
  match successor? d.digits.reverse with
  | some ds => { d with digits := ds.reverse }
  | none => ⟨1 :: List.replicate (d.digits.length - 1) 0, d.exponent + 1⟩

/-- A whole number without its last `dropped` digits, to the nearest, a half upwards. Zeros at the end
are not written. -/
def ofWhole (n dropped : Nat) : Decimal :=
  let unit := Nat.pow 10 dropped
  let kept := if dropped ≠ 0 ∧ unit / 2 ≤ n % unit then n / unit + 1 else n / unit
  let digits := (Nat.toDigits 10 kept).map fun c => c.toNat - 48
  ⟨(digits.reverse.dropWhile (· = 0)).reverse, digits.length + dropped⟩

end Decimal

/-- What is left of a number while its digits are found: `rest / unit` has the next digit in front of
the point, and `tolerance / unit` is how far the number may be missed. -/
structure Remainder where
  rest : Nat
  unit : Nat
  tolerance : Nat
  /-- Whether the numbers are held in signed 64-bit words, which the tolerance may overflow. -/
  inWords : Bool

namespace Remainder

def digit (r : Remainder) : Nat := r.rest / r.unit

/-- What is left behind the digit. -/
def next (r : Remainder) : Remainder :=
  { r with rest := 10 * (r.rest % r.unit), tolerance := 10 * r.tolerance }

/-- The tolerance as the words hold it. -/
def heldTolerance (r : Remainder) : Int :=
  if r.inWords then (BitVec.ofNat 64 r.tolerance).toInt else r.tolerance

/-- Whether the digits found so far are close enough to the number. -/
def isCloseBelow (r : Remainder) : Bool :=
  r.heldTolerance ≤ 0 || r.rest < r.heldTolerance

/-- Whether the digits found so far would be close enough with one more in the last place. In words
the distance has to be less than the tolerance. -/
def isCloseAbove (r : Remainder) : Bool :=
  if r.inWords then
    r.heldTolerance ≤ 0 || 10 * r.unit < (BitVec.ofInt 64 (r.rest + r.heldTolerance)).toInt
  else 10 * r.unit ≤ r.rest + r.tolerance

def isClose (r : Remainder) : Bool := r.isCloseBelow || r.isCloseAbove

/-- Finds digits until they are close enough, and gives what is left behind them. -/
def digits : Nat → Remainder → List Nat × Remainder
  | 0, r => ([], r)
  | fuel + 1, r =>
    if r.next.isClose then ([r.digit], r.next)
    else
      let (ds, last) := r.next.digits fuel
      (r.digit :: ds, last)

/-- Whether one more in the last place, which is `last`, comes closer. A tie goes to the even digit. -/
def roundsUp (r : Remainder) (last : Nat) : Bool :=
  r.isCloseAbove && (!r.isCloseBelow || 10 * r.unit < 2 * r.rest ||
    2 * r.rest = 10 * r.unit && last % 2 = 1)

end Remainder

/-- The number `significand * 2 ^ exponent`; its significand is not zero. -/
structure Magnitude where
  significand : Nat
  exponent : Int

namespace Magnitude

/-- The exponent of the first bit. -/
def top (x : Magnitude) : Int := x.exponent + x.significand.log2

/-- The significand without the zeros behind its last bit. -/
def odd (x : Magnitude) : Nat :=
  x.significand / Nat.pow 2 ((List.range x.significand.log2).takeWhile fun i =>
    !x.significand.testBit i).length

/-- How many bits there are from the first to the last that is set. -/
def length (x : Magnitude) : Nat := x.odd.log2 + 1

/-- How many bits stand behind the binary point. -/
def fractionLength (x : Magnitude) : Nat := (x.length - 1 - x.top).toNat

/-- An estimate of the exponent of the first digit, at most one too large: the tangent of the
logarithm at 1.5 stands for the logarithm between two powers of two. -/
def estimate (x : Magnitude) : Int :=
  let slope : Int := 289529654000000
  let height : Int := 176091259000000
  let ofTwo : Int := 301029995663981
  let unit : Nat := Nat.pow 2 x.significand.log2
  (slope * (2 * x.significand - 3 * unit) + 2 * unit * (height + ofTwo * x.top)) /
    (2 * unit * Nat.pow 10 15 : Nat)

/-- The size of a power of five in bits; that of one is not counted. -/
def fiveSize (n : Nat) : Nat := if n = 0 then 0 else (Nat.pow 5 n).log2 + 1

/-- The number over a power of ten. The tolerance is half a unit in the last place of the significand,
and for a power of two half of that. Everything is scaled by the least power of two that makes it
whole. -/
def remainder (x : Magnitude) (power : Int) : Remainder :=
  let above5 := (-power).toNat
  let below5 := power.toNat
  let above : Int := above5 + x.fractionLength + x.top - (x.length - 1)
  let below : Int := below5 + x.fractionLength
  let common := min above below
  let half : Int := above5 + x.fractionLength + x.exponent - 1 - common -
    if x.length = 1 then 1 else 0
  let scale := max 0 (-half)
  let above2 := (above - common + scale).toNat
  let below2 := (below - common + scale).toNat
  { rest := x.odd * Nat.pow 5 above5 * Nat.pow 2 above2
    unit := Nat.pow 5 below5 * Nat.pow 2 below2
    tolerance := Nat.pow 5 above5 * Nat.pow 2 (half + scale).toNat
    inWords := x.length + above2 + fiveSize above5 < 64 && below2 + 1 + fiveSize (below5 + 1) < 64 }

/-- A number that is not whole, or large. An estimate that is too large shows in a zero. A number that
is written with a power of ten gets a second digit, even if the first is close enough. -/
def fraction (x : Magnitude) : Decimal :=
  let power := x.estimate
  let start := x.remainder power
  let isLarge := start.digit = 0 && !start.next.isCloseAbove
  let first := if isLarge then [] else [start.digit]
  let power := if isLarge then power - 1 else power
  let isDone := start.next.isClose && -3 ≤ power && power < 8
  let (rest, last) := if isDone then ([], start.next) else start.next.digits 1100
  let found : Decimal := ⟨first ++ rest, power + 1⟩
  if last.roundsUp (found.digits.getLastD 0) then found.roundUp else found

/-- How many digits of a whole number are below half a unit in the last place of its significand. -/
def unresolved (x : Magnitude) : Nat :=
  let place := Nat.pow 2 (x.exponent - 2).toNat
  (Nat.toDigits 10 place).length - 1

/-- The digits of the number. -/
def decimal (x : Magnitude) : Decimal :=
  if x.top < 63 ∧ x.fractionLength = 0 then
    let whole := if 0 ≤ x.exponent then x.significand * Nat.pow 2 x.exponent.toNat
      else x.significand / Nat.pow 2 (-x.exponent).toNat
    .ofWhole whole x.unresolved
  else x.fraction

end Magnitude

def Datum.render : Datum → String
  | .nan => "NaN"
  | .infinite negative => sign negative ++ "Infinity"
  | .finite negative 0 _ => sign negative ++ "0.0"
  | .finite negative significand exponent =>
    sign negative ++ (Magnitude.decimal ⟨significand, exponent⟩).render
where
  sign (negative : Bool) : String := if negative then "-" else ""

def Double.render (x : Double) : String := x.datum.render

end CompilerKit.FloatingPoint
