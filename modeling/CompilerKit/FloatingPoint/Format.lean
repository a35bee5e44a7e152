/-! # Binary floating point formats

Binary floating point formats. A datum is decoded to `± significand * 2 ^ exponent`, computed on
exactly, and rounded once to the nearest datum, ties to the even one.
-/
namespace CompilerKit.FloatingPoint

structure Format where
  exponentBits : Nat
  fractionBits : Nat

def Format.single : Format := ⟨8, 23⟩

def Format.double : Format := ⟨11, 52⟩

inductive Datum where
  | nan
  | infinite (negative : Bool)
  | finite (negative : Bool) (significand : Nat) (exponent : Int)
  deriving DecidableEq

namespace Format

variable (f : Format)

def signPosition : Nat := f.exponentBits + f.fractionBits

/-- The exponent of the last place of the subnormal numbers. -/
def leastExponent : Int := 2 - Nat.pow 2 (f.exponentBits - 1) - f.fractionBits

def signOf (negative : Bool) : Nat := if negative then Nat.pow 2 f.signPosition else 0

def infinity (negative : Bool) : Nat :=
  f.signOf negative + (Nat.pow 2 f.exponentBits - 1) * Nat.pow 2 f.fractionBits

/-- The quiet not-a-number without sign and payload: it stands for all of them. -/
def canonicalNaN : Nat := f.infinity false + Nat.pow 2 (f.fractionBits - 1)

def decode (bits : Nat) : Datum :=
  let negative := bits.testBit f.signPosition
  let field := bits / Nat.pow 2 f.fractionBits % Nat.pow 2 f.exponentBits
  let fraction := bits % Nat.pow 2 f.fractionBits
  if field = Nat.pow 2 f.exponentBits - 1 then
    if fraction = 0 then .infinite negative else .nan
  else if field = 0 then .finite negative fraction f.leastExponent
  else .finite negative (Nat.pow 2 f.fractionBits + fraction) (f.leastExponent + field - 1)

/-- The nearest datum to `± significand * 2 ^ exponent`. A significand with more bits than the format
holds may carry its discarded part as a set lowest bit. -/
def encodeFinite (negative : Bool) (significand : Nat) (exponent : Int) : Nat :=
  if significand = 0 then f.signOf negative
  else
    let top : Int := significand.log2 + exponent
    let place := max (top - f.fractionBits) f.leastExponent
    let rounded :=
      if place ≤ exponent then significand * Nat.pow 2 (exponent - place).toNat
      else
        let cut := (place - exponent).toNat
        let kept := significand / Nat.pow 2 cut
        let rest := significand % Nat.pow 2 cut
        let half := Nat.pow 2 (cut - 1)
        if half < rest || rest = half && kept % 2 = 1 then kept + 1 else kept
    let magnitude := (place - f.leastExponent).toNat * Nat.pow 2 f.fractionBits + rounded
    if f.infinity false ≤ magnitude then f.infinity negative else f.signOf negative + magnitude

def encode : Datum → Nat
  | .nan => f.canonicalNaN
  | .infinite negative => f.infinity negative
  | .finite negative significand exponent => f.encodeFinite negative significand exponent

end Format

namespace Datum

def isNaN : Datum → Bool
  | .nan => true
  | _ => false

def isZero : Datum → Bool
  | .finite _ 0 _ => true
  | _ => false

def negate : Datum → Datum
  | .nan => .nan
  | .infinite n => .infinite (!n)
  | .finite n m e => .finite (!n) m e

/-- The signed significand of a finite datum at a given last place, which is at most its own. -/
def scaled (negative : Bool) (m : Nat) (e place : Int) : Int :=
  let magnitude : Nat := m * Nat.pow 2 (e - place).toNat
  if negative then -(magnitude : Int) else magnitude

/-- A finite sum of zero is positive unless both summands are negative. -/
def add : Datum → Datum → Datum
  | .nan, _ | _, .nan => .nan
  | .infinite a, .infinite b => if a = b then .infinite a else .nan
  | .infinite a, _ => .infinite a
  | _, .infinite b => .infinite b
  | .finite a m e, .finite b n d =>
    let place := min e d
    let total := scaled a m e place + scaled b n d place
    if total = 0 then .finite (a && b) 0 place
    else .finite (total < 0) total.natAbs place

def sub (x y : Datum) : Datum := x.add y.negate

def mul : Datum → Datum → Datum
  | .nan, _ | _, .nan => .nan
  | .infinite a, .infinite b => .infinite (a != b)
  | .infinite a, .finite b n _ => if n = 0 then .nan else .infinite (a != b)
  | .finite a m _, .infinite b => if m = 0 then .nan else .infinite (a != b)
  | .finite a m e, .finite b n d => .finite (a != b) (m * n) (e + d)

/-- A quotient keeps 64 more bits than its operands hold and a lowest bit for the rest. -/
def div : Datum → Datum → Datum
  | .nan, _ | _, .nan => .nan
  | .infinite _, .infinite _ => .nan
  | .infinite a, .finite b _ _ => .infinite (a != b)
  | .finite a _ e, .infinite b => .finite (a != b) 0 e
  | .finite a m e, .finite b n d =>
    if n = 0 then if m = 0 then .nan else .infinite (a != b)
    else
      let wide := m * Nat.pow 2 128
      let rest := if wide % n = 0 then 0 else 1
      .finite (a != b) (2 * (wide / n) + rest) (e - d - 129)

/-- The remainder of the truncated quotient; it has the sign of the dividend. -/
def rem : Datum → Datum → Datum
  | .nan, _ | _, .nan | .infinite _, _ => .nan
  | x, .infinite _ => x
  | .finite a m e, .finite _ n d =>
    if n = 0 then .nan
    else
      let place := min e d
      .finite a (m * Nat.pow 2 (e - place).toNat % (n * Nat.pow 2 (d - place).toNat)) place

/-- The integer square root, by bisection below a power of two. -/
def isqrt (n : Nat) : Nat :=
  (List.range (n.log2 / 2 + 1)).reverse.foldl
    (fun root i =>
      let next := root + Nat.pow 2 i
      if next * next ≤ n then next else root)
    0

def sqrt : Datum → Datum
  | .nan => .nan
  | .infinite negative => if negative then .nan else .infinite false
  | .finite negative m e =>
    if m = 0 then .finite negative 0 e
    else if negative then .nan
    else
      let shift : Nat := if e % 2 = 0 then 128 else 129
      let wide := m * Nat.pow 2 shift
      let root := isqrt wide
      let rest := if root * root = wide then 0 else 1
      .finite false (2 * root + rest) ((e - shift) / 2 - 1)

/-- The value as a fraction with a power of two below, compared as integers. -/
def compare : Datum → Datum → Option Ordering
  | .nan, _ | _, .nan => none
  | .infinite a, .infinite b => some (if a = b then .eq else if a then .lt else .gt)
  | .infinite a, .finite .. => some (if a then .lt else .gt)
  | .finite .., .infinite b => some (if b then .gt else .lt)
  | .finite a m e, .finite b n d =>
    let place := min e d
    some (Ord.compare (scaled a m e place) (scaled b n d place))

/-- Truncation towards zero, held between the bounds; not-a-number gives zero. -/
def truncate (least greatest : Int) : Datum → Int
  | .nan => 0
  | .infinite negative => if negative then least else greatest
  | .finite negative m e =>
    let magnitude : Nat := if 0 ≤ e then m * Nat.pow 2 e.toNat else m / Nat.pow 2 (-e).toNat
    max least (min greatest (if negative then -(magnitude : Int) else magnitude))

def ofInt (i : Int) : Datum := .finite (i < 0) i.natAbs 0

end Datum

/-! Operations on bits. Sign and payload of a not-a-number pass through, but it becomes quiet. -/

namespace Format

variable (f : Format)

def quietBit : Nat := Nat.pow 2 (f.fractionBits - 1)

/-- What an operation gives that has no value at its operands: a quiet not-a-number with a sign. -/
def noValue : Nat := f.infinity true + f.quietBit

def encodeResult (d : Datum) : Nat := if d.isNaN then f.noValue else f.encode d

def onBits (op : Datum → Datum) (x : Nat) : Nat :=
  if (f.decode x).isNaN then x ||| f.quietBit else f.encodeResult (op (f.decode x))

/-- Of two operands that are not numbers the first passes through. -/
def onBits₂ (op : Datum → Datum → Datum) (x y : Nat) : Nat :=
  if (f.decode x).isNaN then x ||| f.quietBit
  else if (f.decode y).isNaN then y ||| f.quietBit
  else f.encodeResult (op (f.decode x) (f.decode y))

/-- The nearest datum of another format; of a payload the leading bits stay. -/
def convert (target : Format) (x : Nat) : Nat :=
  if (f.decode x).isNaN then
    let payload :=
      x % Nat.pow 2 f.fractionBits * Nat.pow 2 target.fractionBits / Nat.pow 2 f.fractionBits
    target.infinity (x.testBit f.signPosition) ||| payload ||| target.quietBit
  else target.encode (f.decode x)

end Format

end CompilerKit.FloatingPoint
