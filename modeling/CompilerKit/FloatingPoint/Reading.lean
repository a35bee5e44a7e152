import CompilerKit.FloatingPoint.Format
import CompilerKit.Text

/-! # Reading floating point numbers

A number is written in decimal (`1.5`, `-2e3`), in hexadecimal with a power of two (`0x1.8p1`) or as
`NaN` or `Infinity`. Blanks around it and a letter behind it that names a format do not count. The
result is the nearest datum.
-/
namespace CompilerKit.FloatingPoint

/-- The digits of a number in a base and how many of them are behind the point. -/
structure Digits where
  value : Nat := 0
  count : Nat := 0
  behind : Nat := 0
  hasPoint : Bool := false

namespace Digits

def digit? (base : Nat) (c : Char) : Option Nat := (Text.hexDigit? c).filter (· < base)

def take (base : Nat) (d : Digits) : List Char → Digits × List Char
  | [] => (d, [])
  | c :: cs =>
    if c = '.' ∧ !d.hasPoint then take base { d with hasPoint := true } cs
    else match digit? base c with
      | some v =>
        let behind := if d.hasPoint then d.behind + 1 else d.behind
        take base { d with value := d.value * base + v, count := d.count + 1, behind } cs
      | none => (d, c :: cs)

end Digits

/-- A signed whole number at the start of a text. -/
def takeExponent? (cs : List Char) : Option (Int × List Char) :=
  let (negative, cs) := match cs with
    | '-' :: cs => (true, cs)
    | '+' :: cs => (false, cs)
    | cs => (false, cs)
  let digits := cs.takeWhile Char.isDigit
  if digits.isEmpty then none
  else
    let n : Nat := digits.foldl (fun n c => n * 10 + (c.toNat - 48)) 0
    some (if negative then -n else n, cs.drop digits.length)

/-- Whether nothing but a letter for the format is left. -/
def isEnd : List Char → Bool
  | [] => true
  | [c] => c = 'f' || c = 'F' || c = 'd' || c = 'D'
  | _ => false

/-- `± value * 10 ^ exponent`, with a lowest bit for what division leaves. Beyond 400 places before or
behind the point, numbers are infinite or zero in every format. -/
def Datum.ofDecimal (negative : Bool) (value : Nat) (exponent : Int) : Datum :=
  let top : Int := (Nat.toDigits 10 value).length + exponent
  if value = 0 ∨ top < -400 then .finite negative 0 0
  else if 400 < top then .infinite negative
  else if 0 ≤ exponent then .finite negative (value * Nat.pow 10 exponent.toNat) 0
  else
    let divisor : Nat := Nat.pow 10 (-exponent).toNat
    let shift : Nat := divisor.log2 + 130
    let wide := value * Nat.pow 2 shift
    let rest := if wide % divisor = 0 then 0 else 1
    .finite negative (2 * (wide / divisor) + rest) (-(shift : Int) - 1)

def decimal? (negative : Bool) (cs : List Char) : Option Datum := do
  let (d, cs) := Digits.take 10 {} cs
  guard (d.count ≠ 0)
  let (e, cs) ← match cs with
    | 'e' :: cs | 'E' :: cs => takeExponent? cs
    | cs => some (0, cs)
  guard (isEnd cs)
  return .ofDecimal negative d.value (e - d.behind)

/-- A number in hexadecimal, behind its mark; the power of two has to be there. -/
def hexadecimal? (negative : Bool) (cs : List Char) : Option Datum := do
  let (d, cs) := Digits.take 16 {} cs
  guard (d.count ≠ 0)
  let (e, cs) ← match cs with
    | 'p' :: cs | 'P' :: cs => takeExponent? cs
    | _ => none
  guard (isEnd cs)
  let exponent := e - 4 * d.behind
  let top : Int := d.value.log2 + exponent
  return if d.value = 0 ∨ top < -2000 then .finite negative 0 0
    else if 2000 < top then .infinite negative
    else .finite negative d.value exponent

/-- The characters between the blanks around a text. -/
def trimmed (s : String) : List Char :=
  let isBlank (c : Char) : Bool := c.toNat ≤ 32
  ((s.toList.dropWhile isBlank).reverse.dropWhile isBlank).reverse

/-- The datum that a text stands for, before rounding. -/
def Datum.read? (s : String) : Option Datum :=
  match trimmed s with
  | '-' :: cs => unsigned? true cs
  | '+' :: cs => unsigned? false cs
  | cs => unsigned? false cs
where
  /-- A number behind its sign. -/
  unsigned? (negative : Bool) : List Char → Option Datum
    | ['N', 'a', 'N'] => some .nan
    | ['I', 'n', 'f', 'i', 'n', 'i', 't', 'y'] => some (.infinite negative)
    | '0' :: 'x' :: cs | '0' :: 'X' :: cs => hexadecimal? negative cs
    | cs => decimal? negative cs

/-- The bits of the number that a text stands for. -/
def Format.read? (f : Format) (s : String) : Option Nat := (Datum.read? s).map f.encode

end CompilerKit.FloatingPoint
