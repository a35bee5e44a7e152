/-! # Texts

Texts are measured and compared by their UTF-16 units. A unit that is half of a pair without the other
half is no character; the last 2048 characters, which are for private use, stand for such units.
-/
namespace CompilerKit.Text

def half (unit : Nat) : Char := Char.ofNat (0x10F800 + (unit - 0xD800))

def unitsOf (c : Char) : List Nat :=
  let n := c.toNat
  if n < 0x10000 then [n]
  else if n < 0x10F800 then [0xD800 + (n - 0x10000) / 0x400, 0xDC00 + (n - 0x10000) % 0x400]
  else [0xD800 + (n - 0x10F800)]

def units (s : String) : List Nat := s.toList.flatMap unitsOf

def width (s : String) : Nat := (units s).length

/-- Texts in the order of their UTF-16 units. -/
def le (s t : String) : Bool := !(units t).lex (units s) fun a b => a < b

/-! Hexadecimal numbers. -/

/-- A number in hexadecimal, with at least as many digits as given. -/
def hex (size n : Nat) : String :=
  let digits := Nat.toDigits 16 n
  String.ofList (List.replicate (size - digits.length) '0' ++ digits)

def hexDigit? (c : Char) : Option Nat :=
  let n := c.toNat
  if 48 ≤ n ∧ n ≤ 57 then some (n - 48)
  else if 97 ≤ n ∧ n ≤ 102 then some (n - 87)
  else if 65 ≤ n ∧ n ≤ 70 then some (n - 55)
  else none

/-- A number of exactly as many digits as given. -/
def ofHex? (size : Nat) (s : String) : Option Nat :=
  if s.length = size then s.toList.foldlM (fun n c => (hexDigit? c).map (16 * n + ·)) 0 else none

/-! Decimal digits of the scripts whose characters are a single UTF-16 unit, by the position of their
zero. -/

def zeros : List Nat :=
  [0x0030, 0x0660, 0x06F0, 0x07C0, 0x0966, 0x09E6, 0x0A66, 0x0AE6, 0x0B66, 0x0BE6, 0x0C66, 0x0CE6,
    0x0D66, 0x0DE6, 0x0E50, 0x0ED0, 0x0F20, 0x1040, 0x1090, 0x17E0, 0x1810, 0x1946, 0x19D0, 0x1A80,
    0x1A90, 0x1B50, 0x1BB0, 0x1C40, 0x1C50, 0xA620, 0xA8D0, 0xA900, 0xA9D0, 0xA9F0, 0xAA50, 0xABF0,
    0xFF10]

def digit? (c : Char) : Option Nat :=
  (zeros.find? fun z => z ≤ c.toNat && c.toNat < z + 10).map (c.toNat - ·)

def digits? : List Char → Option Nat
  | [] => none
  | cs => cs.foldlM (fun n c => (digit? c).map (n * 10 + ·)) 0

def integer? : List Char → Option Int
  | '-' :: cs => (digits? cs).map fun n => -Int.ofNat n
  | '+' :: cs => (digits? cs).map Int.ofNat
  | cs => (digits? cs).map Int.ofNat

end CompilerKit.Text
