import CompilerKit.Assembly.Code

/-! # Padding

Instructions without effect, up to eleven bytes each. `fill n` is `n` bytes of them.
-/
namespace CompilerKit.Amd64.Padding

/-- The first four lengths with an operand in memory. -/
def addressed : Nat → Chunks
  | 4 => [0x0F, 0x1F, 0x40, 0]
  | 5 => [0x0F, 0x1F, 0x44, 0, 0]
  | 7 => [0x0F, 0x1F, 0x80, .number 4 0#32]
  | 8 => [0x0F, 0x1F, 0x84, 0, .number 4 0#32]
  | _ => []

/-- One instruction of `n` bytes, for `n` up to eleven. The one of three bytes has no operand, so
that it can be replaced in one step. -/
def one : Nat → Chunks
  | 1 => [0x90]
  | 2 => [0x66, 0x90]
  | 3 => [0x66, 0x66, 0x90]
  | 4 => addressed 4
  | 5 => addressed 5
  | 6 => 0x66 :: addressed 5
  | 7 => addressed 7
  | 8 => addressed 8
  | 9 => 0x66 :: addressed 8
  | 10 => 0x66 :: 0x66 :: addressed 8
  | 11 => 0x66 :: 0x66 :: 0x66 :: addressed 8
  | _ => []

def firstOfTwo (n : Nat) : Nat :=
  if n < 12 then n else (n + 1) / 2

/-- `n` bytes of padding: instructions of eleven bytes, and two of about the same length at last. -/
def fill (n : Nat) : Chunks :=
  if n < 22 then
    let first := firstOfTwo n
    one first ++ one (n - first)
  else one 11 ++ fill (n - 11)
termination_by n

def toMultiple (position : Nat) (modulus : Int) : Chunks :=
  let rest := Int.tmod position modulus
  if rest = 0 then [] else fill (modulus - rest).toNat

end CompilerKit.Amd64.Padding
