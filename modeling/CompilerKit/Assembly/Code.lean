import CompilerKit.Text
import CompilerKit.Word

/-! # Machine code as bytes

Code is a list of bytes, numbers in it are little endian. `overwrite` replaces bytes in place and
never changes the length. Code is produced in chunks: a byte, a number or a text that is written in
one go.
-/
namespace CompilerKit

abbrev Byte := BitVec 8

abbrev Code := List Byte

namespace Code

def littleEndian {w : Nat} : Nat → BitVec w → Code
  | 0, _ => []
  | n + 1, x => x.setWidth 8 :: littleEndian n (x >>> 8)

/-- The number that a list of bytes holds, the lowest byte first. -/
def toNat : Code → Nat
  | [] => 0
  | b :: bs => b.toNat + 256 * toNat bs

def overwrite (code : Code) (position : Nat) : Code → Code
  | [] => code
  | b :: bs => overwrite (code.set position b) (position + 1) bs

/-- Two hexadecimal digits for every byte. -/
def hex (code : Code) : String := String.join (code.map fun b => Text.hex 2 b.toNat)

/-- The bytes that pairs of hexadecimal digits stand for. -/
def ofHex? (s : String) : Option Code := go s.toList
where
  /-- Reads two digits at a time. -/
  go : List Char → Option Code
    | [] => some []
    | a :: b :: rest => do
      return BitVec.ofNat 8 (16 * (← Text.hexDigit? a) + (← Text.hexDigit? b)) :: (← go rest)
    | _ => none

theorem length_littleEndian {w : Nat} (n : Nat) (x : BitVec w) :
    (littleEndian n x).length = n := by
  induction n generalizing x with
  | zero => rfl
  | succ n ih => simp [littleEndian, ih]

theorem length_overwrite (code : Code) (position : Nat) (bytes : Code) :
    (code.overwrite position bytes).length = code.length := by
  induction bytes generalizing code position with
  | nil => rfl
  | cons b bs ih => simp [overwrite, ih]

end Code

/-- Bytes that are written in one go. -/
structure Chunk where
  bytes : Code
  deriving DecidableEq

abbrev Chunks := List Chunk

namespace Chunk

def byte (b : Byte) : Chunk := ⟨[b]⟩

instance : Coe Byte Chunk := ⟨byte⟩

instance (n : Nat) : OfNat Chunk n := ⟨byte (BitVec.ofNat 8 n)⟩

def number {w : Nat} (n : Nat) (x : BitVec w) : Chunk := ⟨Code.littleEndian n x⟩

end Chunk

namespace Chunks

def bytes (cs : Chunks) : Code := cs.flatMap Chunk.bytes

theorem bytes_append (cs ds : Chunks) : bytes (cs ++ ds) = bytes cs ++ bytes ds :=
  List.flatMap_append

end Chunks

/-- Whether a number is a sign extended byte. -/
def fitsByte (x : Int) : Bool := -128 ≤ x && x ≤ 127

/-- Whether a number is a sign extended half word. -/
def fitsInt (x : Int) : Bool := -2147483648 ≤ x && x ≤ 2147483647

end CompilerKit
