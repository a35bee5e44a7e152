import CompilerKit.Fault

/-! # Tables of bits

Slots of the same number of bits, kept in one row of bits. The row has room in words of 64 bits and
grows by itself to at least twice its length.
-/
namespace CompilerKit

/-- A set of positions and the number of words that there is room for. -/
structure BitRow where
  members : List Nat := []
  words : Nat
  deriving DecidableEq

namespace BitRow

def wordsFor (bits : Nat) : Nat := (bits + 63) / 64

def withRoom (bits : Nat) : BitRow := { words := wordsFor bits }

def size (r : BitRow) : Nat := 64 * r.words

def contains (r : BitRow) (i : Nat) : Bool := r.members.contains i

/-- Makes room for a number of words, if there is too little. -/
def reserve (r : BitRow) (words : Nat) : BitRow :=
  { r with words := if r.words < words then max (2 * r.words) words else r.words }

def insert (r : BitRow) (i : Nat) : BitRow :=
  { r.reserve (i / 64 + 1) with members := if r.contains i then r.members else i :: r.members }

def erase (r : BitRow) (i : Nat) : BitRow := { r with members := r.members.filter (· ≠ i) }

/-- The words up to the last position that is taken. -/
def wordsInUse (r : BitRow) : Nat := r.members.foldl (fun n i => max n (i / 64 + 1)) 0

/-- The same positions in a row with room for a number of bits, or for as many as it takes. -/
def moveTo (r : BitRow) (bits : Nat) : BitRow :=
  { reserve (withRoom bits) r.wordsInUse with members := r.members }

end BitRow

structure BitTable where
  row : BitRow
  /-- The number of bits in a slot. -/
  width : Int
  deriving DecidableEq

namespace BitTable

def bitsOf (slots width : Int) : Result Nat :=
  let bits := (BitVec.ofInt 32 (slots * width)).toInt
  if bits < 0 then .error .negativeSize else .ok bits.toNat

def ofSize (slots width : Int) : Result BitTable := do
  return ⟨.withRoom (← bitsOf slots width), width⟩

variable (t : BitTable)

/-- How many bits there is room for, as a 32 bit number. -/
def sizeInBits : Int := (BitVec.ofNat 32 t.row.size).toInt

def sizeInSlots : Result Int :=
  if t.width = 0 then .error .divisionByZero else .ok (Int.tdiv t.sizeInBits t.width)

/-- The place of a bit in the row, as a 32 bit number. -/
def index (slot bit : Int) : Int := (BitVec.ofInt 32 (slot * t.width + bit)).toInt

def place (slot bit : Int) : Result Nat :=
  let i := t.index slot bit
  if i < 0 then .error .outside else .ok i.toNat

def isValid (slot bit : Int) : Bool := t.index slot bit < t.sizeInBits

def get (slot bit : Int) : Result Bool := do return t.row.contains (← t.place slot bit)

def set (slot bit : Int) : Result BitTable := do
  return { t with row := t.row.insert (← t.place slot bit) }

def clear (slot bit : Int) : Result BitTable := do
  return { t with row := t.row.erase (← t.place slot bit) }

def clearAll : BitTable := { t with row := { t.row with members := [] } }

/-- The first doubling of a size that is greater than `slot`, within some doublings. -/
def doubled (slot : Int) : Nat → BitVec 32 → Option (BitVec 32)
  | 0, _ => none
  | n + 1, size => if slot < size.toInt then some size else doubled slot n (size + size)

/-- Makes room for a slot. Doubling a 32 bit size leads to zero in the end. -/
def grow (slot : Int) : Result BitTable := do
  let size ← t.sizeInSlots
  if slot < size then return t
  match doubled slot 33 (BitVec.ofInt 32 size) with
  | none => throw .neverEnds
  | some size => return { t with row := t.row.moveTo (← bitsOf size.toInt t.width) }

/-- Stores a bit, with room for its slot. The room stays if there is no such bit. -/
def putGrow (slot bit : Int) (value : Bool) : Result Unit × BitTable :=
  match t.grow slot with
  | .error e => (.error e, t)
  | .ok t => match if value then t.set slot bit else t.clear slot bit with
    | .error e => (.error e, t)
    | .ok t => (.ok (), t)

end BitTable

end CompilerKit
