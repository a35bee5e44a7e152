import CompilerKit.Word

/-! # Logical immediates

A logical instruction can hold a 64-bit value that repeats an element of 2, 4, 8, 16, 32 or 64 bits,
where the element is a rotated run of ones. There are 5334 such values. They stand in a table in their
signed order, so that a value is found by halving.
-/
namespace CompilerKit.Aarch64

/-- A repeated element of `2 ^ logSize` bits: `ones` ones, rotated right by `rotation`. -/
structure Repetition where
  logSize : Nat
  ones : Nat
  rotation : Nat
  deriving DecidableEq

namespace Repetition

/-- The number of bits of the element. -/
def size (p : Repetition) : Nat := Nat.pow 2 p.logSize

def element (p : Repetition) : Word :=
  let run := Numeric.lowBits 64 p.ones
  (Word.ushr run p.rotation ||| Word.shl run (p.size - p.rotation)) &&& Numeric.lowBits 64 p.size

/-- The element, repeated over the whole word. -/
def value (p : Repetition) : Word :=
  (List.range (6 - p.logSize)).foldl (fun v i => v ||| Word.shl v (p.size * Nat.pow 2 i)) p.element

/-- All repetitions, those of small elements first. -/
def all : List Repetition :=
  (List.range 6).flatMap fun k =>
    let size := Nat.pow 2 (k + 1)
    (List.range (size - 1)).flatMap fun n =>
      (List.range size).map fun r => ⟨k + 1, n + 1, r⟩

/-- Every repetition with its value, in the order of the values. -/
def table : Array (Word × Repetition) :=
  ((all.map fun p => (p.value, p)).mergeSort fun a b => a.1.sle b.1).toArray

/-- Looks for a value in the part of a table from `lo` up to `hi`, which is halved in each step. -/
def searchWithin (t : Array (Word × Repetition)) (v : Word) (lo hi : Nat) (h : hi ≤ t.size) :
    Option Repetition :=
  if _ : lo < hi then
    let mid := (lo + hi - 1) / 2
    have : mid < t.size := by omega
    if t[mid].1.slt v then searchWithin t v (mid + 1) hi h
    else if v.slt t[mid].1 then searchWithin t v lo mid (by omega)
    else some t[mid].2
  else none
termination_by hi - lo

def find? (v : Word) : Option Repetition := searchWithin table v 0 table.size (Nat.le_refl _)

/-- Whether only 64-bit instructions can hold it. -/
def isWide (p : Repetition) : Bool := p.logSize = 6

/-- The element's size and its number of ones: the size is marked by the highest clear bit. Amounts are
taken modulo 32, so that the ones above the mark of the largest element are shifted out. -/
def sizeAndOnes (p : Repetition) : BitVec 6 :=
  let above : BitVec 32 := (1 <<< ((5 - (p.logSize : Int)) % 32).toNat) - 1
  (above <<< (p.logSize + 1)).setWidth 6 ||| BitVec.ofNat 6 (p.ones - 1)

/-- The three fields of an instruction that hold the repetition. -/
def fields (p : Repetition) : BitVec 32 :=
  (BitVec.ofBool p.isWide).setWidth 32 <<< 22 ||| BitVec.ofNat 32 p.rotation <<< 16 |||
    p.sizeAndOnes.setWidth 32 <<< 10

end Repetition

/-- Which logical instructions can hold a value. -/
inductive Representable where
  | yes | wideOnly | no
  deriving DecidableEq

namespace LogicalImmediate

/-- The repetition for a 32-bit value: the value fills both halves of a word. -/
def findNarrow? (v : Word) : Option Repetition :=
  if Numeric.fitsUnsigned 32 v then
    match Repetition.find? (Word.shl v 32 ||| v) with
    | some p => if p.isWide then none else some p
    | none => none
  else none

def find? (wide : Bool) (v : Word) : Option Repetition :=
  if wide then Repetition.find? v else findNarrow? v

/-- A value that no 32-bit instruction can hold may still be one for 64-bit instructions. -/
def representable (wide : Bool) (v : Word) : Representable :=
  match find? wide v with
  | some p => if p.isWide then .wideOnly else .yes
  | none => if !wide && (Repetition.find? v).isSome then .wideOnly else .no

/-- Whether a 32-bit value can be held. -/
def representableNarrow (v : BitVec 32) : Representable := representable false (v.setWidth 64)

end LogicalImmediate

end CompilerKit.Aarch64
