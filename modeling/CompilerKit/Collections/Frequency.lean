import CompilerKit.Fault

/-! # Frequency encoding

Objects are numbered so that those that occur more often come first. The missing object, if it occurs
at all, is number 0. Objects that are the same by `==` have one number, and the first of them stands
for all.
-/
namespace CompilerKit

/-- How often an object came, counted with 32 bits, and its number, which is -1 before it has one. -/
structure Tally (α : Type) where
  object : α
  count : BitVec 32 := 0
  number : BitVec 32 := -1

structure FrequencyTable (α : Type) where
  tallies : List (Tally α) := []
  hasMissing : Bool := false

namespace Tally

variable {α : Type}

def bump [BEq α] (a : α) : List (Tally α) → List (Tally α)
  | [] => [{ object := a, count := 1 }]
  | e :: rest => if e.object == a then { e with count := e.count + 1 } :: rest else e :: bump a rest

/-- Greater counts before the others. -/
def sorted (l : List (Tally α)) : List (Tally α) := l.mergeSort fun d e => e.count.sle d.count

def numbered (first : Nat) (l : List (Tally α)) : List (Tally α) :=
  l.mapIdx fun i e => { e with number := BitVec.ofNat 32 (i + first) }

end Tally

namespace FrequencyTable

variable {α : Type}

def add [BEq α] (t : FrequencyTable α) : Option α → FrequencyTable α
  | none => { t with hasMissing := true }
  | some a => { t with tallies := Tally.bump a t.tallies }

def ofList [BEq α] (objects : List (Option α)) : FrequencyTable α := objects.foldl add {}

variable (t : FrequencyTable α)

/-- The least number that is not for the missing object. -/
def first : Nat := if t.hasMissing then 1 else 0

/-- The number of different objects. -/
def size : Nat := t.tallies.length + t.first

def store (array : Array (Option α)) (number : BitVec 32) (a : Option α) : Result (Array (Option α)) :=
  if number.toNat < array.size then .ok (array.setIfInBounds number.toNat a) else .error .outOfRange

def storeMissing (array : Array (Option α)) : Result (Array (Option α)) :=
  if t.hasMissing then store array 0 none else .ok array

/-- Numbers the objects and fills an array with them. The tallies are listed in any order, which
decides between objects that came equally often. -/
def encodeInto (listed : List (Tally α)) (array : Array (Option α)) :
    Result (Array (Option α) × FrequencyTable α) := do
  let array ← t.storeMissing array
  let ranked := Tally.numbered t.first (Tally.sorted listed)
  let array ← ranked.foldlM (fun array e => store array e.number (some e.object)) array
  return (array, { t with tallies := ranked })

/-- The objects in the order of their numbers, and the table with the numbers. -/
def encode : Result (Array (Option α) × FrequencyTable α) :=
  t.encodeInto t.tallies (Array.replicate t.size none)

def index [BEq α] : Option α → Result Int
  | none => .ok 0
  | some a =>
    match t.tallies.find? (·.object == a) with
    | none => .error .absent
    | some e => .ok e.number.toInt

end FrequencyTable

end CompilerKit
