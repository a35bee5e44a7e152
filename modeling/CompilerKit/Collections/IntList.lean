import CompilerKit.Fault

/-! # Growing lists of numbers

A list keeps its elements at the start of a row of cells that is longer than needed. Cells behind the
last element keep what was stored there before. Sizes are 32 bit numbers.
-/
namespace CompilerKit

structure IntList where
  cells : List Int
  size : Int
  deriving DecidableEq

namespace IntList

/-- A row of cells cut or filled up with zeros to a length. -/
def resize (cells : List Int) (n : Nat) : List Int :=
  cells.take n ++ List.replicate (n - cells.length) 0

variable (room : Nat)

def withCapacity (n : Int) : Result IntList := do return ⟨List.replicate (← storeSize room n) 0, 0⟩

/-- The length to which a full row of cells grows: by half, as a 32 bit number. -/
def growth (n : Int) : Int := Int.tdiv (BitVec.ofInt 32 (n * 3)).toInt 2 + 1

variable (l : IntList)

def capacity : Int := l.cells.length

def elements : List Int := l.cells.take l.size.toNat

/-- The cells with room for one more element. -/
def spacious : Result (List Int) :=
  if l.size = l.capacity then do return resize l.cells (← storeSize room (growth l.size)) else .ok l.cells

/-- Appends an element. -/
def add (v : Int) : Result Unit × IntList :=
  match l.spacious room with
  | .error f => (.error f, l)
  | .ok cells =>
    if 0 ≤ l.size ∧ l.size < cells.length then (.ok (), ⟨cells.set l.size.toNat v, l.size + 1⟩)
    else (.error .outOfRange, ⟨cells, l.size + 1⟩)

def position (i : Int) : Result Nat :=
  if l.size ≤ i then .error (.badIndex i l.size)
  else if i < 0 then .error .outOfRange
  else .ok i.toNat

def get (i : Int) : Result Int := do return l.cells.getD (← l.position i) 0

def set (i v : Int) : Result IntList := do return { l with cells := l.cells.set (← l.position i) v }

/-- Cuts the list; a greater size only makes room. -/
def setSize (n : Int) : Result IntList :=
  if n < l.size then .ok { l with size := n }
  else if n = l.size then .ok l
  else do return { l with cells := resize l.cells (← storeSize room n) }

def clear : IntList := { l with size := 0 }

/-- The cells from a start on, in a new row of the given capacity. -/
def copy (start length capacity : Int) : Result IntList := do
  let n ← storeSize room capacity
  if start < 0 ∨ length < 0 ∨ l.capacity < start + length ∨ capacity < length then throw .outOfRange
  return ⟨resize ((l.cells.drop start.toNat).take length.toNat) n, length⟩

def render : Result String :=
  if l.size < 0 then .error .negativeSize
  else .ok ("[" ++ String.intercalate ", " (l.elements.map toString) ++ "]")

end IntList

/-- What can be asked of a list. -/
inductive ListRequest where
  | add (v : Int)
  | get (i : Int)
  | set (i v : Int)
  | setSize (n : Int)
  | clear
  | copy (start length capacity : Int)
  deriving DecidableEq

def ListRequest.ofWords? : String → List Int → Option ListRequest
  | "add", [v] => some (.add v)
  | "get", [i] => some (.get i)
  | "set", [i, v] => some (.set i v)
  | "setSize", [n] => some (.setSize n)
  | "clear", [] => some .clear
  | "copy", [start, length, capacity] => some (.copy start length capacity)
  | _, _ => none

/-- Answers a request; a refused one leaves the elements as they are. -/
def IntList.answer (room : Nat) (l : IntList) : ListRequest → Result (Option Int) × IntList
  | .add v =>
    let (r, l) := l.add room v
    (r.map fun _ => none, l)
  | .get i => ((l.get i).map some, l)
  | .set i v => changed (l.set i v)
  | .setSize n => changed (l.setSize room n)
  | .clear => (.ok none, l.clear)
  | .copy start length capacity => changed (l.copy room start length capacity)
where
  /-- Keeps the list if the change is refused. -/
  changed : Result IntList → Result (Option Int) × IntList
    | .ok l => (.ok none, l)
    | .error f => (.error f, l)

end CompilerKit
