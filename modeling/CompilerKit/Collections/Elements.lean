import CompilerKit.Fault
import CompilerKit.Text
import CompilerKit.Value

/-! # Elements of lists

Replacing, storing and joining the elements of a list, and the order that sorts them.
-/
namespace CompilerKit

/-- An element of a list; its mark tells it from other elements of the same value. -/
structure Element where
  value : Value
  mark : Nat
  deriving DecidableEq

/-- The element that comes in under a number of its own. Shared values are one element. -/
def Element.make (number : Nat) (v : Value) : Element := ⟨v, if v.isShared then 0 else number + 1⟩

namespace Elements

/-- Replaces the first occurrence of the element at a position; no element stands below zero. -/
def replace (i : Int) (new : Element) (l : List Element) : Result (Bool × List Element) :=
  if i < 0 then .ok (false, l)
  else match l[i.toNat]? with
    | some a => .ok (true, l.set (l.idxOf a) new)
    | none => .error .outside

/-- Stores an element behind as many fillers as are needed. -/
def putGrow (i : Int) (a filler : Element) (l : List Element) : Result (List Element) := do
  if i < 0 ∨ 2147483647 ≤ i then throw .outside
  let size ← storeSize storeLimit (i + 1)
  return (l ++ List.replicate (size - l.length) filler).set i.toNat a

/-- The texts one after the other, with a separator between them. -/
def join (separator opening closing : String) (l : List Element) : String :=
  opening ++ String.intercalate separator (l.map (·.value.render)) ++ closing

def asText : Value → Result String
  | .text s => .ok s
  | .null => .error .absent
  | _ => .error .familyMismatch

/-- The positions of the texts in sorted order. A single element is not looked at. -/
def sortedPositions (l : List Element) : Result (List Nat) := do
  let positions := List.range l.length
  if l.length ≤ 1 then return positions
  let texts ← l.mapM fun a => asText a.value
  return positions.mergeSort fun i j => Text.le (texts.getD i "") (texts.getD j "")

end Elements

end CompilerKit
