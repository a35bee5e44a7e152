/-! # Collections in the order of insertion

A map and a set that keep their elements in the order in which they came. Putting a key again changes
its value and keeps its place.
-/
namespace CompilerKit

structure OrderedMap (κ ν : Type) where
  entries : List (κ × ν) := []
  deriving DecidableEq

namespace OrderedMap

variable {κ ν : Type} [DecidableEq κ] (m : OrderedMap κ ν)

def get? (k : κ) : Option ν := m.entries.lookup k

def contains (k : κ) : Bool := (m.get? k).isSome

def size : Nat := m.entries.length

def isEmpty : Bool := m.entries.isEmpty

def put (k : κ) (v : ν) : OrderedMap κ ν where
  entries :=
    if m.contains k then m.entries.map fun e => if e.1 = k then (k, v) else e
    else m.entries ++ [(k, v)]

def erase (k : κ) : OrderedMap κ ν := ⟨m.entries.filter fun e => e.1 ≠ k⟩

/-- The map in which later entries for a key win. -/
def ofList (entries : List (κ × ν)) : OrderedMap κ ν := entries.foldl (fun m e => m.put e.1 e.2) {}

end OrderedMap

structure OrderedSet (α : Type) where
  elements : List α := []
  deriving DecidableEq

namespace OrderedSet

variable {α : Type} [DecidableEq α] (s : OrderedSet α)

def contains (a : α) : Bool := s.elements.contains a

def insert (a : α) : OrderedSet α := if s.contains a then s else ⟨s.elements ++ [a]⟩

def erase (a : α) : OrderedSet α := ⟨s.elements.erase a⟩

end OrderedSet

end CompilerKit
