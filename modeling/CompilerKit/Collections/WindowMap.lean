import CompilerKit.Fault

/-! # Maps on a window of numbers

A map from 32 bit keys that stores a slot for every key of a window. The window grows to hold what is
put in, as long as there is room for its slots; its bounds are computed modulo 2 ^ 32. A key can be put
with no value, as if it had never been put.
-/
namespace CompilerKit

structure WindowMap (α : Type) where
  /-- The key of the first slot. -/
  low : BitVec 32 := 0
  slots? : Option (Array (Option α)) := none

namespace WindowMap

variable {α : Type} (room : Nat)

def between (low high : BitVec 32) : Result (WindowMap α) := do
  let size ← storeSize room (high - low + 1).toInt
  return { low, slots? := some (Array.replicate size none) }

/-- Moves the start of the window to two slots before a key. -/
def growBackward (low : BitVec 32) (slots : Array (Option α)) (key : BitVec 32) (v : Option α) :
    Result (WindowMap α) := do
  let start := key - 2
  let shift := low - start
  let size ← storeSize room (shift + BitVec.ofNat 32 slots.size).toInt
  -- the slots are copied to the end of the new ones, if they fit there
  if shift.toInt < 0 ∨ size < shift.toInt + slots.size then throw .outOfRange
  let slots := Array.replicate (size - slots.size) none ++ slots
  return { low := start, slots? := some (slots.setIfInBounds 2 v) }

/-- Moves the end of the window to two slots behind a key. -/
def growForward (low : BitVec 32) (slots : Array (Option α)) (key : BitVec 32) (v : Option α) :
    Result (WindowMap α) := do
  let size ← storeSize room (key - low + 3).toInt
  let slots := slots ++ Array.replicate (size - slots.size) none
  return { low, slots? := some (slots.setIfInBounds (key - low).toNat v) }

def put (m : WindowMap α) (key : BitVec 32) (v : Option α) : Result (WindowMap α) :=
  let index := (key - m.low).toInt
  match m.slots? with
  | none => do
    let size ← storeSize room 5
    return { low := key - m.low - 2, slots? := some ((Array.replicate size none).setIfInBounds 2 v) }
  | some slots =>
    if index < 0 then growBackward room m.low slots key v
    else if slots.size ≤ index then growForward room m.low slots key v
    else .ok { m with slots? := some (slots.setIfInBounds index.toNat v) }

def get? (m : WindowMap α) (key : BitVec 32) : Option α :=
  let index := (key - m.low).toInt
  if index < 0 then none
  else (m.slots?.bind (·[index.toNat]?)).join

/-- The length of the window; before the first key there is none. -/
def length (m : WindowMap α) : Result Nat :=
  match m.slots? with
  | none => .error .absent
  | some slots => .ok slots.size

end WindowMap

end CompilerKit
