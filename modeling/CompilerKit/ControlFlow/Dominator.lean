import CompilerKit.ControlFlow.Cfg

/-! # Dominators

The dominator of a block is the nearest block that all ways into it have in common; ways that come
from loop ends do not count. Numbering the tree of dominators in preorder makes dominance a test of
number ranges.
-/
namespace CompilerKit.ControlFlow

/-- The dominators found so far, and the depths of the blocks in the tree. -/
structure Dominators where
  parents : Array (Option BlockId)
  depths : Array Nat
  deriving DecidableEq

namespace Dominators

variable (t : Dominators)

def parent? (b : BlockId) : Option BlockId := (t.parents.getD b none)

def depth (b : BlockId) : Nat := t.depths.getD b 0

def parent (b : BlockId) : Result BlockId :=
  match t.parent? b with
  | some p => .ok p
  | none => .error .absent

def above : Nat → BlockId → Result BlockId
  | 0, b => .ok b
  | n + 1, b => do above n (← t.parent b)

/-- Climbs from two blocks of one depth until they meet; there may be no block that both reach. -/
def meet : Nat → BlockId → BlockId → Result (Option BlockId)
  | 0, _, _ => .error .endless
  | fuel + 1, a, b =>
    if a = b then .ok (some a)
    else match t.parent? a, t.parent? b with
      | some p, some q => meet fuel p q
      | none, none => .ok none
      | _, _ => .error .absent

/-- The deepest block above both. -/
def common (a b : BlockId) : Result (Option BlockId) := do
  let n := t.depth a
  let m := t.depth b
  let a ← t.above (n - m) a
  let b ← t.above (m - n) b
  t.meet (t.parents.size + 1) a b

def insert (b dominator : BlockId) : Dominators where
  parents := t.parents.setIfInBounds b (some dominator)
  depths := t.depths.setIfInBounds b (t.depth dominator + 1)

/-- The dominator of a block whose predecessors, loop ends apart, are done. -/
def find (g : Cfg) (b : BlockId) : Result (Option BlockId) :=
  let entries := (g.block b).predecessors.filter fun p => !(g.block p).isLoopEnd
  entries.foldlM (fun found p => match found with
    | none => .ok (some p)
    | some d => t.common d p) none

/-- The dominators of all blocks, in reverse post order. -/
def ofCfg (g : Cfg) : Result Dominators :=
  let start : Dominators := ⟨Array.replicate g.size none, Array.replicate g.size 0⟩
  (g.ids.drop 1).foldlM (fun t b => do
    match ← t.find g b with
    | some d => return t.insert b d
    | none => throw .absent) start

def children (b : BlockId) : List BlockId :=
  (List.range t.parents.size).filter fun c => t.parent? c = some b

end Dominators

/-- A preorder number and the greatest number below it. -/
structure Range where
  number : Nat := 0
  last : Nat := 0
  deriving DecidableEq, Inhabited

namespace Dominators

def number (t : Dominators) : Nat → BlockId → Nat → List (BlockId × Range) × Nat
  | 0, b, n => ([(b, ⟨n, n⟩)], n)
  | fuel + 1, b, n =>
    let (below, last) := (t.children b).foldl (fun (found, last) c =>
      let (below, last) := t.number fuel c (last + 1)
      (found ++ below, last)) ([], n)
    ((b, ⟨n, last⟩) :: below, last)

end Dominators

/-- The numbered tree of dominators. -/
structure DominatorTree extends Dominators where
  ranges : Array Range
  deriving DecidableEq

namespace DominatorTree

def ofCfg (g : Cfg) : Result DominatorTree := do
  let t ← Dominators.ofCfg g
  let numbered := (t.number g.size 0 0).1
  let ranges := numbered.foldl (fun a (b, r) => a.setIfInBounds b r) (Array.replicate g.size {})
  return { t with ranges }

variable (t : DominatorTree)

def range (b : BlockId) : Range := t.ranges.getD b {}

def isDominatedBy (a b : BlockId) : Bool :=
  let n := (t.range a).number
  let r := t.range b
  r.number ≤ n && n ≤ r.last

def dominates (a b : BlockId) : Bool := t.isDominatedBy b a

def strictlyDominates (a b : BlockId) : Bool := a ≠ b && t.dominates a b

def climbWhile (test : Range → Bool) : Nat → BlockId → Result BlockId
  | 0, _ => .error .endless
  | fuel + 1, b => if test (t.range b) then do climbWhile test fuel (← t.parent b) else .ok b

/-- The deepest block that dominates both: from the higher one up, as far as the lower one's number
asks for. -/
def commonDominator (a b : BlockId) : Result BlockId := do
  let (low, high) := if t.depth b < t.depth a then (a, b) else (b, a)
  let n := (t.range low).number
  let fuel := t.parents.size + 1
  let b ← t.climbWhile (fun r => n < r.number) fuel high
  t.climbWhile (fun r => r.last < n) fuel b

end DominatorTree

end CompilerKit.ControlFlow
