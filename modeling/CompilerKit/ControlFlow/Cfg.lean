import CompilerKit.Fault
import CompilerKit.FloatingPoint.Double

/-! # Control flow graphs

Blocks are known by their position in reverse post order; block 0 is the start. A block's weight says
how often it runs, in units that all blocks share.
-/
namespace CompilerKit.ControlFlow

open FloatingPoint (Double)

abbrev BlockId := Nat

structure Block where
  successors : List BlockId
  predecessors : List BlockId
  weight : Double
  /-- The innermost loop that the block lies in. -/
  loop? : Option Nat
  /-- Whether the block jumps back to a loop header. -/
  isLoopEnd : Bool
  deriving DecidableEq, Inhabited

structure Loop where
  parent? : Option Nat
  header : BlockId
  deriving DecidableEq

structure Cfg where
  blocks : Array Block
  loops : List Loop
  deriving DecidableEq

namespace Cfg

/-- The graph in which block `i` has the `i`-th list of successors, and each block's predecessors are
in the order of the blocks that name it. -/
def ofSuccessors (blocks : List (List BlockId × Double × Option Nat × Bool)) (loops : List Loop) :
    Cfg :=
  let edges := blocks.zipIdx.flatMap fun ((successors, _), i) => successors.map fun s => (i, s)
  let make : (List BlockId × Double × Option Nat × Bool) × BlockId → Block
    | ((successors, weight, loop?, isLoopEnd), i) =>
      let predecessors := (edges.filter fun e => e.2 = i).map Prod.fst
      { successors, predecessors, weight, loop?, isLoopEnd }
  { blocks := (blocks.zipIdx.map make).toArray, loops }

variable (g : Cfg)

def block (b : BlockId) : Block := g.blocks.getD b default

def size : Nat := g.blocks.size

def ids : List BlockId := List.range g.size

def weight (b : BlockId) : Double := (g.block b).weight

/-- The nesting depth of a loop; an outermost loop has depth 1. Parents come before their children,
so the depth is at most the loop's position plus 1. -/
def depthOfLoop (l : Nat) : Nat := go (l + 1) (some l)
where
  /-- The length of the chain of parents. -/
  go : Nat → Option Nat → Nat
    | 0, _ | _, none => 0
    | fuel + 1, some l => 1 + go fuel ((g.loops[l]?).bind Loop.parent?)

def loopDepth (b : BlockId) : Nat := match (g.block b).loop? with
  | some l => g.depthOfLoop l
  | none => 0

def header? (b : BlockId) : Option BlockId := do return (← g.loops[← (g.block b).loop?]?).header

def isLoopHeader (b : BlockId) : Bool := g.header? b = some b

/-- How many loop ends jump to the header of a loop. -/
def backEdges (l : Loop) : Nat :=
  (g.block l.header).predecessors.countP fun p => (g.block p).isLoopEnd

def renderLoop (i : Nat) (l : Loop) : String :=
  let depth := g.depthOfLoop i
  match l.parent? with
  | some p => s!"loop {i} depth {depth} outer {p}"
  | none => s!"loop {i} depth {depth}"

end Cfg

end CompilerKit.ControlFlow
