import CompilerKit.Collections.Heap
import CompilerKit.ControlFlow.Cfg

/-! # Traces

A trace is a path of blocks that are likely to run one after the other; the traces of a graph share no
block. A forward trace starts at a block whose predecessors are all done and follows the heaviest
successors. A two-way trace starts at the heaviest block left and grows in both directions, backwards
never over a back edge.
-/
namespace CompilerKit.ControlFlow

abbrev Trace := List BlockId

/-- The traces of a graph. -/
structure Traces where
  traces : List Trace
  /-- For each block, which trace it lies in; blocks in none count for the first. -/
  traceNumbers : Array Nat
  /-- For each block, its position in its trace, or -1. -/
  positions : Array Int
  deriving DecidableEq

namespace Traces

variable (t : Traces)

def traceOf (b : BlockId) : Nat := t.traceNumbers.getD b 0

def positionOf (b : BlockId) : Int := t.positions.getD b (-1)

def entered (g : Cfg) (i : Nat) (bs : List BlockId) : Bool :=
  bs.any fun b => (g.block b).predecessors.any fun p => t.traceOf p ≠ i

/-- Whether a trace can be entered at all, and whether at another place than its start. -/
def incoming (g : Cfg) (i : Nat) (trace : Trace) : Bool × Bool :=
  (t.entered g i trace, t.entered g i (trace.drop 1))

end Traces

namespace Cfg

variable (g : Cfg)

def heaviest? (bs : List BlockId) : Option BlockId :=
  bs.foldl (fun best c => if best.all fun d => (g.weight d).lt (g.weight c) then some c else best) none

/-- Whether an edge leads from a loop end to the header of its own loop. A loop end has to lie in a
loop. -/
def isBackEdge (source target : BlockId) : Result Bool :=
  if (g.block source).isLoopEnd && g.isLoopHeader target then
    match (g.block source).loop? with
    | none => .error .absent
    | some l => .ok ((g.block target).loop? = some l)
  else .ok false

end Cfg

/-- The traces that are complete, and the blocks that are done: those in a trace or in the one that is
being built. -/
structure TraceState extends Traces where
  processed : List BlockId
  deriving DecidableEq

namespace TraceState

variable (g : Cfg) (s : TraceState)

def start : TraceState where
  traces := []
  traceNumbers := Array.replicate g.size 0
  positions := Array.replicate g.size (-1)
  processed := []

def isProcessed (b : BlockId) : Bool := s.processed.contains b

/-- The heaviest successor that is not done. -/
def successor? (b : BlockId) : Option BlockId :=
  g.heaviest? ((g.block b).successors.filter fun c => !s.isProcessed c)

/-- The heaviest predecessor that is not done, back edges apart. -/
def predecessor? (b : BlockId) : Result (Option BlockId) := do
  let candidates ← (g.block b).predecessors.filterM fun p => do
    if s.isProcessed p then return false else return !(← g.isBackEdge p b)
  return g.heaviest? candidates

def enter (b : BlockId) : TraceState :=
  { s with
    processed := b :: s.processed
    traceNumbers := s.traceNumbers.setIfInBounds b s.traces.length }

def number (b : BlockId) (i : Nat) : TraceState :=
  { s with positions := s.positions.setIfInBounds b i }

def numberAll (bs : List BlockId) : TraceState :=
  bs.zipIdx.foldl (fun s e => s.number e.1 e.2) s

def complete (trace : Trace) : TraceState := { s with traces := s.traces ++ [trace] }

/-! Two-way traces. -/

/-- The blocks in front of a block, the nearest last. -/
def backwards : Nat → TraceState → BlockId → Result (Trace × TraceState)
  | 0, s, _ => .ok ([], s)
  | fuel + 1, s, b => do
    match ← s.predecessor? g b with
    | none => return ([], s)
    | some p =>
      let (before, s) ← backwards fuel (s.enter p) p
      return (before ++ [p], s)

/-- The blocks behind a block, with their positions from `i` on. -/
def forwards : Nat → TraceState → Nat → BlockId → Trace × TraceState
  | 0, s, _, _ => ([], s)
  | fuel + 1, s, i, b =>
    match s.successor? g b with
    | none => ([], s)
    | some c =>
      let (after, s) := forwards fuel ((s.enter c).number c i) (i + 1) c
      (c :: after, s)

/-- Grows a trace around every block of a list that is not done. The blocks in front of it have their
positions once they are all known. -/
def runBothWays : List BlockId → TraceState → Result TraceState
  | [], s => .ok s
  | b :: rest, s =>
    if s.isProcessed b then runBothWays rest s
    else do
      let (before, s) ← backwards g (g.size + 1) (s.enter b) b
      let head := before ++ [b]
      let (after, s) := forwards g (g.size + 1) (s.numberAll head) head.length b
      runBothWays rest (s.complete (head ++ after))

end TraceState

/-- Forward traces in the making. -/
structure ForwardState extends TraceState where
  /-- The blocks at which a trace can start, the heaviest first. -/
  worklist : Heap BlockId
  /-- How many predecessors of each block are not done. -/
  blocked : Array Int
  deriving DecidableEq

namespace ForwardState

variable (g : Cfg) (s : ForwardState)

/-- Blocks wait for all their predecessors, those over back edges too. -/
def start : ForwardState where
  toTraceState := .start g
  worklist := #[0]
  blocked := g.blocks.map fun b => b.predecessors.length

/-- Which block of the worklist is taken first. -/
def priority (b c : BlockId) : Ordering := (g.weight c).order (g.weight b)

/-- Counts one predecessor of a block as done; a block that waits for nothing else becomes a start. -/
def release (c : BlockId) : ForwardState :=
  if s.isProcessed c then s
  else
    let left := s.blocked.getD c 0 - 1
    { s with
      blocked := s.blocked.setIfInBounds c left
      worklist := if left = 0 then Heap.insert (priority g) s.worklist c else s.worklist }

def unblock (b : BlockId) : ForwardState := (g.block b).successors.foldl (release g) s

/-- Puts a block into the trace that is being built, at a position. -/
def visit (i : Nat) (b : BlockId) : ForwardState :=
  let s := unblock g { s with toTraceState := s.enter b } b
  { s with toTraceState := s.number b i }

def follow : Nat → ForwardState → Nat → BlockId → Trace × ForwardState
  | 0, s, _, _ => ([], s)
  | fuel + 1, s, i, b =>
    let s := s.visit g i b
    match s.successor? g b with
    | none => ([b], s)
    | some c =>
      let (rest, s) := follow fuel s (i + 1) c
      (b :: rest, s)

def run : Nat → ForwardState → ForwardState
  | 0, s => s
  | fuel + 1, s =>
    match Heap.takeFirst? (priority g) s.worklist with
    | none => s
    | some (b, worklist) =>
      let s := { s with worklist }
      if s.isProcessed b then run fuel s
      else
        let (trace, s) := follow g (g.size + 1) s 0 b
        run fuel { s with toTraceState := s.complete trace }

end ForwardState

namespace Cfg

variable (g : Cfg)

def forwardTraces : Traces := (ForwardState.run g (g.size + 1) (.start g)).toTraces

def byWeight : List BlockId := g.ids.mergeSort fun a b => ((g.weight b).order (g.weight a)).isLE

def twoWayTraces : Result Traces := do
  return (← TraceState.runBothWays g (g.byWeight ++ [0]) (.start g)).toTraces

end Cfg

end CompilerKit.ControlFlow
