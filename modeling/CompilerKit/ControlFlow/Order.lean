import CompilerKit.Collections.Heap
import CompilerKit.ControlFlow.Cfg

/-! # Block orders

Two orders of the blocks: one for linear scan allocation and one for emitting code. Both follow the
most likely path as far as it goes, then continue with the most important block that was left aside:
deeper loops first, then heavier blocks. The code order puts a loop header with a single back edge
behind its loop end, so that the backward jump is a conditional one.
-/
namespace CompilerKit.ControlFlow

structure OrderState where
  order : List BlockId := []
  /-- The blocks left aside. -/
  worklist : Heap BlockId
  /-- The blocks that are placed or on the worklist. -/
  visited : List BlockId
  /-- The blocks that start at an aligned position. -/
  aligned : List BlockId := []
  /-- The numbers for linear scan of the blocks that have got one. -/
  numbers : Array (Option Nat)
  /-- What stopped the placing. -/
  fault? : Option Fault := none
  deriving DecidableEq

namespace Cfg

variable (g : Cfg)

/-- Which of two blocks is to be continued with. Two blocks are never level: of equally important ones each
goes after the other. -/
def importance (a b : BlockId) : Ordering :=
  if g.loopDepth a ≠ g.loopDepth b then compare (g.loopDepth b) (g.loopDepth a)
  else if (g.weight b).lt (g.weight a) then .lt else .gt

end Cfg

namespace OrderState

variable (g : Cfg) (s : OrderState)

def start : OrderState :=
  { worklist := #[0], visited := [0], numbers := Array.replicate g.size none }

def number? (b : BlockId) : Option Nat := s.numbers.getD b none

/-- The better of two successors of a block: a visited one and one in an outer loop do not count. -/
def likelier? (b : BlockId) (best : Option BlockId) (c : BlockId) : Option BlockId :=
  if !s.visited.contains c && g.loopDepth b ≤ g.loopDepth c &&
      best.all fun d => (g.weight d).le (g.weight c) then some c
  else best

/-- The heaviest successor that is not yet visited and in no outer loop. -/
def likeliest? (b : BlockId) : Option BlockId :=
  (g.block b).successors.foldl (s.likelier? g b) none

def visit (b : BlockId) : OrderState := { s with visited := b :: s.visited }

/-- Leaves a block aside if it is not visited. -/
def enqueue (c : BlockId) : OrderState :=
  if s.visited.contains c then s
  else { s.visit c with worklist := Heap.insert g.importance s.worklist c }

def enqueueSuccessors (b : BlockId) : OrderState := (g.block b).successors.foldl (enqueue g) s

/-- Marks the likeliest successor of a block and leaves the others aside. -/
def leave (b : BlockId) : OrderState × Option BlockId :=
  let next? := s.likeliest? g b
  let s := match next? with
    | some c => s.visit c
    | none => s
  (s.enqueueSuccessors g b, next?)

/-- Whether a merge has to wait: its unscheduled predecessors weigh more than a tenth of the block
that leads to it. -/
def postpones (b c : BlockId) : Bool :=
  let predecessors := (g.block c).predecessors
  !g.isLoopHeader c && 1 < predecessors.length &&
    let unscheduled := predecessors.filter fun p => s.number? p = none
    ((g.weight b).div 10).lt ((unscheduled.map g.weight).foldl .add .zero)

def placeNumbered (b : BlockId) : OrderState :=
  { s with
    order := s.order ++ [b]
    numbers := s.numbers.setIfInBounds b (some s.order.length) }

def placeScanPath : Nat → OrderState → BlockId → OrderState
  | 0, s, _ => { s with fault? := some .endless }
  | fuel + 1, s, b =>
    match leave g (s.placeNumbered b) b with
    | (s, none) => s
    | (s, some c) =>
      if s.postpones g b c then { s with visited := s.visited.filter (· ≠ c) }
      else placeScanPath fuel s c

/-- Runs through the worklist, most important blocks first, up to a fault. -/
def drain (place : OrderState → BlockId → OrderState) : Nat → OrderState → OrderState
  | 0, s => { s with fault? := some .neverEnds }
  | fuel + 1, s =>
    match s.fault?, Heap.takeFirst? g.importance s.worklist with
    | none, some (b, worklist) => drain place fuel (place { s with worklist } b)
    | _, _ => s

/-- Whether a header is placed behind its loop end. -/
def isRotated (b : BlockId) : Bool :=
  g.isLoopHeader b && !(g.block b).isLoopEnd &&
    ((g.block b).loop?.bind (g.loops[·]?)).any fun l => g.backEdges l = 1

/-- Places a header behind its loop end; the successors in the loop are then what the backward jump
leads to. -/
def placeRotated (loopEnd header : BlockId) : OrderState :=
  let targets := (g.block header).successors.filter fun c => g.loopDepth c = g.loopDepth loopEnd
  { s with order := s.order ++ [header], aligned := s.aligned ++ targets }

/-- Places a block in the code order, and the header behind it if it is a rotated loop's end. A loop
end has to lie in a loop. -/
def placeBlock (b : BlockId) : OrderState :=
  let s := if isRotated g b then s
    else { s with
      order := s.order ++ [b]
      aligned := if g.isLoopHeader b then s.aligned ++ [b] else s.aligned }
  if (g.block b).isLoopEnd then
    match g.header? b with
    | none => { s with fault? := some .absent }
    | some h => if isRotated g h then s.placeRotated g b h else s
  else s

def placeCodePath : Nat → OrderState → BlockId → OrderState
  | 0, s, _ => { s with fault? := some .neverEnds }
  | fuel + 1, s, b =>
    let s := s.placeBlock g b
    if s.fault?.isSome then s
    else match leave g s b with
      | (s, none) => s
      | (s, some c) => placeCodePath fuel s c

/-- The order, unless a fault stopped the placing. -/
def result : Result (List BlockId) :=
  match s.fault? with
  | some f => .error f
  | none => .ok s.order

end OrderState

namespace Cfg

variable (g : Cfg)

/-- The blocks placed for linear scan allocation. -/
def scanOrder : OrderState :=
  OrderState.drain g (OrderState.placeScanPath g (g.size + 1)) (g.size + 1) (.start g)

def linearScanOrder : Result (List BlockId) := g.scanOrder.result

def codeOrder : OrderState :=
  OrderState.drain g (OrderState.placeCodePath g (g.size + 1)) (g.size + 1) (.start g)

def alignedBlocks (s : OrderState) : List BlockId := g.ids.filter s.aligned.contains

end Cfg

end CompilerKit.ControlFlow
