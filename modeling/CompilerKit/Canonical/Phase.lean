import CompilerKit.Canonical.Arithmetic
import CompilerKit.Canonical.Divide
import CompilerKit.Canonical.Resize
import CompilerKit.Expression.Flow
import CompilerKit.Graph.WorkList

/-! # Canonicalization

Every node is visited once and again whenever something about it has changed: duplicates are shared,
unused nodes are removed, the rules are applied, and stamps are recomputed from those of the inputs.
The number of visits is bounded by ten times the number of nodes at the start.
-/

namespace CompilerKit

def Graph.inferredStamp (g : Graph Label) (i : NodeId) : Result Stamp :=
  match g.shape? i with
  | some (.unary (.arith op) x) => op.onStamp (g.stamp x)
  | some (.unary (.resize op inputBits resultBits) x) => op.onStamp inputBits resultBits (g.stamp x)
  | some (.unary (.convert op) x) => op.onStamp (g.stamp x)
  | some (.unary (.refine declared) x) => declared.improveWith (g.stamp x)
  | some (.binary (.arith op) x y) => op.onStamp (g.stamp x) (g.stamp y)
  | some (.binary (.shift op) x y) => op.onStamp (g.stamp x) (g.stamp y)
  | some (.binary (.divide .quotient) x y) => Term.divisionStamp .quotient (g.stamp x) (g.stamp y)
  | some (.binary (.divide .remainder) x y) => Term.divisionStamp .remainder (g.stamp x) (g.stamp y)
  | some (.select c t f) => Canonical.selectStamp g c t f
  | _ => pure (g.stamp i)

/-- The source of the stamp that the inputs of a node give it, if it is not a new one. A refinement
made its declared stamp when it was added. -/
def Graph.inferredSource (g : Graph Label) (i : NodeId) (s : Stamp) : Option Source :=
  match g.shape? i with
  | some (.unary (.refine declared) x) =>
    if s = declared then some ⟨i, 0⟩ else if s = g.stamp x then some (g.source x) else none
  | some (.unary op x) => g.takenSource (.unary op) [some x]
  | some (.binary op x y) => g.takenSource (.binary op) [some x, some y]
  | some (.select c t f) =>
    if (g.met t f).toOption = some s then g.takenSource .select [some c, some t, some f] else none
  | _ => none

/-- Gives a node the stamp that its inputs give it, and tells whether it is another one. -/
def Graph.inferStamp (g : Graph Label) (i : NodeId) : Result (Graph Label × Bool) := do
  let s ← g.inferredStamp i
  if s = g.stamp i then return (g, false)
  else return (g.setStamp i s (g.inferredSource i s), true)

/-- Orders the inputs of a commutative node by their identifiers, and tells whether they were exchanged;
constants stay behind. -/
def Graph.commute (g : Graph Label) (i : NodeId) : Graph Label × Bool :=
  match g.shape? i with
  | some (.binary op x y) =>
    if op.isCommutative && !g.isConstant y && y < x then (g.swapInputs i, true) else (g, false)
  | _ => (g, false)

namespace FlowGraph

/-- A refinement that adds nothing to what is known of its input. -/
def refine : UnaryRule := fun g s x =>
  if s = g.stamp x then Reduction.keep x else Reduction.pass

def reduce (f : FlowGraph) (i : NodeId) : Reduction :=
  let g := f.graph
  let s := g.stamp i
  match g.shape? i with
  | some (.unary (.arith op) x) => Canonical.unaryArith op g s x
  | some (.unary (.resize op inputBits resultBits) x) =>
    Canonical.resize op inputBits resultBits g s x
  | some (.unary (.convert op) x) => Canonical.convert op g s x
  | some (.unary (.reinterpret _) x) => Canonical.reinterpret g s x
  | some (.unary (.refine _) x) => refine g s x
  | some (.unary .isNull x) => Canonical.isNull g s x
  | some (.unary .negation x) => Canonical.negation g s x
  | some (.binary (.arith op) x y) => Canonical.binaryArith op g s x y
  | some (.binary (.shift op) x y) => Canonical.shift op g s x y
  | some (.binary (.compare c) x y) => Canonical.compare c i g s x y
  | some (.binary .test x y) => Canonical.test g s x y
  | some (.binary (.either a b p) x y) => Canonical.either a b p g s x y
  | some (.binary (.divide d) x y) => Canonical.divide (f.next? i) d g s x y
  | some (.select c t e) => Canonical.select g s c t e
  | _ => Reduction.pass

/-- Applies the rules of a node. A refinement takes up what has become known of its input first. -/
def canonical (f : FlowGraph) (i : NodeId) : Result (FlowGraph × Option Term) := do
  match f.graph.op? i with
  | some (.unary (.refine _)) =>
    let (g, _) ← f.graph.inferStamp i
    let f := { f with graph := g }
    return (f, ← f.reduce i)
  | _ => return (f, ← f.reduce i)

def isFloating (f : FlowGraph) (i : NodeId) : Bool := (f.graph.op? i).any (·.isFloating)

/-- Puts a node in the place of another one and deletes that. -/
def replaceBy (f : FlowGraph) (i other : NodeId) : FlowGraph :=
  if f.isFloating i then { f with graph := f.graph.replaceAtUsagesAndDelete i (some other) }
  else
    let g := (f.next? i).elim f.graph f.graph.touch
    if f.isFloating other || f.control.contains other then
      ⟨g.replaceAtUsagesAndDelete i (some other), f.control.erase i⟩
    else
      ⟨((g.clearInputs i).replaceAtUsages i (some other)).delete i,
        f.control.map fun j => if j = i then other else j⟩

/-- Puts a term in the place of a node. A new reinterpretation takes over the stamp of the one that it
replaces. -/
def replace (f : FlowGraph) (i : NodeId) (t : Term) : FlowGraph :=
  let (g, other) := f.graph.insert t
  let g := match f.graph.op? i, f.graph.op? other, g.op? other with
    | some (.unary (.reinterpret _)), none, some (.unary (.reinterpret s)) =>
      g.setStamp other s (some (f.graph.source i))
    | _, _, _ => g
  { f with graph := g }.replaceBy i other

/-- Orders the inputs of a commutative node by their identifiers; constants stay behind. -/
def commute (f : FlowGraph) (i : NodeId) : FlowGraph × Bool :=
  let (g, swapped) := f.graph.commute i
  ({ f with graph := g }, swapped)

/-- Reduces a node once, and tells whether it was replaced. -/
def tryReduce (f : FlowGraph) (i : NodeId) : Result (FlowGraph × Bool) := do
  match ← f.canonical i with
  | (f, some t) => return (f.replace i t, true)
  | (f, none) =>
    match f.commute i with
    | (f, true) =>
      match f.graph.duplicateOf? i with
      | some other => return (f.replaceBy i other, true)
      | none => return (f, false)
    | (f, false) => return (f, false)

def killWithin : Nat → Graph Label → NodeId → Graph Label
  | 0, g, _ => g
  | fuel + 1, g, i =>
    (g.operands i).foldl
      (fun g x =>
        if g.isAlive x && (g.op? x).any (·.isFloating) && g.usageCount x == 0 then
          killWithin fuel g x
        else g)
      (g.delete i)

/-- Deletes an unused node and the inputs that become unused by that. -/
def kill (f : FlowGraph) (i : NodeId) : FlowGraph :=
  { f with graph := killWithin f.graph.nodes.size f.graph i }

def isUnused (f : FlowGraph) (i : NodeId) : Bool :=
  f.graph.isAlive i && f.isFloating i && f.graph.usageCount i == 0

/-- Recomputes the stamp of a node that no rule applies to. A value that is known is replaced by a
constant; a stamp that says more may let a rule apply. -/
def refineStamp (f : FlowGraph) (i : NodeId) : Result FlowGraph := do
  let (g, improved) ← f.graph.inferStamp i
  let f := { f with graph := if improved then g.touchAll (g.usages i) else g }
  match (f.graph.stamp i).constant?, f.graph.isConstant i with
  | some c, false =>
    let (g, k) := f.graph.insert (← Term.constant (f.graph.stamp i) c)
    let f := { f with graph := g.replaceAtSlots (fun label slot => label.op.takesValue slot) i (some k) }
    return if f.isUnused i then f.kill i else f
  | _, _ =>
    if improved then
      match ← f.tryReduce i with
      | (f, true) => return f
      | (f, false) => return { f with graph := f.graph.touchAll (f.graph.usages i) }
    else return f

def visit (f : FlowGraph) (i : NodeId) : Result FlowGraph := do
  match if f.isFloating i then f.graph.duplicateOf? i else none with
  | some other => return { f with graph := f.graph.replaceAtUsagesAndDelete i (some other) }
  | none =>
    if f.isUnused i then return f.kill i
    else
      match ← f.tryReduce i with
      | (f, true) => return f
      | (f, false) => f.refineStamp i

/-- Visits the waiting nodes, at most as many as the limit says. -/
def work : Nat → WorkList → FlowGraph → Result FlowGraph
  | 0, _, f => .ok f
  | limit + 1, w, f =>
    match w.next? f.graph with
    | none => .ok f
    | some (i, w) => do
      let f ← f.visit i
      work limit (w.addAll f.graph f.graph.touched.toList) { f with graph := f.graph.settle }

def canonicalize (f : FlowGraph) : Result FlowGraph :=
  work (10 * f.graph.count) (.filled f.graph) { f with graph := f.graph.settle }

end FlowGraph

end CompilerKit
