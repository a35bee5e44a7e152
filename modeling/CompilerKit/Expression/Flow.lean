import CompilerKit.Canonical.Select

/-! # Expressions in a flow of control

A flow graph is an expression graph with the list of the nodes that have a place in the flow of
control, in their order: a start, divisions, and a return.
-/

namespace CompilerKit

structure FlowGraph where
  graph : Graph Label
  control : List NodeId

/-- How terms are formed: as they are written, or with the cases that are plain at sight resolved. -/
inductive Construction where
  | plain | simplified
  deriving DecidableEq

namespace Term

/-- Constants are folded; an operand with a greater identifier goes behind, if they may change
places. -/
private def simplifiedArith (g : Graph Label) (op : BinaryOp) (x y : NodeId) : Result Term := do
  let s ← op.onStamp (g.stamp x) (g.stamp y)
  match g.constant? x, g.constant? y with
  | some a, some b => primitive s (← op.onConstants a b)
  | _, _ =>
    let (x', y') := if op.isCommutative then commuted g x y else (x, y)
    return binary (.arith op) s (.node x') (.node y')

private def simplifiedOrder (g : Graph Label) (unorderedIsLess : Bool) (x y : NodeId) :
    Result Term := do
  match g.constant? x, g.constant? y with
  | some a, some b =>
    let equal ← Condition.eq.fold a b false
    let less ← Condition.lt.fold a b unorderedIsLess
    return ofInt (if less then -1 else if equal then 0 else 1)
  | _, _ => return order unorderedIsLess (.node x) (.node y)

def apply1 (g : Graph Label) (how : Construction) (op : Unary) (x : NodeId) : Result Term := do
  match op, how with
  | .arith op, _ => arith1 g op (.node x)
  | .resize op inputBits resultBits, .plain => resize g op inputBits resultBits (.node x)
  | .resize op inputBits resultBits, .simplified =>
    let s ← op.onStamp inputBits resultBits (g.stamp x)
    if inputBits = resultBits then return .node x
    else
      match g.constant? x with
      | some c => primitive s (← op.onConstant inputBits resultBits c)
      | none => resize g op inputBits resultBits (.node x)
  | .convert op, .plain => convert g op (.node x)
  | .convert op, .simplified =>
    match g.constant? x with
    | some c => primitive (← op.onStamp (g.stamp x)) (← op.onConstant c)
    | none => convert g op (.node x)
  | .reinterpret s, _ => return unary (.reinterpret s) s (.node x)
  | .refine s, _ => return unary (.refine s) s (.node x)
  | .isNull, _ => return isNull (.node x)
  | .negation, .plain => return negation (.node x)
  | .negation, .simplified => return negated g (.node x)

def apply2 (g : Graph Label) (how : Construction) (op : Binary) (x y : NodeId) : Result Term :=
  match op, how with
  | .arith .rem, .simplified => arith g .rem (.node x) (.node y)
  | .arith op, .simplified => simplifiedArith g op x y
  | .arith op, .plain => arith g op (.node x) (.node y)
  | .shift op, _ => shift g op (.node x) (.node y)
  | .order b, .simplified => simplifiedOrder g b x y
  | .order b, .plain => .ok (order b (.node x) (.node y))
  | .compare c, .simplified => comparison g c x y
  | .compare c, .plain => .ok (compare c (.node x) (.node y))
  | .test, _ => .ok (test (.node x) (.node y))
  | .either a b p, _ => .ok (either a b p (.node x) (.node y))
  | .divide d, _ => divide g d (.node x) (.node y)

def apply3 (g : Graph Label) (how : Construction) (c t f : NodeId) : Result Term :=
  match how with
  | .plain => choose g (.node c) (.node t) (.node f)
  | .simplified => selection g c t f

/-- The comparison that a canonical condition on two nodes stands for. -/
def ofCondition (g : Graph Label) (c : Condition) (x y : NodeId) : Result Term :=
  match c, g.stamp x with
  | .eq, .object _ => comparison g .objectEquals x y
  | .eq, .pointer => comparison g .pointerEquals x y
  | .eq, _ => comparison g .intEquals x y
  | .lt, _ => comparison g .intLess x y
  | _, _ => comparison g .intBelow x y

end Term

/-- A node to be built from nodes that are there. -/
inductive Entry where
  | parameter (index : Int) (s : Stamp)
  | constant (c : Constant)
  | integer (bits : Nat) (x : Word)
  | truth (b : Bool)
  | unary (op : Unary) (x : NodeId)
  /-- A change of the width that the operand has. -/
  | resize (op : ResizeOp) (resultBits : Nat) (x : NodeId)
  | binary (op : Binary) (x y : NodeId)
  | condition (c : Condition) (x y : NodeId)
  | select (c t f : NodeId)

def Entry.term (g : Graph Label) (how : Construction) : Entry → Result Term
  | parameter i s => .ok (.leaf (.parameter i) s)
  | constant c => Term.ofConstant c
  | integer bits x => Term.ofBits bits x
  | truth b => .ok (.truth b)
  | unary op x => Term.apply1 g how op x
  | resize op resultBits x => Term.apply1 g how (.resize op (g.stamp x).bits resultBits) x
  | binary op x y => Term.apply2 g how op x y
  | condition c x y => Term.ofCondition g c x y
  | select c t f => Term.apply3 g how c t f

namespace FlowGraph

def start : FlowGraph :=
  let (g, i) := Graph.empty.add { op := .start, stamp := .void } []
  ⟨g.settle, [i]⟩

/-- Adds a term. A division is put at the end of the flow of control. -/
def insert (f : FlowGraph) (t : Term) : FlowGraph × NodeId :=
  let (g, i) := f.graph.insert t
  let isNew := (g.op? i).any (!·.isFloating) && !f.control.contains i
  (⟨g, if isNew then f.control ++ [i] else f.control⟩, i)

/-- Ends the flow of control with a return of a value. -/
def finish (f : FlowGraph) (result : NodeId) : FlowGraph :=
  let (g, i) := f.graph.add { op := .ret, stamp := .void } [some result]
  ⟨g, f.control ++ [i]⟩

/-- The value as which a node is returned: a condition is one or zero. -/
def materialize (f : FlowGraph) (i : NodeId) : Result (FlowGraph × NodeId) := do
  if (f.graph.op? i).any (·.isLogic) then
    let (g, yes) := f.graph.insert (.ofInt 1)
    let (g, no) := g.insert (.ofInt 0)
    return { f with graph := g }.insert (← Term.apply3 g .plain i yes no)
  else return (f, i)

def next? (f : FlowGraph) (i : NodeId) : Option NodeId :=
  match f.control.dropWhile (· ≠ i) with
  | _ :: n :: _ => some n
  | _ => none

def result? (f : FlowGraph) : Option NodeId :=
  f.control.findSome? fun i =>
    match f.graph.shape? i with
    | some (.ret x) => some x
    | _ => none

end FlowGraph

end CompilerKit
