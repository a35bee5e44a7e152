import CompilerKit.Expression.Label
import CompilerKit.Graph.Unique

/-! # Expression graphs

The node of an expression graph together with its inputs is its shape.
-/

namespace CompilerKit

inductive Shape where
  | leaf (l : Leaf)
  | unary (op : Unary) (x : NodeId)
  | binary (op : Binary) (x y : NodeId)
  | select (c t f : NodeId)
  | start
  | ret (x : NodeId)
  deriving DecidableEq

namespace Graph

def op? (g : Graph Label) (i : NodeId) : Option Op := (g.label? i).map (·.op)

def stamp (g : Graph Label) (i : NodeId) : Stamp := ((g.label? i).map (·.stamp)).getD .void

def source (g : Graph Label) (i : NodeId) : Source :=
  ((g.label? i).bind (·.source)).getD ⟨i, 0⟩

/-- Gives a node another stamp, of a given source or made by the node itself. -/
def setStamp (g : Graph Label) (i : NodeId) (s : Stamp) : Option Source → Graph Label
  | some source => g.modify i fun n => { n with label := { n.label with stamp := s, source } }
  | none => g.modify i fun n => { n with label := { n.label with
      stamp := s, source := some ⟨i, n.label.made⟩, made := n.label.made + 1 } }

/-- What is known of two nodes that have the same value. -/
def joined (g : Graph Label) (x y : NodeId) : Result Stamp :=
  if g.source x = g.source y then .ok (g.stamp x) else (g.stamp x).join (g.stamp y)

/-- No value belongs to the stamps of both nodes. -/
def alwaysDistinct (g : Graph Label) (x y : NodeId) : Result Bool :=
  if g.source x = g.source y ∧ g.stamp x ≠ .void then .ok (g.stamp x).isEmpty
  else (g.stamp x).alwaysDistinct (g.stamp y)

/-- What is known of a value that is that of one of two nodes. -/
def met (g : Graph Label) (x y : NodeId) : Result Stamp :=
  if g.source x = g.source y then .ok (g.stamp x) else (g.stamp x).meet (g.stamp y)

/-- The source of the stamp that two nodes meet in, if it is one of theirs. -/
def metSource (g : Graph Label) (x y : NodeId) : Option Source :=
  match g.met x y with
  | .ok s =>
    if s = g.stamp x then some (g.source x)
    else if s = g.stamp y then some (g.source y)
    else none
  | .error _ => none

/-- A node and its inputs, provided no slot is empty. -/
def shape? (g : Graph Label) (i : NodeId) : Option Shape :=
  match g.op? i, g.inputs i with
  | some (.leaf l), [] => some (.leaf l)
  | some (.unary op), [some x] => some (.unary op x)
  | some (.binary op), [some x, some y] => some (.binary op x y)
  | some .select, [some c, some t, some f] => some (.select c t f)
  | some .start, [] => some .start
  | some .ret, [some x] => some (.ret x)
  | _, _ => none

def binary? (g : Graph Label) (op : Binary) (i : NodeId) : Option (NodeId × NodeId) :=
  match g.shape? i with
  | some (.binary op' x y) => if op' = op then some (x, y) else none
  | _ => none

def unary? (g : Graph Label) (op : Unary) (i : NodeId) : Option NodeId :=
  match g.shape? i with
  | some (.unary op' x) => if op' = op then some x else none
  | _ => none

def constant? (g : Graph Label) (i : NodeId) : Option Constant :=
  match g.op? i with
  | some (.leaf (.constant c)) => some c
  | _ => none

def isConstant (g : Graph Label) (i : NodeId) : Bool := (g.constant? i).isSome

def integer? (g : Graph Label) (i : NodeId) : Option Word :=
  match g.constant? i with
  | some (.primitive k x) => if k.isInteger then some x else none
  | _ => none

def truth? (g : Graph Label) (i : NodeId) : Option Bool :=
  match g.op? i with
  | some (.leaf (.truth b)) => some b
  | _ => none

def unrefinedWithin (g : Graph Label) : Nat → NodeId → NodeId
  | 0, i => i
  | fuel + 1, i =>
    match g.shape? i with
    | some (.unary (.refine _) x) => unrefinedWithin g fuel x
    | _ => i

/-- The node under all refinements: it has the same value. -/
def unrefined (g : Graph Label) (i : NodeId) : NodeId := unrefinedWithin g g.nodes.size i

/-- Whether two nodes are the same under all refinements. -/
def sameValue (g : Graph Label) (x y : NodeId) : Bool := g.unrefined x == g.unrefined y

end Graph

end CompilerKit
