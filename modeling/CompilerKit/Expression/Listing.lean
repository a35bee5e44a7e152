import CompilerKit.Expression.Flow

/-! # Listings

A listing names the nodes of an expression by their position: operands come before the nodes that use
them, in the order of the inputs, and every node of a graph is listed once.
-/

namespace CompilerKit

structure Listing where
  items : Array (Label × List Nat)
  /-- The positions of the nodes of the graph. -/
  seen : List (NodeId × Nat)

namespace Listing

def empty : Listing := ⟨#[], []⟩

def push (l : Listing) (label : Label) (operands : List Nat) : Listing × Nat :=
  ({ l with items := l.items.push (label, operands) }, l.items.size)

private def addNodeWithin (g : Graph Label) : Nat → Listing → NodeId → Listing × Nat
  | 0, l, _ => (l, 0)
  | fuel + 1, l, i =>
    match l.seen.lookup i with
    | some k => (l, k)
    | none =>
      let (l, operands) := (g.operands i).foldl
        (fun (l, operands) x =>
          let (l, k) := addNodeWithin g fuel l x
          (l, operands ++ [k]))
        (l, [])
      let (l, k) := l.push ((g.label? i).getD { op := .start, stamp := .void }) operands
      ({ l with seen := (i, k) :: l.seen }, k)

def addNode (g : Graph Label) (l : Listing) (i : NodeId) : Listing × Nat :=
  addNodeWithin g (g.nodes.size + 1) l i

def addTerm (g : Graph Label) (l : Listing) : Term → Listing × Nat
  | .node i => l.addNode g i
  | .leaf leaf s => l.push { op := .leaf leaf, stamp := s } []
  | .unary op s x =>
    let (l, x) := l.addTerm g x
    l.push { op := .unary op, stamp := s } [x]
  | .binary op s x y =>
    let (l, x) := l.addTerm g x
    let (l, y) := l.addTerm g y
    l.push { op := .binary op, stamp := s } [x, y]
  | .select s c t f =>
    let (l, c) := l.addTerm g c
    let (l, t) := l.addTerm g t
    let (l, f) := l.addTerm g f
    l.push { op := .select, stamp := s } [c, t, f]

/-- Lists the nodes in the flow of control between the start and the return, with their positions. -/
def addControl (f : FlowGraph) (l : Listing) : Listing × List Nat :=
  f.control.foldl
    (fun (l, positions) i =>
      match f.graph.op? i with
      | some (.binary _) =>
        let (l, k) := l.addNode f.graph i
        (l, positions ++ [k])
      | _ => (l, positions))
    (l, [])

end Listing

end CompilerKit
