import CompilerKit.Graph.Basic

/-! # Shared nodes

Two nodes are duplicates if they have equal labels and the same inputs. A node without input slots is
a leaf; it is found only if it was added to be shared.
-/

namespace CompilerKit.Graph

variable {α : Type} [BEq α]

/-- Whether a node is a live leaf that still has the label. -/
def isLeaf (g : Graph α) (i : NodeId) (label : α) : Bool :=
  g.isAlive i && (g.inputs i).isEmpty && (g.label? i).any (· == label)

def findLeaf? (g : Graph α) (label : α) : Option NodeId :=
  (g.leaves.find? fun e => e.1 == label && g.isLeaf e.2 label).map (·.2)

/-- The first of the operands that have the fewest usages. -/
def leastUsed? (g : Graph α) : List NodeId → Option NodeId
  | [] => none
  | x :: xs => some (xs.foldl (fun a b => if g.usageCount b < g.usageCount a then b else a) x)

/-- A live node that duplicates the described one. `self` is the described node, if it is in the
graph already. -/
def findDuplicate? (g : Graph α) (self : Option NodeId) (label : α)
    (inputs : List (Option NodeId)) : Option NodeId :=
  if inputs.isEmpty then (g.findLeaf? label).filter (some · != self)
  else
    let operands := inputs.filterMap id
    let own := if self.isSome then 1 else 0
    if operands.any (g.usageCount · == own) then none
    else
      (g.leastUsed? operands).bind fun x => (g.usages x).find? fun u =>
        some u != self && (g.label? u).any (· == label) && g.inputs u == inputs

def duplicateOf? (g : Graph α) (i : NodeId) : Option NodeId :=
  (g.label? i).bind fun label => g.findDuplicate? (some i) label (g.inputs i)

/-- The described node: one that is there already, or a new one. -/
def unique (g : Graph α) (label : α) (inputs : List (Option NodeId)) : Graph α × NodeId :=
  match g.findDuplicate? none label inputs with
  | some i => (g, i)
  | none =>
    let (g, i) := g.add label inputs
    (if inputs.isEmpty then { g with leaves := g.leaves ++ [(label, i)] } else g, i)

/-- A new node with the label and the inputs of another. Leaves are shared instead, where their labels
allow it. -/
def copy (g : Graph α) (sharable : α → Bool) (i : NodeId) : Graph α × NodeId :=
  match g.label? i with
  | none => (g, i)
  | some label =>
    if sharable label && (g.inputs i).isEmpty then g.unique label []
    else
      let j := g.nodes.size
      ((g.operands i).foldl (fun g x => g.addUsage x j) (g.push { label, inputs := g.inputs i }), j)

end CompilerKit.Graph
