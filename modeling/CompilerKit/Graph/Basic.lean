import CompilerKit.Graph.Usages

/-! # Graphs of labelled nodes

A node has a label and a list of input slots, some of which may be empty. Every node keeps its usages:
one entry for each slot that holds it. Deleted nodes keep their identifier, so identifiers are never
given out twice.
-/

namespace CompilerKit

structure Node (α : Type) where
  label : α
  inputs : List (Option NodeId)
  usages : Usages := {}
  alive : Bool := true

structure Graph (α : Type) where
  nodes : Array (Node α)
  /-- The nodes that were added, were given another input or lost their last usage, oldest first. -/
  touched : Array NodeId
  /-- The leaves to be shared, under the labels that they were added with, oldest first. A deleted one stays
  and is passed over. -/
  leaves : List (α × NodeId) := []

namespace Graph

variable {α : Type}

def empty : Graph α := { nodes := #[], touched := #[] }

def isAlive (g : Graph α) (i : NodeId) : Bool := g.nodes[i]?.any (·.alive)

def label? (g : Graph α) (i : NodeId) : Option α := g.nodes[i]?.map (·.label)

def inputs (g : Graph α) (i : NodeId) : List (Option NodeId) := (g.nodes[i]?.map (·.inputs)).getD []

/-- The inputs in the slots that are not empty. -/
def operands (g : Graph α) (i : NodeId) : List NodeId := (g.inputs i).filterMap id

def usageStore (g : Graph α) (i : NodeId) : Usages := (g.nodes[i]?.map (·.usages)).getD {}

def usages (g : Graph α) (i : NodeId) : List NodeId := (g.usageStore i).toList

def usageCount (g : Graph α) (i : NodeId) : Nat := (g.usageStore i).count

def usageAt? (g : Graph α) (i : NodeId) (k : Nat) : Option NodeId := (g.usageStore i).at? k

/-- The number of live nodes. -/
def count (g : Graph α) : Nat := g.nodes.countP (·.alive)

def live (g : Graph α) : List NodeId := (List.range g.nodes.size).filter g.isAlive

def modify (g : Graph α) (i : NodeId) (f : Node α → Node α) : Graph α :=
  { g with nodes := g.nodes.modify i f }

def touch (g : Graph α) (i : NodeId) : Graph α := { g with touched := g.touched.push i }

def touchAll (g : Graph α) (is : List NodeId) : Graph α := is.foldl touch g

/-- Forgets which nodes were touched. -/
def settle (g : Graph α) : Graph α := { g with touched := #[] }

def setInputs (g : Graph α) (i : NodeId) (inputs : List (Option NodeId)) : Graph α :=
  g.modify i fun n => { n with inputs := inputs }

def modifyUsages (g : Graph α) (i : NodeId) (f : Usages → Usages) : Graph α :=
  g.modify i fun n => { n with usages := f n.usages }

def addUsage (g : Graph α) (i user : NodeId) : Graph α := g.modifyUsages i (·.add user)

def removeUsage (g : Graph α) (i user : NodeId) : Graph α := g.modifyUsages i (·.remove user)

/-- Records that a node may have lost its last usage. -/
def touchIfUnused (g : Graph α) (i : NodeId) : Graph α :=
  if g.isAlive i && g.usageCount i == 0 then g.touch i else g

/-- Adds a node that its inputs do not know of yet. -/
def push (g : Graph α) (n : Node α) : Graph α :=
  { g with nodes := g.nodes.push n }.touch g.nodes.size

def add (g : Graph α) (label : α) (inputs : List (Option NodeId)) : Graph α × NodeId :=
  let i := g.nodes.size
  ((inputs.filterMap id).foldl (fun g x => (g.touch i).addUsage x i) (g.push { label, inputs }), i)

/-- Takes a node's entries out of the usages of its inputs. -/
def releaseInputs (g : Graph α) (i : NodeId) : Graph α :=
  (g.operands i).foldl (fun g x => (g.removeUsage x i).touchIfUnused x) g

def clearInputs (g : Graph α) (i : NodeId) : Graph α :=
  (g.releaseInputs i).setInputs i ((g.inputs i).map fun _ => none)

def delete (g : Graph α) (i : NodeId) : Graph α :=
  (g.releaseInputs i).modify i fun n => { n with alive := false }

/-- The bookkeeping for an input slot of `i` that changes from `old` to `new`. -/
def moveUsage (g : Graph α) (i : NodeId) (old new : Option NodeId) : Graph α :=
  if old = new then g
  else
    let g := (old.elim g (g.removeUsage · i)).touch i
    let g := new.elim g (g.addUsage · i)
    old.elim g g.touchIfUnused

/-- Puts another node into the first slot that holds a given one, and tells no one. -/
def redirectFirst (g : Graph α) (i : NodeId) (old new : Option NodeId) : Graph α :=
  g.setInputs i ((g.inputs i).replace old new)

/-- Puts another node into the first slot that holds a given one. -/
def replaceFirstInput (g : Graph α) (i : NodeId) (old new : Option NodeId) : Graph α :=
  if old ∈ g.inputs i then (g.redirectFirst i old new).moveUsage i old new else g

def swapInputs (g : Graph α) (i : NodeId) : Graph α := g.setInputs i (g.inputs i).reverse

/-- Puts another node, or nothing, in the place of `i` in one slot of a user. -/
def handOver (g : Graph α) (i : NodeId) (other : Option NodeId) (notifies : NodeId → Bool)
    (user : NodeId) : Graph α :=
  let g := g.redirectFirst user (some i) other
  let g := if notifies user then g.touch user else g
  other.elim g (g.addUsage · user)

/-- Goes through the usages of `i` from position `k` on; `left` of them are still to be seen. A user
that satisfies the predicate is given `other` in the place of `i`. Its entry is taken out, and the last
one, which was not seen yet, moves there. -/
def replaceUsers (i : NodeId) (other : Option NodeId) (p : Graph α → NodeId → Bool)
    (notifies : NodeId → Bool) : (left k : Nat) → Graph α → Graph α
  | 0, _, g => g
  | left + 1, k, g =>
    match g.usageAt? i k with
    | none => g
    | some user =>
      if p g user then
        replaceUsers i other p notifies left k
          ((g.handOver i other notifies user).modifyUsages i (·.moveLastTo k))
      else replaceUsers i other p notifies left (k + 1) g

/-- Replaces a node by another one, or by nothing, in the users that satisfy a predicate. -/
def replaceAtUsagesWhere (g : Graph α) (p : Graph α → NodeId → Bool) (i : NodeId)
    (other : Option NodeId) : Graph α :=
  replaceUsers i other p (fun _ => true) (g.usageCount i) 0 g

/-- As `replaceAtUsagesWhere`; users that are left with an empty slot are not recorded. -/
def replaceAtMatchingUsages (g : Graph α) (p : Graph α → NodeId → Bool) (i : NodeId)
    (other : Option NodeId) : Graph α :=
  replaceUsers i other p (fun _ => other.isSome) (g.usageCount i) 0 g

def replaceAtUsages (g : Graph α) (i : NodeId) (other : Option NodeId) : Graph α :=
  g.replaceAtUsagesWhere (fun _ _ => true) i other

/-- Puts another node in the place of one that is deleted then. -/
def replaceAtUsagesAndDelete (g : Graph α) (i : NodeId) (other : Option NodeId) : Graph α :=
  (replaceUsers i other (fun _ _ => true) (fun user => user ≠ i) (g.usageCount i) 0 g).delete i

def replaceSlot (g : Graph α) (user slot : NodeId) (new : Option NodeId) : Graph α :=
  let old := ((g.inputs user)[slot]?).join
  (g.setInputs user ((g.inputs user).set slot new)).moveUsage user old new

def replaceAtSlots (g : Graph α) (p : α → Nat → Bool) (i : NodeId) (other : Option NodeId) :
    Graph α :=
  (g.usages i).foldl
    (fun g u =>
      (List.range (g.inputs u).length).foldl
        (fun g slot =>
          if (g.inputs u)[slot]? = some (some i) && (g.label? u).any (p · slot) then
            g.replaceSlot u slot other
          else g)
        g)
    g

end Graph

end CompilerKit
