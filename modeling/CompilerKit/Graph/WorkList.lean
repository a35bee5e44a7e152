import CompilerKit.Fault
import CompilerKit.Graph.Basic

/-! # Work lists

A work list holds the nodes that wait for a visit, the one that has waited longest first. A short
list is searched before a node is added. When a node comes to a list that has grown past
`WorkList.searched`, the list starts to keep marks of the nodes that wait; that node itself is
appended unseen, and from then on a node is added exactly if it bears no mark.
-/

namespace CompilerKit

/-- A set of nodes with room for a number of blocks of 64 identifiers. -/
structure NodeMarks where
  blocks : Nat
  marked : List NodeId

namespace NodeMarks

def blocksFor (n : Nat) : Nat := (n + 63) / 64

/-- No marks, and room for all nodes of a graph. -/
def forGraph {α : Type} (g : Graph α) : NodeMarks := ⟨blocksFor g.nodes.size, []⟩

/-- Makes room for a node of a graph that came later. -/
def grow {α : Type} (m : NodeMarks) (g : Graph α) (i : NodeId) : NodeMarks :=
  if i / 64 < m.blocks then m
  else if m.blocks < blocksFor g.nodes.size then
    { m with blocks := max (blocksFor g.nodes.size) (m.blocks * 3 / 2 + 1) }
  else m

def mark (m : NodeMarks) (i : NodeId) : NodeMarks :=
  if m.marked.contains i then m else { m with marked := i :: m.marked }

def clear (m : NodeMarks) (i : NodeId) : NodeMarks := { m with marked := m.marked.filter (· ≠ i) }

/-- Whether a node is marked; there has to be room for it. -/
def isMarked (m : NodeMarks) (i : NodeId) : Result Bool :=
  if i / 64 < m.blocks then .ok (m.marked.contains i) else .error .outOfRange

end NodeMarks

structure WorkList where
  waiting : List NodeId
  marks : Option NodeMarks := none

namespace WorkList

variable {α : Type}

/-- The length up to which a list is searched. -/
def searched : Nat := 10

def empty : WorkList := { waiting := [] }

def filled (g : Graph α) : WorkList := { waiting := g.live }

/-- Marks for the live nodes that wait. -/
def startMarks (w : WorkList) (g : Graph α) : NodeMarks :=
  (w.waiting.filter g.isAlive).foldl NodeMarks.mark (.forGraph g)

def add (g : Graph α) (w : WorkList) (i : NodeId) : WorkList :=
  match w.marks with
  | some m =>
    let m := m.grow g i
    if m.marked.contains i then { w with marks := some m }
    else { waiting := w.waiting ++ [i], marks := some (m.mark i) }
  | none =>
    if searched < w.waiting.length then
      { waiting := w.waiting ++ [i], marks := some (((w.startMarks g).grow g i).mark i) }
    else if w.waiting.contains i then w
    else { w with waiting := w.waiting ++ [i] }

def addAll (g : Graph α) (w : WorkList) (is : List NodeId) : WorkList := is.foldl (add g) w

def dropDeleted (g : Graph α) (w : WorkList) : WorkList :=
  { w with waiting := w.waiting.dropWhile (!g.isAlive ·) }

/-- The next live node and the list without it. -/
def next? (g : Graph α) (w : WorkList) : Option (NodeId × WorkList) :=
  match (w.dropDeleted g).waiting with
  | [] => none
  | i :: waiting => some (i, { waiting, marks := w.marks.map fun m => (m.grow g i).clear i })

/-- Whether a node is known to wait: by its mark if there are marks, else by a search. -/
def contains (w : WorkList) (i : NodeId) : Result Bool :=
  match w.marks with
  | some m => m.isMarked i
  | none => .ok (w.waiting.contains i)

end WorkList

end CompilerKit
