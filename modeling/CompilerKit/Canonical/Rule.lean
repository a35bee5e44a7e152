import CompilerKit.Expression.Term

/-! # Reduction rules

A rule looks at an application in a graph: at its stamp and at its operands. It answers with a term of
the same value, or with nothing if it does not apply.
-/

namespace CompilerKit

abbrev Reduction := Result (Option Term)

abbrev UnaryRule := Graph Label → Stamp → NodeId → Reduction

abbrev BinaryRule := Graph Label → Stamp → NodeId → NodeId → Reduction

namespace Reduction

def pass : Reduction := .ok none

/-- The application has the value of a node. -/
def keep (i : NodeId) : Reduction := .ok (some (.node i))

def become (t : Term) : Reduction := .ok (some t)

/-- The application has the value of a term, unless the term cannot be formed. -/
def build (t : Result Term) : Reduction := some <$> t

def otherwise (first second : Reduction) : Reduction :=
  match first with
  | .ok none => second
  | answer => answer

end Reduction

def firstUnary (rules : List UnaryRule) : UnaryRule := fun g s x =>
  rules.findSomeM? fun rule => rule g s x

def firstBinary (rules : List BinaryRule) : BinaryRule := fun g s x y =>
  rules.findSomeM? fun rule => rule g s x y

def onConstantRight (rule : Graph Label → Stamp → NodeId → Constant → Reduction) : BinaryRule :=
  fun g s x y =>
    match g.constant? y with
    | some c => rule g s x c
    | none => Reduction.pass

end CompilerKit
