import CompilerKit.Canonical.Rule
import CompilerKit.Expression.Branch

/-! # Rules for conditions that are not comparisons -/

namespace CompilerKit

open Reduction

/-- The negation of a condition; negations of constants and of negations are resolved. -/
def Term.negated (g : Graph Label) : Term → Term
  | .leaf (.truth b) _ => .truth !b
  | .unary .negation _ t => t
  | .node i =>
    match g.shape? i with
    | some (.leaf (.truth b)) => .truth !b
    | some (.unary .negation x) => .node x
    | _ => .negation (.node i)
  | t => .negation t

namespace Canonical

def negation : UnaryRule := fun g _ x =>
  match g.shape? x with
  | some (.leaf (.truth b)) => become (.truth !b)
  | some (.unary .negation v) => keep v
  | _ => pass

def isNull : UnaryRule := fun g _ x =>
  match g.decideNull? x with
  | some b => become (.truth b)
  | none => pass

/-- The condition under all negations, and whether their number is odd. -/
def strippedWithin (g : Graph Label) : Nat → NodeId → Bool → NodeId × Bool
  | 0, i, odd => (i, odd)
  | fuel + 1, i, odd =>
    match g.shape? i with
    | some (.unary .negation x) => strippedWithin g fuel x !odd
    | _ => (i, odd)

def stripped (g : Graph Label) (i : NodeId) (odd : Bool) : NodeId × Bool :=
  strippedWithin g g.nodes.size i odd

def signed (negated : Bool) (x : NodeId) : Term :=
  if negated then .negation (.node x) else .node x

/-- The disjunction of two conditions, each of them negated or not. -/
def either (xNegated yNegated : Bool) (probability : FloatingPoint.Double) : BinaryRule :=
  fun g _ x y =>
    let (x', xNegated') := stripped g x xNegated
    let (y', yNegated') := stripped g y yNegated
    if x' ≠ x ∨ y' ≠ y then
      become (.either xNegated' yNegated' probability (.node x') (.node y'))
    else if x = y then
      match xNegated, yNegated with
      | true, true => become (Term.negated g (.node x))
      | false, false => keep x
      | _, _ => become (.truth true)
    else
      match g.truth? x, g.truth? y with
      | some b, _ => if b ^^ xNegated then become (.truth true) else become (signed yNegated y)
      | none, some b => if b ^^ yNegated then become (.truth true) else become (signed xNegated x)
      | none, none => pass

end Canonical

end CompilerKit
