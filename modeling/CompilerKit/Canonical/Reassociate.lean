import CompilerKit.Canonical.Rule

/-! # Reassociation

Of an application nested in another one, the two operands that meet a criterion are brought together:
`(a ∘ m₂) ∘ m₁` becomes `a ∘ (m₁ ∘ m₂)`. Sums and differences mix.
-/

namespace CompilerKit.Canonical

open Reduction

inductive Side where
  | left | right
  deriving DecidableEq

/-- The side of the only operand that meets a criterion. -/
def side? (p : NodeId → Bool) (x y : NodeId) : Option Side :=
  match p x, p y with
  | true, false => some .left
  | false, true => some .right
  | _, _ => none

def Side.pick (side : Side) (x y : NodeId) : NodeId := if side = .left then x else y

def Side.other (side : Side) (x y : NodeId) : NodeId := if side = .left then y else x

/-- The regrouped form of an outer application, with `m₁` on the side `outer`, of an inner one to `m₂`
and `a`, with `m₂` on the side `inner`. -/
def regroup (g : Graph Label) (op op' : BinaryOp) (outer inner : Side) (a m₁ m₂ : Term) : Reduction :=
  let plus := Term.arith g .add
  let minus := Term.arith g .sub
  match op, op', outer, inner with
  | .add, .add, _, _ => build do plus a (← plus m₁ m₂)
  | .add, .sub, _, .right => build do plus a (← minus m₁ m₂)
  | .add, .sub, _, .left => build do minus (← plus m₁ m₂) a
  | .sub, .add, .left, _ => build do minus (← minus m₁ m₂) a
  | .sub, .add, .right, _ => build do plus a (← minus m₂ m₁)
  | .sub, .sub, .left, .left => build do plus a (← minus m₁ m₂)
  | .sub, .sub, .left, .right => build do minus (← plus m₁ m₂) a
  | .sub, .sub, .right, .left => build do minus (← minus m₂ m₁) a
  | .sub, .sub, .right, .right => build do minus a (← plus m₁ m₂)
  | op, op', _, _ =>
    if op ≠ op' then pass
    else if op = .div ∨ op = .rem then .error .unreachable
    else build do Term.arith g op a (← Term.arith g op m₁ m₂)

def reassociate (p : NodeId → Bool) (op : BinaryOp) (g : Graph Label) (x y : NodeId) : Reduction :=
  match side? p x y with
  | none => pass
  | some outer =>
    match g.shape? (outer.other x y) with
    | some (.binary (.arith op') u v) =>
      match side? p u v with
      | none => pass
      | some inner =>
        regroup g op op' outer inner (.node (inner.other u v)) (.node (outer.pick x y))
          (.node (inner.pick u v))
    | _ => pass

end CompilerKit.Canonical
