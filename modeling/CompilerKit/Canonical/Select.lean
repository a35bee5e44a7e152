import CompilerKit.Canonical.Compare

/-! # Rules for choices between two values -/

namespace CompilerKit

open Reduction

def Term.selectionWithin (g : Graph Label) : Nat → NodeId → NodeId → NodeId → Result Term
  | 0, c, t, f => Term.choose g (.node c) (.node t) (.node f)
  | fuel + 1, c, t, f =>
    match g.shape? c with
    | some (.unary .negation c') => selectionWithin g fuel c' f t
    | some (.leaf (.truth b)) => .ok (.node (if b then t else f))
    | _ => Term.choose g (.node c) (.node t) (.node f)

/-- A choice; negations and constants among the conditions are resolved. -/
def Term.selection (g : Graph Label) (c t f : NodeId) : Result Term :=
  Term.selectionWithin g g.nodes.size c t f

namespace Canonical

abbrev SelectRule := Graph Label → Stamp → NodeId → NodeId → NodeId → Reduction

/-- A choice by a negated or constant condition. -/
def selectResolved : SelectRule := fun g _ c t f =>
  match g.shape? c with
  | some (.unary .negation _) | some (.leaf (.truth _)) => build (Term.selection g c t f)
  | _ => pass

/-- A value brought to a width without extending its sign. -/
def convertUnsigned (g : Graph Label) (x : NodeId) (s : Stamp) : Result Term :=
  match g.stamp x, s with
  | .int a, .int b =>
    if b.bits = a.bits then .ok (.node x)
    else if b.bits < a.bits then Term.resize g .narrow a.bits b.bits (.node x)
    else Term.resize g .zeroExtend a.bits b.bits (.node x)
  | _, _ => .error .familyMismatch

/-- Zero if a value of one bit is zero, and one otherwise, is that value. -/
def selectBit : SelectRule := fun g s c t f =>
  match g.shape? c with
  | some (.binary (.compare .intEquals) x y) =>
    match g.stamp x with
    | .int a =>
      if g.constant? y = some (.primitive .int 0) && a.up = 1 &&
          g.constant? t = some (.primitive .int 0) && g.constant? f = some (.primitive .int 1) then
        build (convertUnsigned g x s)
      else pass
    | _ => pass
  | _ => pass

/-- Whichever of two equal values is chosen. -/
def selectEqual : SelectRule := fun g _ c t f =>
  match g.shape? c with
  | some (.binary (.compare cmp) x y) =>
    if cmp.condition = .eq && (x == t && y == f || x == f && y == t) then keep f else pass
  | _ => pass

def selectSame : SelectRule := fun _ _ _ t f => if t = f then keep t else pass

/-- A conditional sum `x < 0 ? x + y : x` is `x + (y & (x >> (bits - 1)))`. -/
def selectSum : SelectRule := fun g _ c t f =>
  match g.shape? c, g.stamp t, g.binary? (.arith .add) t with
  | some (.binary (.compare .intLess) x y), .int s, some (a, b) =>
    if (g.constant? y).any (·.isDefault) && f == x && a == f then build do
      let sign ← Term.shift g .shr (.node x) (.ofInt (s.bits - 1 : Nat))
      Term.arith g .add (.node a) (← Term.arith g .and sign (.node b))
    else pass
  | _, _, _ => pass

def select : SelectRule := fun g s c t f =>
  [selectResolved, selectBit, selectEqual, selectSame, selectSum].findSomeM?
    fun rule => rule g s c t f

/-- The stamp of a choice. If it is the lesser or the greater of two values and one is constant, the
constant bounds it. -/
def selectStamp (g : Graph Label) (c t f : NodeId) : Result Stamp := do
  let either ← Term.meetStamp g (.node t) (.node f)
  match g.shape? c with
  | some (.binary (.compare .intLess) x y) =>
    match (g.constant? x).or (g.constant? y) with
    | some (.primitive k v) =>
      if x = t ∧ y = f then either.join (.int (.ofBounds k.bits k.minValue v))
      else if x = f ∧ y = t then either.join (.int (.ofBounds k.bits v k.maxValue))
      else return either
    | _ => return either
  | _ => return either

end Canonical

end CompilerKit
