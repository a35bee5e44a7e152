import CompilerKit.Canonical.Reassociate
import CompilerKit.Proofs.Canonical.Rule

/-! # Reassociation keeps the value

An application and the one nested in it are followed by the side on which each has the operand that
meets the criterion. Whatever the sides and the signs, the regrouped term computes the same value.
-/

namespace CompilerKit

namespace BinaryOp

variable {w : Nat}

theorem exists_onValues {op : BinaryOp} (hdiv : op ≠ .div) (hrem : op ≠ .rem) (x y : BitVec w) :
    ∃ v, op.onValues x y = some v := by
  cases op with
  | div => exact absurd rfl hdiv
  | rem => exact absurd rfl hrem
  | _ => exact ⟨_, rfl⟩

theorem onValues_comm {op : BinaryOp} (hop : op.isCommutative = true) (x y : BitVec w) :
    op.onValues x y = op.onValues y x := by
  cases op with
  | add => exact congrArg some (BitVec.add_comm x y)
  | mul => exact congrArg some (BitVec.mul_comm x y)
  | and => exact congrArg some (BitVec.and_comm x y)
  | or => exact congrArg some (BitVec.or_comm x y)
  | xor => exact congrArg some (BitVec.xor_comm x y)
  | sub | div | rem => cases hop

theorem onValues_assoc {op : BinaryOp} (hop : op.isCommutative = true) (x y z : BitVec w) :
    (op.onValues x y).bind (op.onValues · z) = (op.onValues y z).bind (op.onValues x) := by
  cases op with
  | add => exact congrArg some (BitVec.add_assoc x y z)
  | mul => exact congrArg some (BitVec.mul_assoc x y z)
  | and => exact congrArg some (BitVec.and_assoc x y z)
  | or => exact congrArg some (BitVec.or_assoc x y z)
  | xor => exact congrArg some (BitVec.xor_assoc x y z)
  | sub | div | rem => cases hop

end BinaryOp

namespace Term

/-- An application of arithmetic to two terms, in either order. -/
def IsPair : Term → Term → Term → Prop
  | binary (.arith _) _ l r, m₁, m₂ => l = m₁ ∧ r = m₂ ∨ l = m₂ ∧ r = m₁
  | _, _, _ => False

/-- An application of arithmetic to one term and to an application to two others. -/
def Joins : Term → Term → Term → Term → Prop
  | binary (.arith _) _ l r, a, m₁, m₂ => l = a ∧ r.IsPair m₁ m₂ ∨ r = a ∧ l.IsPair m₁ m₂
  | _, _, _, _ => False

end Term

namespace Canonical

open Reduction

/-- The application of a function to operands of which the first one is on a side. -/
def Side.apply {α β : Type} (side : Side) (f : α → α → β) (m a : α) : β :=
  if side = .left then f m a else f a m

theorem Side.apply_pick {α β : Type} (side : Side) (f : α → α → β) (φ : NodeId → α)
    (x y : NodeId) : side.apply f (φ (side.pick x y)) (φ (side.other x y)) = f (φ x) (φ y) := by
  cases side <;> rfl

theorem Side.apply_of_comm {α β : Type} {f : α → α → β} (hf : ∀ x y, f x y = f y x) (side : Side)
    (m a : α) : side.apply f m a = f m a := by
  cases side
  · rfl
  · exact hf a m

theorem Side.pick_other (side : Side) (x y : NodeId) :
    side.pick x y = x ∧ side.other x y = y ∨ side.pick x y = y ∧ side.other x y = x := by
  cases side
  · exact .inl ⟨rfl, rfl⟩
  · exact .inr ⟨rfl, rfl⟩

theorem Side.pick_and_other {P : NodeId → Prop} (side : Side) {x y : NodeId} (hx : P x) (hy : P y) :
    P (side.pick x y) ∧ P (side.other x y) := by
  cases side
  · exact ⟨hx, hy⟩
  · exact ⟨hy, hx⟩

theorem side?_eq_some {p : NodeId → Bool} {x y : NodeId} {side : Side}
    (h : side? p x y = some side) : p (side.pick x y) = true ∧ p (side.other x y) = false := by
  unfold side? at h
  split at h
  all_goals cases h
  all_goals exact ⟨by assumption, by assumption⟩

section Regroup

variable {g : Graph Label} {ρ : NodeId → Word} {w : Nat} (hw : w ≤ 64) {a m₁ m₂ l r : Term}
  {A M₁ M₂ L R P V : BitVec w} (ha : a.Denotes g ρ A)

include hw ha

theorem gives_join_right {op op' : BinaryOp} (hl : l.Denotes g ρ L) (hr : r.Denotes g ρ R)
    (hlr : l = m₁ ∧ r = m₂ ∨ l = m₂ ∧ r = m₁) (hP : op'.onValues L R = some P)
    (hV : op.onValues A P = some V) :
    Gives (fun t => t.Denotes g ρ V ∧ t.Joins a m₁ m₂)
      (build do Term.arith g op a (← Term.arith g op' l r)) := by
  obtain ⟨s, hpair, hpairValue⟩ := Term.exists_arith hw op' hl hr hP
  obtain ⟨s', hjoin, hjoinValue⟩ := Term.exists_arith hw op ha hpairValue hV
  exact gives_build (by rw [hpair]; exact hjoin) ⟨hjoinValue, Or.inl ⟨rfl, hlr⟩⟩

theorem gives_join_left {op op' : BinaryOp} (hl : l.Denotes g ρ L) (hr : r.Denotes g ρ R)
    (hlr : l = m₁ ∧ r = m₂ ∨ l = m₂ ∧ r = m₁) (hP : op'.onValues L R = some P)
    (hV : op.onValues P A = some V) :
    Gives (fun t => t.Denotes g ρ V ∧ t.Joins a m₁ m₂)
      (build do Term.arith g op (← Term.arith g op' l r) a) := by
  obtain ⟨s, hpair, hpairValue⟩ := Term.exists_arith hw op' hl hr hP
  obtain ⟨s', hjoin, hjoinValue⟩ := Term.exists_arith hw op hpairValue ha hV
  exact gives_build (by rw [hpair]; exact hjoin) ⟨hjoinValue, Or.inr ⟨rfl, hlr⟩⟩

theorem gives_regroup_commutative {op : BinaryOp} {outer inner : Side} {Z : BitVec w}
    (hop : op.isCommutative = true) (h₁ : m₁.Denotes g ρ M₁) (h₂ : m₂.Denotes g ρ M₂)
    (hinner : ∀ z, inner.apply op.onValues M₂ A = some z → Z = z)
    (houter : outer.apply op.onValues M₁ Z = some V) :
    Gives (fun t => t.Denotes g ρ V ∧ t.Joins a m₁ m₂)
      (build do Term.arith g op a (← Term.arith g op m₁ m₂)) := by
  have hcomm := BinaryOp.onValues_comm (w := w) hop
  rw [Side.apply_of_comm hcomm, hcomm M₁] at houter
  have hdiv : op ≠ .div := by rintro rfl; cases hop
  have hrem : op ≠ .rem := by rintro rfl; cases hop
  obtain ⟨z, hz⟩ := BinaryOp.exists_onValues hdiv hrem A M₂
  obtain ⟨p, hp⟩ := BinaryOp.exists_onValues hdiv hrem M₁ M₂
  obtain rfl : Z = z := hinner z (by rw [Side.apply_of_comm hcomm, hcomm, hz])
  have hassoc := BinaryOp.onValues_assoc hop A M₂ M₁
  rw [hz, hcomm M₂, hp, Option.bind_some, Option.bind_some, houter] at hassoc
  exact gives_join_right hw ha h₁ h₂ (.inl ⟨rfl, rfl⟩) hp hassoc.symm

theorem gives_regroup {op op' : BinaryOp} {outer inner : Side} {Z : BitVec w} (hdiv : op ≠ .div)
    (hrem : op ≠ .rem) (h₁ : m₁.Denotes g ρ M₁) (h₂ : m₂.Denotes g ρ M₂)
    (hinner : ∀ z, inner.apply op'.onValues M₂ A = some z → Z = z)
    (houter : outer.apply op.onValues M₁ Z = some V) :
    Gives (fun t => t.Denotes g ρ V ∧ t.Joins a m₁ m₂) (regroup g op op' outer inner a m₁ m₂) := by
  have h₁₂ : m₁ = m₁ ∧ m₂ = m₂ ∨ m₁ = m₂ ∧ m₂ = m₁ := .inl ⟨rfl, rfl⟩
  have h₂₁ : m₂ = m₁ ∧ m₁ = m₂ ∨ m₂ = m₂ ∧ m₁ = m₁ := .inr ⟨rfl, rfl⟩
  unfold regroup
  -- The cases of sums and differences fix the signs; what is left is arithmetic in a ring.
  split
  · exact gives_regroup_commutative hw ha rfl h₁ h₂ hinner houter
  · cases outer <;> cases hinner _ rfl <;> cases houter
    all_goals exact gives_join_right hw ha h₁ h₂ h₁₂ rfl (congrArg some (by grind))
  · cases outer <;> cases hinner _ rfl <;> cases houter
    all_goals exact gives_join_left hw ha h₁ h₂ h₁₂ rfl (congrArg some (by grind))
  · cases inner <;> cases hinner _ rfl <;> cases houter
    all_goals exact gives_join_left hw ha h₁ h₂ h₁₂ rfl (congrArg some (by grind))
  · cases inner <;> cases hinner _ rfl <;> cases houter
    all_goals exact gives_join_right hw ha h₂ h₁ h₂₁ rfl (congrArg some (by grind))
  · cases hinner _ rfl; cases houter
    exact gives_join_right hw ha h₁ h₂ h₁₂ rfl (congrArg some (by grind))
  · cases hinner _ rfl; cases houter
    exact gives_join_left hw ha h₁ h₂ h₁₂ rfl (congrArg some (by grind))
  · cases hinner _ rfl; cases houter
    exact gives_join_left hw ha h₂ h₁ h₂₁ rfl (congrArg some (by grind))
  · cases hinner _ rfl; cases houter
    exact gives_join_right hw ha h₁ h₂ h₁₂ rfl (congrArg some (by grind))
  · split
    · exact gives_pass
    · rename_i hop
      obtain rfl := Decidable.not_not.mp hop
      rw [if_neg (not_or.mpr ⟨hdiv, hrem⟩)]
      refine gives_regroup_commutative hw ha ?_ h₁ h₂ hinner houter
      cases op with
      | sub => cases outer <;> cases inner <;> simp_all
      | div => exact absurd rfl hdiv
      | rem => exact absurd rfl hrem
      | _ => rfl

end Regroup

/-- Of an application to `x` and `y` and one nested in it, `m₁` and `m₂` are the operands that meet a
criterion; `a` is the other operand of the nested one. -/
def Matched (p : NodeId → Bool) (g : Graph Label) (x y m₁ m₂ a : NodeId) : Prop :=
  ∃ z op u v, g.shape? z = some (.binary (.arith op) u v) ∧
    (m₁ = x ∧ z = y ∨ m₁ = y ∧ z = x) ∧ (m₂ = u ∧ a = v ∨ m₂ = v ∧ a = u) ∧
    (p m₁ = true ∧ p z = false) ∧ p m₂ = true ∧ p a = false

theorem gives_reassociate {g : Graph Label} {ρ : NodeId → Word} (hg : g.WellTyped)
    (hρ : g.Models ρ) (p : NodeId → Bool) {op : BinaryOp} (hdiv : op ≠ .div) (hrem : op ≠ .rem)
    {x y : NodeId} {w : Nat} (hx : (g.stamp x).IsInteger w) (hy : (g.stamp y).IsInteger w)
    {v : BitVec w} (hv : op.onValues (Word.low w (ρ x)) (Word.low w (ρ y)) = some v) :
    Gives (fun t => t.Denotes g ρ v ∧
        ∃ m₁ m₂ a, Matched p g x y m₁ m₂ a ∧ t.Joins (.node a) (.node m₁) (.node m₂))
      (reassociate p op g x y) := by
  unfold reassociate
  split
  · exact gives_pass
  · rename_i outer houter
    obtain ⟨h₁, hz⟩ := outer.pick_and_other (P := fun i => (g.stamp i).IsInteger w) hx hy
    split
    · rename_i op' u u' hshape
      split
      · exact gives_pass
      · rename_i inner hinner
        obtain ⟨hu, hu'⟩ := hg.operands rfl hshape hz
        obtain ⟨h₂, ha⟩ := inner.pick_and_other (P := fun i => (g.stamp i).IsInteger w) hu hu'
        have hnested (z : BitVec w) (h : inner.apply op'.onValues
            (Word.low w (ρ (inner.pick u u'))) (Word.low w (ρ (inner.other u u'))) = some z) :
            Word.low w (ρ (outer.other x y)) = z := by
          rw [inner.apply_pick _ (fun i => Word.low w (ρ i))] at h
          rw [hρ.eq_of_arith hshape hz h, Word.low_ofLow hx.le]
        have hv' := (outer.apply_pick op.onValues (fun i => Word.low w (ρ i)) x y).trans hv
        refine (gives_regroup hx.le (Term.denotes_node hρ ha) hdiv hrem (Term.denotes_node hρ h₁)
          (Term.denotes_node hρ h₂) hnested hv').mono ?_
        rintro t ⟨hvalue, hjoins⟩
        exact ⟨hvalue, _, _, _, ⟨_, op', u, u', hshape, outer.pick_other x y, inner.pick_other u u',
          side?_eq_some houter, side?_eq_some hinner⟩, hjoins⟩
    · exact gives_pass

/-- Reassociation always has an answer. What it answers for a node computes the value of the node,
and a new term joins the two operands that meet the criterion. -/
theorem reassociate_keeps_value {g : Graph Label} {ρ : NodeId → Word} (hg : g.WellTyped)
    (hρ : g.Models ρ) (p : NodeId → Bool) {op : BinaryOp} (hdiv : op ≠ .div) (hrem : op ≠ .rem)
    {n x y : NodeId} (hn : g.shape? n = some (.binary (.arith op) x y)) {w : Nat}
    (hw : (g.stamp n).IsInteger w) :
    ∃ o v, reassociate p op g x y = .ok o ∧
      op.onValues (Word.low w (ρ x)) (Word.low w (ρ y)) = some v ∧
      (o.getD (.node n)).eval ρ = some (Word.ofLow v) ∧
      ∀ t ∈ o, ∃ m₁ m₂ a, Matched p g x y m₁ m₂ a ∧
        t.Joins (.node a) (.node m₁) (.node m₂) := by
  obtain ⟨hx, hy⟩ := hg.operands rfl hn hw
  obtain ⟨v, hv⟩ := BinaryOp.exists_onValues hdiv hrem (Word.low w (ρ x)) (Word.low w (ρ y))
  obtain ⟨o, ho, hanswer⟩ := gives_reassociate hg hρ p hdiv hrem hx hy hv
  refine ⟨o, v, ho, hv, ?_, fun t ht => (hanswer t ht).2⟩
  cases o with
  | none => exact congrArg some (hρ.eq_of_arith hn hw hv)
  | some t => exact (hanswer t rfl).1.value

/-- The node `(y - x) - z` over three parameters. -/
def differences : Graph Label :=
  let parameter (i : Int) : Node Label :=
    ⟨{ op := .leaf (.parameter i), stamp := .int (.full 32) }, [], {}, true⟩
  let minus (x y : NodeId) : Node Label :=
    ⟨{ op := .binary (.arith .sub), stamp := .int (.full 32) }, [some x, some y], {}, true⟩
  ⟨#[parameter 0, parameter 1, parameter 2, minus 1 0, minus 3 2], #[], []⟩

def differenceValues (i : NodeId) : Word := [3, 5, 9, 2, -7].getD i 0

theorem reassociate_keeps_value_differences :
    ∃ o, reassociate (fun i => i = 1 ∨ i = 2) .sub differences 3 2 = .ok o ∧
      (o.getD (.node 4)).eval differenceValues = some (-7) := by
  obtain ⟨o, v, ho, hv, hvalue, _⟩ := @reassociate_keeps_value differences differenceValues
    (by decide) (by decide) (fun i => i = 1 ∨ i = 2) .sub (by decide) (by decide) 4 3 2 rfl 32
    (by decide)
  cases hv
  exact ⟨o, ho, hvalue⟩

end Canonical

end CompilerKit
