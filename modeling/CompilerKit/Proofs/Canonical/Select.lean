import CompilerKit.Proofs.Canonical.Arithmetic
import CompilerKit.Proofs.Canonical.Equality

/-! # Choices are reduced without a change of value

Every rule for a choice between two integers answers with a term that has the value chosen. Negated
conditions exchange the values, equal values need no choice, a bit that is told from zero is the value
itself, and a sum that is formed for negative integers only is formed with a masked summand instead.
-/

namespace CompilerKit

namespace Word

variable {w : Nat}

theorem sshiftRight_and_of_neg {x : BitVec w} (hx : x.toInt < 0) (y : BitVec w) :
    x.sshiftRight (w - 1) &&& y = y := by
  have hones : x.sshiftRight (w - 1) = BitVec.allOnes w := by
    apply BitVec.eq_of_toNat_eq
    rw [toNat_sign_of_neg hx, BitVec.toNat_allOnes]
  rw [hones, BitVec.allOnes_and]

theorem sshiftRight_and_of_nonneg {x : BitVec w} (hx : 0 ≤ x.toInt) (y : BitVec w) :
    x.sshiftRight (w - 1) &&& y = 0#w := by
  rw [sign_of_nonneg hx, BitVec.zero_and]

end Word

theorem IntStamp.WellFormed.low_of_up_one {s : IntStamp} (hs : s.WellFormed) {v : Word}
    (hv : s.contains v = true) (hup : s.up = 1) :
    Word.low s.bits v = 0#s.bits ∨ Word.low s.bits v = 1#s.bits := by
  have hbit : Word.low s.bits v = if v.getLsbD 0 then 1#s.bits else 0#s.bits := by
    apply BitVec.eq_of_getLsbD_eq
    intro i hi
    rw [Word.getLsbD_low, decide_eq_true hi, Bool.true_and]
    cases hvi : v.getLsbD i with
    | true =>
      have hone := hs.getLsbD_up hv hi hvi
      obtain rfl : i = 0 := by
        rw [hup] at hone
        simpa using hone
      rw [if_pos hvi, BitVec.getLsbD_one]
      simp [hi]
    | false =>
      split
      · rename_i h0
        have hne : i ≠ 0 := by
          rintro rfl
          rw [h0] at hvi
          cases hvi
        simp [BitVec.getLsbD_one, hne]
      · rw [BitVec.getLsbD_zero]
  rw [hbit]
  split
  · exact .inr rfl
  · exact .inl rfl

namespace Graph

def comparesIntegers (g : Graph Label) (i : NodeId) : Bool :=
  match g.shape? i with
  | some (.binary (.compare c) x y) =>
    (c = .intEquals ∨ c = .intLess ∨ c = .intBelow) ∧
      (g.stamp x).IsInteger (g.stamp x).bits ∧ (g.stamp y).IsInteger (g.stamp x).bits
  | _ => true

variable {g : Graph Label} {ρ : NodeId → Word} {i x y : NodeId} {w : Nat}

theorem Models.isTrue_of_negation (hρ : g.Models ρ) (h : g.shape? i = some (.unary .negation x)) :
    (ρ i).isTrue = !(ρ x).isTrue := by
  rw [hρ.eq_of_unary h rfl, Word.isTrue_ofTruth]

theorem Models.isTrue_of_compare (hρ : g.Models ρ) {c : Comparison} {b : Bool}
    (h : g.shape? i = some (.binary (.compare c) x y)) (hb : c.onValues (ρ x) (ρ y) = some b) :
    (ρ i).isTrue = b := by
  rw [hρ.eq_of_binary h (by rw [Binary.eval, hb]; rfl), Word.isTrue_ofTruth]

section Comparing

variable {c : Comparison} (h : g.comparesIntegers i = true)
  (hi : g.shape? i = some (.binary (.compare c) x y))

include h hi

theorem isInteger_of_comparesIntegers :
    (g.stamp x).IsInteger (g.stamp x).bits ∧ (g.stamp y).IsInteger (g.stamp x).bits := by
  simp only [comparesIntegers, hi, decide_eq_true_eq] at h
  exact h.2

theorem eq_of_comparesIntegers (hc : c.condition = .eq) : c = .intEquals := by
  simp only [comparesIntegers, hi, decide_eq_true_eq] at h
  rcases h.1 with rfl | rfl | rfl
  · rfl
  · cases hc
  · cases hc

end Comparing

theorem exists_met (hx : (g.stamp x).IsInteger w) (hy : (g.stamp y).IsInteger w) :
    ∃ s, g.met x y = .ok s := by
  obtain ⟨a, ha, _, _⟩ := hx.exists_int
  obtain ⟨b, hb, _, _⟩ := hy.exists_int
  rw [met, ha, hb]
  split
  · exact ⟨_, rfl⟩
  · exact ⟨_, rfl⟩

section Constants

variable (hg : g.WellSorted) (hρ : g.Models ρ) (hi : (g.stamp i).IsInteger w)

include hg hρ hi

theorem WellSorted.eq_of_int {c : Word} (hc : g.constant? i = some (.primitive .int c)) :
    w = 32 ∧ ρ i = c := by
  obtain ⟨k, hk, hbits⟩ := hg.primitive_of_constant hρ hc hi
  obtain ⟨rfl, rfl⟩ := Constant.primitive.inj hk
  refine ⟨?_, rfl⟩
  rcases Kind.width_of_ofBits? hbits with rfl | rfl | rfl | rfl | rfl
  all_goals first | rfl | cases hbits

theorem WellSorted.eq_zero_of_isDefault (hc : (g.constant? i).any (·.isDefault) = true) : ρ i = 0 := by
  cases hconst : g.constant? i with
  | none =>
    rw [hconst] at hc
    cases hc
  | some c =>
    rw [hconst] at hc
    obtain ⟨k, rfl, _⟩ := hg.primitive_of_constant hρ hconst hi
    exact of_decide_eq_true hc

end Constants

end Graph

/-- The value that a condition chooses. -/
def chosen (ρ : NodeId → Word) (c t f : NodeId) : Word := if (ρ c).isTrue then ρ t else ρ f

namespace Term

variable {g : Graph Label} {ρ : NodeId → Word} {c t f : NodeId} {w : Nat}

theorem exists_choose (ht : (g.stamp t).IsInteger w) (hf : (g.stamp f).IsInteger w) :
    ∃ r, choose g (.node c) (.node t) (.node f) = .ok r ∧ r.eval ρ = some (chosen ρ c t f) := by
  obtain ⟨s, hs⟩ := Graph.exists_met ht hf
  refine ⟨_, by rw [choose, meetStamp, Result.bind_of_ok hs]; rfl, ?_⟩
  rw [chosen, apply_ite some]
  rfl

/-- Each negation exchanges the values, until the condition is constant or no negation. -/
theorem exists_selectionWithin (hρ : g.Models ρ) (fuel : Nat) (ht : (g.stamp t).IsInteger w)
    (hf : (g.stamp f).IsInteger w) :
    ∃ r, selectionWithin g fuel c t f = .ok r ∧ r.eval ρ = some (chosen ρ c t f) := by
  induction fuel generalizing c t f with
  | zero => exact exists_choose ht hf
  | succ fuel ih =>
    unfold selectionWithin
    split
    · rename_i d hd
      obtain ⟨r, hr, hvalue⟩ := ih (c := d) hf ht
      refine ⟨r, hr, hvalue.trans ?_⟩
      rw [chosen, chosen, hρ.isTrue_of_negation hd]
      cases (ρ d).isTrue <;> rfl
    · rename_i b hb
      refine ⟨_, rfl, ?_⟩
      rw [chosen, hρ.eq_of_truth hb, Word.isTrue_ofTruth, eval, apply_ite ρ]
    · exact exists_choose ht hf

end Term

namespace Canonical

open Reduction

variable {g : Graph Label} {ρ : NodeId → Word} {c t f x : NodeId} {w : Nat} {s : IntStamp}

theorem exists_convertUnsigned (hρ : g.Models ρ) (hx : (g.stamp x).IsInteger w) (s : IntStamp) :
    ∃ r, convertUnsigned g x (.int s) = .ok r ∧
      r.Denotes g ρ ((Word.low w (ρ x)).setWidth s.bits) := by
  have hle := hx.le
  have hnode := Term.denotes_node hρ hx
  obtain ⟨a, ha, rfl, hwell⟩ := hx.exists_int
  unfold convertUnsigned
  rw [ha]
  dsimp only
  split
  · rename_i heq
    rw [← heq] at hx
    refine ⟨_, rfl, ?_⟩
    rw [Word.low, BitVec.setWidth_setWidth_of_le _ (Nat.le_of_eq heq)]
    exact Term.denotes_node hρ hx
  · split
    · exact Term.exists_resize hle .narrow s.bits hnode
    · exact Term.exists_resize hle .zeroExtend s.bits hnode

theorem ofLow_setWidth_of_up_one (hρ : g.Models ρ) {a : IntStamp} (hx : (g.stamp x).IsInteger a.bits)
    (ha : g.stamp x = .int a) (hv : a.contains (ρ x) = true) (hup : a.up = 1) :
    Word.ofLow ((Word.low a.bits (ρ x)).setWidth 32) = if ρ x == 0 then 0 else 1 := by
  have hwell : a.WellFormed := by
    rw [ha] at hx
    exact hx.2
  have hpos := hwell.bits_pos
  rw [← hρ.ofLow_low hx, Word.low_ofLow hwell.bits_le]
  rcases hwell.low_of_up_one hv hup with hbit | hbit
  · rw [hbit, BitVec.setWidth_zero, Word.ofLow_zero, Word.ofLow_zero]
    rfl
  · have hone : (1#a.bits).setWidth 32 = 1#32 := by
      apply BitVec.eq_of_toNat_eq
      rw [BitVec.toNat_setWidth, BitVec.toNat_ofNat, Nat.mod_eq_of_lt (Nat.one_lt_two_pow (by omega))]
      rfl
    have hne : Word.ofLow (1#a.bits) ≠ 0 := by
      intro hzero
      have hlow := congrArg (Word.low a.bits) hzero
      rw [Word.low_ofLow hwell.bits_le, Word.low_zero] at hlow
      exact absurd (BitVec.one_eq_zero_iff.mp hlow) (by omega)
    rw [hbit, hone, if_neg (by simpa using hne)]
    rfl

/-- A choice between integers of a width, in a valuation that keeps to what is known. -/
structure Choosing (g : Graph Label) (ρ : NodeId → Word) (w : Nat) (c t f : NodeId) : Prop where
  sorted : g.WellSorted
  models : g.Models ρ
  known : g.Known ρ
  condition : g.comparesIntegers c = true
  whenTrue : (g.stamp t).IsInteger w
  whenFalse : (g.stamp f).IsInteger w

section Rules

variable (h : Choosing g ρ w c t f)

include h

theorem gives_selectResolved :
    Gives (·.eval ρ = some (chosen ρ c t f)) (selectResolved g (.int s) c t f) := by
  obtain ⟨r, hr, hvalue⟩ :=
    Term.exists_selectionWithin (c := c) h.models g.nodes.size h.whenTrue h.whenFalse
  unfold selectResolved
  split
  · exact gives_build hr hvalue
  · exact gives_build hr hvalue
  · exact gives_pass

theorem gives_selectBit (hs : s.bits = w) :
    Gives (·.eval ρ = some (chosen ρ c t f)) (selectBit g (.int s) c t f) := by
  unfold selectBit
  split
  · rename_i x y hshape
    split
    · rename_i a ha
      split
      · rename_i hguard
        simp only [Bool.and_eq_true, decide_eq_true_eq] at hguard
        obtain ⟨⟨⟨hyc, hup⟩, htc⟩, hfc⟩ := hguard
        have hx : (g.stamp x).IsInteger a.bits := by
          have hstamp := (Graph.isInteger_of_comparesIntegers h.condition hshape).1
          rw [ha] at hstamp ⊢
          exact hstamp
        obtain ⟨hbits, htrue⟩ := h.sorted.eq_of_int h.models h.whenTrue htc
        obtain ⟨_, hfalse⟩ := h.sorted.eq_of_int h.models h.whenFalse hfc
        obtain ⟨r, hr, hvalue⟩ := exists_convertUnsigned h.models hx s
        refine gives_build hr (hvalue.value.trans (congrArg some ?_))
        rw [chosen, h.models.isTrue_of_compare hshape rfl,
          h.models.eq_of_constant h.sorted.wellTyped hyc, htrue, hfalse, hs.trans hbits]
        exact ofLow_setWidth_of_up_one h.models hx ha (h.known.contains ha hx) hup
      · exact gives_pass
    · exact gives_pass
  · exact gives_pass

theorem gives_selectEqual :
    Gives (·.eval ρ = some (chosen ρ c t f)) (selectEqual g (.int s) c t f) := by
  unfold selectEqual
  split
  · rename_i cmp x y hshape
    split
    · rename_i hguard
      simp only [Bool.and_eq_true, decide_eq_true_eq, Bool.or_eq_true, beq_iff_eq] at hguard
      obtain ⟨heq, hoperands⟩ := hguard
      obtain rfl := Graph.eq_of_comparesIntegers h.condition hshape heq
      refine gives_keep (congrArg some ?_)
      rw [chosen, h.models.isTrue_of_compare hshape rfl]
      rcases hoperands with ⟨rfl, rfl⟩ | ⟨rfl, rfl⟩
      · split
        · rename_i hxy
          exact (beq_iff_eq.mp hxy).symm
        · rfl
      · split
        · rename_i hxy
          exact beq_iff_eq.mp hxy
        · rfl
    · exact gives_pass
  · exact gives_pass

omit h in
theorem gives_selectSame :
    Gives (·.eval ρ = some (chosen ρ c t f)) (selectSame g (.int s) c t f) := by
  unfold selectSame
  split
  · rename_i hsame
    subst hsame
    exact gives_keep (congrArg some (ite_self (ρ t)).symm)
  · exact gives_pass

theorem gives_selectSum :
    Gives (·.eval ρ = some (chosen ρ c t f)) (selectSum g (.int s) c t f) := by
  unfold selectSum
  split
  · rename_i x y s' a b hshape hstamp hsum
    split
    · rename_i hguard
      simp only [Bool.and_eq_true, beq_iff_eq] at hguard
      obtain ⟨⟨hzero, rfl⟩, rfl⟩ := hguard
      have ht := Graph.shape?_of_binary? hsum
      obtain ⟨hx, hb⟩ := h.sorted.wellTyped.operands rfl ht h.whenTrue
      have hy := (Graph.isInteger_of_comparesIntegers h.condition hshape).2
      obtain rfl : s'.bits = w := by
        have hint := h.whenTrue
        rw [hstamp] at hint
        exact hint.1
      obtain ⟨sign, hsign, hsignValue⟩ := Term.exists_shift hx.le .shr (Term.denotes_node h.models hx)
        (Nat.sub_one_lt_of_lt hx.pos)
      obtain ⟨_, hmask, hmaskValue⟩ := Term.exists_arith hx.le .and hsignValue
        (Term.denotes_node h.models hb) rfl
      obtain ⟨_, hadd, haddValue⟩ := Term.exists_arith hx.le .add (Term.denotes_node h.models hx)
        hmaskValue rfl
      rw [Result.bind_of_ok hsign, Result.bind_of_ok hmask]
      refine gives_build hadd (haddValue.value.trans (congrArg some ?_))
      rw [chosen, h.models.isTrue_of_compare hshape rfl, h.sorted.eq_zero_of_isDefault h.models hy hzero,
        h.models.eq_of_arith ht h.whenTrue rfl, ShiftOp.onValue]
      split
      · rename_i hneg
        rw [Word.slt_zero_iff, ← h.models.toInt_low hx] at hneg
        rw [Word.sshiftRight_and_of_neg hneg]
      · rename_i hneg
        rw [Word.slt_zero_iff, ← h.models.toInt_low hx, not_lt] at hneg
        rw [Word.sshiftRight_and_of_nonneg hneg, BitVec.add_zero, h.models.ofLow_low hx]
    · exact gives_pass
  · exact gives_pass

theorem gives_select (hs : s.bits = w) :
    Gives (·.eval ρ = some (chosen ρ c t f)) (select g (.int s) c t f) := by
  refine gives_findSomeM fun rule hrule => ?_
  simp only [List.mem_cons, List.not_mem_nil, or_false] at hrule
  rcases hrule with rfl | rfl | rfl | rfl | rfl
  · exact gives_selectResolved h
  · exact gives_selectBit h hs
  · exact gives_selectEqual h
  · exact gives_selectSame
  · exact gives_selectSum h

end Rules

end Canonical

namespace FlowGraph

/-- A choice between integers always has a canonical form, itself if no rule applies, and that form has
the value which the condition chooses. -/
theorem canonical_select_exact (f : FlowGraph) {ρ : NodeId → Word} (hg : f.graph.WellSorted)
    (hρ : f.graph.Models ρ) (hknown : f.graph.Known ρ) {n c a b : NodeId}
    (hn : f.graph.shape? n = some (.select c a b)) (hc : f.graph.comparesIntegers c = true) {w : Nat}
    (hint : (f.graph.stamp n).IsInteger w) (ha : (f.graph.stamp a).IsInteger w)
    (hb : (f.graph.stamp b).IsInteger w) :
    ∃ o, f.canonical n = .ok (f, o) ∧
      (o.getD (.node n)).eval ρ = some (if (ρ c).isTrue then ρ a else ρ b) := by
  obtain ⟨s, hs, hbits, _⟩ := hint.exists_int
  have hgives := Canonical.gives_select ⟨hg, hρ, hknown, hc, ha, hb⟩ hbits
  obtain ⟨o, ho, hvalue⟩ := f.exists_canonical (Graph.op?_select hn) (by rintro _ ⟨⟩)
    (by simpa only [reduce, hn, hs] using hgives)
  refine ⟨o, ho, ?_⟩
  cases o with
  | none => exact congrArg some (hρ.eq_of_select hn)
  | some t => exact hvalue t rfl

/-- The sum of two parameters if the first one is negative, and the first one otherwise. -/
def negativeSum : FlowGraph where
  graph := ⟨#[⟨{ op := .leaf (.parameter 0), stamp := .int (.full 32) }, [], .ofList [3, 4, 5], true⟩,
    ⟨{ op := .leaf (.parameter 1), stamp := .int (.full 32) }, [], .ofList [4], true⟩,
    ⟨{ op := .leaf (.constant (.ofInt32 0)), stamp := .int (.single 32 0) }, [], .ofList [3], true⟩,
    ⟨{ op := .binary (.compare .intLess), stamp := .void }, [some 0, some 2], .ofList [5], true⟩,
    ⟨{ op := .binary (.arith .add), stamp := .int (.full 32) }, [some 0, some 1], .ofList [5], true⟩,
    ⟨{ op := .select, stamp := .int (.full 32) }, [some 3, some 4, some 0], {}, true⟩], #[], []⟩
  control := []

def negativeSumValues (i : NodeId) : Word :=
  [-2147483648, -1, 0, 1, 2147483647, 2147483647].getD i 0

theorem canonical_select_exact_negativeSum :
    ∃ o, negativeSum.canonical 5 = .ok (negativeSum, o) ∧
      (o.getD (.node 5)).eval negativeSumValues = some 2147483647 :=
  @canonical_select_exact negativeSum negativeSumValues (by decide) (by decide) (by decide) 5 3 4 0 rfl
    (by decide) 32 (by decide) (by decide) (by decide)

/-- The second parameter is masked with the sign of the first. -/
example : negativeSum.canonical 5 = .ok (negativeSum, some (.binary (.arith .add) (.int (.full 32)) (.node 0)
    (.binary (.arith .and) (.int (.full 32))
      (.binary (.shift .shr) (.int (.ofBounds 32 (-1) 0)) (.node 0)
        (.leaf (.constant (.ofInt32 31)) (.int (.single 32 31)))) (.node 1)))) := by
  rfl

end FlowGraph

end CompilerKit
