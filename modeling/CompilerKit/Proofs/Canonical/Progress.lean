import CompilerKit.Proofs.Canonical.ConditionAnswers
import CompilerKit.Proofs.Graph.Preservation
import CompilerKit.Proofs.Graph.Waiting

/-! # Canonicalization of graphs that type check

There are two faults that the rules of a node can run into: a floating quotient of constants whose
divisor is zero, and an unsigned comparison of a constant with a three-way comparison. A visit of any
other node comes to its end and leaves a graph that type checks. So canonicalization fails exactly if it
comes to visit a node with a fault, and never if there are neither floating quotients nor three-way
comparisons.
-/

namespace CompilerKit

variable {F : Fragment} {g g' : Graph Label} {f : FlowGraph} {i x y : NodeId} {w : IntWidth}
  {τ : ValueType} {e : Fault}

namespace Result

def failsWith {α : Type} (r : Result α) (e : Fault) : Bool :=
  match r with
  | .ok _ => false
  | .error e' => e' = e

theorem eq_error_of_failsWith {α : Type} {r : Result α} (h : failsWith r e = true) :
    r = .error e := by
  cases r with
  | ok a => cases h
  | error e' => rw [of_decide_eq_true h]

end Result

namespace Graph

def fault? (g : Graph Label) (i : NodeId) : Option Fault :=
  match g.shape? i with
  | some (.binary (.arith op) x y) =>
    if (op = .div ∨ op = .rem) ∧ g.isConstant x = true ∧ g.integer? y = some 0 then
      some .divisionByZero
    else none
  | some (.binary (.compare .intBelow) x y) => g.belowFault? i x y
  | _ => none

/-- The same operators, applied to the same nodes. -/
structure SameOperators (g g' : Graph Label) : Prop where
  op? : ∀ j, g'.op? j = g.op? j
  inputs : ∀ j, g'.inputs j = g.inputs j

theorem SameNodes.operators (h : SameNodes g g') : SameOperators g g' :=
  ⟨fun j => by rw [Graph.op?, h.label, Graph.op?], h.inputs⟩

theorem SameOperators.fault? (h : SameOperators g g') : g'.fault? i = g.fault? i := by
  have hshape (j : NodeId) : g'.shape? j = g.shape? j := by rw [shape?, h.op?, h.inputs, shape?]
  have hconstant (j : NodeId) : g'.constant? j = g.constant? j := by
    rw [constant?, h.op?, constant?]
  have hisConstant (j : NodeId) : g'.isConstant j = g.isConstant j := by
    rw [isConstant, hconstant, isConstant]
  have hinteger (j : NodeId) : g'.integer? j = g.integer? j := by
    rw [integer?, hconstant, integer?]
  have hisOrder (j : NodeId) : g'.isOrder j = g.isOrder j := by rw [isOrder, hshape, isOrder]
  have hbelow (j k : NodeId) : g'.belowFault? i j k = g.belowFault? i j k := by
    simp only [belowFault?, hconstant, hisOrder]
  simp only [Graph.fault?, hshape, hisConstant, hinteger, hbelow]

theorem fault?_of_isCommutative {op : Binary} (hop : g.op? i = some (.binary op))
    (hcomm : op.isCommutative = true) : g.fault? i = none := by
  unfold fault?
  split
  · rename_i op' x y hshape
    obtain rfl : op = .arith op' := by simpa [hop, Shape.op] using (op?_of_shape? hshape).1
    refine if_neg ?_
    rintro ⟨rfl | rfl, _⟩ <;> cases hcomm
  · rename_i x y hshape
    obtain rfl : op = .compare .intBelow := by simpa [hop, Shape.op] using (op?_of_shape? hshape).1
    cases hcomm
  · rfl

theorem commute_fault? (hfault : g.fault? i = none) : (g.commute i).1.fault? i = none := by
  unfold commute
  split
  · rename_i op x y hshape
    split
    · rename_i hcond
      simp only [Bool.and_eq_true] at hcond
      refine fault?_of_isCommutative ?_ hcond.1.1
      rw [op?, swapInputs, label?_setInputs]
      exact (op?_of_shape? hshape).1
    · exact hfault
  · exact hfault

/-- Without floating quotients and three-way comparisons there is no fault. -/
theorem TypeChecks.fault?_eq_none (hg : g.TypeChecks .total) (i : NodeId) : g.fault? i = none := by
  have hisOrder (j : NodeId) : g.isOrder j = false := by
    unfold isOrder
    split
    · rename_i hshape
      obtain ⟨τ, hj⟩ := hg.exists_type (op?_of_shape? hshape).1
      exact (hg.order hshape hj).1.elim
    · rfl
  unfold fault?
  split
  · rename_i op x y hshape
    obtain ⟨τ, hi⟩ := hg.exists_type (op?_of_shape? hshape).1
    obtain ⟨ρ, σ, htyping, _⟩ := hg.binary hshape hi
    cases htyping with
    | arith hF =>
      refine if_neg ?_
      rintro ⟨rfl | rfl, _⟩
      · exact hF.1 rfl
      · exact hF.2 rfl
  · simp only [belowFault?, hisOrder]
    split <;> rfl
  · rfl

end Graph

open Reduction Canonical.Answers

/-! The rules of a node. -/

section Reduce

variable (hg : f.graph.TypeChecks F) (hi : f.graph.Has F i τ)

include hg hi

/-- A node without a fault is answered with a term of its type, or not at all. -/
theorem FlowGraph.gives_reduce (hfault : f.graph.fault? i = none) :
    Gives (·.Has F f.graph τ) (f.reduce i) := by
  have hs := hi.describes
  unfold FlowGraph.reduce
  dsimp only
  split
  · rename_i op x hshape
    obtain ⟨σ, htyping, hx⟩ := hg.unary hshape hi
    cases htyping with
    | arith1 hop => exact gives_unaryArith hg hx hop
  · rename_i op m n x hshape
    obtain ⟨σ, htyping, hx⟩ := hg.unary hshape hi
    cases htyping with
    | resize hm hn => exact gives_resize hg hs hm hn hx op
  · rename_i op x hshape
    obtain ⟨σ, htyping, _⟩ := hg.unary hshape hi
    cases htyping
  · rename_i s x hshape
    obtain ⟨σ, htyping, _⟩ := hg.unary hshape hi
    cases htyping
  · rename_i s x hshape
    exact gives_when fun _ => gives_node (hg.refine hshape hi).2
  · rename_i x hshape
    obtain ⟨σ, htyping, _⟩ := hg.unary hshape hi
    cases htyping
  · rename_i x hshape
    obtain ⟨σ, htyping, hx⟩ := hg.unary hshape hi
    cases htyping
    exact gives_negation hg hx
  · rename_i op x y hshape
    obtain ⟨ρ, σ, htyping, hx, hy⟩ := hg.binary hshape hi
    rw [Graph.fault?, hshape] at hfault
    dsimp only at hfault
    cases htyping with
    | arith hF =>
      refine gives_binaryArith hg hs hx hy hF fun hop hconst hzero => ?_
      rw [if_pos ⟨hop, hconst, hzero⟩] at hfault
      cases hfault
  · rename_i op x y hshape
    obtain ⟨ρ, σ, htyping, hx, hy⟩ := hg.binary hshape hi
    cases htyping
    exact gives_shift hg hs hx op hy
  · rename_i c x y hshape
    obtain ⟨hc, rfl, v, hx, hy⟩ := hg.compare hshape hi
    refine gives_compare hg hx hy hc i ?_
    rintro rfl
    rwa [Graph.fault?, hshape] at hfault
  · rename_i x y hshape
    obtain ⟨ρ, σ, htyping, _⟩ := hg.binary hshape hi
    cases htyping
    exact gives_test
  · rename_i a b p x y hshape
    obtain ⟨ρ, σ, htyping, hx, hy⟩ := hg.binary hshape hi
    cases htyping
    exact gives_either hg a b p hx hy
  · rename_i d x y hshape
    obtain ⟨w, rfl, hx, hy⟩ := hg.divide hshape hi
    exact gives_divide hg hs hx hy _ d
  · rename_i c t e hshape
    obtain ⟨w, rfl, hc, ht, he⟩ := hg.select hshape hi
    exact gives_select hg hs hc ht he
  · exact gives_pass

theorem FlowGraph.reduce_of_fault (hfault : f.graph.fault? i = some e) : f.reduce i = .error e := by
  unfold Graph.fault? at hfault
  split at hfault
  · rename_i op x y hshape
    obtain ⟨⟨hop, hconst, hzero⟩, ⟨⟩⟩ := Option.ite_none_right_eq_some.mp hfault
    obtain ⟨ρ, σ, htyping, hx, hy⟩ := hg.binary hshape hi
    cases htyping
    rw [FlowGraph.reduce, hshape]
    have hfold := foldConstants_of_zero (s := f.graph.stamp i) hx hy hop hconst hzero
    rcases hop with rfl | rfl
    · exact firstBinary_of_error hfold _
    · exact hfold
  · rename_i x y hshape
    rw [FlowGraph.reduce, hshape]
    exact firstBinary_of_error (compareCommon_of_fault hfault) _
  · cases hfault

end Reduce

/-! The stamp of a node. -/

theorem ValueType.Describes.of_constant? {s : Stamp} {c : Constant} (hs : τ.Describes s)
    (hc : s.constant? = some c) : ∃ w x, τ = .integer w ∧ c = .primitive w.kind x := by
  cases τ with
  | integer w =>
    obtain ⟨t, rfl, ht⟩ := hs
    rw [Stamp.constant?, IntStamp.constant?, ht, w.ofBits?_bits] at hc
    obtain ⟨_, ⟨⟩⟩ := Option.ite_none_right_eq_some.mp hc
    exact ⟨w, _, rfl, rfl⟩
  | truth | control =>
    cases hs
    cases hc

namespace Graph

section InferStamp

theorem selectStamp_describes {c t f : NodeId} (ht : g.Has F t (.integer w))
    (hf : g.Has F f (.integer w)) :
    ∃ s, Canonical.selectStamp g c t f = .ok s ∧ (ValueType.integer w).Describes s := by
  obtain ⟨s, hs, hdescribes⟩ := met_describes ht hf
  have hjoin (b : IntStamp) : ∃ s', s.join (.int b) = .ok s' ∧ (ValueType.integer w).Describes s' := by
    obtain ⟨a, rfl, ha⟩ := hdescribes
    exact ⟨_, rfl, _, rfl, (a.join_bits b).trans ha⟩
  have hmeet : Term.meetStamp g (.node t) (.node f) = .ok s := hs
  unfold Canonical.selectStamp
  rw [Result.bind_of_ok hmeet]
  split
  · split
    · split
      · exact hjoin _
      · split
        · exact hjoin _
        · exact ⟨s, rfl, hdescribes⟩
    · exact ⟨s, rfl, hdescribes⟩
  · exact ⟨s, rfl, hdescribes⟩

variable (hg : g.TypeChecks F) (hi : g.Has F i τ)

include hg hi

theorem inferredStamp_describes : ∃ s, g.inferredStamp i = .ok s ∧ τ.Describes s := by
  unfold inferredStamp
  split
  · rename_i op x hshape
    obtain ⟨σ, htyping, hx⟩ := hg.unary hshape hi
    cases htyping with
    | arith1 hop =>
      obtain ⟨s, hs, hbits⟩ := hx.exists_int
      obtain ⟨t, ht, htbits⟩ := op.exists_onStamp hop s
      exact ⟨_, by rw [hs, ht], t, rfl, htbits.trans hbits⟩
  · rename_i op m n x hshape
    obtain ⟨σ, htyping, hx⟩ := hg.unary hshape hi
    cases htyping with
    | resize hm hn =>
      obtain ⟨s, hs, hbits⟩ := hx.exists_int
      rw [hs, hm, hn, ← hbits]
      exact ⟨_, rfl, _, rfl, op.onInt_bits _ s⟩
  · rename_i op x hshape
    obtain ⟨σ, htyping, _⟩ := hg.unary hshape hi
    cases htyping
  · rename_i declared x hshape
    obtain ⟨σ, htyping, hx⟩ := hg.unary hshape hi
    cases htyping with
    | refine hs =>
      obtain ⟨t, ht, _⟩ := hx.exists_int
      rw [ht]
      exact ⟨_, rfl, _, rfl, (IntStamp.join_bits _ t).trans hs⟩
  · rename_i op x y hshape
    obtain ⟨ρ, σ, htyping, hx, hy⟩ := hg.binary hshape hi
    cases htyping
    obtain ⟨s, hs, hsbits⟩ := hx.exists_int
    obtain ⟨t, ht, htbits⟩ := hy.exists_int
    rw [hs, ht]
    exact ⟨_, rfl, _, rfl, (op.onInt_bits (htbits.trans hsbits.symm)).trans hsbits⟩
  · rename_i op x y hshape
    obtain ⟨ρ, σ, htyping, hx, hy⟩ := hg.binary hshape hi
    cases htyping
    obtain ⟨s, hs, hsbits⟩ := hx.exists_int
    obtain ⟨t, ht, _⟩ := hy.exists_int
    rw [hs, ht]
    exact ⟨_, rfl, _, rfl, (op.onInt_bits s t).trans hsbits⟩
  · rename_i x y hshape
    obtain ⟨w, rfl, hx, hy⟩ := hg.divide hshape hi
    obtain ⟨s, hs, hsbits⟩ := hx.exists_int
    obtain ⟨t, ht, _⟩ := hy.exists_int
    rw [hs, ht]
    exact ⟨_, rfl, _, rfl, (s.div_bits t).trans hsbits⟩
  · rename_i x y hshape
    obtain ⟨w, rfl, hx, hy⟩ := hg.divide hshape hi
    obtain ⟨s, hs, hsbits⟩ := hx.exists_int
    obtain ⟨t, ht, _⟩ := hy.exists_int
    rw [hs, ht]
    exact ⟨_, rfl, _, rfl, (IntStamp.ofBounds_bits ..).trans hsbits⟩
  · rename_i c t f hshape
    obtain ⟨w, rfl, _, ht, hf⟩ := hg.select hshape hi
    exact selectStamp_describes ht hf
  · exact ⟨_, rfl, hi.describes⟩

theorem inferStamp_keeps :
    ∃ r, g.inferStamp i = .ok r ∧ Keeps F g r.1 ∧ SameOperators g r.1 := by
  obtain ⟨s, hs, hdescribes⟩ := inferredStamp_describes hg hi
  unfold inferStamp
  rw [Result.bind_of_ok hs]
  split
  · exact ⟨_, rfl, .refl hg, fun _ => rfl, fun _ => rfl⟩
  · exact ⟨_, rfl, hg.setStamp _ hi hdescribes, fun _ => op?_setStamp .., fun _ => inputs_setStamp ..⟩

end InferStamp

end Graph

/-! One visit. -/

namespace FlowGraph

variable (hg : f.graph.TypeChecks F) (hi : f.graph.Has F i τ)

include hg hi

/-- A node without a fault has a canonical form of its type, or is left as it is. -/
theorem canonical_keeps (hfault : f.graph.fault? i = none) :
    ∃ r, f.canonical i = .ok r ∧ Graph.Keeps F f.graph r.1.graph ∧ Graph.SameOperators f.graph r.1.graph ∧
      ∀ t ∈ r.2, t.Has F r.1.graph τ := by
  unfold canonical
  split
  · obtain ⟨⟨g, b⟩, hinfer, hkeeps, hsame⟩ := Graph.inferStamp_keeps hg hi
    obtain ⟨o, ho, hτ⟩ := gives_reduce (f := { f with graph := g }) hkeeps.checks (hkeeps.has hi)
      (hsame.fault?.trans hfault)
    rw [Result.bind_of_ok hinfer]
    dsimp only
    rw [Result.bind_of_ok ho]
    exact ⟨_, rfl, hkeeps, hsame, hτ⟩
  · obtain ⟨o, ho, hτ⟩ := gives_reduce hg hi hfault
    rw [Result.bind_of_ok ho]
    exact ⟨_, rfl, .refl hg, ⟨fun _ => rfl, fun _ => rfl⟩, hτ⟩

theorem canonical_of_fault (hfault : f.graph.fault? i = some e) : f.canonical i = .error e := by
  unfold canonical
  split
  · rename_i s hop
    unfold Graph.fault? at hfault
    split at hfault
    · rename_i hshape
      cases hop.symm.trans (Graph.op?_of_shape? hshape).1
    · rename_i hshape
      cases hop.symm.trans (Graph.op?_of_shape? hshape).1
    · cases hfault
  · rw [reduce_of_fault hg hi hfault]
    rfl

theorem replaceBy_keeps {other : NodeId} (ho : f.graph.Has F other τ) :
    Graph.Keeps F f.graph (f.replaceBy i other).graph := by
  have hfits {g : Graph Label} (h : g.Has F other τ) : g.Fits F (some other) τ := by
    rintro _ ⟨⟩
    exact h
  unfold replaceBy
  split
  · exact hg.replaceAtUsagesAndDelete hi (hfits ho)
  · have htouched := hg.same (.elim (f.next? i) fun j => .touch f.graph j)
    refine htouched.trans ?_
    dsimp only
    split
    · exact htouched.checks.replaceAtUsagesAndDelete (htouched.has hi) (hfits (htouched.has ho))
    · have hcleared := htouched.checks.clearInputs i
      have hkept := htouched.trans hcleared
      have hreplaced := hkept.checks.replaceAtUsages (hkept.has hi) (hfits (hkept.has ho))
      exact (hcleared.trans hreplaced).trans (hreplaced.checks.same (.delete _ i))

theorem replace_keeps {t : Term} (ht : t.Has F f.graph τ) :
    Graph.Keeps F f.graph (f.replace i t).graph := by
  have hadds := hg.insert ht
  have hplaced := replaceBy_keeps (f := { f with graph := (f.graph.insert t).1 }) hadds.keeps.checks
    (hadds.keeps.has hi) hadds.has
  unfold replace
  dsimp only
  split
  · rename_i hop _ _
    obtain ⟨args, htyping⟩ := hi.op_typing hop
    cases htyping
  · exact hadds.keeps.trans hplaced

/-- A node without a fault is replaced, or it is left without one. -/
theorem tryReduce_keeps (hfault : f.graph.fault? i = none) :
    ∃ r, f.tryReduce i = .ok r ∧ Graph.Keeps F f.graph r.1.graph ∧
      (r.2 = false → r.1.graph.fault? i = none) := by
  obtain ⟨⟨f', o⟩, hcanonical, hkeeps, hsame, hτ⟩ := canonical_keeps hg hi hfault
  have hfault' := hsame.fault?.trans hfault
  have hi' := hkeeps.has hi
  have hcommuted := hkeeps.trans (hkeeps.checks.commute i)
  have hquiet : (f'.graph.commute i).1.fault? i = none := Graph.commute_fault? hfault'
  unfold tryReduce
  rw [Result.bind_of_ok hcanonical]
  cases o with
  | some t =>
    refine ⟨_, rfl, hkeeps.trans (replace_keeps hkeeps.checks hi' (hτ t rfl)), ?_⟩
    rintro ⟨⟩
  | none =>
    dsimp only [commute]
    cases (f'.graph.commute i).2 with
    | false => exact ⟨_, rfl, hcommuted, fun _ => hquiet⟩
    | true =>
      dsimp only
      split
      · rename_i other hother
        have hreplaced := replaceBy_keeps (f := { f' with graph := (f'.graph.commute i).1 })
          hcommuted.checks (hcommuted.has hi) ((hcommuted.has hi).duplicate hother)
        refine ⟨_, rfl, hcommuted.trans hreplaced, ?_⟩
        rintro ⟨⟩
      · exact ⟨_, rfl, hcommuted, fun _ => hquiet⟩

omit hg hi in
theorem killWithin_same (fuel : Nat) (g : Graph Label) (i : NodeId) :
    Graph.SameNodes g (killWithin fuel g i) := by
  induction fuel generalizing g i with
  | zero => exact .refl g
  | succ fuel ih =>
    unfold killWithin
    refine (Graph.SameNodes.delete g i).trans (.foldl (fun g x => ?_) _ _)
    split
    · exact ih g x
    · exact .refl g

theorem refineStamp_keeps (hfault : f.graph.fault? i = none) :
    ∃ f', f.refineStamp i = .ok f' ∧ Graph.Keeps F f.graph f'.graph := by
  obtain ⟨⟨g, improved⟩, hinfer, hkeeps, hsame⟩ := Graph.inferStamp_keeps hg hi
  have htouched : Graph.SameNodes g (if improved = true then g.touchAll (g.usages i) else g) := by
    split
    · exact .touchAll g _
    · exact .refl g
  unfold refineStamp
  rw [Result.bind_of_ok hinfer]
  dsimp only
  generalize (if improved = true then g.touchAll (g.usages i) else g) = g₁ at htouched
  have hkeeps₁ := hkeeps.trans (hkeeps.checks.same htouched)
  have hi₁ := hkeeps₁.has hi
  have hfault₁ : g₁.fault? i = none :=
    htouched.operators.fault?.trans (hsame.fault?.trans hfault)
  split
  · rename_i c hc _
    obtain ⟨w, x, rfl, rfl⟩ := hi₁.describes.of_constant? hc
    obtain ⟨t, ht, hτ⟩ := Term.formed_constant (F := F) (g := g₁) hi₁.describes x
    have hadds := hkeeps₁.checks.insert hτ
    have hfits : (g₁.insert t).1.Fits F (some (g₁.insert t).2) (.integer w) := by
      rintro _ ⟨⟩
      exact hadds.has
    have hreplaced := hadds.keeps.checks.replaceAtSlots (hadds.keeps.has hi₁) hfits
      fun label slot => label.op.takesValue slot
    have hkeeps₂ := (hkeeps₁.trans hadds.keeps).trans hreplaced
    rw [Result.bind_of_ok ht]
    split
    · exact ⟨_, rfl, hkeeps₂.trans (hkeeps₂.checks.same (killWithin_same ..))⟩
    · exact ⟨_, rfl, hkeeps₂⟩
  · split
    · obtain ⟨⟨f₂, b⟩, hreduce, hkeeps₂, _⟩ :=
        tryReduce_keeps (f := ⟨g₁, f.control⟩) hkeeps₁.checks hi₁ hfault₁
      rw [Result.bind_of_ok hreduce]
      cases b with
      | true => exact ⟨_, rfl, hkeeps₁.trans hkeeps₂⟩
      | false =>
        exact ⟨_, rfl, (hkeeps₁.trans hkeeps₂).trans (hkeeps₂.checks.same (.touchAll _ _))⟩
    · exact ⟨_, rfl, hkeeps₁⟩

omit hg hi in
/-- The fault that a visit runs into; a duplicate or an unused node is removed unseen. -/
def fault? (f : FlowGraph) (i : NodeId) : Option Fault :=
  if f.isFloating i = true ∧ (f.graph.duplicateOf? i).isSome = true ∨ f.isUnused i = true then none
  else f.graph.fault? i

theorem visit_keeps (hfault : f.fault? i = none) :
    ∃ f', f.visit i = .ok f' ∧ Graph.Keeps F f.graph f'.graph := by
  unfold visit
  split
  · rename_i other hother
    obtain ⟨_, hdup⟩ := Option.ite_none_right_eq_some.mp hother
    refine ⟨_, rfl, hg.replaceAtUsagesAndDelete hi ?_⟩
    rintro _ ⟨⟩
    exact hi.duplicate hdup
  · rename_i hother
    split
    · exact ⟨_, rfl, hg.same (killWithin_same ..)⟩
    · rename_i hused
      have hquiet : f.graph.fault? i = none := by
        rw [fault?, if_neg] at hfault
        · exact hfault
        · rintro (⟨hfloating, hdup⟩ | hunused)
          · rw [if_pos hfloating] at hother
            rw [hother] at hdup
            cases hdup
          · exact hused hunused
      obtain ⟨⟨f', b⟩, hreduce, hkeeps, hleft⟩ := tryReduce_keeps hg hi hquiet
      rw [Result.bind_of_ok hreduce]
      cases b with
      | true => exact ⟨f', rfl, hkeeps⟩
      | false =>
        obtain ⟨f'', hrefine, hkeeps'⟩ :=
          refineStamp_keeps hkeeps.checks (hkeeps.has hi) (hleft rfl)
        exact ⟨f'', hrefine, hkeeps.trans hkeeps'⟩

theorem visit_of_fault (hfault : f.fault? i = some e) : f.visit i = .error e := by
  obtain ⟨hcond, hfault⟩ := Option.ite_none_left_eq_some.mp hfault
  have hcanonical := canonical_of_fault hg hi hfault
  unfold visit
  split
  · rename_i other hother
    obtain ⟨hfloating, hdup⟩ := Option.ite_none_right_eq_some.mp hother
    exact absurd (.inl ⟨hfloating, by rw [hdup]; rfl⟩) hcond
  · rw [if_neg fun hunused => hcond (.inr hunused), tryReduce, hcanonical]
    rfl

omit hg hi

/-! The whole run. -/

/-- Starting from a work list, a visit of the node `i` of `k` is come to before the limit. -/
inductive Reaches : Nat → WorkList → FlowGraph → FlowGraph → NodeId → Prop where
  | here {limit : Nat} {w w' : WorkList} {f : FlowGraph} {i : NodeId}
      (hnext : w.next? f.graph = some (i, w')) : Reaches (limit + 1) w f f i
  | later {limit : Nat} {w w' : WorkList} {f f' k : FlowGraph} {i j : NodeId}
      (hnext : w.next? f.graph = some (j, w')) (hvisit : f.visit j = .ok f')
      (h : Reaches limit (w'.addAll f'.graph f'.graph.touched.toList)
        { f' with graph := f'.graph.settle } k i) : Reaches (limit + 1) w f k i

/-- Canonicalization comes to visit the node `i` when the graph has become `k`. -/
def Visits (f k : FlowGraph) (i : NodeId) : Prop :=
  Reaches (10 * f.graph.count) (.filled f.graph) { f with graph := f.graph.settle } k i

theorem isAlive_of_next? {w w' : WorkList} (h : w.next? g = some (i, w')) : g.isAlive i = true := by
  unfold WorkList.next? at h
  split at h
  · cases h
  · rename_i hdrop
    cases h
    exact WorkList.isAlive_of_dropDeleted hdrop

theorem work_step {w w' : WorkList} (hg : f.graph.TypeChecks F) (limit : Nat)
    (hnext : w.next? f.graph = some (i, w')) :
    (∃ e, f.fault? i = some e ∧ f.visit i = .error e ∧ work (limit + 1) w f = .error e) ∨
    ∃ f', f.fault? i = none ∧ f.visit i = .ok f' ∧ f'.graph.settle.TypeChecks F ∧
      work (limit + 1) w f = work limit (w'.addAll f'.graph f'.graph.touched.toList)
        { f' with graph := f'.graph.settle } := by
  obtain ⟨τ, hi⟩ := hg.exists_type_of_isAlive (isAlive_of_next? hnext)
  rw [work, hnext]
  dsimp only
  cases hfault : f.fault? i with
  | some e =>
    have hvisit := visit_of_fault hg hi hfault
    exact .inl ⟨e, rfl, hvisit, by rw [hvisit]; rfl⟩
  | none =>
    obtain ⟨f', hvisit, hkeeps⟩ := visit_keeps hg hi hfault
    exact .inr ⟨f', rfl, hvisit, (hkeeps.checks.same (.settle f'.graph)).checks,
      Result.bind_of_ok hvisit _⟩

/-- The loop fails exactly if it comes to a node with a fault. -/
theorem work_fails_iff {limit : Nat} {w : WorkList} (hg : f.graph.TypeChecks F) :
    work limit w f = .error e ↔ ∃ k i, Reaches limit w f k i ∧ k.fault? i = some e := by
  induction limit generalizing w f with
  | zero =>
    constructor
    · rintro ⟨⟩
    · rintro ⟨k, i, ⟨⟩, _⟩
  | succ limit ih =>
    cases hnext : w.next? f.graph with
    | none =>
      rw [work, hnext]
      constructor
      · rintro ⟨⟩
      · rintro ⟨k, i, hreaches, _⟩
        cases hreaches with
        | here h => cases hnext.symm.trans h
        | later h _ _ => cases hnext.symm.trans h
    | some next =>
      obtain ⟨i, w'⟩ := next
      obtain ⟨e', hfault, hvisit, hwork⟩ | ⟨f', hfault, hvisit, hchecks, hwork⟩ :=
        work_step hg limit hnext
      · rw [hwork]
        constructor
        · rintro ⟨⟩
          exact ⟨f, i, .here hnext, hfault⟩
        · rintro ⟨k, j, hreaches, hk⟩
          cases hreaches with
          | here h =>
            cases hnext.symm.trans h
            cases hfault.symm.trans hk
            rfl
          | later h hvisit' _ =>
            cases hnext.symm.trans h
            cases hvisit.symm.trans hvisit'
      · rw [hwork, ih (f := { f' with graph := f'.graph.settle }) hchecks]
        constructor
        · rintro ⟨k, j, hreaches, hk⟩
          exact ⟨k, j, .later hnext hvisit hreaches, hk⟩
        · rintro ⟨k, j, hreaches, hk⟩
          cases hreaches with
          | here h =>
            cases hnext.symm.trans h
            cases hfault.symm.trans hk
          | later h hvisit' hreaches =>
            cases hnext.symm.trans h
            cases hvisit.symm.trans hvisit'
            exact ⟨k, j, hreaches, hk⟩

theorem work_typeChecks {limit : Nat} {w : WorkList} {r : FlowGraph} (hg : f.graph.TypeChecks F)
    (h : work limit w f = .ok r) : r.graph.TypeChecks F := by
  induction limit generalizing w f with
  | zero =>
    cases h
    exact hg
  | succ limit ih =>
    cases hnext : w.next? f.graph with
    | none =>
      rw [work, hnext] at h
      cases h
      exact hg
    | some next =>
      obtain ⟨e, _, _, hwork⟩ | ⟨f', _, _, hchecks, hwork⟩ := work_step hg limit hnext
      · cases hwork.symm.trans h
      · exact ih (f := { f' with graph := f'.graph.settle }) hchecks (hwork.symm.trans h)

/-- Without floating quotients and three-way comparisons the loop comes to its end. -/
theorem exists_work (limit : Nat) (w : WorkList) (hg : f.graph.TypeChecks .total) :
    ∃ r, work limit w f = .ok r := by
  induction limit generalizing w f with
  | zero => exact ⟨f, rfl⟩
  | succ limit ih =>
    cases hnext : w.next? f.graph with
    | none => exact ⟨f, by rw [work, hnext]⟩
    | some next =>
      obtain ⟨e, hfault, _⟩ | ⟨f', _, _, hchecks, hwork⟩ := work_step hg limit hnext
      · have hnone := hg.fault?_eq_none next.1
        cases hnone.symm.trans (Option.ite_none_left_eq_some.mp hfault).2
      · rw [hwork]
        exact ih (f := { f' with graph := f'.graph.settle }) _ hchecks

/-! Graphs of one term. -/

theorem typeChecks_start : start.graph.TypeChecks F := by
  have hempty : (Graph.empty : Graph Label).TypeChecks F := by
    intro i l hl
    cases Graph.lt_size_of_label? hl
  have hadded : Graph.Adds F .empty .control (Graph.empty.add { op := .start, stamp := .void } []) :=
    hempty.add .start rfl .nil
  exact (hadded.keeps.checks.same (.settle _)).checks

theorem typeChecks_finish (hg : f.graph.TypeChecks F) (hi : f.graph.Has F i (.integer w)) :
    (f.finish i).graph.TypeChecks F := by
  have hfits : f.graph.Fits F (some i) (.integer w) := by
    rintro _ ⟨⟩
    exact hi
  have hadded : Graph.Adds F f.graph .control
      (f.graph.add { op := .ret, stamp := .void } [some i]) := hg.add .ret rfl (.cons hfits .nil)
  exact hadded.keeps.checks

def returning (t : Term) : FlowGraph := (start.insert t).1.finish (start.insert t).2

theorem typeChecks_returning {t : Term} (ht : t.Has F start.graph (.integer w)) :
    (returning t).graph.TypeChecks F := by
  have hadds := typeChecks_start.insert ht
  exact typeChecks_finish (f := (start.insert t).1) hadds.keeps.checks hadds.has

/-! Canonicalization. -/

theorem canonicalize_fails_only_at_faults (hf : f.graph.TypeChecks F) :
    (∀ e, f.canonicalize = .error e ↔ ∃ k i, f.Visits k i ∧ k.fault? i = some e) ∧
      (∀ r, f.canonicalize = .ok r → r.graph.TypeChecks F) ∧
      (F = .total → ∃ r, f.canonicalize = .ok r) := by
  have hsettled := (hf.same (.settle f.graph)).checks
  refine ⟨fun e => ?_, fun r hr => ?_, ?_⟩
  · exact work_fails_iff (f := { f with graph := f.graph.settle }) hsettled
  · exact work_typeChecks (f := { f with graph := f.graph.settle }) hsettled hr
  · rintro rfl
    exact exists_work (f := { f with graph := f.graph.settle }) _ _ hsettled

/-- An integer of 32 bits, an integer of 64 bits narrowed, and a product or a quotient of the two. -/
def boundedProduct : Term :=
  let x := Term.leaf (.parameter 0) (.int (.full 32))
  let y := Term.unary (.resize .narrow 64 32) (.int (.full 32))
    (.leaf (.parameter 1) (.int (.full 64)))
  .select (.int (.full 32)) (.compare .intLess x y)
    (.binary (.arith .mul) (.int (.full 32)) x (.ofInt 8))
    (.binary (.divide .quotient) (.int (.full 32)) x y)

theorem canonicalize_fails_only_at_faults_boundedProduct :
    (returning boundedProduct).graph.TypeChecks .total ∧
      ∃ r, (returning boundedProduct).canonicalize = .ok r := by
  have hx : (Term.leaf (.parameter 0) (.int (.full 32))).Has .total start.graph (.integer .int) :=
    .leaf .parameter ⟨_, rfl, rfl⟩
  have hwide : (Term.leaf (.parameter 1) (.int (.full 64))).Has .total start.graph
      (.integer .long) := .leaf .parameter ⟨_, rfl, rfl⟩
  have hy : (Term.unary (.resize .narrow 64 32) (.int (.full 32))
      (.leaf (.parameter 1) (.int (.full 64)))).Has .total start.graph (.integer .int) :=
    .unary (.resize rfl rfl) ⟨_, rfl, rfl⟩ hwide
  have hchecks : (returning boundedProduct).graph.TypeChecks .total := by
    refine typeChecks_returning (w := .int) (.select .select ⟨_, rfl, rfl⟩ ?_ ?_ ?_)
    · exact Term.has_compare trivial hx hy
    · exact .binary (.arith ⟨by decide, by decide⟩) ⟨_, rfl, rfl⟩ hx (Term.has_ofInt 8)
    · exact .binary .divide ⟨_, rfl, rfl⟩ hx hy
  exact ⟨hchecks, (canonicalize_fails_only_at_faults hchecks).2.2 rfl⟩

def quotientByZero : Term := .binary (.arith .div) (.int (.full 32)) (.ofInt 5) (.ofInt 0)

/-- Whether the three-way comparison of two parameters is below zero, as one or zero. -/
def orderBelowZero : Term :=
  let x := Term.leaf (.parameter 0) (.int (.full 32))
  let y := Term.leaf (.parameter 1) (.int (.full 32))
  .select (.int (.full 32)) (.compare .intBelow (.order false x y) (.ofInt 0)) (.ofInt 1) (.ofInt 0)

/-- Type checking is not enough: each of the two faults occurs. -/
theorem typed_graphs_fail :
    ((returning quotientByZero).graph.TypeChecks .all ∧
      (returning quotientByZero).canonicalize = .error .divisionByZero) ∧
    (returning orderBelowZero).graph.TypeChecks .all ∧
      (returning orderBelowZero).canonicalize =
        .error (Canonical.orderFault .intBelow 5 3 (.primitive .int 0) false) := by
  have hx (k : Int) : (Term.leaf (.parameter k) (.int (.full 32))).Has .all start.graph
      (.integer .int) := .leaf .parameter ⟨_, rfl, rfl⟩
  refine ⟨⟨?_, ?_⟩, ?_, ?_⟩
  · exact typeChecks_returning (w := .int)
      (.binary (.arith trivial) ⟨_, rfl, rfl⟩ (Term.has_ofInt 5) (Term.has_ofInt 0))
  · exact Result.eq_error_of_failsWith (by decide +kernel)
  · refine typeChecks_returning (w := .int)
      (.select .select ⟨_, rfl, rfl⟩ ?_ (Term.has_ofInt 1) (Term.has_ofInt 0))
    exact Term.has_compare trivial (.binary (.order trivial) ⟨_, rfl, rfl⟩ (hx 0) (hx 1))
      (Term.has_ofInt 0)
  · exact Result.eq_error_of_failsWith (by decide +kernel)

end FlowGraph

end CompilerKit
