import CompilerKit.Proofs.Canonical.Answers

/-! # Types of the answers for conditions and choices

A comparison of integers is answered by a condition, and a choice by an integer. One combination has no
answer: a three-way comparison whose result is compared with a constant without sign.
-/

namespace CompilerKit

variable {F : Fragment} {g : Graph Label} {s : Stamp} {x y i : NodeId} {v w : IntWidth} {τ : ValueType}

/-- Whether a node compares three ways. -/
def Graph.isOrder (g : Graph Label) (i : NodeId) : Bool :=
  match g.shape? i with
  | some (.binary (.order _) _ _) => true
  | _ => false

/-- The fault of an unsigned comparison between a constant and a three-way comparison. -/
def Graph.belowFault? (g : Graph Label) (self x y : NodeId) : Option Fault :=
  match g.constant? x, g.constant? y with
  | some a, none =>
    if g.isOrder y then some (Canonical.orderFault .intBelow self y a true) else none
  | none, some b =>
    if g.isOrder x then some (Canonical.orderFault .intBelow self x b false) else none
  | _, _ => none

/-- A conversion that type checks changes the width of its operand, and constants go there and back. -/
structure Canonical.Conversion.Typed (F : Fragment) (g : Graph Label) (c : Canonical.Conversion)
    (v w : IntWidth) : Prop where
  operand : g.Has F c.operand (.integer v)
  there (a : Word) : ∃ b, c.there (.primitive v.kind a) = .ok (.primitive w.kind b)
  back (b : Word) : ∃ a, c.back (.primitive w.kind b) = .ok (.primitive v.kind a)

namespace Canonical.Answers

open Reduction Term

variable {t : Term}

theorem has_negated (hg : g.TypeChecks F) (ht : t.Has F g .truth) :
    (negated g t).Has F g .truth := by
  unfold negated
  split
  · exact has_truth _
  · cases ht with
    | unary h _ hx =>
      cases h
      exact hx
  · cases ht with
    | node hi =>
      split
      · exact has_truth _
      · exact .node (hg.negation ‹_› hi)
      · exact has_negation (.node hi)
  · exact has_negation ht

theorem exists_fold (c : Condition) (a b : Word) (unordered : Bool) :
    ∃ r, c.fold (.primitive w.kind a) (.primitive w.kind b) unordered = .ok r := by
  cases w <;> exact ⟨_, rfl⟩

theorem formed_orElse {r : Reduction} (hr : Gives (·.Has F g τ) r) (ht : t.Has F g τ) :
    Formed F g τ (orElse r t) := by
  obtain ⟨o, rfl, ho⟩ := hr
  cases o with
  | none => exact formed_ok ht
  | some u => exact formed_ok (ho u rfl)

theorem gives_foldComparison (hx : g.Has F x (.integer w)) (hy : g.Has F y (.integer w))
    (c : Comparison) : Gives (·.Has F g .truth) (foldComparison c g x y) := by
  unfold foldComparison
  split
  · rename_i a b ha hb
    obtain ⟨a, rfl⟩ := hx.constant ha
    obtain ⟨b, rfl⟩ := hy.constant hb
    obtain ⟨r, hr⟩ := exists_fold (w := w) c.condition a b c.unorderedIsTrue
    rw [hr]
    exact gives_become (has_truth r)
  · exact gives_pass

theorem has_commuted (hx : g.Has F x τ) (hy : g.Has F y τ) :
    g.Has F (commuted g x y).1 τ ∧ g.Has F (commuted g x y).2 τ := by
  unfold commuted
  split
  · exact ⟨hy, hx⟩
  · exact ⟨hx, hy⟩

theorem has_equalsChoice (hg : g.TypeChecks F) (hx : g.Has F x τ) {t : Term}
    (ht : t ∈ equalsChoice g x y) : t.Has F g .truth := by
  unfold equalsChoice at ht
  split at ht
  · rename_i c _ _ hshape
    obtain ⟨_, _, hc, _⟩ := hg.select hshape hx
    split at ht
    · cases ht
      exact .node hc
    · split at ht <;> cases ht
      exact has_negated hg (.node hc)
  · cases ht

theorem has_synonymLess {decideOn : IntStamp → IntStamp → Option Bool} {t : Term}
    (ht : t ∈ synonymLess decideOn g x y) : t.Has F g .truth := by
  unfold synonymLess at ht
  split at ht
  · cases ht
    exact has_truth false
  · split at ht
    · obtain ⟨b, _, rfl⟩ := Option.map_eq_some_iff.mp ht
      exact has_truth b
    · cases ht

theorem has_getD {o : Option Term} (ho : ∀ u ∈ o, u.Has F g τ) (ht : t.Has F g τ) :
    (o.getD t).Has F g τ := by
  cases o with
  | none => exact ht
  | some u => exact ho u rfl

theorem formed_comparison (hg : g.TypeChecks F) (hx : g.Has F x (.integer w))
    (hy : g.Has F y (.integer w)) {c : Comparison} (hc : c.OnIntegers) :
    Formed F g .truth (comparison g c x y) := by
  have hfold := gives_foldComparison hx hy c
  have hplain : (Term.compare c (.node x) (.node y)).Has F g .truth :=
    has_compare hc (.node hx) (.node hy)
  obtain ⟨hx', hy'⟩ := has_commuted hx hy
  unfold comparison
  cases c with
  | intEquals =>
    refine formed_orElse hfold (has_getD ?_ (has_compare hc (.node hx') (.node hy')))
    intro u hu
    split at hu
    · exact has_equalsChoice hg hx hu
    · exact has_equalsChoice hg hy hu
  | intLess | intBelow => exact formed_orElse hfold (has_getD (fun _ => has_synonymLess) hplain)
  | floatEquals | floatLess _ | objectEquals | pointerEquals => exact hc.elim

/-! Negations and disjunctions. -/

theorem gives_negation (hg : g.TypeChecks F) (hx : g.Has F x .truth) :
    Gives (·.Has F g .truth) (negation g s x) := by
  unfold negation
  split
  · exact gives_become (has_truth _)
  · exact gives_node (hg.negation ‹_› hx)
  · exact gives_pass

theorem has_strippedWithin (hg : g.TypeChecks F) (fuel : Nat) (odd : Bool)
    (hx : g.Has F x .truth) : g.Has F (strippedWithin g fuel x odd).1 .truth := by
  induction fuel generalizing x odd with
  | zero => exact hx
  | succ fuel ih =>
    unfold strippedWithin
    split
    · exact ih _ (hg.negation ‹_› hx)
    · exact hx

theorem has_signed (negated : Bool) (hx : g.Has F x .truth) :
    (signed negated x).Has F g .truth := by
  cases negated with
  | true => exact has_negation (.node hx)
  | false => exact .node hx

theorem gives_either (hg : g.TypeChecks F) (a b : Bool) (p : FloatingPoint.Double)
    (hx : g.Has F x .truth) (hy : g.Has F y .truth) :
    Gives (·.Has F g .truth) (either a b p g s x y) := by
  have hx' := has_strippedWithin hg g.nodes.size a hx
  have hy' := has_strippedWithin hg g.nodes.size b hy
  unfold either
  refine gives_if (fun _ => ?_) fun _ => gives_if (fun _ => ?_) fun _ => ?_
  · exact gives_become (.binary .either rfl (.node hx') (.node hy'))
  · split
    · exact gives_become (has_negated hg (.node hx))
    · exact gives_node hx
    · exact gives_become (has_truth true)
  · split
    · exact gives_if (fun _ => gives_become (has_truth true)) fun _ => gives_become (has_signed b hy)
    · exact gives_if (fun _ => gives_become (has_truth true)) fun _ => gives_become (has_signed a hx)
    · exact gives_pass

/-! Comparisons with a constant. -/

theorem has_arranged (flipped : Bool) {l r : Term} (hl : l.Has F g τ) (hr : r.Has F g τ) :
    (arranged flipped l r).1.Has F g τ ∧ (arranged flipped l r).2.Has F g τ := by
  cases flipped with
  | true => exact ⟨hr, hl⟩
  | false => exact ⟨hl, hr⟩

theorem formed_recompare {c : Comparison} (hc : c.OnIntegers) {l r : Term}
    (hl : l.Has F g (.integer w)) (hr : r.Has F g (.integer w)) :
    Formed F g .truth (recompare c g l r) := by
  obtain ⟨a, ha, _⟩ := hl.describes
  obtain ⟨b, hb, _⟩ := hr.describes
  unfold recompare
  rw [ha, hb]
  cases c with
  | intEquals | intLess | intBelow => exact formed_ok (has_compare hc hl hr)
  | floatEquals | floatLess _ | objectEquals | pointerEquals => exact hc.elim

theorem exists_typed (hg : g.TypeChecks F) {cond : Condition} {c : Conversion}
    (hi : g.Has F i (.integer w)) (h : conversion? g cond i = some c) :
    ∃ v : IntWidth, c.Typed F g v w := by
  unfold conversion? at h
  split at h
  · rename_i op m n x hshape
    obtain ⟨v, hm, hn, hx⟩ := hg.resize hshape hi
    cases h
    exact ⟨v, hx, exists_resizeOnConstant op m hn v.kind,
      exists_resizeOnConstant op.reverse n hm w.kind⟩
  · rename_i hshape
    obtain ⟨_, htyping, _⟩ := hg.unary hshape hi
    cases htyping
  · cases h

theorem gives_compareChoice (hg : g.TypeChecks F) (c : Comparison) (hi : g.Has F i (.integer w))
    (a : Word) (flipped : Bool) {cond t f : NodeId} (h : g.shape? i = some (.select cond t f)) :
    Gives (·.Has F g .truth) (compareChoice c g (.primitive w.kind a) cond t f flipped) := by
  obtain ⟨_, ⟨⟩, hcond, ht, hf⟩ := hg.select h hi
  unfold compareChoice
  generalize (if flipped = true then c.condition.flip else c.condition) = rel
  dsimp only
  split
  · rename_i b d hb hd
    obtain ⟨b, rfl⟩ := ht.constant hb
    obtain ⟨d, rfl⟩ := hf.constant hd
    obtain ⟨p, hp⟩ := exists_fold (w := w) rel b a c.unorderedIsTrue
    obtain ⟨q, hq⟩ := exists_fold (w := w) rel d a c.unorderedIsTrue
    rw [Result.bind_of_ok hp, Result.bind_of_ok hq]
    exact gives_if (fun _ => gives_become (has_truth p)) fun _ =>
      gives_if (fun _ => gives_node hcond) fun _ => gives_become (has_negated hg (.node hcond))
  · exact gives_pass

theorem gives_compareOrder (hg : g.TypeChecks F) {c : Comparison}
    (hc : c = .intEquals ∨ c = .intLess) (self : NodeId) (constant : Constant) (hi : g.Has F i τ)
    (b flipped : Bool) (h : g.shape? i = some (.binary (.order b) x y)) :
    Gives (·.Has F g .truth) (compareOrder c self g constant i x y b flipped) := by
  obtain ⟨_, v, hx, hy⟩ := hg.order h hi
  obtain ⟨t, ht, hbits⟩ := hx.exists_int
  obtain ⟨hl, hr⟩ := has_arranged flipped (.node hx) (.node hy)
  have hfloat : (g.stamp x).stackKind.isFloat = false := by
    rw [ht, v.stackKind_eq hbits]
    cases v <;> rfl
  unfold compareOrder
  rw [hfloat]
  rcases hc with rfl | rfl
  · exact gives_when fun _ => gives_become (has_compare trivial hl hr)
  · exact gives_when fun _ => gives_become (has_compare trivial hl hr)

theorem gives_compareConverted {c : Comparison} (hc : c.OnIntegers) (a : Word) {k : Conversion}
    (hk : k.Typed F g v w) (flipped : Bool) :
    Gives (·.Has F g .truth) (compareConverted c g (.primitive w.kind a) i k flipped) := by
  obtain ⟨b, hb⟩ := hk.back a
  obtain ⟨d, hd⟩ := hk.there b
  obtain ⟨t, ht, hτ⟩ := formed_constant (F := F) (g := g) hk.operand.describes b
  obtain ⟨hl, hr⟩ := has_arranged flipped (.node hk.operand) hτ
  unfold compareConverted
  refine gives_if (fun _ => gives_pass) fun _ => gives_if (fun _ => gives_pass) fun _ => ?_
  rw [Result.bind_of_ok hb, Result.bind_of_ok hd]
  refine gives_when fun _ => ?_
  rw [Result.bind_of_ok ht]
  exact (formed_recompare hc hl hr).gives

theorem gives_testShifted (hg : g.TypeChecks F) {op : ShiftOp} {u z : NodeId}
    (hi : g.Has F i (.integer w)) (h : g.shape? i = some (.binary (.shift op) u z))
    {bits : Nat → Term} (hbits : ∀ n, (bits n).Has F g (.integer w)) (c : Word) :
    Gives (·.Has F g .truth)
      ((g.stamp i).shiftMask >>= fun mask => become (.test (.node u) (bits (amountUnder mask c))))
      := by
  obtain ⟨t, ht, _⟩ := hi.exists_int
  rw [ht]
  exact gives_become (has_test (.node (hg.shift h hi).1) (hbits _))

theorem gives_equalsZero (hg : g.TypeChecks F) (hi : g.Has F i (.integer w)) (constant : Constant) :
    Gives (·.Has F g .truth) (equalsZero g constant i) := by
  unfold equalsZero
  refine gives_if (fun _ => gives_pass) fun _ => ?_
  split
  · rename_i a b hshape
    obtain ⟨_, ha, hb⟩ := hg.arith hshape hi
    exact gives_become (has_test (.node ha) (.node hb))
  · rename_i a b hshape
    obtain ⟨_, ha, hb⟩ := hg.arith hshape hi
    exact (formed_comparison (c := .intEquals) hg ha hb trivial).gives
  · rename_i u z hshape
    dsimp only
    split
    · exact gives_testShifted hg hi hshape (has_lowBits (hg.shift hshape hi).1.describes) _
    · exact gives_pass
  · rename_i u z hshape
    split
    · refine gives_when fun _ => ?_
      dsimp only
      split
      · exact gives_testShifted hg hi hshape (has_highBits (hg.shift hshape hi).1.describes) _
      · exact gives_pass
    · exact gives_pass
  · rename_i u z hshape
    dsimp only
    split
    · exact gives_testShifted hg hi hshape (has_highBits (hg.shift hshape hi).1.describes) _
    · exact gives_pass
  · exact gives_pass

theorem gives_equalsBit (hg : g.TypeChecks F) (hi : g.Has F i (.integer w)) (constant : Constant) :
    Gives (·.Has F g .truth) (equalsBit g constant i) := by
  unfold equalsBit
  split
  · rename_i a b hshape
    obtain ⟨_, ha, hb⟩ := hg.arith hshape hi
    exact gives_when fun _ => gives_become (has_negation (has_test (.node ha) (.node hb)))
  · exact gives_pass

theorem gives_compareWithConstant (hg : g.TypeChecks F) {c : Comparison} (hc : c.OnIntegers)
    (self : NodeId) (hi : g.Has F i (.integer w)) (a : Word) (flipped : Bool)
    (hbelow : c = .intBelow → g.isOrder i = false) :
    Gives (·.Has F g .truth) (compareWithConstant c self g (.primitive w.kind a) i flipped) := by
  have general : Gives (·.Has F g .truth)
      (compareComputed c self g (.primitive w.kind a) i flipped) := by
    unfold compareComputed
    split
    · exact gives_compareChoice hg c hi a flipped ‹_›
    · rename_i b x y hshape
      have hc' : c = .intEquals ∨ c = .intLess := by
        cases c with
        | intEquals => exact .inl rfl
        | intLess => exact .inr rfl
        | intBelow =>
          have horder := hbelow rfl
          rw [Graph.isOrder, hshape] at horder
          cases horder
        | floatEquals | floatLess _ | objectEquals | pointerEquals => exact hc.elim
      exact gives_compareOrder hg hc' self _ hi b flipped hshape
    · split
      · rename_i k hk
        obtain ⟨v, htyped⟩ := exists_typed hg hi hk
        exact gives_compareConverted hc a htyped flipped
      · exact gives_pass
  unfold compareWithConstant
  refine gives_if (fun _ => ?_) fun _ => general
  exact gives_otherwise (gives_equalsZero hg hi _) fun _ =>
    gives_otherwise (gives_equalsBit hg hi _) fun _ => general

theorem gives_compareBothConverted (hg : g.TypeChecks F) (hx : g.Has F x (.integer w))
    (hy : g.Has F y (.integer w)) {c : Comparison} (hc : c.OnIntegers) :
    Gives (·.Has F g .truth) (compareBothConverted c g x y) := by
  unfold compareBothConverted
  split
  · rename_i j k hj hk
    obtain ⟨u, hu⟩ := exists_typed hg hx hj
    obtain ⟨v, hv⟩ := exists_typed hg hy hk
    obtain ⟨s, hs, hsu⟩ := hu.operand.exists_int
    obtain ⟨t, ht, htv⟩ := hv.operand.exists_int
    refine gives_when fun h => ?_
    rw [Bool.and_eq_true, hs, ht] at h
    have hbits : s.bits = t.bits := of_decide_eq_true h.2
    obtain rfl := IntWidth.eq_of_bits ((hsu.symm.trans hbits).trans htv)
    exact gives_if (fun _ => gives_pass) fun _ =>
      (formed_recompare hc (.node hu.operand) (.node hv.operand)).gives
  · exact gives_pass

theorem gives_compareCommon (hg : g.TypeChecks F) (hx : g.Has F x (.integer w))
    (hy : g.Has F y (.integer w)) {c : Comparison} (hc : c.OnIntegers) (self : NodeId)
    (hbelow : c = .intBelow → g.belowFault? self x y = none) :
    Gives (·.Has F g .truth) (compareCommon c self g s x y) := by
  unfold compareCommon
  split
  · exact gives_foldComparison hx hy c
  · rename_i a ha hy'
    obtain ⟨a, rfl⟩ := hx.constant ha
    refine gives_compareWithConstant hg hc self hy a true fun h => ?_
    have hnone := hbelow h
    rw [Graph.belowFault?, ha, hy'] at hnone
    simpa using hnone
  · rename_i b hx' hb
    obtain ⟨b, rfl⟩ := hy.constant hb
    refine gives_compareWithConstant hg hc self hx b false fun h => ?_
    have hnone := hbelow h
    rw [Graph.belowFault?, hx', hb] at hnone
    simpa using hnone
  · exact gives_compareBothConverted hg hx hy hc

theorem compareWithConstant_of_isOrder (self : NodeId) (a : Constant) (flipped : Bool)
    (h : g.isOrder i = true) :
    compareWithConstant .intBelow self g a i flipped = .error
      (orderFault .intBelow self i a flipped) := by
  unfold Graph.isOrder at h
  split at h
  · rename_i hshape
    rw [compareWithConstant, if_neg (by simp), compareComputed, hshape]
    rfl
  · cases h

theorem compareCommon_of_fault {self : NodeId} {e : Fault} (h : g.belowFault? self x y = some e) :
    compareCommon .intBelow self g s x y = .error e := by
  unfold Graph.belowFault? at h
  split at h
  · rename_i a ha hy
    obtain ⟨horder, ⟨⟩⟩ := Option.ite_none_right_eq_some.mp h
    rw [compareCommon, ha, hy]
    exact compareWithConstant_of_isOrder self a true horder
  · rename_i b hx hb
    obtain ⟨horder, ⟨⟩⟩ := Option.ite_none_right_eq_some.mp h
    rw [compareCommon, hx, hb]
    exact compareWithConstant_of_isOrder self b false horder
  · cases h

theorem exists_alwaysDistinct (hx : g.Has F x (.integer w)) (hy : g.Has F y (.integer w)) :
    ∃ b, g.alwaysDistinct x y = .ok b := by
  obtain ⟨s, hs, _⟩ := hx.exists_int
  obtain ⟨t, ht, _⟩ := hy.exists_int
  unfold Graph.alwaysDistinct
  split
  · exact ⟨_, rfl⟩
  · rw [hs, ht]
    exact ⟨_, rfl⟩

theorem gives_equalsDecided (hx : g.Has F x (.integer w)) (hy : g.Has F y (.integer w)) :
    Gives (·.Has F g .truth) (equalsDecided g s x y) := by
  obtain ⟨b, hb⟩ := exists_alwaysDistinct hx hy
  unfold equalsDecided
  refine gives_if (fun _ => gives_become (has_truth true)) fun _ => ?_
  rw [Result.bind_of_ok hb]
  exact gives_when fun _ => gives_become (has_truth false)

theorem gives_lessDecided (decideOn : IntStamp → IntStamp → Option Bool) :
    Gives (·.Has F g .truth) (lessDecided decideOn g s x y) := ⟨_, rfl, fun _ => has_synonymLess⟩

theorem gives_lessSameSign (hx : g.Has F x (.integer w)) (hy : g.Has F y (.integer w)) :
    Gives (·.Has F g .truth) (lessSameSign g s x y) := by
  unfold lessSameSign
  split
  · exact gives_when fun _ => gives_become (has_compare trivial (.node hx) (.node hy))
  · exact gives_pass

theorem gives_lessDifference (hg : g.TypeChecks F) (hx : g.Has F x (.integer w)) :
    Gives (·.Has F g .truth) (lessDifference g s x y) := by
  unfold lessDifference
  split
  · rename_i c a b _ h
    obtain ⟨_, ha, hb⟩ := hg.arith (Graph.shape?_of_binary? h) hx
    obtain ⟨s, hs, _⟩ := ha.exists_int
    obtain ⟨t, ht, _⟩ := hb.exists_int
    refine gives_when fun _ => ?_
    rw [hs, ht]
    exact gives_when fun _ => gives_become (has_compare trivial (.node ha) (.node hb))
  · exact gives_pass

theorem gives_belowFromZero (hg : g.TypeChecks F) (hx : g.Has F x (.integer w))
    (hy : g.Has F y (.integer w)) : Gives (·.Has F g .truth) (belowFromZero g s x y) := by
  have hequal : Formed F g .truth (Term.comparison g .intEquals x y) :=
    formed_comparison hg hx hy trivial
  unfold belowFromZero
  split
  · refine gives_when fun _ => ?_
    exact (hequal.bind fun _ ht => formed_ok (has_negated hg ht)).gives
  · exact gives_pass

/-- Only an unsigned comparison of a constant with a three-way comparison has no answer. -/
theorem gives_compare (hg : g.TypeChecks F) (hx : g.Has F x (.integer w))
    (hy : g.Has F y (.integer w)) {c : Comparison} (hc : c.OnIntegers) (self : NodeId)
    (hbelow : c = .intBelow → g.belowFault? self x y = none) :
    Gives (·.Has F g .truth) (compare c self g s x y) := by
  have hcommon := gives_compareCommon (s := s) hg hx hy hc self hbelow
  cases c with
  | intEquals =>
    refine gives_firstBinary_cons (gives_equalsDecided hx hy) fun _ => ?_
    exact gives_firstBinary_cons hcommon fun _ => gives_firstBinary_nil
  | intLess =>
    refine gives_firstBinary_cons hcommon fun _ => ?_
    refine gives_firstBinary_cons (gives_lessDecided _) fun _ => ?_
    refine gives_firstBinary_cons (gives_lessSameSign hx hy) fun _ => ?_
    exact gives_firstBinary_cons (gives_lessDifference hg hx) fun _ => gives_firstBinary_nil
  | intBelow =>
    refine gives_firstBinary_cons hcommon fun _ => ?_
    refine gives_firstBinary_cons (gives_lessDecided _) fun _ => ?_
    exact gives_firstBinary_cons (gives_belowFromZero hg hx hy) fun _ => gives_firstBinary_nil
  | floatEquals | floatLess _ | objectEquals | pointerEquals => exact hc.elim

theorem gives_test : Gives (·.Has F g .truth) (test g s x y) := by
  unfold test
  split
  · exact gives_become (has_truth _)
  · split
    · refine ⟨_, rfl, fun t ht => ?_⟩
      obtain ⟨b, _, rfl⟩ := Option.map_eq_some_iff.mp ht
      exact has_truth b
    · exact gives_pass

/-! Choices. -/

section Select

variable {c t f : NodeId}

theorem formed_selectionWithin (hg : g.TypeChecks F) (hc : g.Has F c .truth)
    (ht : g.Has F t (.integer w)) (hf : g.Has F f (.integer w)) (fuel : Nat) :
    Formed F g (.integer w) (Term.selectionWithin g fuel c t f) := by
  induction fuel generalizing c t f with
  | zero => exact formed_choose (.node hc) ht hf
  | succ fuel ih =>
    unfold Term.selectionWithin
    split
    · exact ih (hg.negation ‹_› hc) hf ht
    · refine formed_ok ?_
      split
      · exact .node ht
      · exact .node hf
    · exact formed_choose (.node hc) ht hf

theorem gives_selectResolved (hg : g.TypeChecks F) (hc : g.Has F c .truth)
    (ht : g.Has F t (.integer w)) (hf : g.Has F f (.integer w)) :
    Gives (·.Has F g (.integer w)) (selectResolved g s c t f) := by
  unfold selectResolved
  split
  · exact (formed_selectionWithin hg hc ht hf _).gives
  · exact (formed_selectionWithin hg hc ht hf _).gives
  · exact gives_pass

theorem formed_convertUnsigned (hs : (ValueType.integer w).Describes s)
    (hx : g.Has F x (.integer v)) : Formed F g (.integer w) (convertUnsigned g x s) := by
  obtain ⟨a, ha, hav⟩ := hx.exists_int
  obtain ⟨b, rfl, hbw⟩ := hs
  unfold convertUnsigned
  rw [ha]
  dsimp only
  split
  · rename_i h
    obtain rfl := IntWidth.eq_of_bits ((hav.symm.trans h.symm).trans hbw)
    exact formed_ok (.node hx)
  · split
    · exact formed_resize .narrow hav hbw (.node hx)
    · exact formed_resize .zeroExtend hav hbw (.node hx)

theorem gives_selectBit (hg : g.TypeChecks F) (hs : (ValueType.integer w).Describes s)
    (hc : g.Has F c .truth) : Gives (·.Has F g (.integer w)) (selectBit g s c t f) := by
  unfold selectBit
  split
  · rename_i x y hshape
    obtain ⟨_, _, v, hx, _⟩ := hg.compare hshape hc
    split
    · exact gives_when fun _ => (formed_convertUnsigned hs hx).gives
    · exact gives_pass
  · exact gives_pass

theorem gives_selectEqual (hf : g.Has F f (.integer w)) :
    Gives (·.Has F g (.integer w)) (selectEqual g s c t f) := by
  unfold selectEqual
  split
  · exact gives_when fun _ => gives_node hf
  · exact gives_pass

theorem gives_selectSame (ht : g.Has F t (.integer w)) :
    Gives (·.Has F g (.integer w)) (selectSame g s c t f) :=
  gives_when fun _ => gives_node ht

theorem gives_selectSum (hg : g.TypeChecks F) (ht : g.Has F t (.integer w))
    (hf : g.Has F f (.integer w)) : Gives (·.Has F g (.integer w)) (selectSum g s c t f) := by
  unfold selectSum
  split
  · rename_i x y u a b _ _ h
    obtain ⟨_, ha, hb⟩ := hg.arith (Graph.shape?_of_binary? h) ht
    refine gives_when fun hcond => Formed.gives ?_
    simp only [Bool.and_eq_true, beq_iff_eq] at hcond
    obtain ⟨⟨_, rfl⟩, _⟩ := hcond
    refine (formed_shift .shr (.node hf) (has_ofInt _)).bind fun _ hsign => ?_
    refine (formed_arith admits_and hsign (.node hb)).bind fun _ hmasked => ?_
    exact formed_arith admits_add (.node ha) hmasked
  · exact gives_pass

theorem gives_select (hg : g.TypeChecks F) (hs : (ValueType.integer w).Describes s)
    (hc : g.Has F c .truth) (ht : g.Has F t (.integer w)) (hf : g.Has F f (.integer w)) :
    Gives (·.Has F g (.integer w)) (select g s c t f) := by
  apply gives_findSomeM
  intro rule hrule
  simp only [List.mem_cons, List.not_mem_nil, or_false] at hrule
  rcases hrule with rfl | rfl | rfl | rfl | rfl
  · exact gives_selectResolved hg hc ht hf
  · exact gives_selectBit hg hs hc
  · exact gives_selectEqual hf
  · exact gives_selectSame ht
  · exact gives_selectSum hg ht hf

end Select

end Canonical.Answers

end CompilerKit
