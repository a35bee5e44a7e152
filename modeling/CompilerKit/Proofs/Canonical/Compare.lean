import CompilerKit.Proofs.Branch
import CompilerKit.Proofs.Canonical.Rule

/-! # Comparisons of extended integers

Two extended integers are compared by what they were extended from, if each of the two extensions keeps
the order. An extension keeps it among its own results only, so the answer is wrong for some integers if
one of the extensions regards the sign and the other one does not. For each comparison the pairs of
integers for which this happens are found out exactly.
-/

namespace CompilerKit

namespace ResizeOp

variable {i r : Nat} {p q : ResizeOp} (a b : BitVec i)

/-- A sign extension adds high bits to a negative integer, and nothing else is added. -/
theorem toNat_onValue (hp : p ≠ .narrow) (hir : i ≤ r) : (p.onValue r a).toNat =
    a.toNat + if p = .signExtend ∧ a.msb = true then 2 ^ r - 2 ^ i else 0 := by
  cases p with
  | zeroExtend =>
    rw [onValue, BitVec.toNat_setWidth_of_le hir, if_neg (by simp), Nat.add_zero]
  | signExtend =>
    rw [onValue, BitVec.toNat_signExtend, BitVec.toNat_setWidth_of_le hir]
    simp only [true_and]
  | narrow => exact absurd rfl hp

theorem eq_or_eq (hp : p ≠ .narrow) : p = .zeroExtend ∨ p = .signExtend := by
  cases p with
  | zeroExtend => exact .inl rfl
  | signExtend => exact .inr rfl
  | narrow => exact absurd rfl hp

theorem two_mul_two_pow_le (hir : i < r) : 2 * 2 ^ i ≤ 2 ^ r := by
  rw [← Nat.pow_succ']
  exact Nat.pow_le_pow_right (by decide) hir

variable (hp : p ≠ .narrow) (hq : q ≠ .narrow) (hir : i < r)

include hp hq hir

theorem onValue_eq_iff :
    p.onValue r a = q.onValue r b ↔ a = b ∧ (p = q ∨ a.msb = false) := by
  have ha := a.isLt
  have hb := b.isLt
  have hpow := two_mul_two_pow_le hir
  rw [← BitVec.toNat_inj, ← BitVec.toNat_inj, toNat_onValue a hp hir.le, toNat_onValue b hq hir.le]
  simp only [BitVec.msb_eq_decide, decide_eq_true_eq, decide_eq_false_iff_not]
  rcases eq_or_eq hp with rfl | rfl
  · rcases eq_or_eq hq with rfl | rfl
    · simp only [reduceCtorEq, false_and, if_false, true_or, and_true, Nat.add_zero]
    · simp only [reduceCtorEq, false_and, if_false, true_and, false_or, Nat.add_zero]
      split <;> omega
  · rcases eq_or_eq hq with rfl | rfl
    · simp only [reduceCtorEq, false_and, if_false, true_and, false_or, Nat.add_zero]
      split <;> omega
    · simp only [true_and, true_or, and_true]
      split <;> split <;> omega

theorem onValue_ult_iff :
    (p.onValue r a).ult (q.onValue r b) = true ↔
      if p = q then a.ult b = true
      else if p = .zeroExtend then a.ult b = true ∨ b.msb = true
      else a.ult b = true ∧ a.msb = false := by
  have ha := a.isLt
  have hb := b.isLt
  have hpow := two_mul_two_pow_le hir
  rw [BitVec.ult, BitVec.ult, toNat_onValue a hp hir.le, toNat_onValue b hq hir.le]
  simp only [BitVec.msb_eq_decide, decide_eq_true_eq, decide_eq_false_iff_not]
  rcases eq_or_eq hp with rfl | rfl
  · rcases eq_or_eq hq with rfl | rfl
    · simp only [reduceCtorEq, false_and, if_false, if_true, Nat.add_zero]
    · simp only [reduceCtorEq, false_and, if_false, if_true, true_and, Nat.add_zero]
      split <;> omega
  · rcases eq_or_eq hq with rfl | rfl
    · simp only [reduceCtorEq, false_and, if_false, true_and, Nat.add_zero]
      split <;> omega
    · simp only [if_true, true_and]
      split <;> split <;> omega

end ResizeOp

theorem Word.slt_signExtend {i r : Nat} (hir : i ≤ r) (a b : BitVec i) :
    (a.signExtend r).slt (b.signExtend r) = a.slt b := by
  rw [Bool.eq_iff_iff, BitVec.slt_iff_toInt_lt, BitVec.slt_iff_toInt_lt,
    BitVec.toInt_signExtend_of_le hir, BitVec.toInt_signExtend_of_le hir]

/-- The comparisons of two extended integers that come out wrong. Equality holds of the integers but not
of the extended ones if they are negative and only one extension regards the sign. If the integers are
taken to be distinct from what is known of them, it is wrong whenever it holds. The unsigned order changes
if the sign of just one of the integers is regarded: that integer becomes the greater one. -/
def Comparison.misjudges (denied : Bool) (p q : ResizeOp) {i : Nat} (r : Nat) (a b : BitVec i) :
    Comparison → Bool
  | intEquals => if denied then p.onValue r a == q.onValue r b else p ≠ q && a == b && a.msb
  | intBelow => p ≠ q && if p = .zeroExtend then b.msb && !a.ult b else a.msb && a.ult b
  | _ => false

section Values

variable {i r : Nat} {p q : ResizeOp} (hp : p ≠ .narrow) (hq : q ≠ .narrow) (hir : i < r)
  (a b : BitVec i)

include hp hq hir

theorem Comparison.beq_eq_xor_misjudges :
    (a == b) = ((p.onValue r a == q.onValue r b) ^^ intEquals.misjudges false p q r a b) := by
  have hwide : (p.onValue r a == q.onValue r b) = (a == b && (decide (p = q) || !a.msb)) := by
    rw [Bool.eq_iff_iff, beq_iff_eq, ResizeOp.onValue_eq_iff a b hp hq hir]
    simp
  rw [hwide]
  simp only [misjudges]
  by_cases hpq : p = q
  · simp [hpq]
  · cases a == b <;> cases a.msb <;> simp [hpq]

theorem Comparison.ult_eq_xor_misjudges :
    a.ult b =
      ((p.onValue r a).ult (q.onValue r b) ^^ intBelow.misjudges false p q r a b) := by
  have hwide : (p.onValue r a).ult (q.onValue r b) =
      if p = q then a.ult b else if p = .zeroExtend then a.ult b || b.msb else a.ult b && !a.msb := by
    rw [Bool.eq_iff_iff, ResizeOp.onValue_ult_iff a b hp hq hir]
    split
    · rfl
    · split <;> simp
  rw [hwide]
  simp only [misjudges]
  by_cases hpq : p = q
  · simp [hpq]
  · by_cases hzero : p = .zeroExtend
    · cases a.ult b <;> cases b.msb <;> simp [hzero, hzero ▸ hpq]
    · cases a.ult b <;> cases a.msb <;> simp [hpq, hzero]

end Values

theorem IntStamp.Summands.slt_eq_ult {s t : IntStamp} {v u : Word} (h : Summands s t v u)
    (hsign : s.sameSign t = true) :
    (Word.low s.bits v).slt (Word.low s.bits u) = (Word.low s.bits v).ult (Word.low s.bits u) := by
  obtain ⟨⟨hlo, hhi⟩, hlo', hhi'⟩ := h.bounds
  rw [sameSign, Bool.or_eq_true, Bool.and_eq_true, Bool.and_eq_true, isPositive_iff, isPositive_iff,
    isStrictlyNegative_iff, isStrictlyNegative_iff] at hsign
  rw [Bool.eq_iff_iff, h.slt_iff, h.ult_iff]
  omega

theorem Term.eval_compare {g : Graph Label} {ρ : NodeId → Word} (hρ : g.Models ρ) {w : Nat}
    {x y : NodeId} (hx : (g.stamp x).IsInteger w) (hy : (g.stamp y).IsInteger w) (c : Comparison) :
    (compare c (node x) (node y)).eval ρ =
      (c.onIntegers (Word.low w (ρ x)) (Word.low w (ρ y))).map Word.ofTruth := by
  rw [compare, eval_binary rfl rfl, Binary.eval, ← c.onValues_ofLow hx.le, hρ.ofLow_low hx,
    hρ.ofLow_low hy]

/-- Equality of two nodes is denied because nothing that is known of them agrees. -/
def Graph.deniesEquality (g : Graph Label) (x y : NodeId) : Bool :=
  !g.sameValue x y && (g.alwaysDistinct x y).toOption == some true

theorem Graph.alwaysDistinct_of_deniesEquality {g : Graph Label} {x y : NodeId}
    (h : g.deniesEquality x y = true) : g.alwaysDistinct x y = .ok true := by
  rw [deniesEquality, Bool.and_eq_true, beq_iff_eq] at h
  cases hdistinct : g.alwaysDistinct x y with
  | error e =>
    rw [hdistinct] at h
    cases h.2
  | ok d =>
    rw [hdistinct] at h
    exact congrArg Except.ok (Option.some.inj h.2)

namespace Canonical

open Reduction

theorem equalsDecided_eq {g : Graph Label} {x y : NodeId} {w : Nat} (hx : (g.stamp x).IsInteger w)
    (hy : (g.stamp y).IsInteger w) (hsame : g.sameValue x y ≠ true) (s : Stamp) :
    equalsDecided g s x y = if g.deniesEquality x y then become (.truth false) else pass := by
  obtain ⟨d, hd⟩ : ∃ d, g.alwaysDistinct x y = .ok d := by
    obtain ⟨a, ha, _⟩ := hx.exists_int
    obtain ⟨b, hb, _⟩ := hy.exists_int
    rw [Graph.alwaysDistinct, ha, hb]
    split
    · exact ⟨_, rfl⟩
    · exact ⟨_, rfl⟩
  have hdenied : g.deniesEquality x y = d := by
    rw [Graph.deniesEquality, hd, Bool.eq_false_iff.mpr hsame]
    cases d <;> rfl
  rw [equalsDecided, if_neg hsame, Result.bind_of_ok hd, hdenied]

/-- A node that extends an integer, for one use. -/
structure Extends (g : Graph Label) (p : ResizeOp) (i r : Nat) (x u : NodeId) : Prop where
  shape : g.shape? x = some (.unary (.resize p i r) u)
  ne_narrow : p ≠ .narrow
  wide : (g.stamp x).IsInteger r
  narrow : (g.stamp u).IsInteger i
  used : g.usageCount x ≤ 1

variable {g : Graph Label} {ρ : NodeId → Word} {p q : ResizeOp} {i r : Nat} {x y u v : NodeId}

theorem Extends.constant?_eq (h : Extends g p i r x u) : g.constant? x = none := by
  rw [Graph.constant?, (Graph.shape?_unary h.shape).1]

theorem Extends.exists_conversion (h : Extends g p i r x u) (c : Condition) :
    ∃ k, conversion? g c x = some k ∧ k.operand = u ∧ k.extends_ = true ∧
      k.preservesOrder = (p = .signExtend || c ∉ [.lt, .le, .gt, .ge]) := by
  simp only [conversion?, h.shape]
  refine ⟨_, rfl, rfl, decide_eq_true h.ne_narrow, ?_⟩
  rcases ResizeOp.eq_or_eq h.ne_narrow with rfl | rfl
  · cases c <;> rfl
  · rfl

section Pair

variable (hx : Extends g p i r x u) (hy : Extends g q i r y v)

include hx hy

theorem compareCommon_eq (c : Comparison) (self : NodeId) (s : Stamp) :
    compareCommon c self g s x y = compareBothConverted c g x y := by
  simp only [compareCommon, hx.constant?_eq, hy.constant?_eq]

theorem recompare_eq {c : Comparison} (hc : c ∈ [.intEquals, .intLess, .intBelow]) :
    recompare c g (.node u) (.node v) = .ok (.compare c (.node u) (.node v)) := by
  obtain ⟨a, ha, _⟩ := hx.narrow.exists_int
  obtain ⟨b, hb, _⟩ := hy.narrow.exists_int
  simp only [List.mem_cons, List.not_mem_nil, or_false] at hc
  rcases hc with rfl | rfl | rfl
  all_goals simp only [recompare, Term.stamp, ha, hb]

theorem compareBothConverted_eq {c : Comparison} (hc : c ∈ [.intEquals, .intLess, .intBelow])
    (hsigned : c = .intLess → p = .signExtend ∧ q = .signExtend) :
    compareBothConverted c g x y = become (.compare c (.node u) (.node v)) := by
  obtain ⟨k, hk, rfl, hext, horder⟩ := hx.exists_conversion c.condition
  obtain ⟨l, hl, rfl, _, horder'⟩ := hy.exists_conversion c.condition
  have hkeeps : k.preservesOrder = true ∧ l.preservesOrder = true := by
    rw [horder, horder']
    simp only [List.mem_cons, List.not_mem_nil, or_false] at hc
    rcases hc with rfl | rfl | rfl
    · simp [Comparison.condition]
    · simp [hsigned rfl]
    · simp [Comparison.condition]
  have hcompatible : (g.stamp k.operand).isCompatible (g.stamp l.operand) = true := by
    obtain ⟨a, ha, hbits, _⟩ := hx.narrow.exists_int
    obtain ⟨b, hb, hbits', _⟩ := hy.narrow.exists_int
    rw [ha, hb]
    exact decide_eq_true (hbits.trans hbits'.symm)
  have hused : ¬(decide (1 < g.usageCount x) || decide (1 < g.usageCount y)) = true := by
    have := hx.used
    have := hy.used
    simp only [Bool.or_eq_true, decide_eq_true_eq]
    omega
  simp only [compareBothConverted, hk, hl, hkeeps.1, hkeeps.2, hcompatible, hext, Bool.and_self,
    Bool.true_and, if_true, if_neg hused]
  rw [recompare_eq hx hy hc]
  rfl

theorem compareBothConverted_less (hsigned : ¬(p = .signExtend ∧ q = .signExtend)) :
    compareBothConverted .intLess g x y = pass := by
  obtain ⟨k, hk, _, _, horder⟩ := hx.exists_conversion Comparison.intLess.condition
  obtain ⟨l, hl, _, _, horder'⟩ := hy.exists_conversion Comparison.intLess.condition
  have hchanges : ¬(k.preservesOrder && l.preservesOrder &&
      (g.stamp k.operand).isCompatible (g.stamp l.operand)) = true := by
    rw [horder, horder']
    simp only [Comparison.condition, List.mem_cons, true_or, not_true, decide_false, Bool.or_false,
      Bool.and_eq_true, decide_eq_true_eq]
    exact fun h => hsigned h.1
  simp only [compareBothConverted, hk, hl, if_neg hchanges]

section Truth

variable (hρ : g.Models ρ)

include hρ

omit hy in
theorem Extends.low_eq : Word.low r (ρ x) = p.onValue r (Word.low i (ρ u)) :=
  hρ.low_of_resize hx.wide.le hx.shape

theorem eq_iff_onValue_eq :
    ρ x = ρ y ↔ p.onValue r (Word.low i (ρ u)) = q.onValue r (Word.low i (ρ v)) := by
  rw [← hx.low_eq hρ, ← hy.low_eq hρ]
  constructor
  · intro h
    rw [h]
  · intro h
    rw [← hρ.ofLow_low hx.wide, h, hρ.ofLow_low hy.wide]

theorem exists_equals (hir : i < r) (self : NodeId) (s : Stamp) :
    ∃ t, compare .intEquals self g s x y = become t ∧ t.eval ρ = some (Word.ofTruth
      ((p.onValue r (Word.low i (ρ u)) == q.onValue r (Word.low i (ρ v))) ^^
        Comparison.intEquals.misjudges (g.deniesEquality x y) p q r (Word.low i (ρ u))
          (Word.low i (ρ v)))) := by
  have hnarrow := Comparison.beq_eq_xor_misjudges hx.ne_narrow hy.ne_narrow hir
    (Word.low i (ρ u)) (Word.low i (ρ v))
  by_cases hsame : g.sameValue x y = true
  · -- Equal nodes have equal values, and no two extensions of unequal sign agree on a negative one.
    have hequal := (eq_iff_onValue_eq hx hy hρ).mp (hρ.eq_of_sameValue hsame)
    refine ⟨.truth true, firstBinary_of_become (by rw [equalsDecided, if_pos hsame]) _, ?_⟩
    rw [Graph.deniesEquality, hsame, Bool.not_true, Bool.false_and, ← hnarrow]
    have hinner := ((ResizeOp.onValue_eq_iff _ _ hx.ne_narrow hy.ne_narrow hir).mp hequal).1
    rw [hinner, beq_self_eq_true]
    rfl
  · have hdecided := equalsDecided_eq hx.wide hy.wide hsame s
    cases hdenied : g.deniesEquality x y with
    | true =>
      rw [hdenied] at hdecided
      refine ⟨.truth false, firstBinary_of_become hdecided _, ?_⟩
      rw [Comparison.misjudges, if_pos rfl, Bool.xor_self]
      rfl
    | false =>
      rw [hdenied] at hdecided
      refine ⟨.compare .intEquals (.node u) (.node v), ?_, ?_⟩
      · refine (firstBinary_of_pass hdecided _).trans (firstBinary_of_become ?_ _)
        rw [compareCommon_eq hx hy, compareBothConverted_eq hx hy (by simp) (by rintro ⟨⟩)]
      · rw [Term.eval_compare hρ hx.narrow hy.narrow, ← hnarrow]
        rfl

theorem exists_below (hir : i < r) (self : NodeId) (s : Stamp) (denied : Bool) :
    ∃ t, compare .intBelow self g s x y = become t ∧ t.eval ρ = some (Word.ofTruth
      ((p.onValue r (Word.low i (ρ u))).ult (q.onValue r (Word.low i (ρ v))) ^^
        Comparison.intBelow.misjudges denied p q r (Word.low i (ρ u)) (Word.low i (ρ v)))) := by
  refine ⟨.compare .intBelow (.node u) (.node v), firstBinary_of_become ?_ _, ?_⟩
  · rw [compareCommon_eq hx hy, compareBothConverted_eq hx hy (by simp) (by rintro ⟨⟩)]
  · have hnarrow := Comparison.ult_eq_xor_misjudges hx.ne_narrow hy.ne_narrow hir
      (Word.low i (ρ u)) (Word.low i (ρ v))
    rw [Term.eval_compare hρ hx.narrow hy.narrow]
    exact congrArg (some ∘ Word.ofTruth) hnarrow

theorem gives_less (hknown : g.Known ρ) (hir : i < r) (self : NodeId) (s : Stamp) :
    Gives (fun t => t.eval ρ = some (Word.ofTruth
      ((p.onValue r (Word.low i (ρ u))).slt (q.onValue r (Word.low i (ρ v))))))
      (compare .intLess self g s x y) := by
  have hleft := hx.low_eq hρ
  have hright := hy.low_eq hρ
  obtain ⟨a, ha, rfl, hwell⟩ := hx.wide.exists_int
  obtain ⟨b, hb, hbits, hwell'⟩ := hy.wide.exists_int
  have hvalues : IntStamp.Summands a b (ρ x) (ρ y) :=
    ⟨hwell, hwell', hbits, hknown.contains ha hx.wide, hknown.contains hb hy.wide⟩
  rw [← hleft, ← hright]
  refine gives_firstBinary_cons ?_ fun _ => ?_
  · rw [compareCommon_eq hx hy]
    by_cases hsigned : p = .signExtend ∧ q = .signExtend
    · rw [compareBothConverted_eq hx hy (by simp) fun _ => hsigned]
      refine gives_become ?_
      obtain ⟨rfl, rfl⟩ := hsigned
      rw [Term.eval_compare hρ hx.narrow hy.narrow, hleft, hright]
      exact congrArg (some ∘ Word.ofTruth) (Word.slt_signExtend hir.le _ _).symm
    · rw [compareBothConverted_less hx hy hsigned]
      exact gives_pass
  refine gives_firstBinary_cons ?_ fun _ => ?_
  · refine ⟨_, rfl, fun t ht => ?_⟩
    rw [(Graph.tellsTruth_less hρ ha hb hvalues).synonym t ht]
    rfl
  refine gives_firstBinary_cons ?_ fun _ => ?_
  · simp only [lessSameSign, ha, hb]
    split
    · rename_i hsign
      refine gives_become ?_
      rw [hvalues.slt_eq_ult hsign, Term.eval_compare hρ hx.wide hy.wide]
      rfl
    · exact gives_pass
  refine gives_firstBinary_cons ?_ fun _ => gives_firstBinary_nil
  simp only [lessDifference, hy.constant?_eq]
  exact gives_pass

end Truth

end Pair

end Canonical

namespace FlowGraph

/-- A comparison of two extended integers always has a canonical form, itself if no rule applies. Its
truth is that of the comparison, except for the integers which the comparison misjudges. -/
theorem canonical_comparison_of_extended (f : FlowGraph) {ρ : NodeId → Word}
    (hg : f.graph.WellSorted) (hρ : f.graph.Models ρ) (hknown : f.graph.Known ρ)
    {n x y u v : NodeId} {c : Comparison} (hc : c ∈ [.intEquals, .intLess, .intBelow])
    (hn : f.graph.shape? n = some (.binary (.compare c) x y)) {p q : ResizeOp} {i r : Nat}
    (hx : f.graph.shape? x = some (.unary (.resize p i r) u))
    (hy : f.graph.shape? y = some (.unary (.resize q i r) v)) (hp : p ≠ .narrow) (hq : q ≠ .narrow)
    (hir : i < r) (hxr : (f.graph.stamp x).IsInteger r) (hyr : (f.graph.stamp y).IsInteger r)
    (hxu : f.graph.usageCount x ≤ 1) (hyu : f.graph.usageCount y ≤ 1) :
    ∃ o truth, f.canonical n = .ok (f, o) ∧
      c.onIntegers (p.onValue r (Word.low i (ρ u))) (q.onValue r (Word.low i (ρ v))) = some truth ∧
      (o.getD (.node n)).eval ρ = some (Word.ofTruth (truth ^^
        c.misjudges (f.graph.deniesEquality x y) p q r (Word.low i (ρ u)) (Word.low i (ρ v)))) := by
  have hleft : Canonical.Extends f.graph p i r x u :=
    ⟨hx, hp, hxr, (hg.operand_of_resize hx hxr).1, hxu⟩
  have hright : Canonical.Extends f.graph q i r y v :=
    ⟨hy, hq, hyr, (hg.operand_of_resize hy hyr).1, hyu⟩
  have hreduce : f.canonical n =
      (Canonical.compare c n f.graph (f.graph.stamp n) x y).map fun o => (f, o) := by
    rw [f.canonical_eq_reduce (Graph.shape?_binary hn).1 (by rintro _ ⟨⟩)]
    simp only [reduce, hn]
  simp only [List.mem_cons, List.not_mem_nil, or_false] at hc
  rcases hc with rfl | rfl | rfl
  · obtain ⟨t, ht, heval⟩ := Canonical.exists_equals hleft hright hρ hir n (f.graph.stamp n)
    exact ⟨some t, _, by rw [hreduce, ht]; rfl, rfl, heval⟩
  · obtain ⟨o, ho, heval⟩ := Canonical.gives_less hleft hright hρ hknown hir n (f.graph.stamp n)
    refine ⟨o, _, by rw [hreduce, ho]; rfl, rfl, ?_⟩
    simp only [Comparison.misjudges, Bool.xor_false]
    cases o with
    | some t => exact heval t rfl
    | none =>
      refine congrArg some (hρ.eq_of_binary hn ?_)
      rw [Binary.eval, ← hρ.ofLow_low hxr, ← hρ.ofLow_low hyr, Comparison.onValues_ofLow hxr.le,
        hleft.low_eq hρ, hright.low_eq hρ]
      rfl
  · obtain ⟨t, ht, heval⟩ := Canonical.exists_below hleft hright hρ hir n (f.graph.stamp n) _
    exact ⟨some t, _, by rw [hreduce, ht]; rfl, rfl, heval⟩

def mixedBytes (c : Comparison) : FlowGraph where
  graph := ⟨#[⟨{ op := .leaf (.parameter 0), stamp := .int (.full 8) }, [], .ofList [2], true⟩,
    ⟨{ op := .leaf (.parameter 1), stamp := .int (.full 8) }, [], .ofList [3], true⟩,
    ⟨{ op := .unary (.resize .zeroExtend 8 32), stamp := .int (.ofBounds 32 0 255) }, [some 0], .ofList [4],
      true⟩,
    ⟨{ op := .unary (.resize .signExtend 8 32), stamp := .int (.ofBounds 32 (-128) 127) }, [some 1],
      .ofList [4], true⟩,
    ⟨{ op := .binary (.compare c), stamp := .void }, [some 2, some 3], {}, true⟩], #[], []⟩
  control := []

theorem canonical_comparison_of_extended_mixedBytes :
    ∃ o, (mixedBytes .intBelow).canonical 4 = .ok (mixedBytes .intBelow, o) ∧
      (o.getD (.node 4)).eval (fun i => [7, -1, 7, -1, 1].getD i 0) = some 1 := by
  obtain ⟨o, truth, ho, htruth, hvalue⟩ := @canonical_comparison_of_extended (mixedBytes .intBelow)
    (fun i => [7, -1, 7, -1, 1].getD i 0) (by decide) (by decide) (by decide) 4 2 3 0 1 .intBelow
    (by decide) rfl .zeroExtend .signExtend 8 32 rfl rfl (by decide) (by decide) (by decide)
    (by decide) (by decide) (by decide) (by decide)
  cases htruth
  exact ⟨o, ho, hvalue.trans (by decide)⟩

/-- The byte of all ones is `255` without sign and `-1` with sign. They are found equal; and `255` is not
found to be below the greater number that `-2` is without sign. -/
theorem canonical_comparison_of_mixedBytes_wrong :
    (∃ t, (mixedBytes .intEquals).canonical 4 = .ok (mixedBytes .intEquals, some t) ∧
      (mixedBytes .intEquals).graph.Models (fun i => [-1, -1, 255, -1, 0].getD i 0) ∧
      t.eval (fun i => [-1, -1, 255, -1, 0].getD i 0) = some 1) ∧
    ∃ t, (mixedBytes .intBelow).canonical 4 = .ok (mixedBytes .intBelow, some t) ∧
      (mixedBytes .intBelow).graph.Models (fun i => [-1, -2, 255, -2, 1].getD i 0) ∧
      t.eval (fun i => [-1, -2, 255, -2, 1].getD i 0) = some 0 := by
  constructor
  · exact ⟨.compare .intEquals (.node 0) (.node 1), rfl, by decide, by decide⟩
  · exact ⟨.compare .intBelow (.node 0) (.node 1), rfl, by decide, by decide⟩

end FlowGraph

end CompilerKit
