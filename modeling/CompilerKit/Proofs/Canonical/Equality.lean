import CompilerKit.Proofs.Canonical.Compare

/-! # Equalities of nodes

An equality of two nodes is formed with some cases resolved. That of a choice with one of its values is
taken for the condition of the choice. The condition may fail and the values be the same nevertheless, so
this equality is denied for some values; for which ones is found out exactly. All others come out right.
-/

namespace CompilerKit

theorem Word.isTrue_ofTruth (b : Bool) : (ofTruth b).isTrue = b := by
  cases b <;> rfl

theorem Condition.check_eq {w : Nat} (x y : BitVec w) : eq.check x y = (x == y) := by
  rw [check, holds, Bool.eq_iff_iff, Ordering.isEq_iff_eq_eq, compare_eq_iff_eq, BitVec.toInt_inj,
    beq_iff_eq]

theorem Kind.of_ofBits? {w : Nat} {k : Kind} (h : ofBits? w = some k) :
    k ∈ [.boolean, .byte, .short, .int] ∧ w ≤ 32 ∨ k = .long := by
  unfold ofBits? at h
  split at h
  all_goals cases h
  all_goals decide

theorem Condition.fold_eq {w : Nat} {k : Kind} (hk : Kind.ofBits? w = some k) {a b : Word}
    (ha : Word.ofLow (Word.low w a) = a) (hb : Word.ofLow (Word.low w b) = b) (unordered : Bool) :
    eq.fold (.primitive k a) (.primitive k b) unordered = .ok (a == b) := by
  have hshort (hw : w ≤ 32) : (a.truncate 32 == b.truncate 32) = (a == b) := by
    rw [Bool.eq_iff_iff, beq_iff_eq, beq_iff_eq]
    constructor
    · intro h
      have hlow := congrArg (BitVec.setWidth w) h
      rw [BitVec.truncate, BitVec.setWidth_setWidth_of_le _ hw,
        BitVec.setWidth_setWidth_of_le _ hw] at hlow
      rw [← ha, ← hb, Word.low, hlow, Word.low]
    · intro h
      rw [h]
  rcases Kind.of_ofBits? hk with ⟨hmem, hw⟩ | rfl
  · have hfold : eq.fold (.primitive k a) (.primitive k b) unordered =
        .ok (eq.check (a.truncate 32) (b.truncate 32)) := by
      simp only [List.mem_cons, List.not_mem_nil, or_false] at hmem
      rcases hmem with rfl | rfl | rfl | rfl <;> rfl
    rw [hfold, check_eq, hshort hw]
  · have hfold : eq.fold (.primitive .long a) (.primitive .long b) unordered = .ok (eq.check a b) :=
      rfl
    rw [hfold, check_eq]

namespace Graph

variable {g : Graph Label} {ρ : NodeId → Word} {i x y c t f : NodeId} {w : Nat}

theorem op?_select (h : g.shape? i = some (.select c t f)) : g.op? i = some .select := by
  unfold shape? at h
  split at h
  all_goals cases h
  assumption

theorem Models.eq_of_select (hρ : g.Models ρ) (h : g.shape? i = some (.select c t f)) :
    ρ i = if (ρ c).isTrue then ρ t else ρ f := by
  have hcomputes := hρ.computes i (lt_size_of_op? (op?_select h))
  simp only [computed, h, Option.getD_some] at hcomputes
  exact hcomputes.symm

theorem op?_leaf {l : Leaf} (h : g.shape? i = some (.leaf l)) : g.op? i = some (.leaf l) := by
  unfold shape? at h
  split at h
  all_goals cases h
  assumption

theorem Models.eq_of_truth (hρ : g.Models ρ) {b : Bool} (h : g.shape? i = some (.leaf (.truth b))) :
    ρ i = Word.ofTruth b := by
  have hcomputes := hρ.computes i (lt_size_of_op? (op?_leaf h))
  simp only [computed, h, Leaf.eval, Option.getD_some] at hcomputes
  exact hcomputes.symm

/-- The equality of a choice with one of its values is denied if the condition chooses the other value
and this is the same. -/
def misjudgesChoice (g : Graph Label) (ρ : NodeId → Word) (choice other : NodeId) : Bool :=
  match g.shape? choice with
  | some (.select c t f) =>
    if t = other then !(ρ c).isTrue && ρ f == ρ t
    else f = other && (ρ c).isTrue && ρ t == ρ f
  | _ => false

/-- The equalities of nodes that come out wrong. If the first node is a choice, the second one is not
looked at. -/
def misjudgesEquality (g : Graph Label) (ρ : NodeId → Word) (x y : NodeId) : Bool :=
  if Term.isChoice g x then g.misjudgesChoice ρ x y else g.misjudgesChoice ρ y x

theorem misjudgesChoice_of_select (h : g.shape? x = some (.select c t f)) :
    g.misjudgesChoice ρ x y =
      if t = y then !(ρ c).isTrue && ρ f == ρ t else f = y && (ρ c).isTrue && ρ t == ρ f := by
  rw [misjudgesChoice, h]

theorem misjudgesChoice_of_not_select (h : ∀ c t f, g.shape? x ≠ some (.select c t f)) :
    g.misjudgesChoice ρ x y = false := by
  unfold misjudgesChoice
  split
  · rename_i hshape
    exact absurd hshape (h _ _ _)
  · rfl

theorem misjudgesChoice_of_constant (hg : g.WellTyped) {a : Constant} (h : g.constant? x = some a) :
    g.misjudgesChoice ρ x y = false := by
  rw [misjudgesChoice, shape?_of_constant? hg h]

end Graph

namespace Term

variable {g : Graph Label} {ρ : NodeId → Word} {x y : NodeId} {w : Nat}

/-- The term is a condition of the given truth. -/
def Tells (ρ : NodeId → Word) (t : Term) (b : Bool) : Prop := ∃ v, t.eval ρ = some v ∧ v.isTrue = b

theorem tells_truth (b : Bool) : (truth b).Tells ρ b := ⟨_, rfl, Word.isTrue_ofTruth b⟩

theorem tells_negated (hρ : g.Models ρ) (c : NodeId) :
    (negated g (.node c)).Tells ρ (!(ρ c).isTrue) := by
  simp only [negated]
  split
  · rename_i b h
    rw [hρ.eq_of_truth h, Word.isTrue_ofTruth]
    exact tells_truth _
  · rename_i x h
    have hc : ρ c = Word.ofTruth (!(ρ x).isTrue) := hρ.eq_of_unary h rfl
    rw [hc, Word.isTrue_ofTruth, Bool.not_not]
    exact ⟨ρ x, rfl, rfl⟩
  · exact ⟨_, rfl, Word.isTrue_ofTruth _⟩

theorem tells_equals (x y : NodeId) :
    (compare .intEquals (.node x) (.node y)).Tells ρ (ρ x == ρ y) :=
  ⟨_, rfl, Word.isTrue_ofTruth _⟩

theorem tells_commuted (x y : NodeId) :
    (compare .intEquals (.node (commuted g x y).1) (.node (commuted g x y).2)).Tells ρ
      (ρ x == ρ y) := by
  unfold commuted
  split
  · rw [Bool.beq_comm]
    exact tells_equals y x
  · exact tells_equals x y

theorem equalsChoice_of_select {c t f : NodeId} (h : g.shape? x = some (.select c t f)) :
    equalsChoice g x y =
      if t = y then some (.node c) else if f = y then some (negated g (.node c)) else none := by
  rw [equalsChoice, h]

theorem equalsChoice_of_not_select (h : ∀ c t f, g.shape? x ≠ some (.select c t f)) :
    equalsChoice g x y = none := by
  unfold equalsChoice
  split
  · rename_i hshape
    exact absurd hshape (h _ _ _)
  · rfl

/-- The condition of a choice stands for its equality with one of its values, and another term for the
equality with anything else. -/
theorem tells_equalsChoice (hρ : g.Models ρ) {r : Term} (hr : r.Tells ρ (ρ x == ρ y)) :
    ((equalsChoice g x y).getD r).Tells ρ ((ρ x == ρ y) ^^ g.misjudgesChoice ρ x y) := by
  by_cases hchoice : ∃ c t f, g.shape? x = some (.select c t f)
  · obtain ⟨c, t, f, hshape⟩ := hchoice
    have hx := hρ.eq_of_select hshape
    rw [equalsChoice_of_select hshape, Graph.misjudgesChoice_of_select hshape]
    by_cases hty : t = y
    · rw [if_pos hty, if_pos hty, ← hty, hx]
      refine ⟨ρ c, rfl, ?_⟩
      cases (ρ c).isTrue <;> simp
    · rw [if_neg hty, if_neg hty]
      by_cases hfy : f = y
      · have htruth : (((if (ρ c).isTrue then ρ t else ρ f) == ρ f) ^^
            ((ρ c).isTrue && ρ t == ρ f)) = !(ρ c).isTrue := by
          cases (ρ c).isTrue <;> simp
        rw [if_pos hfy, decide_eq_true hfy, Bool.true_and, ← hfy, hx, htruth]
        exact tells_negated hρ c
      · rw [if_neg hfy, decide_eq_false hfy, Bool.false_and, Bool.false_and, Bool.xor_false]
        exact hr
  · have hnot (c t f : NodeId) : g.shape? x ≠ some (.select c t f) := fun h => hchoice ⟨c, t, f, h⟩
    rw [equalsChoice_of_not_select hnot, Graph.misjudgesChoice_of_not_select hnot, Bool.xor_false]
    exact hr

theorem foldComparison_eq (hg : g.WellSorted) (hρ : g.Models ρ) (hx : (g.stamp x).IsInteger w)
    (hy : (g.stamp y).IsInteger w) {a b : Constant} (ha : g.constant? x = some a)
    (hb : g.constant? y = some b) :
    foldComparison .intEquals g x y = .ok (some (truth (ρ x == ρ y))) := by
  obtain ⟨k, rfl, hk⟩ := hg.primitive_of_constant hρ ha hx
  obtain ⟨l, rfl, hl⟩ := hg.primitive_of_constant hρ hb hy
  obtain rfl : k = l := Option.some.inj (hk.symm.trans hl)
  have hfold := Condition.fold_eq hk (hρ.ofLow_low hx) (hρ.ofLow_low hy) false
  simp only [foldComparison, ha, hb, Comparison.condition, Comparison.unorderedIsTrue]
  rw [Result.bind_of_ok hfold]
  rfl

theorem isChoice_of_constant (hg : g.WellTyped) {a : Constant} (h : g.constant? x = some a) :
    isChoice g x = false := by
  rw [isChoice, Graph.shape?_of_constant? hg h]

/-- An equality of two integers of a width can always be formed. It is true exactly if the integers are
the same, except where the equality of a choice with one of its values is misjudged. -/
theorem exists_equality (hg : g.WellSorted) (hρ : g.Models ρ) (hx : (g.stamp x).IsInteger w)
    (hy : (g.stamp y).IsInteger w) :
    ∃ t, comparison g .intEquals x y = .ok t ∧
      t.Tells ρ ((ρ x == ρ y) ^^ g.misjudgesEquality ρ x y) := by
  by_cases hconst : (g.constant? x).isSome ∧ (g.constant? y).isSome
  · obtain ⟨a, ha⟩ := Option.isSome_iff_exists.mp hconst.1
    obtain ⟨b, hb⟩ := Option.isSome_iff_exists.mp hconst.2
    refine ⟨truth (ρ x == ρ y), ?_, ?_⟩
    · rw [comparison, foldComparison_eq hg hρ hx hy ha hb]
      rfl
    · rw [Graph.misjudgesEquality, isChoice_of_constant hg.wellTyped ha, if_neg (by decide),
        Graph.misjudgesChoice_of_constant hg.wellTyped hb, Bool.xor_false]
      exact tells_truth _
  · have hpass : foldComparison .intEquals g x y = .ok none := by
      unfold foldComparison
      split
      · rename_i ha hb
        exact absurd ⟨Option.isSome_iff_exists.mpr ⟨_, ha⟩, Option.isSome_iff_exists.mpr ⟨_, hb⟩⟩ hconst
      · rfl
    have hplain := tells_commuted (g := g) (ρ := ρ) x y
    rw [comparison, hpass]
    refine ⟨_, rfl, ?_⟩
    unfold Graph.misjudgesEquality
    by_cases hchoice : isChoice g x = true
    · rw [if_pos hchoice, if_pos hchoice]
      exact tells_equalsChoice hρ hplain
    · rw [if_neg hchoice, if_neg hchoice, Bool.beq_comm]
      rw [Bool.beq_comm] at hplain
      exact tells_equalsChoice hρ hplain

def lesser : Graph Label :=
  ⟨#[⟨{ op := .leaf (.parameter 0), stamp := .int (.full 32) }, [], .ofList [2, 3], true⟩,
    ⟨{ op := .leaf (.parameter 1), stamp := .int (.full 32) }, [], .ofList [2, 3], true⟩,
    ⟨{ op := .binary (.compare .intLess), stamp := .void }, [some 0, some 1], .ofList [3], true⟩,
    ⟨{ op := .select, stamp := .int (.full 32) }, [some 2, some 0, some 1], {}, true⟩], #[], []⟩

theorem exists_equality_lesser :
    ∃ t, comparison lesser .intEquals 3 0 = .ok t ∧
      t.Tells (fun i => [-7, 5, 1, -7].getD i 0) true :=
  @exists_equality lesser (fun i => [-7, 5, 1, -7].getD i 0) 3 0 32 (by decide) (by decide)
    (by decide) (by decide)

/-- The lesser of an integer and itself is the integer, but the equality is false. -/
theorem equality_with_lesser_denied :
    ∃ t, comparison lesser .intEquals 3 0 = .ok t ∧
      lesser.Models (fun i => [5, 5, 0, 5].getD i 0) ∧ lesser.Known (fun i => [5, 5, 0, 5].getD i 0) ∧
      t.Tells (fun i => [5, 5, 0, 5].getD i 0) false :=
  ⟨.node 2, rfl, by decide, by decide, 0, rfl, rfl⟩

end Term

end CompilerKit
