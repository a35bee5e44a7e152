import CompilerKit.Proofs.Canonical.Equality
import CompilerKit.Proofs.Canonical.Rule

/-! # Disjunctions settle

The rule for a disjunction takes negations off its two conditions, joins equal ones and drops constants.
Each answer has the truth of the disjunction, whatever the truth of the conditions. Applied to its own
answers, the rule comes to an end: taking off negations leaves conditions that are none, and any further
answer is one of these conditions, from which the disjunction is computed.
-/

namespace CompilerKit

namespace Graph

variable {g : Graph Label} {ρ : NodeId → Word} {i x y : NodeId}

def Feeds (g : Graph Label) (x i : NodeId) : Prop := x ∈ g.operands i

/-- No node is computed from itself if inputs come before the nodes that use them. -/
theorem acc_of_ordered (h : ∀ i < g.nodes.size, ∀ x ∈ g.operands i, x < i) (i : NodeId) :
    Acc g.Feeds i := by
  induction i using Nat.strongRecOn with
  | ind i ih =>
    refine Acc.intro i fun x hx => ih x ?_
    rcases Nat.lt_or_ge i g.nodes.size with hi | hi
    · exact h i hi x hx
    · rw [Feeds, operands, inputs, Array.getElem?_eq_none hi] at hx
      cases hx

theorem not_transGen_self {a : NodeId} (h : Acc g.Feeds a) : ¬Relation.TransGen g.Feeds a a := by
  have hacc := h.transGen
  clear h
  induction hacc with
  | intro a _ ih => exact fun ha => ih a ha ha

theorem feeds_of_unary {op : Unary} (h : g.shape? i = some (.unary op x)) : g.Feeds x i := by
  rw [Feeds, operands, (shape?_unary h).2]
  exact List.mem_singleton_self x

theorem feeds_of_binary {op : Binary} (h : g.shape? i = some (.binary op x y)) :
    g.Feeds x i ∧ g.Feeds y i := by
  rw [Feeds, Feeds, operands_of_binary h]
  exact ⟨List.mem_cons_self, List.mem_cons_of_mem x (List.mem_singleton_self y)⟩

/-- Constants, negations and disjunctions have the truth that they compute. Any other condition may be
true or false. -/
def connectsAt (g : Graph Label) (ρ : NodeId → Word) (i : NodeId) : Bool :=
  match g.shape? i with
  | some (.leaf (.truth _)) | some (.unary .negation _) | some (.binary (.either ..) _ _) =>
    g.computed ρ i = some (ρ i)
  | _ => true

def Connects (g : Graph Label) (ρ : NodeId → Word) : Prop :=
  ∀ i < g.nodes.size, g.connectsAt ρ i = true

instance (g : Graph Label) (ρ : NodeId → Word) : Decidable (g.Connects ρ) :=
  inferInstanceAs (Decidable (∀ i < g.nodes.size, g.connectsAt ρ i = true))

namespace Connects

variable (h : g.Connects ρ)

include h

theorem isTrue_of_truth (hg : g.WellTyped) {b : Bool} (hi : g.truth? i = some b) :
    (ρ i).isTrue = b := by
  have hop : g.op? i = some (.leaf (.truth b)) := by
    unfold truth? at hi
    split at hi
    · cases hi
      assumption
    · cases hi
  have hlogic := h i (lt_size_of_op? hop)
  simp only [connectsAt, computed, shape?_of_leaf hg hop, Leaf.eval, decide_eq_true_eq,
    Option.some.injEq] at hlogic
  rw [← hlogic, Word.isTrue_ofTruth]

theorem isTrue_of_negation (hi : g.shape? i = some (.unary .negation x)) :
    (ρ i).isTrue = !(ρ x).isTrue := by
  have hlogic := h i (lt_size_of_op? (shape?_unary hi).1)
  simp only [connectsAt, computed, hi, Unary.eval, decide_eq_true_eq, Option.some.injEq] at hlogic
  rw [← hlogic, Word.isTrue_ofTruth]

theorem isTrue_of_either {a b : Bool} {p : FloatingPoint.Double}
    (hi : g.shape? i = some (.binary (.either a b p) x y)) :
    (ρ i).isTrue = ((ρ x).isTrue ^^ a || (ρ y).isTrue ^^ b) := by
  have hlogic := h i (lt_size_of_op? (shape?_binary hi).1)
  simp only [connectsAt, computed, hi, Binary.eval, decide_eq_true_eq, Option.some.injEq] at hlogic
  rw [← hlogic, Word.isTrue_ofTruth]

end Connects

/-- The node is not the negation of another one. -/
def isPositive (g : Graph Label) (i : NodeId) : Bool := (g.unary? .negation i).isNone

theorem isPositive_iff : g.isPositive i = true ↔ ∀ x, g.shape? i ≠ some (.unary .negation x) := by
  unfold isPositive unary?
  split
  · rename_i op x hx
    split
    · rename_i hop
      subst hop
      simp [hx]
    · rename_i hop
      simp [hx, hop]
  · rename_i hnot
    simpa using fun x => hnot .negation x

/-- Two conditions that are different, no negations and not constant. -/
structure Apart (g : Graph Label) (x y : NodeId) : Prop where
  ne : x ≠ y
  positive : ∀ z ∈ [x, y], g.isPositive z = true
  unknown : ∀ z ∈ [x, y], g.truth? z = none

end Graph

namespace Canonical

variable {g : Graph Label} {ρ : NodeId → Word}

theorem isTrue_strippedWithin (h : g.Connects ρ) (fuel : Nat) (i : NodeId) (odd : Bool) :
    ((ρ (strippedWithin g fuel i odd).1).isTrue ^^ (strippedWithin g fuel i odd).2) =
      ((ρ i).isTrue ^^ odd) := by
  induction fuel generalizing i odd with
  | zero => rfl
  | succ fuel ih =>
    unfold strippedWithin
    split
    · rename_i x hx
      rw [ih, h.isTrue_of_negation hx, Bool.xor_not, Bool.not_xor]
    · rfl

theorem reflTransGen_strippedWithin (fuel : Nat) (i : NodeId) (odd : Bool) :
    Relation.ReflTransGen g.Feeds (strippedWithin g fuel i odd).1 i := by
  induction fuel generalizing i odd with
  | zero => exact .refl
  | succ fuel ih =>
    unfold strippedWithin
    split
    · rename_i x hx
      exact (ih x !odd).tail (Graph.feeds_of_unary hx)
    · exact .refl

theorem strippedWithin_of_isPositive {i : NodeId} (h : g.isPositive i = true) (fuel : Nat) (odd : Bool) :
    strippedWithin g fuel i odd = (i, odd) := by
  cases fuel with
  | zero => rfl
  | succ fuel =>
    unfold strippedWithin
    split
    · rename_i x hx
      exact absurd hx (Graph.isPositive_iff.mp h x)
    · rfl

/-- The nodes that have been passed are different, since none of them is computed from itself. So they
run out before the fuel does. -/
theorem isPositive_strippedWithin {fuel : Nat} {i : NodeId} {odd : Bool} {passed : Finset NodeId}
    (hacc : Acc g.Feeds i) (hpassed : passed ⊆ Finset.range g.nodes.size)
    (hfuel : g.nodes.size ≤ passed.card + fuel)
    (habove : ∀ z ∈ passed, Relation.TransGen g.Feeds i z) :
    g.isPositive (strippedWithin g fuel i odd).1 = true := by
  induction fuel generalizing i odd passed with
  | zero =>
    have hall := Finset.eq_of_subset_of_card_le hpassed (by rwa [Finset.card_range])
    refine Graph.isPositive_iff.mpr fun x hx => ?_
    have hi := Graph.lt_size_of_op? (Graph.shape?_unary hx).1
    exact Graph.not_transGen_self hacc (habove i (hall ▸ Finset.mem_range.mpr hi))
  | succ fuel ih =>
    unfold strippedWithin
    split
    · rename_i x hx
      have hfeeds := Graph.feeds_of_unary hx
      have hnew : i ∉ passed := fun hi => Graph.not_transGen_self hacc (habove i hi)
      refine @ih x (!odd) (insert i passed) (hacc.inv hfeeds) ?_ ?_ ?_
      · have hi := Graph.lt_size_of_op? (Graph.shape?_unary hx).1
        exact Finset.insert_subset (Finset.mem_range.mpr hi) hpassed
      · rw [Finset.card_insert_of_notMem hnew]
        omega
      · intro z hz
        rcases Finset.mem_insert.mp hz with rfl | hz
        · exact .single hfeeds
        · exact .head hfeeds (habove z hz)
    · rename_i hnot
      exact Graph.isPositive_iff.mpr hnot

theorem isPositive_stripped {i : NodeId} (hacc : Acc g.Feeds i) (odd : Bool) :
    g.isPositive (stripped g i odd).1 = true :=
  isPositive_strippedWithin hacc (Finset.empty_subset _) (by simp) (by simp)

variable {a b : Bool} {p : FloatingPoint.Double} {s : Stamp} {x y : NodeId}

theorem either_of_stripped (h : (stripped g x a).1 ≠ x ∨ (stripped g y b).1 ≠ y) :
    either a b p g s x y = Reduction.become (.either (stripped g x a).2 (stripped g y b).2 p
      (.node (stripped g x a).1) (.node (stripped g y b).1)) := if_pos h

/-- An answer that is no new disjunction. -/
def Resolves (x y : NodeId) (t : Term) : Prop :=
  t = .node x ∨ t = .node y ∨ (∃ b, t = .truth b) ∨ ∃ z, t = .negation (.node z)

section Positive

variable (hg : g.WellTyped) (h : g.Connects ρ) (hx : g.isPositive x = true)

include hg h hx

theorem tells_negated_of_isPositive (y : NodeId) :
    (Term.negated g (.node x)).Tells ρ (!(ρ x).isTrue) ∧ Resolves x y (Term.negated g (.node x)) := by
  simp only [Term.negated]
  split
  · rename_i c hc
    rw [h.isTrue_of_truth hg (by rw [Graph.truth?, Graph.op?_leaf hc])]
    exact ⟨Term.tells_truth _, .inr (.inr (.inl ⟨_, rfl⟩))⟩
  · rename_i v hv
    exact absurd hv (Graph.isPositive_iff.mp hx v)
  · exact ⟨⟨_, rfl, Word.isTrue_ofTruth _⟩, .inr (.inr (.inr ⟨x, rfl⟩))⟩

end Positive

theorem tells_signed (negated : Bool) (z : NodeId) :
    (signed negated z).Tells ρ ((ρ z).isTrue ^^ negated) := by
  cases negated with
  | false => exact ⟨ρ z, rfl, (Bool.xor_false _).symm⟩
  | true => exact ⟨_, rfl, by rw [Word.isTrue_ofTruth, Bool.xor_true]⟩

theorem resolves_signed (negated : Bool) {z : NodeId} (hz : z = x ∨ z = y) :
    Resolves x y (signed negated z) := by
  cases negated with
  | false =>
    rcases hz with rfl | rfl
    · exact .inl rfl
    · exact .inr (.inl rfl)
  | true => exact .inr (.inr (.inr ⟨z, rfl⟩))

theorem either_of_isPositive (hg : g.WellTyped) (h : g.Connects ρ) (hx : g.isPositive x = true)
    (hy : g.isPositive y = true) :
    either a b p g s x y = Reduction.pass ∧ g.Apart x y ∨
      ∃ t, either a b p g s x y = Reduction.become t ∧
        t.Tells ρ ((ρ x).isTrue ^^ a || (ρ y).isTrue ^^ b) ∧ Resolves x y t := by
  unfold either stripped
  rw [strippedWithin_of_isPositive hx, strippedWithin_of_isPositive hy]
  dsimp only
  rw [if_neg (by simp)]
  split
  · rename_i hxy
    subst hxy
    right
    obtain ⟨htells, hresolves⟩ := tells_negated_of_isPositive hg h hx x
    cases a <;> cases b
    · exact ⟨_, rfl, ⟨ρ x, rfl, by simp⟩, .inl rfl⟩
    · exact ⟨_, rfl, by simpa using Term.tells_truth true, .inr (.inr (.inl ⟨true, rfl⟩))⟩
    · exact ⟨_, rfl, by simpa using Term.tells_truth true, .inr (.inr (.inl ⟨true, rfl⟩))⟩
    · exact ⟨_, rfl, by simpa using htells, hresolves⟩
  · rename_i hxy
    split
    · rename_i c hc
      rw [h.isTrue_of_truth hg hc]
      right
      split
      · rename_i htrue
        exact ⟨_, rfl, by simpa [htrue] using Term.tells_truth true, .inr (.inr (.inl ⟨true, rfl⟩))⟩
      · rename_i hfalse
        rw [Bool.not_eq_true] at hfalse
        exact ⟨_, rfl, by simpa [hfalse] using tells_signed b y, resolves_signed b (.inr rfl)⟩
    · rename_i c _ hc
      rw [h.isTrue_of_truth hg hc]
      right
      split
      · rename_i htrue
        exact ⟨_, rfl, by simpa [htrue] using Term.tells_truth true, .inr (.inr (.inl ⟨true, rfl⟩))⟩
      · rename_i hfalse
        rw [Bool.not_eq_true] at hfalse
        exact ⟨_, rfl, by simpa [hfalse] using tells_signed a x, resolves_signed a (.inl rfl)⟩
    · rename_i hxc hyc
      left
      refine ⟨rfl, hxy, ?_, ?_⟩
      · simp [hx, hy]
      · simp [hxc, hyc]

end Canonical

namespace Term

variable {g : Graph Label} {ρ : NodeId → Word}

def shape? (g : Graph Label) : Term → Option Shape
  | node i => g.shape? i
  | binary op _ (node x) (node y) => some (.binary op x y)
  | _ => none

def reduceEither (g : Graph Label) (t : Term) : Reduction :=
  match t.shape? g with
  | some (.binary (.either a b p) x y) => Canonical.either a b p g .void x y
  | _ => Reduction.pass

/-- Applies the rule for disjunctions a number of times, or until it does not apply. -/
def settle (g : Graph Label) : Nat → Term → Result Term
  | 0, t => .ok t
  | steps + 1, t => do
    match ← t.reduceEither g with
    | some r => settle g steps r
    | none => .ok t

/-- The rule comes to an end with the given term. -/
def SettlesAt (g : Graph Label) (t u : Term) : Prop := ∃ steps, ∀ more, settle g (steps + more) t = .ok u

/-- The term is no disjunction, or one of conditions that are apart. -/
def IsSettled (g : Graph Label) : Term → Prop
  | node i => ∀ a b p x y, g.shape? i = some (.binary (.either a b p) x y) → g.Apart x y
  | binary (.either ..) _ x y => ∃ i j, x = node i ∧ y = node j ∧ g.Apart i j
  | _ => True

theorem settlesAt_of_pass {t : Term} (h : t.reduceEither g = Reduction.pass) : t.SettlesAt g t := by
  refine ⟨0, fun more => ?_⟩
  cases more with
  | zero => rfl
  | succ more => exact Result.bind_of_ok h _

theorem settlesAt_iff_of_become {t r u : Term} (h : t.reduceEither g = Reduction.become r) :
    t.SettlesAt g u ↔ r.SettlesAt g u := by
  have hstep (steps : Nat) : settle g (steps + 1) t = settle g steps r := Result.bind_of_ok h _
  constructor
  · rintro ⟨steps, hsteps⟩
    exact ⟨steps, fun more => (hstep (steps + more)).symm.trans (hsteps (more + 1))⟩
  · rintro ⟨steps, hsteps⟩
    refine ⟨steps + 1, fun more => ?_⟩
    rw [Nat.add_right_comm, hstep]
    exact hsteps more

/-- The rule comes to an end with a settled term of the given truth. -/
def Settles (g : Graph Label) (ρ : NodeId → Word) (t : Term) (v : Bool) : Prop :=
  ∃ u, t.SettlesAt g u ∧ u.IsSettled g ∧ u.Tells ρ v

theorem settles_iff_of_become {t r : Term} {v : Bool} (h : t.reduceEither g = Reduction.become r) :
    t.Settles g ρ v ↔ r.Settles g ρ v :=
  exists_congr fun _ => and_congr_left' (settlesAt_iff_of_become h)

variable {a b : Bool} {p : FloatingPoint.Double} {x y : NodeId}

theorem reduceEither_eq {t : Term} (ht : t.shape? g = some (.binary (.either a b p) x y)) :
    t.reduceEither g = Canonical.either a b p g .void x y := by
  rw [reduceEither, ht]

theorem isSettled_of_apart {t : Term} (ht : t.shape? g = some (.binary (.either a b p) x y))
    (h : g.Apart x y) : t.IsSettled g := by
  unfold shape? at ht
  split at ht
  · intro a' b' p' x' y' hshape
    cases ht.symm.trans hshape
    exact h
  · cases ht
    exact ⟨x, y, rfl, rfl, h⟩
  · cases ht

section

variable (hg : g.WellTyped) (h : g.Connects ρ) {t : Term}
  (ht : t.shape? g = some (.binary (.either a b p) x y))
  (htells : t.Tells ρ ((ρ x).isTrue ^^ a || (ρ y).isTrue ^^ b))

include hg h ht htells

theorem settles_of_isPositive (hx : g.isPositive x = true) (hy : g.isPositive y = true)
    (hxs : (node x).Settles g ρ (ρ x).isTrue) (hys : (node y).Settles g ρ (ρ y).isTrue) :
    t.Settles g ρ ((ρ x).isTrue ^^ a || (ρ y).isTrue ^^ b) := by
  have hstep := reduceEither_eq ht
  rcases Canonical.either_of_isPositive hg h hx hy with ⟨hpass, hapart⟩ | ⟨r, hr, hrtells, hres⟩
  · exact ⟨t, settlesAt_of_pass (hstep.trans hpass), isSettled_of_apart ht hapart, htells⟩
  · refine (settles_iff_of_become (hstep.trans hr)).mpr ?_
    rcases hres with rfl | rfl | ⟨c, rfl⟩ | ⟨z, rfl⟩
    · obtain ⟨_, ⟨⟩, hv⟩ := hrtells
      rwa [← hv]
    · obtain ⟨_, ⟨⟩, hv⟩ := hrtells
      rwa [← hv]
    · exact ⟨_, settlesAt_of_pass rfl, trivial, hrtells⟩
    · exact ⟨_, settlesAt_of_pass rfl, trivial, hrtells⟩

theorem settles_of_operands (hx : Acc g.Feeds x) (hy : Acc g.Feeds y)
    (hxs : ∀ j, Relation.ReflTransGen g.Feeds j x → (node j).Settles g ρ (ρ j).isTrue)
    (hys : ∀ j, Relation.ReflTransGen g.Feeds j y → (node j).Settles g ρ (ρ j).isTrue) :
    t.Settles g ρ ((ρ x).isTrue ^^ a || (ρ y).isTrue ^^ b) := by
  have hxpos := Canonical.isPositive_stripped hx a
  have hypos := Canonical.isPositive_stripped hy b
  have hxreach := hxs _ (Canonical.reflTransGen_strippedWithin g.nodes.size x a)
  have hyreach := hys _ (Canonical.reflTransGen_strippedWithin g.nodes.size y b)
  by_cases hsame : (Canonical.stripped g x a).1 ≠ x ∨ (Canonical.stripped g y b).1 ≠ y
  · have hbecome := (reduceEither_eq ht).trans (Canonical.either_of_stripped hsame)
    refine (settles_iff_of_become hbecome).mpr ?_
    rw [← Canonical.isTrue_strippedWithin h g.nodes.size x a,
      ← Canonical.isTrue_strippedWithin h g.nodes.size y b]
    exact settles_of_isPositive hg h rfl ⟨_, rfl, Word.isTrue_ofTruth _⟩ hxpos hypos hxreach hyreach
  · rw [not_or, not_ne_iff, not_ne_iff] at hsame
    rw [hsame.1] at hxpos
    rw [hsame.2] at hypos
    exact settles_of_isPositive hg h ht htells hxpos hypos (hxs x .refl) (hys y .refl)

end

theorem settles_node (hg : g.WellTyped) (h : g.Connects ρ) {i : NodeId} (hacc : Acc g.Feeds i) :
    (node i).Settles g ρ (ρ i).isTrue := by
  have htrans := hacc.transGen
  clear hacc
  induction htrans with
  | intro i hbelow ih =>
    by_cases heither : ∃ a b p x y, g.shape? i = some (.binary (.either a b p) x y)
    · obtain ⟨a, b, p, x, y, hi⟩ := heither
      obtain ⟨hx, hy⟩ := Graph.feeds_of_binary hi
      have hvalue := h.isTrue_of_either hi
      have hacc {j : NodeId} (hj : Relation.TransGen g.Feeds j i) : Acc g.Feeds j :=
        acc_transGen_iff.mp (hbelow j hj)
      rw [hvalue]
      exact settles_of_operands hg h hi ⟨ρ i, rfl, hvalue⟩ (hacc (.single hx)) (hacc (.single hy))
        (fun j hj => ih j (.tail' hj hx)) (fun j hj => ih j (.tail' hj hy))
    · have hpass : (node i).reduceEither g = Reduction.pass := by
        unfold reduceEither
        split
        · rename_i hi
          exact absurd ⟨_, _, _, _, _, hi⟩ heither
        · rfl
      refine ⟨node i, settlesAt_of_pass hpass, ?_, ρ i, rfl, rfl⟩
      intro a b p x y hi
      exact absurd ⟨a, b, p, x, y, hi⟩ heither

end Term

namespace Canonical

variable {g : Graph Label} {ρ : NodeId → Word} {a b : Bool} {p : FloatingPoint.Double} {s : Stamp}
  {x y : NodeId}

theorem gives_either (hg : g.WellTyped) (h : g.Connects ρ) (hx : Acc g.Feeds x) (hy : Acc g.Feeds y) :
    Reduction.Gives (·.Tells ρ ((ρ x).isTrue ^^ a || (ρ y).isTrue ^^ b)) (either a b p g s x y) := by
  by_cases hsame : (stripped g x a).1 ≠ x ∨ (stripped g y b).1 ≠ y
  · rw [either_of_stripped hsame, ← isTrue_strippedWithin h g.nodes.size x a,
      ← isTrue_strippedWithin h g.nodes.size y b]
    exact Reduction.gives_become ⟨_, rfl, Word.isTrue_ofTruth _⟩
  · rw [not_or, not_ne_iff, not_ne_iff] at hsame
    have hxpos := hsame.1 ▸ isPositive_stripped hx a
    have hypos := hsame.2 ▸ isPositive_stripped hy b
    rcases either_of_isPositive hg h hxpos hypos with ⟨hpass, _⟩ | ⟨t, ht, htells, _⟩
    · rw [hpass]
      exact Reduction.gives_pass
    · rw [ht]
      exact Reduction.gives_become htells

end Canonical

namespace FlowGraph

/-- A disjunction always has a canonical form, of its truth for every truth of the conditions. The rule,
applied again to its own answers, comes to an end, with a term of this truth that is no disjunction or
one of conditions that are different, no negations and not constant. -/
theorem canonical_disjunction_settles (f : FlowGraph) {ρ : NodeId → Word} (hg : f.graph.WellTyped)
    (hρ : f.graph.Connects ρ) {n x y : NodeId} {a b : Bool} {p : FloatingPoint.Double}
    (hn : f.graph.shape? n = some (.binary (.either a b p) x y)) (hacc : Acc f.graph.Feeds n) :
    ∃ o, f.canonical n = .ok (f, o) ∧
      (o.getD (.node n)).Tells ρ ((ρ x).isTrue ^^ a || (ρ y).isTrue ^^ b) ∧
      ∃ u, (o.getD (.node n)).SettlesAt f.graph u ∧ u.IsSettled f.graph ∧
        u.Tells ρ ((ρ x).isTrue ^^ a || (ρ y).isTrue ^^ b) := by
  obtain ⟨hx, hy⟩ := Graph.feeds_of_binary hn
  have hvalue := hρ.isTrue_of_either hn
  have hsettles := Term.settles_node hg hρ hacc
  obtain ⟨o, ho, htells⟩ := Canonical.gives_either (a := a) (b := b) (p := p) (s := .void) hg hρ
    (hacc.inv hx) (hacc.inv hy)
  refine ⟨o, ?_, ?_⟩
  · rw [f.canonical_eq_reduce (Graph.shape?_binary hn).1 (by rintro _ ⟨⟩)]
    simp only [reduce, hn]
    exact congrArg _ ho
  · rw [hvalue] at hsettles
    cases o with
    | none => exact ⟨⟨ρ n, rfl, hvalue⟩, hsettles⟩
    | some t =>
      refine ⟨htells t rfl, ?_⟩
      exact (Term.settles_iff_of_become ((Term.reduceEither_eq (t := .node n) hn).trans ho)).mp hsettles

/-- The disjunction of another one, with a doubly negated condition, and a negated constant. -/
def nestedDisjunction : FlowGraph where
  graph :=
    let condition (i : Nat) : Node Label :=
      ⟨{ op := .leaf (.parameter i), stamp := .void }, [], {}, true⟩
    ⟨#[condition 0, condition 1,
      ⟨{ op := .unary .negation, stamp := .void }, [some 0], {}, true⟩,
      ⟨{ op := .unary .negation, stamp := .void }, [some 2], {}, true⟩,
      ⟨{ op := .binary (.either true false .zero), stamp := .void }, [some 3, some 1], {}, true⟩,
      ⟨{ op := .leaf (.truth false), stamp := .void }, [], {}, true⟩,
      ⟨{ op := .unary .negation, stamp := .void }, [some 5], {}, true⟩,
      ⟨{ op := .binary (.either false true .zero), stamp := .void }, [some 4, some 6], {}, true⟩], #[], []⟩
  control := []

def nestedValues (i : NodeId) : Word := [1, 1, 0, 1, 1, 0, 1, 1].getD i 0

theorem canonical_disjunction_settles_nested :
    ∃ o, nestedDisjunction.canonical 7 = .ok (nestedDisjunction, o) ∧
      (o.getD (.node 7)).Tells nestedValues true ∧
      ∃ u, (o.getD (.node 7)).SettlesAt nestedDisjunction.graph u ∧
        u.IsSettled nestedDisjunction.graph ∧ u.Tells nestedValues true :=
  @canonical_disjunction_settles nestedDisjunction nestedValues (by decide) (by decide) 7 4 6 false true
    .zero rfl (Graph.acc_of_ordered (by decide) 7)

/-- Three steps take the doubly negated condition and the constant away. -/
example : Term.settle nestedDisjunction.graph 3 (.node 7) =
    .ok (.either true false .zero (.node 0) (.node 1)) := rfl

end FlowGraph

end CompilerKit
