import CompilerKit.Proofs.Canonical.Equality
import CompilerKit.Proofs.Stamp.Operator

/-! # Signed comparisons

A comparison of integers is reduced to one of simpler operands, or to the condition that it comes down
to. Its truth is kept by every rule but one: the constant `-1` becomes `1` when a sign extended bit is
compared with it, so just these comparisons come out wrong. A sign extension from a width that no kind
of constant has cannot be compared with a constant at all.
-/

namespace CompilerKit

namespace Word

/-- Which of two integers is the greater one: the first for `1`, the second for `-1`. -/
def order (x y : Word) : Word := if x.slt y then -1 else if x = y then 0 else 1

theorem order_slt_zero (x y : Word) : (order x y).slt 0 = x.slt y := by
  unfold order
  split
  · rename_i h
    rw [h]
    rfl
  · rename_i h
    rw [Bool.eq_false_iff.mpr h]
    split <;> rfl

theorem zero_slt_order (x y : Word) : (0 : Word).slt (order x y) = y.slt x := by
  rw [Bool.eq_iff_iff, BitVec.slt_iff_toInt_lt, BitVec.slt_iff_toInt_lt]
  simp only [order, BitVec.slt_iff_toInt_lt, ← BitVec.toInt_inj]
  have hzero : (0 : Word).toInt = 0 := rfl
  have hone : (1 : Word).toInt = 1 := rfl
  have hneg : (-1 : Word).toInt = -1 := rfl
  split
  · omega
  · split <;> omega

/-- A difference overflows only if the operands differ in sign and it has not that of the first one. -/
theorem toInt_sub_of_signs {x y : Word} (h : ((x ^^^ y) &&& (x ^^^ (x - y))).slt 0 = false) :
    (x - y).toInt = x.toInt - y.toInt := by
  rw [slt_zero_eq_msb, BitVec.msb_and, BitVec.msb_xor, BitVec.msb_xor] at h
  apply BitVec.toInt_sub_of_not_ssubOverflow
  rw [BitVec.ssubOverflow_eq, Bool.not_eq_true]
  revert h
  cases x.msb <;> cases y.msb <;> cases (x - y).msb <;> simp

theorem fits_of_le {m n : Nat} (hmn : m ≤ n) {x : Word} (h : Fits m x) : Fits n x := by
  have hpow : (2 : Int) ^ (m - 1) ≤ 2 ^ (n - 1) := by
    exact_mod_cast Nat.pow_le_pow_right (n := 2) (by decide) (by omega : m - 1 ≤ n - 1)
  exact ⟨by have := h.1; omega, by have := h.2; omega⟩

theorem eq_zero_or_eq_neg_one {x : Word} (h : ofLow (low 1 x) = x) : x = 0 ∨ x = -1 := by
  rw [← h]
  rcases BitVec.eq_zero_or_eq_one (low 1 x) with hbit | hbit
  · rw [hbit]
    exact .inl rfl
  · rw [hbit]
    exact .inr rfl

end Word

theorem Condition.check_lt {w : Nat} (x y : BitVec w) : lt.check x y = x.slt y := by
  rw [check, holds, Bool.eq_iff_iff, Ordering.isLT_iff_eq_lt, Int.compare_eq_lt, BitVec.slt_iff_toInt_lt]

theorem Condition.check_gt {w : Nat} (x y : BitVec w) : gt.check x y = y.slt x := by
  rw [check, holds, Bool.eq_iff_iff, Ordering.isGT_iff_eq_gt, Int.compare_eq_gt, BitVec.slt_iff_toInt_lt]

theorem Condition.fold_of_width {w : Nat} (hw : w = 32 ∨ w = 64) {k : Kind}
    (hk : Kind.ofBits? w = some k) (c : Condition) (a b : Word) (unordered : Bool) :
    c.fold (.primitive k a) (.primitive k b) unordered = .ok (c.check (Word.low w a) (Word.low w b)) := by
  rcases hw with rfl | rfl
  · cases hk
    rfl
  · cases hk
    rw [Word.low, Word.low, BitVec.setWidth_eq, BitVec.setWidth_eq]
    rfl

namespace Kind

variable {m : Nat} {k : Kind} (hk : ofBits? m = some k)

include hk

theorem low_clip_narrow (x : Word) : Word.low m (k.clip (Word.narrow x m)) = Word.low m x := by
  have hwidth := width_of_ofBits? hk
  rw [Word.narrow_eq (by omega) (by omega)]
  by_cases hm : m = 1
  · subst hm
    cases hk
    rcases BitVec.eq_zero_or_eq_one (Word.low 1 x) with hbit | hbit
    · rw [hbit]
      rfl
    · rw [hbit]
      rfl
  · rw [clip_eq hk hm, Word.signExtend_eq (by omega) (by omega), Word.low_ofLow (by omega),
      Word.low_ofLow (by omega)]

/-- A constant that fits is converted to itself, except that a bit that is set counts as one. -/
theorem clip_narrow {x : Word} (hx : Word.ofLow (Word.low m x) = x) :
    k.clip (Word.narrow x m) = if m = 1 ∧ x = -1 then 1 else x := by
  have hwidth := width_of_ofBits? hk
  rw [Word.narrow_eq (by omega) (by omega), hx]
  by_cases hm : m = 1
  · subst hm
    cases hk
    rcases Word.eq_zero_or_eq_neg_one hx with rfl | rfl
    · rfl
    · rfl
  · rw [clip_eq hk hm, Word.signExtend_eq (by omega) (by omega), hx, if_neg (fun h => hm h.1)]

end Kind

namespace IntStamp

/-- No difference of values of two stamps leaves their width. -/
def DifferencesExact (s t : IntStamp) : Prop :=
  ∀ v u, s.contains v = true → t.contains u = true →
    (Word.low s.bits v - Word.low s.bits u).toInt = v.toInt - u.toInt

/-- The values of two stamps have the same order with and without sign. -/
def OrdersAgree (s t : IntStamp) : Prop :=
  ∀ v u, s.contains v = true → t.contains u = true →
    (Word.low s.bits v).slt (Word.low s.bits u) = (Word.low s.bits v).ult (Word.low s.bits u)

variable {s t : IntStamp} (hs : s.WellFormed) (ht : t.WellFormed) (hbits : t.bits = s.bits)

include hs ht hbits

theorem ordersAgree_of_sameSign (hsign : s.sameSign t = true) : s.OrdersAgree t := by
  intro v u hv hu
  exact Summands.slt_eq_ult ⟨hs, ht, hbits, hv, hu⟩ hsign

/-- The least and the greatest difference are computed in whole words, and the least value of the width
counts as outside. -/
theorem differencesExact_of_bounds
    (hunder : Canonical.subtractMayUnderflow s.lo t.hi (Word.minValue s.bits) = false)
    (hover : Canonical.subtractMayOverflow s.hi t.lo (Word.maxValue s.bits) = false) :
    s.DifferencesExact t := by
  intro v u hv hu
  have hvalues : Summands s t v u := ⟨hs, ht, hbits, hv, hu⟩
  obtain ⟨⟨hlo, hhi⟩, hlo', hhi'⟩ := hvalues.bounds
  simp only [Canonical.subtractMayUnderflow, Bool.or_eq_false_iff] at hunder
  simp only [Canonical.subtractMayOverflow, Bool.or_eq_false_iff] at hover
  have hleast := hunder.2
  have hgreatest := hover.2
  rw [← Bool.not_eq_true, BitVec.sle_iff_toInt_le, Word.toInt_sub_of_signs hunder.1,
    Word.toInt_minValue hs.bits_le] at hleast
  rw [← Bool.not_eq_true, BitVec.slt_iff_toInt_lt, Word.toInt_sub_of_signs hover.1,
    Word.toInt_maxValue hs.bits_le] at hgreatest
  rw [BitVec.toInt_sub, hvalues.toInt_low.1, hvalues.toInt_low.2]
  exact Word.bmod_of_range hs.bits_pos (by omega) (by omega)

end IntStamp

namespace Graph

/-- An integer expression of a width, made of integers: it is not converted from a floating point number,
it is not a choice between others than integers of the width, and if it tells which of two operands is
the greater one, these are integers. -/
def integralAt (g : Graph Label) (ρ : NodeId → Word) (w : Nat) (i : NodeId) : Bool :=
  decide ((g.stamp i).IsInteger w) &&
    match g.shape? i with
    | some (.unary (.convert _) _) => false
    | some (.binary (.order _) a b) =>
      (g.stamp a).IsInteger (g.stamp a).bits ∧ (g.stamp b).IsInteger (g.stamp a).bits ∧
        ρ i = Word.order (ρ a) (ρ b)
    | some (.select _ t f) => (g.stamp t).IsInteger w ∧ (g.stamp f).IsInteger w
    | _ => true

/-- The width that a node is sign extended from, if a comparison with a constant looks through it. -/
def extendedFrom? (g : Graph Label) (i : NodeId) : Option Nat :=
  match g.shape? i with
  | some (.unary (.resize .signExtend m _) u) =>
    if 1 < g.usageCount i && g.usageCount u == 1 then none else some m
  | _ => none

/-- What a node is compared with in place of a constant: `1` stands for a bit that is set. -/
def comparedWith (g : Graph Label) (i : NodeId) (c : Word) : Word :=
  if g.extendedFrom? i = some 1 ∧ c = -1 then 1 else c

/-- The width that a comparison with a constant needs a constant of, though no kind has it. -/
def unsupportedWidth? (g : Graph Label) (x y : NodeId) : Option Nat :=
  (if g.isConstant y then g.extendedFrom? x else if g.isConstant x then g.extendedFrom? y else none).filter
    fun m => (Kind.ofBits? m).isNone

/-- The comparisons that come out wrong: a sign extended bit is found less than `-1`, and `-1` is not found
less than it. -/
def misjudgesLess (g : Graph Label) (ρ : NodeId → Word) (x y : NodeId) : Bool :=
  g.isConstant y && g.extendedFrom? x == some 1 && ρ y == -1 ||
    g.isConstant x && g.extendedFrom? y == some 1 && ρ x == -1 && ρ y == 0

section Integral

variable {g : Graph Label} {ρ : NodeId → Word} {w : Nat} {i : NodeId} (h : g.integralAt ρ w i = true)

include h

theorem isInteger_of_integralAt : (g.stamp i).IsInteger w := by
  rw [integralAt, Bool.and_eq_true] at h
  exact of_decide_eq_true h.1

theorem integralAt_order {b : Bool} {a c : NodeId}
    (hshape : g.shape? i = some (.binary (.order b) a c)) :
    (∃ m, (g.stamp a).IsInteger m ∧ (g.stamp c).IsInteger m) ∧ ρ i = Word.order (ρ a) (ρ c) := by
  simp only [integralAt, hshape, Bool.and_eq_true, decide_eq_true_eq] at h
  exact ⟨⟨_, h.2.1, h.2.2.1⟩, h.2.2.2⟩

theorem integralAt_select {c t f : NodeId} (hshape : g.shape? i = some (.select c t f)) :
    (g.stamp t).IsInteger w ∧ (g.stamp f).IsInteger w := by
  simp only [integralAt, hshape, Bool.and_eq_true, decide_eq_true_eq] at h
  exact h.2

theorem integralAt_ne_convert (op : FloatConvert) (x : NodeId) :
    g.shape? i ≠ some (.unary (.convert op) x) := by
  intro hshape
  simp only [integralAt, hshape, Bool.and_false, Bool.false_eq_true] at h

end Integral

theorem comparedWith_of_none {g : Graph Label} {i : NodeId} (h : g.extendedFrom? i = none) (c : Word) :
    g.comparedWith i c = c := by
  rw [comparedWith, h, if_neg (by simp)]

theorem comparedWith_of_some {g : Graph Label} {i : NodeId} {n : Nat} (h : g.extendedFrom? i = some n)
    (c : Word) : g.comparedWith i c = if n = 1 ∧ c = -1 then 1 else c := by
  simp only [comparedWith, h, Option.some.injEq]

theorem shape?_of_extendedFrom? {g : Graph Label} {i : NodeId} {n : Nat}
    (h : g.extendedFrom? i = some n) :
    ∃ r u, g.shape? i = some (.unary (.resize .signExtend n r) u) ∧
      (decide (1 < g.usageCount i) && g.usageCount u == 1) = false := by
  unfold extendedFrom? at h
  split at h
  · rename_i m r u hshape
    rw [Option.ite_none_left_eq_some, Option.some.injEq] at h
    obtain ⟨hguard, rfl⟩ := h
    exact ⟨r, u, hshape, Bool.eq_false_iff.mpr hguard⟩
  · cases h

theorem constant?_of_extendedFrom? {g : Graph Label} {i : NodeId} {n : Nat}
    (h : g.extendedFrom? i = some n) : g.constant? i = none := by
  obtain ⟨r, u, hshape, _⟩ := shape?_of_extendedFrom? h
  rw [constant?, (shape?_unary hshape).1]

theorem extendedFrom?_of_constant? {g : Graph Label} {i : NodeId} {c : Constant}
    (h : g.constant? i = some c) : g.extendedFrom? i = none := by
  cases hfrom : g.extendedFrom? i with
  | none => rfl
  | some n =>
    rw [constant?_of_extendedFrom? hfrom] at h
    cases h

end Graph

namespace Canonical

open Reduction

/-- The truth of a comparison, also with the operands in exchanged places. -/
def less (flipped : Bool) (a b : Word) : Bool := if flipped then b.slt a else a.slt b

/-- A condition of the given truth that is no unsigned comparison. -/
structure Signed (ρ : NodeId → Word) (b : Bool) (t : Term) : Prop where
  tells : t.Tells ρ b
  ne_below : ∀ u v, t ≠ .compare .intBelow u v

theorem signed_truth {ρ : NodeId → Word} (b : Bool) : Signed ρ b (.truth b) :=
  ⟨Term.tells_truth b, by rintro _ _ ⟨⟩⟩

/-- A comparison, also with the operands in exchanged places. -/
def lessThan (flipped : Bool) (l r : Term) : Term :=
  .compare .intLess (if flipped then r else l) (if flipped then l else r)

theorem signed_lessThan {ρ : NodeId → Word} {l r : Term} {a b : Word} (hl : l.eval ρ = some a)
    (hr : r.eval ρ = some b) (flipped : Bool) :
    Signed ρ (less flipped a b) (lessThan flipped l r) := by
  cases flipped with
  | false => exact ⟨⟨_, Term.eval_binary hl hr, Word.isTrue_ofTruth _⟩, by rintro _ _ ⟨⟩⟩
  | true => exact ⟨⟨_, Term.eval_binary hr hl, Word.isTrue_ofTruth _⟩, by rintro _ _ ⟨⟩⟩

theorem signed_negated {g : Graph Label} {ρ : NodeId → Word} (hρ : g.Models ρ) (c : NodeId) :
    Signed ρ (!(ρ c).isTrue) (Term.negated g (.node c)) := by
  refine ⟨Term.tells_negated hρ c, ?_⟩
  intro u v
  simp only [Term.negated]
  split
  all_goals rintro ⟨⟩

/-- A condition of the given truth in place of a comparison. If it compares the operands of a difference,
no such difference leaves the width; if it compares without sign, the sign does not matter. -/
structure LessAnswer (g : Graph Label) (ρ : NodeId → Word) (x y : NodeId) (truth : Bool) (t : Term) :
    Prop where
  tells : t.Tells ρ truth
  difference : ∀ a b, t = .compare .intLess (.node a) (.node b) →
    g.shape? x = some (.binary (.arith .sub) a b) →
      ∀ u v, g.stamp a = .int u → g.stamp b = .int v → u.DifferencesExact v
  unsigned : ∀ l r, t = .compare .intBelow l r → (l = .node x ∧ r = .node y) ∧
    ∀ u v, g.stamp x = .int u → g.stamp y = .int v → u.OrdersAgree v

theorem Signed.lessAnswer {g : Graph Label} {ρ : NodeId → Word} {x y : NodeId} {truth : Bool} {t : Term}
    (ht : Signed ρ truth t)
    (hsub : ∀ a b, g.shape? x ≠ some (.binary (.arith .sub) a b)) : LessAnswer g ρ x y truth t where
  tells := ht.tells
  difference := fun a b _ hshape => absurd hshape (hsub a b)
  unsigned := fun l r hbelow => absurd hbelow (ht.ne_below l r)

section Equations

variable {g : Graph Label} {ρ : NodeId → Word} {w : Nat} {i : NodeId} {K : Constant}

theorem compareOrder_eq (self : NodeId) (a b : NodeId) (unorderedIsLess flipped : Bool) :
    compareOrder .intLess self g K i a b unorderedIsLess flipped =
      if K = .primitive .int 0 then
        become (.compare
          (if (g.stamp a).stackKind.isFloat then .floatLess (flipped ^^ unorderedIsLess) else .intLess)
          (if flipped then .node b else .node a) (if flipped then .node a else .node b))
      else pass := by
  cases flipped <;> rfl

theorem compareConverted_of_ok {c : Comparison} (hc : c = .intEquals ∨ c = .intLess) {v : Conversion}
    {t : IntStamp} (ht : g.stamp v.operand = .int t)
    (hguard : (v.extends_ && decide (1 < g.usageCount i) && g.usageCount v.operand == 1) = false)
    (horder : v.preservesOrder = true) {k : Kind} {x : Word} {d : Constant}
    (hback : v.back K = .ok (.primitive k x)) (hthere : v.there (.primitive k x) = .ok d)
    (flipped : Bool) :
    let operand : Term := .node v.operand
    let constant : Term := .leaf (.constant (.primitive k x)) (.int (.single t.bits x))
    compareConverted c g K i v flipped =
      if d = K then
        become (.compare c (if flipped then constant else operand) (if flipped then operand else constant))
      else pass := by
  intro operand constant
  rw [compareConverted, hguard, horder, if_neg (by decide), if_neg (by decide),
    Result.bind_of_ok hback, Result.bind_of_ok hthere]
  split
  · rw [ht]
    cases flipped with
    | false =>
      change build (recompare c g operand constant) = _
      rcases hc with rfl | rfl
      all_goals
        simp only [recompare, operand, constant, Term.stamp, ht]
        rfl
    | true =>
      change build (recompare c g constant operand) = _
      rcases hc with rfl | rfl
      all_goals
        simp only [recompare, operand, constant, Term.stamp, ht]
        rfl
  · rfl

theorem compareConverted_of_error {c : Comparison} {v : Conversion}
    (hguard : (v.extends_ && decide (1 < g.usageCount i) && g.usageCount v.operand == 1) = false)
    (horder : v.preservesOrder = true) {e : Fault} (hback : v.back K = .error e) (flipped : Bool) :
    compareConverted c g K i v flipped = .error e := by
  rw [compareConverted, hguard, horder, if_neg (by decide), if_neg (by decide), hback]
  rfl

theorem compareComputed_signExtend {m r : Nat} {u : NodeId}
    (hshape : g.shape? i = some (.unary (.resize .signExtend m r) u)) (self : NodeId) (flipped : Bool) :
    compareComputed .intLess self g K i flipped =
      compareConverted .intLess g K i ⟨u, true, true, ResizeOp.signExtend.onConstant m r,
        ResizeOp.narrow.onConstant r m⟩ flipped := by
  simp only [compareComputed, conversion?, hshape]
  rfl

theorem shape?_of_preservesOrder (hint : g.integralAt ρ w i = true) {v : Conversion}
    (hv : conversion? g .lt i = some v) (horder : v.preservesOrder = true) :
    ∃ m r, g.shape? i = some (.unary (.resize .signExtend m r) v.operand) ∧ v.extends_ = true := by
  unfold conversion? at hv
  split at hv
  · rename_i op m r u hshape
    cases hv
    cases op with
    | signExtend => exact ⟨m, r, hshape, rfl⟩
    | zeroExtend | narrow => cases horder
  · rename_i op u hshape
    exact absurd hshape (g.integralAt_ne_convert hint op u)
  · cases hv

theorem compareConverted_of_kept (hint : g.integralAt ρ w i = true)
    (hfrom : g.extendedFrom? i = none) {v : Conversion} (hv : conversion? g .lt i = some v)
    (flipped : Bool) : compareConverted .intLess g K i v flipped = pass := by
  cases horder : v.preservesOrder with
  | false =>
    rw [compareConverted, horder]
    split <;> rfl
  | true =>
    obtain ⟨m, r, hshape, hextends⟩ := shape?_of_preservesOrder hint hv horder
    simp only [Graph.extendedFrom?, hshape, ite_eq_left_iff, reduceCtorEq, imp_false, not_not] at hfrom
    rw [compareConverted, hextends, Bool.true_and, if_pos hfrom]

theorem gives_compareChoice {cmp : Comparison} {flipped : Bool} (hρ : g.Models ρ) {c t f : NodeId}
    (hshape : g.shape? i = some (.select c t f)) (truth : Word → Bool)
    (hfoldTrue : ∀ a, g.constant? t = some a →
      (if flipped then cmp.condition.flip else cmp.condition).fold a K cmp.unorderedIsTrue =
        .ok (truth (ρ t)))
    (hfoldFalse : ∀ b, g.constant? f = some b →
      (if flipped then cmp.condition.flip else cmp.condition).fold b K cmp.unorderedIsTrue =
        .ok (truth (ρ f))) :
    Gives (Signed ρ (truth (ρ i))) (compareChoice cmp g K c t f flipped) := by
  cases ha : g.constant? t with
  | none =>
    simp only [compareChoice, ha]
    exact gives_pass
  | some a =>
  cases hb : g.constant? f with
  | none =>
    simp only [compareChoice, ha, hb]
    exact gives_pass
  | some b =>
  have hvalue : truth (ρ i) = if (ρ c).isTrue then truth (ρ t) else truth (ρ f) := by
    rw [hρ.eq_of_select hshape]
    split <;> rfl
  simp only [compareChoice, ha, hb]
  rw [Result.bind_of_ok (hfoldTrue a ha), Result.bind_of_ok (hfoldFalse b hb), hvalue]
  cases truth (ρ t) with
  | true =>
    cases truth (ρ f) with
    | true =>
      rw [ite_self]
      exact gives_become (signed_truth true)
    | false =>
      refine gives_keep ⟨⟨ρ c, rfl, ?_⟩, by rintro _ _ ⟨⟩⟩
      cases (ρ c).isTrue <;> rfl
  | false =>
    cases truth (ρ f) with
    | true =>
      have hnot : (if (ρ c).isTrue = true then false else true) = !(ρ c).isTrue := by
        cases (ρ c).isTrue <;> rfl
      rw [hnot]
      exact gives_become (signed_negated hρ c)
    | false =>
      rw [ite_self]
      exact gives_become (signed_truth false)

theorem compareCommon_of_sub {x y a b : NodeId}
    (hshape : g.shape? x = some (.binary (.arith .sub) a b))
    (self : NodeId) (st : Stamp) : compareCommon .intLess self g st x y = pass := by
  have hcx : g.constant? x = none := by
    rw [Graph.constant?, (Graph.shape?_binary hshape).1]
  cases hcy : g.constant? y with
  | some b =>
    simp only [compareCommon, hcx, hcy]
    change compareComputed .intLess self g b x false = pass
    simp only [compareComputed, conversion?, hshape]
  | none => simp only [compareCommon, compareBothConverted, conversion?, hcx, hcy, hshape]

end Equations

section Constant

variable {g : Graph Label} {ρ : NodeId → Word} {s : IntStamp} (h : Computing g ρ s) {i j : NodeId}
  (hi : (g.stamp i).IsInteger s.bits) (hj : (g.stamp j).IsInteger s.bits)

include h hi hj

theorem Computing.slt_low :
    (Word.low s.bits (ρ i)).slt (Word.low s.bits (ρ j)) = (ρ i).slt (ρ j) := by
  rw [Bool.eq_iff_iff, BitVec.slt_iff_toInt_lt, BitVec.slt_iff_toInt_lt, h.toInt_low hi, h.toInt_low hj]

theorem Computing.check_less (flipped : Bool) :
    (if flipped then Condition.lt.flip else .lt).check (Word.low s.bits (ρ i)) (Word.low s.bits (ρ j)) =
      less flipped (ρ i) (ρ j) := by
  cases flipped with
  | false => exact (Condition.check_lt _ _).trans (h.slt_low hi hj)
  | true => exact (Condition.check_gt _ _).trans (h.slt_low hj hi)

theorem Computing.fold_less {a b : Constant} (ha : g.constant? i = some a)
    (hb : g.constant? j = some b) (flipped unordered : Bool) :
    (if flipped then Condition.lt.flip else .lt).fold a b unordered =
      .ok (less flipped (ρ i) (ρ j)) := by
  obtain ⟨k, rfl, hk⟩ := h.constant ha hi
  obtain ⟨l, rfl, hl⟩ := h.constant hb hj
  obtain rfl : k = l := Option.some.inj (hk.symm.trans hl)
  rw [Condition.fold_of_width h.width hk, h.check_less hi hj]

variable {K : Constant} (hK : g.constant? j = some K)

include hK

omit hi in
theorem gives_lessChoice {c t f : NodeId} (hshape : g.shape? i = some (.select c t f))
    (ht : (g.stamp t).IsInteger s.bits) (hf : (g.stamp f).IsInteger s.bits) (flipped : Bool) :
    Gives (Signed ρ (less flipped (ρ i) (ρ j))) (compareChoice .intLess g K c t f flipped) :=
  gives_compareChoice h.models hshape (less flipped · (ρ j))
    (fun _ ha => h.fold_less ht hj ha hK flipped false)
    (fun _ hb => h.fold_less hf hj hb hK flipped false)

omit hi hj in
/-- What tells the order of two operands is negative if the first one is less, and positive if the second
one is. -/
theorem gives_lessOrder {a b : NodeId} {w : Nat} (ha : (g.stamp a).IsInteger w)
    (hvalue : ρ i = Word.order (ρ a) (ρ b)) (self : NodeId) (unorderedIsLess flipped : Bool) :
    Gives (Signed ρ (less flipped (ρ i) (ρ j)))
      (compareOrder .intLess self g K i a b unorderedIsLess flipped) := by
  rw [compareOrder_eq]
  split
  · rename_i hzero
    obtain ⟨t, ht, _⟩ := ha.exists_int
    have hint : (g.stamp a).stackKind.isFloat = false := by
      rw [ht, Stamp.stackKind]
      split <;> rfl
    have hj0 : ρ j = 0 := h.models.eq_of_constant h.sorted.wellTyped (hK.trans (congrArg some hzero))
    have htruth : less flipped (ρ i) (ρ j) = less flipped (ρ a) (ρ b) := by
      rw [hvalue, hj0]
      cases flipped with
      | false => exact Word.order_slt_zero _ _
      | true => exact Word.zero_slt_order _ _
    rw [hint, htruth]
    exact gives_become (signed_lessThan rfl rfl flipped)
  · exact gives_pass

omit hj hK in
theorem Computing.eq_of_signExtend {m r : Nat} {u : NodeId}
    (hshape : g.shape? i = some (.unary (.resize .signExtend m r) u)) : ρ i = ρ u := by
  obtain ⟨hu, rfl, hle⟩ := h.sorted.operand_of_resize hshape hi
  obtain ⟨t, ht, rfl, hwell⟩ := hu.exists_int
  rw [h.models.eq_of_resize hshape, ResizeOp.onValue, Word.ofLow_signExtend hwell.bits_pos
    (by simpa using hle) h.le (hwell.fits_of_contains (h.known.contains ht hu))]

omit hi in
theorem compareComputed_unsupported {n : Nat} (hfrom : g.extendedFrom? i = some n)
    (hn : Kind.ofBits? n = none) (self : NodeId) (flipped : Bool) :
    compareComputed .intLess self g K i flipped =
      .error (.invalidArgument s!"unsupported integer width: {n}") := by
  obtain ⟨r, u, hshape, hguard⟩ := g.shape?_of_extendedFrom? hfrom
  obtain ⟨l, rfl, _⟩ := h.constant hK hj
  rw [compareComputed_signExtend hshape]
  refine compareConverted_of_error ?_ rfl (ResizeOp.narrow.onConstant_unsupported hn r l (ρ j)) flipped
  exact hguard

/-- The operand of a sign extension takes its place if the constant fits the operand's width. It is
compared with that constant, or with `1` in place of the only bit that is set. -/
theorem compareComputed_supported {n : Nat} (hfrom : g.extendedFrom? i = some n) {k : Kind}
    (hk : Kind.ofBits? n = some k) (self : NodeId) (flipped : Bool) :
    ∃ t, compareComputed .intLess self g K i flipped =
        (if Word.ofLow (Word.low n (ρ j)) = ρ j then become t else pass) ∧
      (Word.ofLow (Word.low n (ρ j)) = ρ j →
        Signed ρ (less flipped (ρ i) (g.comparedWith i (ρ j))) t) := by
  obtain ⟨r, u, hshape, hguard⟩ := g.shape?_of_extendedFrom? hfrom
  have hvalue := h.eq_of_signExtend hi hshape
  obtain ⟨hu, rfl, hle⟩ := h.sorted.operand_of_resize hshape hi
  obtain ⟨l, rfl, hl⟩ := h.constant hK hj
  obtain ⟨t, ht, rfl, hwell⟩ := hu.exists_int
  have hne : s.bits ≠ 1 := by have := h.width; omega
  have hback := ResizeOp.narrow.onConstant_eq s.bits hk l (ρ j)
  have hthere : ResizeOp.signExtend.onConstant t.bits s.bits
      (.primitive k (k.clip (Word.narrow (ρ j) t.bits))) =
      .ok (.primitive l (Word.ofLow (Word.low t.bits (ρ j)))) := by
    have hfits := Word.fits_of_le (by simpa using hle)
      (Word.fits_ofLow hwell.bits_le (Word.low t.bits (ρ j)))
    rw [ResizeOp.onConstant_eq _ _ hl, ResizeOp.onWord,
      Word.signExtend_eq hwell.bits_pos hwell.bits_le, Kind.low_clip_narrow hk, Kind.clip_eq hl hne,
      Word.signExtend_eq h.pos h.le, Word.ofLow_low h.pos h.le hfits]
  rw [compareComputed_signExtend hshape]
  have hcompared := compareConverted_of_ok (.inr rfl) (v := ⟨u, true, true,
    ResizeOp.signExtend.onConstant t.bits s.bits, ResizeOp.narrow.onConstant s.bits t.bits⟩) ht hguard
    rfl hback hthere flipped
  simp only [Constant.primitive.injEq, true_and] at hcompared
  refine ⟨_, hcompared, ?_⟩
  intro hfit
  rw [ResizeOp.onWord, g.comparedWith_of_some hfrom, ← Kind.clip_narrow hk hfit, hvalue]
  exact signed_lessThan rfl rfl flipped

theorem compareComputed_ne_pass (hbit : g.extendedFrom? i = some 1) (hones : ρ j = -1) (self : NodeId)
    (flipped : Bool) : compareComputed .intLess self g K i flipped ≠ pass := by
  obtain ⟨t, ht, _⟩ := compareComputed_supported h hi hj hK hbit rfl self flipped
  rw [ht, hones, if_pos (by decide)]
  rintro ⟨⟩

omit hi in
theorem gives_compareComputed (hint : g.integralAt ρ s.bits i = true)
    (hkind : ∀ n, g.extendedFrom? i = some n → Kind.ofBits? n ≠ none) (self : NodeId) (flipped : Bool) :
    Gives (Signed ρ (less flipped (ρ i) (g.comparedWith i (ρ j))))
      (compareComputed .intLess self g K i flipped) := by
  have hi := g.isInteger_of_integralAt hint
  cases hfrom : g.extendedFrom? i with
  | some n =>
    obtain ⟨k, hk⟩ := Option.ne_none_iff_exists'.mp (hkind n hfrom)
    obtain ⟨t, ht, hsigned⟩ := compareComputed_supported h hi hj hK hfrom hk self flipped
    rw [ht]
    split
    · rename_i hfit
      exact gives_become (hsigned hfit)
    · exact gives_pass
  | none =>
    rw [g.comparedWith_of_none hfrom]
    unfold compareComputed
    split
    · rename_i c t f hshape
      obtain ⟨ht, hf⟩ := g.integralAt_select hint hshape
      exact gives_lessChoice h hj hK hshape ht hf flipped
    · rename_i b x y hshape
      obtain ⟨⟨m, hx, _⟩, hvalue⟩ := g.integralAt_order hint hshape
      exact gives_lessOrder h hK hx hvalue self b flipped
    · split
      · rename_i v hv
        rw [compareConverted_of_kept hint hfrom hv flipped]
        exact gives_pass
      · exact gives_pass

end Constant

section Operands

variable {g : Graph Label} {ρ : NodeId → Word} {s : IntStamp} (h : Computing g ρ s) {x y : NodeId}
  (hx : g.integralAt ρ s.bits x = true) (hy : g.integralAt ρ s.bits y = true)

include h hx hy

theorem gives_lessBothConverted :
    Gives (Signed ρ ((ρ x).slt (ρ y))) (compareBothConverted .intLess g x y) := by
  unfold compareBothConverted
  split
  · rename_i u v hu hv
    split
    · rename_i hcond
      rw [Bool.and_eq_true, Bool.and_eq_true] at hcond
      obtain ⟨m, r, hxu, _⟩ := shape?_of_preservesOrder hx hu hcond.1.1
      obtain ⟨m', r', hyv, _⟩ := shape?_of_preservesOrder hy hv hcond.1.2
      have hxi := g.isInteger_of_integralAt hx
      have hyi := g.isInteger_of_integralAt hy
      obtain ⟨a, ha, _⟩ := (h.sorted.operand_of_resize hxu hxi).1.exists_int
      obtain ⟨b, hb, _⟩ := (h.sorted.operand_of_resize hyv hyi).1.exists_int
      split
      · exact gives_pass
      · have hcompare : recompare .intLess g (.node u.operand) (.node v.operand) =
            .ok (lessThan false (.node u.operand) (.node v.operand)) := by
          simp only [recompare, Term.stamp, ha, hb]
          rfl
        refine gives_build hcompare ?_
        rw [h.eq_of_signExtend hxi hxu, h.eq_of_signExtend hyi hyv]
        exact signed_lessThan rfl rfl false
    · exact gives_pass
  · exact gives_pass

omit hy in
theorem Computing.bit_of_extendedFrom? (hone : g.extendedFrom? x = some 1) : ρ x = 0 ∨ ρ x = -1 := by
  obtain ⟨r, u, hshape, _⟩ := g.shape?_of_extendedFrom? hone
  have hxi := g.isInteger_of_integralAt hx
  rw [h.eq_of_signExtend hxi hshape]
  exact Word.eq_zero_or_eq_neg_one (h.models.ofLow_low (h.sorted.operand_of_resize hshape hxi).1)

/-! A sign extended bit is less than `1`, and `1` is not less than it. -/

omit hy in
theorem Computing.slt_comparedWith {b : Constant} (hcx : g.constant? x = none)
    (hcy : g.constant? y = some b) :
    (ρ x).slt (g.comparedWith x (ρ y)) = ((ρ x).slt (ρ y) ^^ g.misjudgesLess ρ x y) := by
  have hmis : g.misjudgesLess ρ x y = (g.extendedFrom? x == some 1 && ρ y == -1) := by
    simp [Graph.misjudgesLess, Graph.isConstant, hcx, hcy]
  rw [hmis, Graph.comparedWith]
  split
  · -- Both values of a bit are less than `1` and neither is less than `-1`.
    rename_i hbit
    rw [hbit.1, hbit.2]
    rcases h.bit_of_extendedFrom? hx hbit.1 with hzero | hone
    · rw [hzero]
      rfl
    · rw [hone]
      rfl
  · rename_i hbit
    have hnot : (g.extendedFrom? x == some 1 && ρ y == -1) = false := by
      rw [← Bool.not_eq_true, Bool.and_eq_true, beq_iff_eq, beq_iff_eq]
      exact hbit
    rw [hnot, Bool.xor_false]

omit hx in
theorem Computing.comparedWith_slt {a : Constant} (hcx : g.constant? x = some a)
    (hcy : g.constant? y = none) :
    (g.comparedWith y (ρ x)).slt (ρ y) = ((ρ x).slt (ρ y) ^^ g.misjudgesLess ρ x y) := by
  have hmis : g.misjudgesLess ρ x y = (g.extendedFrom? y == some 1 && ρ x == -1 && ρ y == 0) := by
    simp [Graph.misjudgesLess, Graph.isConstant, hcy, hcx]
  rw [hmis, Graph.comparedWith]
  split
  · -- Neither value of a bit is greater than `1`, but one of them is greater than `-1`.
    rename_i hbit
    rw [hbit.1, hbit.2]
    rcases h.bit_of_extendedFrom? hy hbit.1 with hzero | hone
    · rw [hzero]
      rfl
    · rw [hone]
      rfl
  · rename_i hbit
    have hnot : (g.extendedFrom? y == some 1 && ρ x == -1) = false := by
      rw [← Bool.not_eq_true, Bool.and_eq_true, beq_iff_eq, beq_iff_eq]
      exact hbit
    rw [hnot, Bool.false_and, Bool.xor_false]

theorem gives_lessCommon (hwidth : g.unsupportedWidth? x y = none) (self : NodeId) (st : Stamp) :
    Gives (Signed ρ ((ρ x).slt (ρ y) ^^ g.misjudgesLess ρ x y))
      (compareCommon .intLess self g st x y) := by
  have hxi := g.isInteger_of_integralAt hx
  have hyi := g.isInteger_of_integralAt hy
  cases hcx : g.constant? x with
  | some a =>
    cases hcy : g.constant? y with
    | some b =>
      have hmis : g.misjudgesLess ρ x y = false := by
        simp [Graph.misjudgesLess, g.extendedFrom?_of_constant? hcx, g.extendedFrom?_of_constant? hcy]
      have hfold : Condition.lt.fold a b false = .ok ((ρ x).slt (ρ y)) :=
        h.fold_less hxi hyi hcx hcy false false
      rw [hmis, Bool.xor_false]
      simp only [compareCommon, Term.foldComparison, hcx, hcy, Comparison.condition,
        Comparison.unorderedIsTrue]
      rw [Result.bind_of_ok hfold]
      exact gives_become (signed_truth _)
    | none =>
      have hkind : ∀ n, g.extendedFrom? y = some n → Kind.ofBits? n ≠ none := by
        intro n hn
        simpa [Graph.unsupportedWidth?, Graph.isConstant, hcx, hcy, hn] using hwidth
      rw [← h.comparedWith_slt hy hcx hcy]
      simp only [compareCommon, hcx, hcy]
      exact gives_compareComputed h hxi hcx hy hkind self true
  | none =>
    cases hcy : g.constant? y with
    | some b =>
      have hkind : ∀ n, g.extendedFrom? x = some n → Kind.ofBits? n ≠ none := by
        intro n hn
        simpa [Graph.unsupportedWidth?, Graph.isConstant, hcx, hcy, hn] using hwidth
      rw [← h.slt_comparedWith hx hcx hcy]
      simp only [compareCommon, hcx, hcy]
      exact gives_compareComputed h hyi hcy hx hkind self false
    | none =>
      have hmis : g.misjudgesLess ρ x y = false := by
        simp [Graph.misjudgesLess, Graph.isConstant, hcx, hcy]
      rw [hmis, Bool.xor_false]
      simp only [compareCommon, hcx, hcy]
      exact gives_lessBothConverted h hx hy

theorem not_misjudged_of_pass {self : NodeId} {st : Stamp}
    (hpass : compareCommon .intLess self g st x y = pass) : g.misjudgesLess ρ x y = false := by
  have hxi := g.isInteger_of_integralAt hx
  have hyi := g.isInteger_of_integralAt hy
  rw [← Bool.not_eq_true]
  intro hmis
  simp only [Graph.misjudgesLess, Bool.or_eq_true, Bool.and_eq_true, beq_iff_eq] at hmis
  rcases hmis with ⟨⟨hcy, hbit⟩, hones⟩ | ⟨⟨⟨hcx, hbit⟩, hones⟩, _⟩
  · obtain ⟨b, hcy⟩ := Option.isSome_iff_exists.mp hcy
    simp only [compareCommon, g.constant?_of_extendedFrom? hbit, hcy] at hpass
    exact compareComputed_ne_pass h hxi hyi hcy hbit hones self false hpass
  · obtain ⟨a, hcx⟩ := Option.isSome_iff_exists.mp hcx
    simp only [compareCommon, hcx, g.constant?_of_extendedFrom? hbit] at hpass
    exact compareComputed_ne_pass h hyi hxi hcx hbit hones self true hpass

theorem compareCommon_unsupported {m : Nat} (hwidth : g.unsupportedWidth? x y = some m) (self : NodeId)
    (st : Stamp) : compareCommon .intLess self g st x y =
      .error (.invalidArgument s!"unsupported integer width: {m}") := by
  have hxi := g.isInteger_of_integralAt hx
  have hyi := g.isInteger_of_integralAt hy
  simp only [Graph.unsupportedWidth?, Option.filter_eq_some_iff, Option.isNone_iff_eq_none] at hwidth
  obtain ⟨hfrom, hnone⟩ := hwidth
  split at hfrom
  · rename_i hcy
    obtain ⟨b, hcy⟩ := Option.isSome_iff_exists.mp hcy
    simp only [compareCommon, g.constant?_of_extendedFrom? hfrom, hcy]
    exact compareComputed_unsupported h hyi hcy hfrom hnone self false
  · split at hfrom
    · rename_i hcx
      obtain ⟨a, hcx⟩ := Option.isSome_iff_exists.mp hcx
      simp only [compareCommon, g.constant?_of_extendedFrom? hfrom, hcx]
      exact compareComputed_unsupported h hxi hcx hfrom hnone self true
    · cases hfrom

theorem gives_lessDifference (st : Stamp) :
    Gives (LessAnswer g ρ x y ((ρ x).slt (ρ y))) (lessDifference g st x y) := by
  have hxi := g.isInteger_of_integralAt hx
  have hyi := g.isInteger_of_integralAt hy
  unfold lessDifference
  split
  · rename_i c a b hcy hsub
    have hshape := Graph.shape?_of_binary? hsub
    obtain ⟨hai, hbi⟩ := h.sorted.wellTyped.operands rfl hshape hxi
    obtain ⟨u, hu, hubits, huwell⟩ := hai.exists_int
    obtain ⟨v, hv, hvbits, hvwell⟩ := hbi.exists_int
    simp only [hu, hv]
    split
    · rename_i hzero
      split
      · rename_i hbounds
        rw [Bool.and_eq_true, Bool.not_eq_true', Bool.not_eq_true'] at hbounds
        have hexact := IntStamp.differencesExact_of_bounds huwell hvwell (hvbits.trans hubits.symm)
          hbounds.1 hbounds.2
        have hdiff := hexact _ _ (h.known.contains hu hai) (h.known.contains hv hbi)
        have htruth : (ρ x).slt (ρ y) = (ρ a).slt (ρ b) := by
          obtain ⟨k, rfl, _⟩ := h.constant hcy hyi
          have hy0 : (ρ y).toInt = 0 := congrArg BitVec.toInt (of_decide_eq_true hzero)
          rw [Bool.eq_iff_iff, BitVec.slt_iff_toInt_lt, BitVec.slt_iff_toInt_lt,
            h.models.eq_of_arith hshape hxi rfl, Word.toInt_ofLow h.le, ← hubits, hdiff, hy0]
          omega
        rw [htruth]
        refine gives_become ⟨(signed_lessThan rfl rfl false).tells, ?_, by rintro _ _ ⟨⟩⟩
        rintro _ _ ⟨⟩ _ u' v' hu' hv'
        rw [hu] at hu'
        rw [hv] at hv'
        cases hu'
        cases hv'
        exact hexact
      · exact gives_pass
    · exact gives_pass
  · exact gives_pass

theorem gives_lessSameSign (st : Stamp) :
    Gives (LessAnswer g ρ x y ((ρ x).slt (ρ y))) (lessSameSign g st x y) := by
  have hxi := g.isInteger_of_integralAt hx
  have hyi := g.isInteger_of_integralAt hy
  obtain ⟨u, hu, hubits, huwell⟩ := hxi.exists_int
  obtain ⟨v, hv, hvbits, hvwell⟩ := hyi.exists_int
  simp only [lessSameSign, hu, hv]
  split
  · rename_i hsign
    have hagree := IntStamp.ordersAgree_of_sameSign huwell hvwell (hvbits.trans hubits.symm) hsign
    refine gives_become ⟨?_, by rintro _ _ ⟨⟩, ?_⟩
    · have hult := hagree _ _ (h.known.contains hu hxi) (h.known.contains hv hyi)
      rw [hubits, h.slt_low hxi hyi] at hult
      rw [hult]
      exact ⟨_, Term.eval_compare h.models hxi hyi .intBelow, Word.isTrue_ofTruth _⟩
    · rintro _ _ ⟨⟩
      refine ⟨⟨rfl, rfl⟩, ?_⟩
      intro u' v' hu' hv'
      rw [hu] at hu'
      rw [hv] at hv'
      cases hu'
      cases hv'
      exact hagree
  · exact gives_pass

theorem gives_lessDecided (st : Stamp) :
    Gives (LessAnswer g ρ x y ((ρ x).slt (ρ y))) (lessDecided IntStamp.decideLess g st x y) := by
  have hxi := g.isInteger_of_integralAt hx
  have hyi := g.isInteger_of_integralAt hy
  obtain ⟨u, hu, hubits, huwell⟩ := hxi.exists_int
  obtain ⟨v, hv, hvbits, hvwell⟩ := hyi.exists_int
  have hvalues : IntStamp.Summands u v (ρ x) (ρ y) := ⟨huwell, hvwell, hvbits.trans hubits.symm,
    h.known.contains hu hxi, h.known.contains hv hyi⟩
  refine ⟨_, rfl, ?_⟩
  intro t ht
  rw [(Graph.tellsTruth_less h.models hu hv hvalues).synonym t ht, hubits, h.slt_low hxi hyi]
  exact ⟨Term.tells_truth _, by rintro _ _ ⟨⟩, by rintro _ _ ⟨⟩⟩

theorem gives_lessRules (hwidth : g.unsupportedWidth? x y = none) (self : NodeId) (st : Stamp) :
    Gives (LessAnswer g ρ x y ((ρ x).slt (ρ y) ^^ g.misjudgesLess ρ x y))
      (compare .intLess self g st x y) := by
  refine gives_firstBinary_cons ?_ fun hpass => ?_
  · by_cases hsub : ∃ a b, g.shape? x = some (.binary (.arith .sub) a b)
    · -- A difference is left to the last rule, which knows the bounds of its operands.
      obtain ⟨a, b, hshape⟩ := hsub
      rw [compareCommon_of_sub hshape]
      exact gives_pass
    · exact (gives_lessCommon h hx hy hwidth self st).mono fun t ht =>
        ht.lessAnswer fun a b hshape => hsub ⟨a, b, hshape⟩
  rw [not_misjudged_of_pass h hx hy hpass, Bool.xor_false]
  refine gives_firstBinary_cons (gives_lessDecided h hx hy st) fun _ => ?_
  refine gives_firstBinary_cons (gives_lessSameSign h hx hy st) fun _ => ?_
  exact gives_firstBinary_cons (gives_lessDifference h hx hy st) fun _ => gives_firstBinary_nil

end Operands

end Canonical

namespace FlowGraph

/-- A signed comparison of integers always has a canonical form, itself if no rule applies, unless a
constant of a width without a kind is needed. The truth of that form is the truth of the comparison, except
where this is misjudged. The operands of a difference are compared in its place only if no difference of
their values leaves the width, and the sign is disregarded only if it does not matter. -/
theorem canonical_less_exact (f : FlowGraph) {ρ : NodeId → Word} (hg : f.graph.WellSorted)
    (hρ : f.graph.Models ρ) (hknown : f.graph.Known ρ) {n x y : NodeId}
    (hn : f.graph.shape? n = some (.binary (.compare .intLess) x y)) {w : Nat} (hw : w = 32 ∨ w = 64)
    (hx : f.graph.integralAt ρ w x = true) (hy : f.graph.integralAt ρ w y = true) :
    (∀ m, f.graph.unsupportedWidth? x y = some m →
      f.canonical n = .error (.invalidArgument s!"unsupported integer width: {m}")) ∧
    (f.graph.unsupportedWidth? x y = none → ∃ o, f.canonical n = .ok (f, o) ∧
      (o.getD (.node n)).Tells ρ
        (decide ((ρ x).toInt < (ρ y).toInt) ^^ f.graph.misjudgesLess ρ x y) ∧
      (∀ a b, o = some (.compare .intLess (.node a) (.node b)) →
        f.graph.shape? x = some (.binary (.arith .sub) a b) →
          ∀ s t, f.graph.stamp a = .int s → f.graph.stamp b = .int t → s.DifferencesExact t) ∧
      ∀ a b, o = some (.compare .intBelow a b) → (a = .node x ∧ b = .node y) ∧
        ∀ s t, f.graph.stamp x = .int s → f.graph.stamp y = .int t → s.OrdersAgree t) := by
  obtain ⟨s, _, rfl, _⟩ := (f.graph.isInteger_of_integralAt hx).exists_int
  have h : Canonical.Computing f.graph ρ s := ⟨hg, hρ, hknown, hw⟩
  have hreduce : f.canonical n =
      (Canonical.compare .intLess n f.graph (f.graph.stamp n) x y).map fun o => (f, o) := by
    rw [f.canonical_eq_reduce (Graph.shape?_binary hn).1 (by rintro _ ⟨⟩)]
    simp only [reduce, hn]
  constructor
  · intro m hwidth
    have hcommon := Canonical.compareCommon_unsupported h hx hy hwidth n (f.graph.stamp n)
    have herror := Reduction.firstBinary_of_error hcommon
      [Canonical.lessDecided IntStamp.decideLess, Canonical.lessSameSign, Canonical.lessDifference]
    rw [hreduce, Canonical.compare, herror]
    rfl
  · intro hwidth
    obtain ⟨o, ho, hanswers⟩ := Canonical.gives_lessRules h hx hy hwidth n (f.graph.stamp n)
    refine ⟨o, by rw [hreduce, ho]; rfl, ?_⟩
    cases o with
    | some t =>
      have ht := hanswers t rfl
      refine ⟨ht.tells, ?_, ?_⟩
      · rintro a b ⟨⟩
        exact ht.difference a b rfl
      · rintro a b ⟨⟩
        exact ht.unsigned a b rfl
    | none =>
      have hmis := Canonical.not_misjudged_of_pass h hx hy (Reduction.pass_of_firstBinary ho)
      refine ⟨⟨ρ n, rfl, ?_⟩, by rintro _ _ ⟨⟩, by rintro _ _ ⟨⟩⟩
      rw [hmis, Bool.xor_false, hρ.eq_of_binary hn rfl]
      exact Word.isTrue_ofTruth _

/-- Whether the difference of an integer from `0` to `100` and one from `-5` to `50` is negative. -/
def negativeDifference : FlowGraph where
  graph := ⟨#[⟨{ op := .leaf (.parameter 0), stamp := .int (.ofBounds 32 0 100) }, [], .ofList [2], true⟩,
    ⟨{ op := .leaf (.parameter 1), stamp := .int (.ofBounds 32 (-5) 50) }, [], .ofList [2], true⟩,
    ⟨{ op := .binary (.arith .sub), stamp := .int (.ofBounds 32 (-50) 105) }, [some 0, some 1], .ofList [4], true⟩,
    ⟨{ op := .leaf (.constant (.ofInt32 0)), stamp := .int (.single 32 0) }, [], .ofList [4], true⟩,
    ⟨{ op := .binary (.compare .intLess), stamp := .void }, [some 2, some 3], {}, true⟩], #[], []⟩
  control := []

def negativeDifferenceValues (i : NodeId) : Word := [3, 7, -4, 0, 1].getD i 0

theorem canonical_less_exact_negativeDifference :
    ∃ o, negativeDifference.canonical 4 = .ok (negativeDifference, o) ∧
      (o.getD (.node 4)).Tells negativeDifferenceValues true := by
  obtain ⟨_, hless⟩ := @canonical_less_exact negativeDifference negativeDifferenceValues (by decide)
    (by decide) (by decide) 4 2 3 rfl 32 (.inl rfl) (by decide) (by decide)
  obtain ⟨o, ho, htells, _⟩ := hless (by decide)
  exact ⟨o, ho, htells⟩

/-- Whether a sign extended integer of a width is less than `-1`. -/
def lessThanOnes (w : Nat) : FlowGraph where
  graph := ⟨#[⟨{ op := .leaf (.parameter 0), stamp := .int (.full w) }, [], .ofList [1], true⟩,
    ⟨{ op := .unary (.resize .signExtend w 32),
        stamp := (ResizeOp.signExtend.onStamp w 32 (.int (.full w))).toOption.getD .void },
      [some 0], .ofList [3], true⟩,
    ⟨{ op := .leaf (.constant (.ofInt32 (-1))), stamp := .int (.single 32 (-1)) }, [], .ofList [3], true⟩,
    ⟨{ op := .binary (.compare .intLess), stamp := .void }, [some 1, some 2], {}, true⟩], #[], []⟩
  control := []

/-- No sign extended bit is less than `-1`, but the comparison is always true. For seven bits it has no
canonical form. -/
theorem canonical_less_than_ones_wrong :
    (∀ v : Word, v = 0 ∨ v = -1 → ∃ t, (lessThanOnes 1).canonical 3 = .ok (lessThanOnes 1, some t) ∧
      (lessThanOnes 1).graph.Models (fun i => [v, v, -1, 0].getD i 0) ∧
      (lessThanOnes 1).graph.Known (fun i => [v, v, -1, 0].getD i 0) ∧
      t.Tells (fun i => [v, v, -1, 0].getD i 0) true) ∧
    (lessThanOnes 7).canonical 3 = .error (.invalidArgument "unsupported integer width: 7") := by
  constructor
  · rintro v (rfl | rfl)
    all_goals
      exact ⟨.compare .intLess (.node 0)
        (.leaf (.constant (.primitive .boolean 1)) (.int (.single 1 1))), rfl, by decide, by decide, 1,
        by decide, rfl⟩
  · rfl

end FlowGraph

end CompilerKit
