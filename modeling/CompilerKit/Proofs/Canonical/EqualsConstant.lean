import CompilerKit.Proofs.Canonical.Less
import CompilerKit.Proofs.Canonical.Resize
import CompilerKit.Proofs.Canonical.Shift
import CompilerKit.Proofs.Stamp.Join

/-! # Equality with a constant

An integer expression that is compared with a constant is taken apart: masks and shifts become tests of
bits, extensions are removed, and a choice or a three-way comparison comes down to what it is made from.
All this keeps the truth of the equality, except that an extended bit is compared with `1`, although a bit
that is set has the value `-1`; such an equality is never found to hold. If no kind of constant has the
width that an expression was extended from, it cannot be compared with a constant at all.
-/

namespace CompilerKit

namespace Word

variable {w : Nat}

theorem ofLow_and (a b : BitVec w) : ofLow a &&& ofLow b = ofLow (a &&& b) :=
  BitVec.signExtend_and.symm

theorem ofLow_eq_zero_iff (hw : w ≤ 64) {a : BitVec w} : ofLow a = 0 ↔ a = 0#w := by
  constructor
  · intro h
    rw [← low_ofLow hw a, h, low_zero]
  · rintro rfl
    exact ofLow_zero w

theorem order_eq_zero_iff (x y : Word) : order x y = 0 ↔ x = y := by
  unfold order
  split
  · rename_i hlt
    have hne : x ≠ y := by
      rintro rfl
      exact absurd (BitVec.slt_iff_toInt_lt.mp hlt) (Int.lt_irrefl _)
    simp [hne]
  · split
    · rename_i heq
      simp [heq]
    · rename_i hne
      simp [hne]

theorem and_of_bitCount_one {b : Word} (h : bitCount b = 1) (x : Word) : x &&& b = 0 ∨ x &&& b = b := by
  rw [bitCount, List.countP_eq_length_filter, List.length_eq_one_iff] at h
  obtain ⟨n, hn⟩ := h
  have hbit (i : Nat) (hi : i < 64) : b.getLsbD i = decide (i = n) := by
    have hmem : i ∈ (List.range 64).filter (fun i => b.getLsbD i) ↔ i = n := by
      rw [hn, List.mem_singleton]
    rw [List.mem_filter, List.mem_range] at hmem
    rw [Bool.eq_iff_iff, decide_eq_true_eq, ← hmem]
    exact ⟨fun hb => ⟨hi, hb⟩, fun hb => hb.2⟩
  have hand (i : Nat) (hi : i < 64) : (x &&& b).getLsbD i = (decide (i = n) && x.getLsbD n) := by
    rw [BitVec.getLsbD_and, hbit i hi, Bool.and_comm]
    by_cases hin : i = n
    · rw [hin]
    · rw [decide_eq_false hin, Bool.false_and, Bool.false_and]
  cases hx : x.getLsbD n with
  | false =>
    refine .inl (BitVec.eq_of_getLsbD_eq fun i hi => ?_)
    rw [hand i hi, hx, Bool.and_false]
    exact BitVec.getLsbD_zero.symm
  | true =>
    refine .inr (BitVec.eq_of_getLsbD_eq fun i hi => ?_)
    rw [hand i hi, hx, Bool.and_true, hbit i hi]

/-! A shifted value is zero if the bits that stay inside the width are. -/

theorem shiftLeft_eq_zero_iff (x : BitVec w) (n : Nat) :
    x <<< n = 0#w ↔ x &&& BitVec.allOnes w >>> n = 0#w := by
  constructor
  · intro h
    rw [← ShiftOp.shiftLeft_ushiftRight, h, BitVec.zero_ushiftRight]
  · intro h
    have hmasked : x <<< n = (x &&& BitVec.allOnes w >>> n) <<< n := by
      apply BitVec.eq_of_getLsbD_eq
      intro i hi
      rw [BitVec.getLsbD_shiftLeft, BitVec.getLsbD_shiftLeft, BitVec.getLsbD_and,
        BitVec.getLsbD_ushiftRight, BitVec.getLsbD_allOnes]
      by_cases hin : i < n
      · simp [hin]
      · rw [decide_eq_true (by omega : n + (i - n) < w), Bool.and_true]
    rw [hmasked, h, BitVec.zero_shiftLeft]

theorem ushiftRight_eq_zero_iff (x : BitVec w) (n : Nat) :
    x >>> n = 0#w ↔ x &&& BitVec.allOnes w <<< n = 0#w := by
  constructor
  · intro h
    have hlost : (x >>> n) <<< n = x &&& BitVec.allOnes w <<< n :=
      @ShiftOp.shiftLeft_onValue w .ushr x n (by decide)
    rw [← hlost, h, BitVec.zero_shiftLeft]
  · intro h
    have hmasked : x >>> n = (x &&& BitVec.allOnes w <<< n) >>> n := by
      apply BitVec.eq_of_getLsbD_eq
      intro i hi
      rw [BitVec.getLsbD_ushiftRight, BitVec.getLsbD_ushiftRight, BitVec.getLsbD_and,
        BitVec.getLsbD_shiftLeft, BitVec.getLsbD_allOnes]
      by_cases hin : n + i < w
      · rw [decide_eq_true hin, decide_eq_false (by omega : ¬n + i < n),
          decide_eq_true (by omega : n + i - n < w)]
        simp only [Bool.not_false, Bool.and_true]
      · rw [BitVec.getLsbD_of_ge x _ (by omega), Bool.false_and]
    rw [hmasked, h, BitVec.zero_ushiftRight]

end Word

theorem ResizeOp.low_ofLow_onValue {op : ResizeOp} (hop : op ≠ .narrow) {n w : Nat} (hnw : n ≤ w)
    (hw : w ≤ 64) (v : BitVec n) : Word.low n (Word.ofLow (op.onValue w v)) = v := by
  rw [Word.low, Word.ofLow, setWidth_signExtend _ (hnw.trans hw),
    BitVec.signExtend_eq_setWidth_of_le _ hnw, setWidth_onValue hop hnw, onValue_self]

theorem ResizeOp.onValue_zero (op : ResizeOp) (n w : Nat) : op.onValue w (0#n) = 0#w := by
  have hsign : (0#n).signExtend w = 0#w := by
    rw [BitVec.signExtend_eq_setWidth_of_msb_false BitVec.msb_zero, BitVec.setWidth_zero]
  cases op with
  | narrow => exact BitVec.setWidth_zero w n
  | zeroExtend => exact BitVec.setWidth_zero w n
  | signExtend => exact hsign

theorem Kind.clip_narrow_eq {n : Nat} {k : Kind} (hk : ofBits? n = some k) (x : Word) :
    k.clip (Word.narrow x n) = if n = 1 ∧ Word.low n x = 1#n then 1 else Word.ofLow (Word.low n x) := by
  have hwidth := width_of_ofBits? hk
  have hnarrow : Word.narrow x n = Word.narrow (Word.ofLow (Word.low n x)) n := by
    rw [Word.narrow_eq (by omega) (by omega), Word.narrow_eq (by omega) (by omega),
      Word.low_ofLow (by omega)]
  have hones : n = 1 → (Word.ofLow (Word.low n x) = -1 ↔ Word.low n x = 1#n) := by
    rintro rfl
    rcases BitVec.eq_zero_or_eq_one (Word.low 1 x) with hbit | hbit
    · rw [hbit]
      decide
    · rw [hbit]
      decide
  rw [hnarrow, clip_narrow hk (by rw [Word.low_ofLow (by omega)])]
  exact if_congr (and_congr_right hones) rfl rfl

namespace IntStamp

/-- A common value that is the least one of a stamp is not lost. -/
theorem contains_join_of_lo {a b : IntStamp} {v : Word} (ha : a.WellFormed) (hb : b.WellFormed)
    (hbits : b.bits = a.bits) (hva : a.contains v = true) (hvb : b.contains v = true)
    (hlo : a.lo = v ∨ b.lo = v) : (a.join b).contains v = true := by
  have hmax : Word.smax a.lo b.lo = v := by
    have hale := ((contains_iff ha.bits_le v).mp hva).1.1
    have hble := ((contains_iff hb.bits_le v).mp hvb).1.1
    apply BitVec.eq_of_toInt_eq
    rw [Word.toInt_smax]
    rcases hlo with hlo | hlo
    · rw [hlo] at hale ⊢
      omega
    · rw [hlo] at hble ⊢
      omega
  have hraised : a.joinLo b = v := by
    rw [joinLo, hmax]
    apply BitVec.eq_of_getLsbD_eq
    intro i hi
    rw [BitVec.getLsbD_or, BitVec.getLsbD_or]
    have hda := ha.getLsbD_of_down hva (i := i)
    have hdb := hb.getLsbD_of_down hvb (i := i)
    cases hv : v.getLsbD i with
    | true => rfl
    | false =>
      rw [hv] at hda hdb
      cases hdown : a.down.getLsbD i with
      | true => cases hda hdown
      | false =>
        cases hdown' : b.down.getLsbD i with
        | true => cases hdb hdown'
        | false => rfl
  rw [contains_join_of_both ha hb hbits ⟨hva, hvb⟩, hraised]

theorem hasValues_of_contains {s : IntStamp} {v : Word} (h : s.contains v = true) :
    s.hasValues = true := by
  simp only [contains, Bool.and_eq_true, BitVec.sle_iff_toInt_le] at h
  rw [hasValues, BitVec.sle_iff_toInt_le]
  exact Int.le_trans h.1.1.1 h.1.1.2

end IntStamp

namespace Graph

/-- The width that a node is extended from, if an equality with a constant looks through it. -/
def widenedFrom? (g : Graph Label) (i : NodeId) : Option Nat :=
  match g.shape? i with
  | some (.unary (.resize op m _) u) =>
    if op = .narrow || 1 < g.usageCount i && g.usageCount u == 1 then none else some m
  | _ => none

/-- The width that the equality of an expression with a constant needs a constant of, though no kind has
it. An equality that is denied at sight needs none. -/
def unsupportedEquality? (g : Graph Label) (x y i : NodeId) : Option Nat :=
  if g.deniesEquality x y then none else (g.widenedFrom? i).filter fun m => (Kind.ofBits? m).isNone

/-- The equalities that are not found to hold: those of an extended bit that is set. -/
def misjudgesBit (g : Graph Label) (ρ : NodeId → Word) (i j : NodeId) : Bool :=
  g.widenedFrom? i == some 1 && ρ i == ρ j && ρ j != 0

variable {g : Graph Label} {ρ : NodeId → Word} {i j : NodeId} {n : Nat}

theorem shape?_of_widenedFrom? (h : g.widenedFrom? i = some n) :
    ∃ op r u, g.shape? i = some (.unary (.resize op n r) u) ∧ op ≠ .narrow ∧
      (decide (1 < g.usageCount i) && g.usageCount u == 1) = false := by
  unfold widenedFrom? at h
  split at h
  · rename_i op m r u hshape
    rw [Option.ite_none_left_eq_some, Option.some.injEq, Bool.or_eq_true, not_or] at h
    obtain ⟨⟨hop, hguard⟩, rfl⟩ := h
    exact ⟨op, r, u, hshape, by simpa using hop, Bool.eq_false_iff.mpr hguard⟩
  · cases h

theorem misjudgesBit_of_widenedFrom? (h : g.widenedFrom? i ≠ some 1) : g.misjudgesBit ρ i j = false := by
  rw [misjudgesBit, beq_eq_false_iff_ne.mpr h, Bool.false_and, Bool.false_and]

theorem misjudgesBit_of_ne (h : ρ i ≠ ρ j) : g.misjudgesBit ρ i j = false := by
  rw [misjudgesBit, beq_eq_false_iff_ne.mpr h, Bool.and_false, Bool.false_and]

theorem misjudgesBit_of_zero (h : ρ j = 0) : g.misjudgesBit ρ i j = false := by
  rw [misjudgesBit, h, bne_self_eq_false, Bool.and_false]

theorem unrefined_of_not_refine (h : ∀ r x, g.shape? i ≠ some (.unary (.refine r) x)) :
    g.unrefined i = i := by
  unfold unrefined
  cases g.nodes.size with
  | zero => rfl
  | succ fuel =>
    unfold unrefinedWithin
    split
    · rename_i r x hshape
      exact absurd hshape (h r x)
    · rfl

theorem constant?_of_widenedFrom? (h : g.widenedFrom? i = some n) : g.constant? i = none := by
  obtain ⟨op, r, u, hshape, _⟩ := shape?_of_widenedFrom? h
  rw [constant?, (shape?_unary hshape).1]

end Graph

namespace Canonical

open Reduction

variable {g : Graph Label} {ρ : NodeId → Word} {s : IntStamp} {i j : NodeId} {K : Constant}

section Equations

theorem compareWithConstant_resize {op : ResizeOp} {m r : Nat} {u : NodeId}
    (hshape : g.shape? i = some (.unary (.resize op m r) u)) (hop : op ≠ .narrow) (self : NodeId)
    (flipped : Bool) :
    compareWithConstant .intEquals self g K i flipped =
      compareConverted .intEquals g K i
        ⟨u, true, true, op.onConstant m r, ResizeOp.narrow.onConstant r m⟩ flipped := by
  have hzero : equalsZero g K i = pass := by
    simp only [equalsZero, hshape]
    split <;> rfl
  have hbit : equalsBit g K i = pass := by
    unfold equalsBit
    split
    · rename_i hand
      rw [hshape] at hand
      cases hand
    · rfl
  rw [compareWithConstant, if_pos rfl, hzero, hbit]
  rcases ResizeOp.eq_or_eq hop with rfl | rfl
  · simp only [compareComputed, conversion?, hshape]
    rfl
  · simp only [compareComputed, conversion?, hshape]
    rfl

theorem compareConverted_of_unwidened {w : Nat} (hint : g.integralAt ρ w i = true)
    (hfrom : g.widenedFrom? i = none) {v : Conversion} (hv : conversion? g .eq i = some v)
    (flipped : Bool) : compareConverted .intEquals g K i v flipped = pass := by
  unfold conversion? at hv
  split at hv
  · rename_i op m r u hshape
    simp only [Graph.widenedFrom?, hshape, ite_eq_left_iff, reduceCtorEq, imp_false, not_not,
      Bool.or_eq_true, decide_eq_true_eq] at hfrom
    cases hv
    by_cases hop : op = .narrow
    · subst hop
      rfl
    · have hguard := hfrom.resolve_left hop
      rw [compareConverted, if_pos]
      simpa only [ne_eq, hop, not_false_eq_true, decide_true, Bool.true_and] using hguard
  · rename_i op u hshape
    exact absurd hshape (g.integralAt_ne_convert hint op u)
  · cases hv

end Equations

section Rules

variable (h : Computing g ρ s)

include h

theorem Computing.tells_test {u : NodeId} (hu : (g.stamp u).IsInteger s.bits) {r : Term}
    {m : BitVec s.bits} (hr : r.Denotes g ρ m) :
    (Term.test (.node u) r).Tells ρ (Word.low s.bits (ρ u) &&& m == 0#s.bits) := by
  refine ⟨_, Term.eval_binary (Term.denotes_node h.models hu).value hr.value, ?_⟩
  rw [Word.isTrue_ofTruth, Word.ofLow_and, Bool.eq_iff_iff, decide_eq_true_eq, beq_iff_eq,
    Word.ofLow_eq_zero_iff h.le]

theorem Computing.denotes_bits {u : NodeId} (hu : (g.stamp u).IsInteger s.bits) {n : Nat}
    (hn : n < s.bits) : (lowBits (g.stamp u) n).Denotes g ρ (BitVec.allOnes s.bits >>> n) ∧
      (highBits (g.stamp u) n).Denotes g ρ (BitVec.allOnes s.bits <<< n) := by
  have hw := h.width
  obtain ⟨t, ht, hbits, _⟩ := hu.exists_int
  rw [← hbits] at hw hn ⊢
  rw [ht]
  exact ⟨denotes_lowBits hw hn, denotes_highBits hw hn⟩

theorem Computing.sshiftRight_of_isPositive {u : NodeId} (hu : (g.stamp u).IsInteger s.bits)
    {t : IntStamp} (ht : g.stamp u = .int t) (hpos : t.isPositive = true) (n : Nat) :
    (Word.low s.bits (ρ u)).sshiftRight n = Word.low s.bits (ρ u) >>> n := by
  have hbounds := ((IntStamp.contains_iff (by rw [ht] at hu; exact hu.2.bits_le) _).mp
    (h.known.contains ht hu)).1
  have hlo := (IntStamp.isPositive_iff t).mp hpos
  have hnonneg : 0 ≤ (Word.low s.bits (ρ u)).toInt := by
    rw [h.toInt_low hu]
    omega
  exact BitVec.sshiftRight_eq_of_msb_false (Word.msb_of_nonneg hnonneg)

theorem gives_maskedTest (hs : g.stamp i = .int s) (hi : (g.stamp i).IsInteger s.bits) {op : ShiftOp}
    {u v : NodeId} (hshape : g.shape? i = some (.binary (.shift op) u v)) {c : Word}
    (hc : constantWord? g v = some c) {b : Nat → Term}
    (hbits : ∀ n < s.bits, ∃ m : BitVec s.bits, (b n).Denotes g ρ m ∧
      (op.onValue (Word.low s.bits (ρ u)) n = 0#s.bits ↔ Word.low s.bits (ρ u) &&& m = 0#s.bits)) :
    Gives (·.Tells ρ (ρ i == 0)) (do
      let mask ← (g.stamp i).shiftMask
      become (.test (.node u) (b (amountUnder mask c)))) := by
  obtain ⟨hu, _⟩ := h.sorted.operands_of_shift hshape hi
  obtain rfl := h.eq_of_constantWord hc
  obtain ⟨m, hm, hiff⟩ := hbits _ (h.distance_lt (ρ v))
  have hvalue : (ρ i == 0) = (Word.low s.bits (ρ u) &&& m == 0#s.bits) := by
    rw [Bool.eq_iff_iff, beq_iff_eq, beq_iff_eq, ← hiff, h.models.eq_of_shift hshape hi,
      Word.ofLow_eq_zero_iff h.le]
  rw [hs, Stamp.shiftMask, Result.bind_of_ok rfl, h.amountUnder_eq, hvalue]
  exact gives_become (h.tells_test hu hm)

variable (hj : (g.stamp j).IsInteger s.bits) (hK : g.constant? j = some K)

include hj hK

theorem gives_equalsZero (hs : g.stamp i = .int s) (hi : (g.stamp i).IsInteger s.bits)
    (hsub : ∀ a b, g.shape? i ≠ some (.binary (.arith .sub) a b)) :
    Gives (·.Tells ρ (ρ i == ρ j)) (equalsZero g K i) := by
  obtain ⟨k, rfl, _⟩ := h.constant hK hj
  unfold equalsZero
  dsimp only
  split
  · exact gives_pass
  · rename_i hzero
    have hj0 : ρ j = 0 := by simpa [Constant.isDefault] using hzero
    rw [hj0]
    split
    · rename_i a b hshape
      obtain ⟨ha, hb⟩ := h.sorted.wellTyped.operands rfl hshape hi
      have hvalue : (ρ i == 0) = (Word.low s.bits (ρ a) &&& Word.low s.bits (ρ b) == 0#s.bits) := by
        rw [Bool.eq_iff_iff, beq_iff_eq, beq_iff_eq, h.models.eq_of_arith hshape hi rfl,
          Word.ofLow_eq_zero_iff h.le]
      rw [hvalue]
      exact gives_become (h.tells_test ha (Term.denotes_node h.models hb))
    · rename_i a b hshape
      exact absurd hshape (hsub a b)
    · rename_i u v hshape
      have hu := (h.sorted.operands_of_shift hshape hi).1
      split
      · rename_i c hc
        exact gives_maskedTest h hs hi hshape hc (b := lowBits (g.stamp u)) fun n hn =>
          ⟨_, (h.denotes_bits hu hn).1, Word.shiftLeft_eq_zero_iff _ n⟩
      · exact gives_pass
    · rename_i u v hshape
      have hu := (h.sorted.operands_of_shift hshape hi).1
      split
      · rename_i t ht
        split
        · rename_i hpos
          split
          · rename_i c hc
            refine gives_maskedTest h hs hi hshape hc (b := highBits (g.stamp u)) fun n hn =>
              ⟨_, (h.denotes_bits hu hn).2, ?_⟩
            rw [ShiftOp.onValue, h.sshiftRight_of_isPositive hu ht hpos]
            exact Word.ushiftRight_eq_zero_iff _ n
          · exact gives_pass
        · exact gives_pass
      · exact gives_pass
    · rename_i u v hshape
      have hu := (h.sorted.operands_of_shift hshape hi).1
      split
      · rename_i c hc
        exact gives_maskedTest h hs hi hshape hc (b := highBits (g.stamp u)) fun n hn =>
          ⟨_, (h.denotes_bits hu hn).2, Word.ushiftRight_eq_zero_iff _ n⟩
      · exact gives_pass
    · exact gives_pass

theorem gives_equalsBit (hi : (g.stamp i).IsInteger s.bits) :
    Gives (·.Tells ρ (ρ i == ρ j)) (equalsBit g K i) := by
  obtain ⟨k, rfl, _⟩ := h.constant hK hj
  unfold equalsBit
  split
  · rename_i l x a b heq hshape
    cases heq
    split
    · rename_i hguard
      rw [Bool.and_eq_true, decide_eq_true_eq, decide_eq_true_eq] at hguard
      obtain ⟨ha, hb⟩ := h.sorted.wellTyped.operands rfl hshape hi
      have hbj : ρ b = ρ j := h.models.eq_of_constant h.sorted.wellTyped hguard.2
      have hvalue : ρ i = ρ a &&& ρ j := by
        rw [← hbj, ← h.models.ofLow_low ha, ← h.models.ofLow_low hb, Word.ofLow_and]
        exact h.models.eq_of_arith hshape hi rfl
      have hne : ρ j ≠ 0 := by
        intro hzero
        rw [hzero] at hguard
        exact absurd hguard.1 (by decide)
      refine gives_become ⟨_, rfl, ?_⟩
      rw [Word.isTrue_ofTruth, Word.isTrue_ofTruth, hbj, hvalue]
      rcases Word.and_of_bitCount_one hguard.1 (ρ a) with hnone | hall
      · rw [hnone]
        simpa using hne.symm
      · rw [hall]
        simpa using hne
    · exact gives_pass
  · exact gives_pass

theorem Computing.fold_equals (hi : (g.stamp i).IsInteger s.bits) {a : Constant}
    (ha : g.constant? i = some a) (flipped unordered : Bool) :
    (if flipped then Condition.eq.flip else .eq).fold a K unordered = .ok (ρ i == ρ j) := by
  obtain ⟨k, rfl, hk⟩ := h.constant ha hi
  obtain ⟨l, rfl, hl⟩ := h.constant hK hj
  obtain rfl : k = l := Option.some.inj (hk.symm.trans hl)
  rw [show (if flipped then Condition.eq.flip else .eq) = .eq by cases flipped <;> rfl]
  exact Condition.fold_eq hk (h.models.ofLow_low hi) (h.models.ofLow_low hj) unordered

theorem gives_equalsChoice {c t f : NodeId} (hshape : g.shape? i = some (.select c t f))
    (ht : (g.stamp t).IsInteger s.bits) (hf : (g.stamp f).IsInteger s.bits) (flipped : Bool) :
    Gives (·.Tells ρ (ρ i == ρ j)) (compareChoice .intEquals g K c t f flipped) := by
  have hchoice : Gives (Signed ρ (ρ i == ρ j)) (compareChoice .intEquals g K c t f flipped) :=
    gives_compareChoice h.models hshape (· == ρ j)
      (fun _ ha => h.fold_equals hj hK ht ha flipped false)
      (fun _ hb => h.fold_equals hj hK hf hb flipped false)
  exact hchoice.mono fun _ hsigned => hsigned.tells

omit hj in
theorem gives_equalsOrder {a b : NodeId} {w : Nat} (ha : (g.stamp a).IsInteger w)
    (hvalue : ρ i = Word.order (ρ a) (ρ b)) (self : NodeId) (unorderedIsLess flipped : Bool) :
    Gives (·.Tells ρ (ρ i == ρ j)) (compareOrder .intEquals self g K i a b unorderedIsLess flipped) := by
  obtain ⟨t, ht, _⟩ := ha.exists_int
  have hint : (g.stamp a).stackKind.isFloat = false := by
    rw [ht, Stamp.stackKind]
    split <;> rfl
  have horder : compareOrder .intEquals self g K i a b unorderedIsLess flipped =
      if K = .primitive .int 0 then
        become (.compare .intEquals (if flipped then .node b else .node a)
          (if flipped then .node a else .node b))
      else pass := by
    cases flipped
    all_goals
      simp only [compareOrder, hint]
      rfl
  rw [horder]
  split
  · rename_i hzero
    have hj0 : ρ j = 0 := h.models.eq_of_constant h.sorted.wellTyped (hK.trans (congrArg some hzero))
    have htruth : (ρ i == ρ j) = (ρ a == ρ b) := by
      rw [hvalue, hj0, Bool.eq_iff_iff, beq_iff_eq, beq_iff_eq, Word.order_eq_zero_iff]
    rw [htruth]
    cases flipped with
    | false => exact gives_become (Term.tells_equals a b)
    | true =>
      rw [Bool.beq_comm]
      exact gives_become (Term.tells_equals b a)
  · exact gives_pass

end Rules

section Widened

variable (h : Computing g ρ s) (hi : (g.stamp i).IsInteger s.bits) (hj : (g.stamp j).IsInteger s.bits)
  (hK : g.constant? j = some K) {n : Nat} (hfrom : g.widenedFrom? i = some n)

include h hj hK hfrom

theorem compareWithConstant_unsupported (hn : Kind.ofBits? n = none) (self : NodeId) (flipped : Bool) :
    compareWithConstant .intEquals self g K i flipped =
      .error (.invalidArgument s!"unsupported integer width: {n}") := by
  obtain ⟨op, r, u, hshape, hop, hguard⟩ := g.shape?_of_widenedFrom? hfrom
  obtain ⟨l, rfl, _⟩ := h.constant hK hj
  rw [compareWithConstant_resize hshape hop]
  refine compareConverted_of_error ?_ rfl (ResizeOp.narrow.onConstant_unsupported hn r l (ρ j)) flipped
  exact hguard

include hi

omit hfrom in
theorem compareWithConstant_survived {op : ResizeOp} {r : Nat} {u : NodeId}
    (hshape : g.shape? i = some (.unary (.resize op n r) u)) (hop : op ≠ .narrow)
    (hguard : (decide (1 < g.usageCount i) && g.usageCount u == 1) = false) {k : Kind}
    (hk : Kind.ofBits? n = some k) (self : NodeId) (flipped : Bool) :
    ∃ c : Term, c.eval ρ = some (k.clip (Word.narrow (ρ j) n)) ∧
      compareWithConstant .intEquals self g K i flipped =
        if Word.ofLow (op.onValue s.bits (Word.low n (ρ j))) = ρ j then
          become (.compare .intEquals (if flipped then c else .node u) (if flipped then .node u else c))
        else pass := by
  obtain ⟨hu, rfl, hle⟩ := h.sorted.operand_of_resize hshape hi
  obtain ⟨l, rfl, hl⟩ := h.constant hK hj
  have hnpos := hu.pos
  have hnle := hu.le
  have hne : s.bits ≠ 1 := by have := h.width; omega
  obtain ⟨t, ht, _, _⟩ := hu.exists_int
  have hback := ResizeOp.narrow.onConstant_eq s.bits hk l (ρ j)
  have hthere : op.onConstant n s.bits (.primitive k (k.clip (Word.narrow (ρ j) n))) =
      .ok (.primitive l (Word.ofLow (op.onValue s.bits (Word.low n (ρ j))))) := by
    rw [ResizeOp.onConstant_eq _ _ hl, Kind.clip_eq hl hne, Word.signExtend_eq h.pos h.le,
      op.low_onWord ⟨hnpos, hnle⟩ ⟨h.pos, h.le⟩ (fun hnarrow => absurd hnarrow hop),
      Kind.low_clip_narrow hk]
  have hcompared := compareConverted_of_ok (.inl rfl) (v := ⟨u, true, true,
    op.onConstant n s.bits, ResizeOp.narrow.onConstant s.bits n⟩) ht hguard rfl hback hthere flipped
  simp only [Constant.primitive.injEq, true_and] at hcompared
  refine ⟨_, ?_, (compareWithConstant_resize hshape hop self flipped).trans hcompared⟩
  rfl

omit hj hK hfrom in
theorem Computing.eq_iff_of_widened {op : ResizeOp} {r : Nat} {u : NodeId}
    (hshape : g.shape? i = some (.unary (.resize op n r) u)) (hop : op ≠ .narrow) :
    ρ i = ρ j ↔ Word.ofLow (op.onValue s.bits (Word.low n (ρ j))) = ρ j ∧
      Word.low n (ρ u) = Word.low n (ρ j) := by
  obtain ⟨hu, rfl, hle⟩ := h.sorted.operand_of_resize hshape hi
  have hlow := ResizeOp.low_ofLow_onValue hop (hle.resolve_right hop) h.le
  rw [h.models.eq_of_resize hshape]
  constructor
  · intro heq
    have hsame : Word.low n (ρ u) = Word.low n (ρ j) := by rw [← heq, hlow]
    exact ⟨by rw [← hsame, heq], hsame⟩
  · rintro ⟨hsurvives, hsame⟩
    rw [hsame, hsurvives]

omit hj hK in
theorem Computing.equals_clip {op : ResizeOp} {r : Nat} {u : NodeId}
    (hshape : g.shape? i = some (.unary (.resize op n r) u)) (hop : op ≠ .narrow) {k : Kind}
    (hk : Kind.ofBits? n = some k) (hsurvives : Word.ofLow (op.onValue s.bits (Word.low n (ρ j))) = ρ j) :
    (ρ u == k.clip (Word.narrow (ρ j) n)) = ((ρ i == ρ j) ^^ g.misjudgesBit ρ i j) := by
  have hu := (h.sorted.operand_of_resize hshape hi).1
  have hiff := h.eq_iff_of_widened (j := j) hi hshape hop
  rw [Kind.clip_narrow_eq hk]
  split
  · -- The value of a bit is never `1`.
    rename_i hbit
    obtain ⟨rfl, hone⟩ := hbit
    have hne : ρ j ≠ 0 := by
      intro hzero
      rw [hzero] at hone
      exact absurd hone (by decide)
    have hmis : g.misjudgesBit ρ i j = (ρ i == ρ j) := by
      rw [Graph.misjudgesBit, hfrom, beq_self_eq_true, Bool.true_and, bne_iff_ne.mpr hne, Bool.and_true]
    rw [hmis, Bool.xor_self]
    rcases Word.eq_zero_or_eq_neg_one (h.models.ofLow_low hu) with hzero | hones
    · rw [hzero]
      rfl
    · rw [hones]
      rfl
  · rename_i hbit
    have hmis : g.misjudgesBit ρ i j = false := by
      by_cases hn : n = 1
      · subst hn
        have hzero := (BitVec.eq_zero_or_eq_one (Word.low 1 (ρ j))).resolve_right fun hone =>
          hbit ⟨rfl, hone⟩
        apply Graph.misjudgesBit_of_zero
        rw [← hsurvives, hzero, ResizeOp.onValue_zero, Word.ofLow_zero]
      · apply Graph.misjudgesBit_of_widenedFrom?
        rw [hfrom]
        simpa using hn
    rw [hmis, Bool.xor_false, Bool.eq_iff_iff, beq_iff_eq, beq_iff_eq, hiff,
      and_iff_right hsurvives]
    constructor
    · intro heq
      rw [heq, Word.low_ofLow hu.le]
    · intro heq
      rw [← heq, h.models.ofLow_low hu]

theorem gives_equalsWidened {k : Kind} (hk : Kind.ofBits? n = some k) (self : NodeId) (flipped : Bool) :
    Gives (·.Tells ρ ((ρ i == ρ j) ^^ g.misjudgesBit ρ i j))
      (compareWithConstant .intEquals self g K i flipped) := by
  obtain ⟨op, r, u, hshape, hop, hguard⟩ := g.shape?_of_widenedFrom? hfrom
  obtain ⟨c, hc, heq⟩ := compareWithConstant_survived h hi hj hK hshape hop hguard hk self flipped
  rw [heq]
  split
  · rename_i hsurvives
    rw [← h.equals_clip hi hfrom hshape hop hk hsurvives]
    cases flipped with
    | false => exact gives_become ⟨_, Term.eval_binary rfl hc, Word.isTrue_ofTruth _⟩
    | true =>
      rw [Bool.beq_comm]
      exact gives_become ⟨_, Term.eval_binary hc rfl, Word.isTrue_ofTruth _⟩
  · exact gives_pass

theorem ne_of_compareWithConstant_pass {k : Kind} (hk : Kind.ofBits? n = some k) {self : NodeId}
    {flipped : Bool} (hpass : compareWithConstant .intEquals self g K i flipped = pass) : ρ i ≠ ρ j := by
  obtain ⟨op, r, u, hshape, hop, hguard⟩ := g.shape?_of_widenedFrom? hfrom
  obtain ⟨c, _, heq⟩ := compareWithConstant_survived h hi hj hK hshape hop hguard hk self flipped
  intro hequal
  rw [heq, if_pos ((h.eq_iff_of_widened hi hshape hop).mp hequal).1] at hpass
  cases hpass

end Widened

section Decided

variable (h : Computing g ρ s) (hi : (g.stamp i).IsInteger s.bits) (hj : (g.stamp j).IsInteger s.bits)

include h hi hj

/-- What no two values of the stamps can have in common, the two nodes do not. -/
theorem Computing.ne_of_alwaysDistinct {a b : IntStamp} (ha : g.stamp i = .int a)
    (hb : g.stamp j = .int b) (hlo : a.lo = ρ i ∨ b.lo = ρ j)
    (hdistinct : g.alwaysDistinct i j = .ok true) : ρ i ≠ ρ j := by
  have hwell : a.WellFormed ∧ b.WellFormed ∧ b.bits = a.bits := by
    rw [ha] at hi
    rw [hb] at hj
    exact ⟨hi.2, hj.2, hj.1.trans hi.1.symm⟩
  have hva := h.known.contains ha hi
  have hvb := h.known.contains hb hj
  intro heq
  rw [← heq] at hvb hlo
  have hboth := IntStamp.contains_join_of_lo hwell.1 hwell.2.1 hwell.2.2 hva hvb hlo
  rw [Graph.alwaysDistinct, ha, hb] at hdistinct
  split at hdistinct
  · have hempty : (Stamp.int a).isEmpty = true := Except.ok.inj hdistinct
    rw [Stamp.isEmpty, Stamp.hasValues, IntStamp.hasValues_of_contains hva] at hempty
    cases hempty
  · have hempty : (Stamp.int (a.join b)).isEmpty = true := Except.ok.inj hdistinct
    rw [Stamp.isEmpty, Stamp.hasValues, IntStamp.hasValues_of_contains hboth] at hempty
    cases hempty

end Decided

section Operands

variable (h : Computing g ρ s) (hs : g.stamp i = .int s) (hint : g.integralAt ρ s.bits i = true)
  (hsub : ∀ a b, g.shape? i ≠ some (.binary (.arith .sub) a b)) (hK : g.constant? j = some K)
  (hj : (g.stamp j).IsInteger s.bits)

include h hs hint hsub hK hj

theorem gives_equalsWithConstant (hkind : ∀ n, g.widenedFrom? i = some n → Kind.ofBits? n ≠ none)
    (self : NodeId) (flipped : Bool) :
    Gives (·.Tells ρ ((ρ i == ρ j) ^^ g.misjudgesBit ρ i j))
      (compareWithConstant .intEquals self g K i flipped) := by
  have hi := g.isInteger_of_integralAt hint
  cases hfrom : g.widenedFrom? i with
  | some n =>
    obtain ⟨k, hk⟩ := Option.ne_none_iff_exists'.mp (hkind n hfrom)
    exact gives_equalsWidened h hi hj hK hfrom hk self flipped
  | none =>
    rw [Graph.misjudgesBit_of_widenedFrom? (by rw [hfrom]; simp), Bool.xor_false, compareWithConstant,
      if_pos rfl]
    refine gives_otherwise (gives_equalsZero h hj hK hs hi hsub) fun _ => ?_
    refine gives_otherwise (gives_equalsBit h hj hK hi) fun _ => ?_
    unfold compareComputed
    split
    · rename_i c t f hshape
      obtain ⟨ht, hf⟩ := g.integralAt_select hint hshape
      exact gives_equalsChoice h hj hK hshape ht hf flipped
    · rename_i b x y hshape
      obtain ⟨⟨m, hx, _⟩, hvalue⟩ := g.integralAt_order hint hshape
      exact gives_equalsOrder h hK hx hvalue self b flipped
    · split
      · rename_i v hv
        rw [compareConverted_of_unwidened hint hfrom hv flipped]
        exact gives_pass
      · exact gives_pass

variable {x y : NodeId} (hxy : x = i ∧ y = j ∨ x = j ∧ y = i)

include hxy

omit hs hint hsub h hj in
theorem compareCommon_withConstant (hi : g.constant? i = none) (self : NodeId) (st : Stamp) :
    ∃ flipped, compareCommon .intEquals self g st x y =
      compareWithConstant .intEquals self g K i flipped := by
  rcases hxy with ⟨rfl, rfl⟩ | ⟨rfl, rfl⟩
  · refine ⟨false, ?_⟩
    simp only [compareCommon, hi, hK]
  · refine ⟨true, ?_⟩
    simp only [compareCommon, hi, hK]

theorem gives_equalsCommon (hkind : ∀ n, g.widenedFrom? i = some n → Kind.ofBits? n ≠ none)
    (self : NodeId) (st : Stamp) :
    Gives (·.Tells ρ ((ρ i == ρ j) ^^ g.misjudgesBit ρ i j)) (compareCommon .intEquals self g st x y) := by
  cases hc : g.constant? i with
  | none =>
    obtain ⟨flipped, heq⟩ := compareCommon_withConstant hK hxy hc self st
    rw [heq]
    exact gives_equalsWithConstant h hs hint hsub hK hj hkind self flipped
  | some a =>
    have hi := g.isInteger_of_integralAt hint
    have hfrom : g.widenedFrom? i ≠ some 1 := by
      rw [Graph.widenedFrom?, Graph.shape?_of_constant? h.sorted.wellTyped hc]
      rintro ⟨⟩
    rw [Graph.misjudgesBit_of_widenedFrom? hfrom, Bool.xor_false]
    rcases hxy with ⟨rfl, rfl⟩ | ⟨rfl, rfl⟩
    · simp only [compareCommon, hc, hK]
      rw [Term.foldComparison_eq h.sorted h.models hi hj hc hK]
      exact gives_become (Term.tells_truth _)
    · simp only [compareCommon, hc, hK]
      rw [Term.foldComparison_eq h.sorted h.models hj hi hK hc, Bool.beq_comm]
      exact gives_become (Term.tells_truth _)

omit h hs hsub hK in
theorem isInteger_operands : (g.stamp x).IsInteger s.bits ∧ (g.stamp y).IsInteger s.bits := by
  have hi := g.isInteger_of_integralAt hint
  rcases hxy with ⟨rfl, rfl⟩ | ⟨rfl, rfl⟩
  · exact ⟨hi, hj⟩
  · exact ⟨hj, hi⟩

section Extended

variable {n : Nat} (hfrom : g.widenedFrom? i = some n)

include hfrom

omit hs hint hsub hj in
theorem Computing.not_sameValue_of_widened : g.sameValue x y ≠ true := by
  obtain ⟨op, r, u, hshape, _⟩ := g.shape?_of_widenedFrom? hfrom
  have hconstant := Graph.shape?_of_constant? h.sorted.wellTyped hK
  have hi := Graph.unrefined_of_not_refine (g := g) (i := i) (by simp [hshape])
  have hj := Graph.unrefined_of_not_refine (g := g) (i := j) (by simp [hconstant])
  have hne : i ≠ j := by
    rintro rfl
    rw [hshape] at hconstant
    cases hconstant
  rw [Graph.sameValue, ne_eq, beq_iff_eq]
  rcases hxy with ⟨rfl, rfl⟩ | ⟨rfl, rfl⟩
  · rw [hi, hj]
    exact hne
  · rw [hi, hj]
    exact hne.symm

omit hs hsub in
theorem equalsDecided_of_widened (st : Stamp) :
    equalsDecided g st x y = if g.deniesEquality x y then become (.truth false) else pass := by
  obtain ⟨hx, hy⟩ := isInteger_operands hint hj hxy
  exact equalsDecided_eq hx hy (h.not_sameValue_of_widened hK hxy hfrom) st

omit hs hsub in
/-- A constant of the width is formed only if the equality is not denied at sight. -/
theorem ofBits?_ne_none_of_widened (hsupported : g.unsupportedEquality? x y i = none) {st : Stamp}
    (hpass : equalsDecided g st x y = pass) : Kind.ofBits? n ≠ none := by
  rw [equalsDecided_of_widened h hint hK hj hxy hfrom] at hpass
  split at hpass
  · cases hpass
  · rename_i hdenied
    rw [Graph.unsupportedEquality?, if_neg hdenied, hfrom] at hsupported
    intro hnone
    rw [Option.filter_some, hnone] at hsupported
    cases hsupported

end Extended

variable (hexact : g.stamp j = .int (.single s.bits (ρ j)))

include hexact

omit hsub hK in
theorem Computing.ne_of_deniesEquality (hdenied : g.deniesEquality x y = true) : ρ i ≠ ρ j := by
  have hi := g.isInteger_of_integralAt hint
  have hdistinct := Graph.alwaysDistinct_of_deniesEquality hdenied
  rcases hxy with ⟨rfl, rfl⟩ | ⟨rfl, rfl⟩
  · exact h.ne_of_alwaysDistinct hi hj hs hexact (.inr (IntStamp.ofBounds_lo _ _ _)) hdistinct
  · exact (h.ne_of_alwaysDistinct hj hi hexact hs (.inl (IntStamp.ofBounds_lo _ _ _)) hdistinct).symm

theorem gives_equalsDecided (st : Stamp) :
    Gives (·.Tells ρ ((ρ i == ρ j) ^^ g.misjudgesBit ρ i j)) (equalsDecided g st x y) := by
  by_cases hsame : g.sameValue x y = true
  · have hequal : ρ i = ρ j := by
      have hvalues := h.models.eq_of_sameValue hsame
      rcases hxy with ⟨rfl, rfl⟩ | ⟨rfl, rfl⟩
      · exact hvalues
      · exact hvalues.symm
    have hmis : g.misjudgesBit ρ i j = false := Graph.misjudgesBit_of_widenedFrom? fun hfrom =>
      h.not_sameValue_of_widened hK hxy hfrom hsame
    rw [hmis, hequal, beq_self_eq_true, equalsDecided, if_pos hsame]
    exact gives_become (Term.tells_truth true)
  · obtain ⟨hx, hy⟩ := isInteger_operands hint hj hxy
    rw [equalsDecided_eq hx hy hsame]
    split
    · rename_i hdenied
      have hne := h.ne_of_deniesEquality hs hint hj hxy hexact hdenied
      rw [Graph.misjudgesBit_of_ne hne, beq_eq_false_iff_ne.mpr hne]
      exact gives_become (Term.tells_truth false)
    · exact gives_pass

theorem gives_equalsRules (hsupported : g.unsupportedEquality? x y i = none) (self : NodeId) (st : Stamp) :
    Gives (·.Tells ρ ((ρ i == ρ j) ^^ g.misjudgesBit ρ i j)) (compare .intEquals self g st x y) := by
  refine gives_firstBinary_cons (gives_equalsDecided h hs hint hsub hK hj hxy hexact st) fun hpass => ?_
  refine gives_firstBinary_cons ?_ fun _ => gives_firstBinary_nil
  refine gives_equalsCommon h hs hint hsub hK hj hxy (fun n hfrom => ?_) self st
  exact ofBits?_ne_none_of_widened h hint hK hj hxy hfrom hsupported hpass

omit hs hsub hexact in
theorem not_misjudgedBit_of_pass (hsupported : g.unsupportedEquality? x y i = none) {self : NodeId}
    {st : Stamp} (hpass : compare .intEquals self g st x y = pass) : g.misjudgesBit ρ i j = false := by
  have hdecided := pass_of_firstBinary hpass
  have hcommon : compareCommon .intEquals self g st x y = pass := by
    rw [compare, firstBinary_of_pass hdecided] at hpass
    exact pass_of_firstBinary hpass
  cases hfrom : g.widenedFrom? i with
  | none =>
    apply Graph.misjudgesBit_of_widenedFrom?
    rw [hfrom]
    rintro ⟨⟩
  | some n =>
    have hi := g.isInteger_of_integralAt hint
    obtain ⟨k, hk⟩ := Option.ne_none_iff_exists'.mp
      (ofBits?_ne_none_of_widened h hint hK hj hxy hfrom hsupported hdecided)
    obtain ⟨flipped, heq⟩ :=
      compareCommon_withConstant hK hxy (g.constant?_of_widenedFrom? hfrom) self st
    rw [heq] at hcommon
    exact Graph.misjudgesBit_of_ne (ne_of_compareWithConstant_pass h hi hj hK hfrom hk hcommon)

omit hs hsub hexact in
theorem compare_unsupported {m : Nat} (hwidth : g.unsupportedEquality? x y i = some m) (self : NodeId)
    (st : Stamp) : compare .intEquals self g st x y =
      .error (.invalidArgument s!"unsupported integer width: {m}") := by
  rw [Graph.unsupportedEquality?, Option.ite_none_left_eq_some, Option.filter_eq_some_iff,
    Option.isNone_iff_eq_none] at hwidth
  obtain ⟨hdenied, hfrom, hnone⟩ := hwidth
  have hdecided := equalsDecided_of_widened h hint hK hj hxy hfrom st
  rw [if_neg hdenied] at hdecided
  obtain ⟨flipped, heq⟩ :=
    compareCommon_withConstant hK hxy (g.constant?_of_widenedFrom? hfrom) self st
  rw [compare, firstBinary_of_pass hdecided]
  refine firstBinary_of_error ?_ _
  rw [heq]
  exact compareWithConstant_unsupported h hj hK hfrom hnone self flipped

end Operands

end Canonical

namespace FlowGraph

/-- An equality of an integer expression, other than a difference, with a constant on either side always
has a canonical form, itself if no rule applies, unless a constant of a width without a kind is needed. The
truth of that form is the truth of the equality, except that an extended bit that is set is not found equal
to its value. -/
theorem canonical_equals_constant (f : FlowGraph) {ρ : NodeId → Word} (hg : f.graph.WellSorted)
    (hρ : f.graph.Models ρ) (hknown : f.graph.Known ρ) {n x y i j : NodeId}
    (hn : f.graph.shape? n = some (.binary (.compare .intEquals) x y))
    (hxy : x = i ∧ y = j ∨ x = j ∧ y = i) {w : Nat} (hw : w = 32 ∨ w = 64)
    (hi : f.graph.integralAt ρ w i = true)
    (hsub : ∀ a b, f.graph.shape? i ≠ some (.binary (.arith .sub) a b)) {K : Constant}
    (hK : f.graph.constant? j = some K) (hj : (f.graph.stamp j).IsInteger w)
    (hexact : f.graph.stamp j = .int (.single w (ρ j))) :
    (∀ m, f.graph.unsupportedEquality? x y i = some m →
      f.canonical n = .error (.invalidArgument s!"unsupported integer width: {m}")) ∧
    (f.graph.unsupportedEquality? x y i = none → ∃ o, f.canonical n = .ok (f, o) ∧
      (o.getD (.node n)).Tells ρ (decide (ρ x = ρ y) ^^ f.graph.misjudgesBit ρ i j)) := by
  obtain ⟨s, hs, rfl, _⟩ := (f.graph.isInteger_of_integralAt hi).exists_int
  have h : Canonical.Computing f.graph ρ s := ⟨hg, hρ, hknown, hw⟩
  have hreduce : f.canonical n =
      (Canonical.compare .intEquals n f.graph (f.graph.stamp n) x y).map fun o => (f, o) := by
    rw [f.canonical_eq_reduce (Graph.shape?_binary hn).1 (by rintro _ ⟨⟩)]
    simp only [reduce, hn]
  have htruth : decide (ρ x = ρ y) = (ρ i == ρ j) := by
    rcases hxy with ⟨rfl, rfl⟩ | ⟨rfl, rfl⟩
    · rfl
    · rw [Bool.beq_comm]
      rfl
  constructor
  · intro m hwidth
    rw [hreduce, Canonical.compare_unsupported h hi hK hj hxy hwidth]
    rfl
  · intro hsupported
    obtain ⟨o, ho, htells⟩ :=
      Canonical.gives_equalsRules h hs hi hsub hK hj hxy hexact hsupported n (f.graph.stamp n)
    refine ⟨o, by rw [hreduce, ho]; rfl, ?_⟩
    rw [htruth]
    cases o with
    | some t => exact htells t rfl
    | none =>
      have hmis := Canonical.not_misjudgedBit_of_pass h hi hK hj hxy hsupported ho
      refine ⟨ρ n, rfl, ?_⟩
      rw [hmis, Bool.xor_false, ← htruth, hρ.eq_of_binary hn rfl]
      exact Word.isTrue_ofTruth _

/-- Whether zero equals an integer of 32 bits that is shifted to the left by 35. -/
def shiftedOut : FlowGraph where
  graph := ⟨#[⟨{ op := .leaf (.parameter 0), stamp := .int (.full 32) }, [], .ofList [2], true⟩,
    ⟨{ op := .leaf (.constant (.ofInt32 35)), stamp := .int (.single 32 35) }, [], .ofList [2], true⟩,
    ⟨{ op := .binary (.shift .shl), stamp := .int (.full 32) }, [some 0, some 1], .ofList [4], true⟩,
    ⟨{ op := .leaf (.constant (.ofInt32 0)), stamp := .int (.single 32 0) }, [], .ofList [4], true⟩,
    ⟨{ op := .binary (.compare .intEquals), stamp := .void }, [some 3, some 2], {}, true⟩], #[], []⟩
  control := []

def shiftedOutValues (i : NodeId) : Word := [536870912, 35, 0, 0, 1].getD i 0

theorem canonical_equals_constant_shiftedOut :
    ∃ o, shiftedOut.canonical 4 = .ok (shiftedOut, o) ∧
      (o.getD (.node 4)).Tells shiftedOutValues true := by
  obtain ⟨_, hequals⟩ := @canonical_equals_constant shiftedOut shiftedOutValues (by decide) (by decide)
    (by decide) 4 3 2 2 3 rfl (.inr ⟨rfl, rfl⟩) 32 (.inl rfl) (by decide) (by rintro _ _ ⟨⟩) _ rfl
    (by decide) (by decide)
  exact hequals (by decide)

/-- The bits that are not shifted out are tested. -/
example : shiftedOut.canonical 4 = .ok (shiftedOut, some (.test (.node 0)
    (.leaf (.constant (.ofInt32 536870911)) (.int (.single 32 536870911))))) := by
  rfl

def extendedEquals (op : ResizeOp) (w : Nat) (c : Word) : FlowGraph where
  graph := ⟨#[⟨{ op := .leaf (.parameter 0), stamp := .int (.full w) }, [], .ofList [1], true⟩,
    ⟨{ op := .unary (.resize op w 32), stamp := (op.onStamp w 32 (.int (.full w))).toOption.getD .void },
      [some 0], .ofList [3], true⟩,
    ⟨{ op := .leaf (.constant (.primitive .int c)), stamp := .int (.single 32 c) }, [], .ofList [3], true⟩,
    ⟨{ op := .binary (.compare .intEquals), stamp := .void }, [some 1, some 2], {}, true⟩], #[], []⟩
  control := []

/-- A bit that is set, with value `-1`, is `1` after a zero extension and `-1` after a sign extension, but
both equalities are denied. For seven bits there is no canonical form. -/
theorem canonical_extended_bit_denied :
    (∀ op c, op = .zeroExtend ∧ c = 1 ∨ op = .signExtend ∧ c = -1 →
      ∃ t, (extendedEquals op 1 c).canonical 3 = .ok (extendedEquals op 1 c, some t) ∧
        (extendedEquals op 1 c).graph.Models (fun i => [-1, c, c, 1].getD i 0) ∧
        (extendedEquals op 1 c).graph.Known (fun i => [-1, c, c, 1].getD i 0) ∧
        t.Tells (fun i => [-1, c, c, 1].getD i 0) false) ∧
    (extendedEquals .zeroExtend 7 1).canonical 3 =
      .error (.invalidArgument "unsupported integer width: 7") := by
  constructor
  · rintro op c (⟨rfl, rfl⟩ | ⟨rfl, rfl⟩)
    all_goals
      exact ⟨.compare .intEquals (.node 0)
        (.leaf (.constant (.primitive .boolean 1)) (.int (.single 1 1))), rfl, by decide, by decide, 0,
        by decide, rfl⟩
  · rfl

end FlowGraph

end CompilerKit
