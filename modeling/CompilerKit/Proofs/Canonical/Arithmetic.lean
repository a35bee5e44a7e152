import CompilerKit.Proofs.Canonical.Reassociate
import CompilerKit.Proofs.Division

/-! # Arithmetic is reduced without a change of value

Every rule for integer arithmetic that cannot trap answers with a term of the value that the
application has, wrapped around at its width. One rule relies on what is known of the values: a mask is
dropped if it covers every bit that its operand can have.
-/

namespace CompilerKit

namespace Word

variable {w : Nat} (hw : w ≤ 64) (x y : Word)

include hw

theorem low_add : low w (x + y) = low w x + low w y := BitVec.setWidth_add x y hw

theorem low_neg : low w (-x) = -low w x := BitVec.setWidth_neg_of_le hw

theorem low_sub : low w (x - y) = low w x - low w y := by
  rw [BitVec.sub_eq_add_neg, low_add hw, low_neg hw, ← BitVec.sub_eq_add_neg]

theorem low_mul : low w (x * y) = low w x * low w y := BitVec.setWidth_mul x y hw

theorem low_mask : low w (mask w) = BitVec.allOnes w := by
  apply BitVec.eq_of_getLsbD_eq
  intro i hi
  rw [getLsbD_low, getLsbD_mask hw, BitVec.getLsbD_allOnes, Bool.and_self]

theorem low_and_mask : low w (x &&& mask w) = low w x := by
  rw [low, BitVec.setWidth_and, ← low, ← low, low_mask hw, BitVec.and_allOnes]

theorem low_eq_zero (h : x &&& mask w = 0) : low w x = 0#w := by
  rw [← low_and_mask hw, h, low_zero]

theorem low_eq_allOnes (h : x &&& mask w = mask w) : low w x = BitVec.allOnes w := by
  rw [← low_and_mask hw, h, low_mask hw]

theorem low_one : low w 1 = 1#w := BitVec.setWidth_ofNat_of_le hw 1

omit hw in
theorem ne_zero_of_low {x : Word} (h : low w x ≠ 0) : x ≠ 0 := by
  rintro rfl
  exact h (low_zero w)

theorem low_abs (h0 : 0 < w) (hx : Fits w x) : low w (abs x) = (low w x).abs := by
  have hmsb : (low w x).msb = x.slt 0 := by
    rw [Bool.eq_iff_iff, slt_zero_iff, BitVec.msb_eq_toInt, decide_eq_true_eq,
      toInt_low_of_fits h0 hw hx]
  rw [abs, BitVec.abs, hmsb]
  split
  · exact low_neg hw x
  · rfl

omit hw in
theorem signExtend_and_mask {m n : Nat} (hm : m < 64) (v : BitVec m) :
    v.signExtend n &&& low n (shl 1 m - 1) = v.setWidth n := by
  have hmask : shl 1 m - 1 = mask m := (if_neg (by omega)).symm
  apply BitVec.eq_of_getLsbD_eq
  intro i hi
  rw [hmask, BitVec.getLsbD_and, BitVec.getLsbD_signExtend, getLsbD_low, getLsbD_mask (by omega),
    BitVec.getLsbD_setWidth]
  by_cases him : i < m
  · simp only [him, hi, decide_true, Bool.true_and, Bool.and_true, if_true]
  · simp [him, BitVec.getLsbD_of_ge v i (by omega)]

omit hw in
theorem abs_abs (v : BitVec w) : v.abs.abs = v.abs := by
  rw [BitVec.abs_eq v.abs, BitVec.msb_abs]
  split
  · rename_i h
    rw [Bool.and_eq_true, decide_eq_true_eq] at h
    rw [h.1, BitVec.abs_eq]
    split
    · rw [BitVec.neg_intMin, BitVec.neg_intMin]
    · exact BitVec.neg_intMin
  · rfl

end Word

theorem IntStamp.WellFormed.low_and_of_covers {s : IntStamp} (hs : s.WellFormed) {v c : Word}
    (hv : s.contains v = true) (hc : (s.up ||| s.down) &&& ~~~c = 0) :
    Word.low s.bits v &&& Word.low s.bits c = Word.low s.bits v := by
  apply BitVec.eq_of_getLsbD_eq
  intro i hi
  rw [BitVec.getLsbD_and, Word.getLsbD_low, Word.getLsbD_low, decide_eq_true hi, Bool.true_and,
    Bool.true_and]
  cases hbit : v.getLsbD i with
  | false => rfl
  | true =>
    have hup := hs.getLsbD_up hv hi hbit
    have hcovers := congrArg (·.getLsbD i) hc
    have hlt : i < 64 := Nat.lt_of_lt_of_le hi hs.bits_le
    simpa [hup, hlt] using hcovers

theorem UnaryOp.exists_onValue {w : Nat} {op : UnaryOp} (hop : op ≠ .sqrt) (x : BitVec w) :
    ∃ v, op.onValue x = some v := by
  cases op with
  | sqrt => exact absurd rfl hop
  | _ => exact ⟨_, rfl⟩

theorem UnaryOp.exists_onConstant {w : Nat} (h0 : 0 < w) (hw : w ≤ 64) {op : UnaryOp} {k : Kind}
    (hk : k.isInteger = true) {x : Word} (hx : Word.Fits w x) {v : BitVec w}
    (hv : op.onValue (Word.low w x) = some v) :
    ∃ r, op.onConstant (.primitive k x) = .ok (.primitive k (k.clip r)) ∧ Word.low w r = v := by
  have hkind (r : Word) : Constant.ofKind k r = .ok (.primitive k (k.clip r)) := if_pos hk
  simp only [onConstant, hk, if_true]
  cases op with
  | neg =>
    cases hv
    exact ⟨-x, hkind (-x), Word.low_neg hw x⟩
  | not =>
    cases hv
    exact ⟨~~~x, hkind (~~~x), BitVec.setWidth_not hw⟩
  | abs =>
    cases hv
    exact ⟨Word.abs x, hkind (Word.abs x), Word.low_abs hw x h0 hx⟩
  | sqrt => cases hv

theorem BinaryOp.exists_onConstants {w : Nat} (h0 : 0 < w) (hw : w ≤ 64) {op : BinaryOp} {k : Kind}
    (hk : k.isInteger = true) (k' : Kind) {x y : Word} (hx : Word.Fits w x) (hy : Word.Fits w y)
    {v : BitVec w} (hv : op.onValues (Word.low w x) (Word.low w y) = some v) :
    ∃ r, op.onConstants (.primitive k x) (.primitive k' y) = .ok (.primitive k (k.clip r)) ∧
      Word.low w r = v := by
  obtain ⟨r, hr, hlow⟩ : ∃ r, op.onWords x y = .ok r ∧ Word.low w r = v := by
    cases op with
    | add => cases hv; exact ⟨_, rfl, Word.low_add hw x y⟩
    | sub => cases hv; exact ⟨_, rfl, Word.low_sub hw x y⟩
    | mul => cases hv; exact ⟨_, rfl, Word.low_mul hw x y⟩
    | div =>
      obtain ⟨hne, ⟨⟩⟩ := Option.ite_none_left_eq_some.mp hv
      exact ⟨_, if_neg (Word.ne_zero_of_low hne), Word.low_sdiv h0 hw hx hy⟩
    | rem =>
      obtain ⟨hne, ⟨⟩⟩ := Option.ite_none_left_eq_some.mp hv
      exact ⟨_, if_neg (Word.ne_zero_of_low hne), Word.low_srem h0 hw hx hy⟩
    | and => cases hv; exact ⟨_, rfl, BitVec.setWidth_and⟩
    | or => cases hv; exact ⟨_, rfl, BitVec.setWidth_or⟩
    | xor => cases hv; exact ⟨_, rfl, BitVec.setWidth_xor⟩
  refine ⟨r, ?_, hlow⟩
  rw [onConstants, Constant.word, Result.bind_of_ok rfl, if_pos hk, Result.bind_of_ok hr,
    Constant.ofKind, if_pos hk]

/-- A constant that counts as neutral on the right changes no value of its width. -/
theorem BinaryOp.exists_isNeutral {w : Nat} (h0 : 0 < w) (hw : w ≤ 64) (op : BinaryOp) {k : Kind}
    (hk : k.bits = w) (c : Word) :
    ∃ b, op.isNeutral .integer (.primitive k c) = .ok b ∧
      (b = true → ∀ x : BitVec w, op.onValues x (Word.low w c) = some x) := by
  cases op with
  | add =>
    refine ⟨decide (c = 0), rfl, fun hb x => ?_⟩
    rw [of_decide_eq_true hb, Word.low_zero]
    exact congrArg some (BitVec.add_zero x)
  | sub =>
    refine ⟨decide (c = 0), rfl, fun hb x => ?_⟩
    rw [of_decide_eq_true hb, Word.low_zero]
    exact congrArg some (BitVec.sub_zero x)
  | mul =>
    refine ⟨decide (c = 1), rfl, fun hb x => ?_⟩
    rw [of_decide_eq_true hb, Word.low_one hw]
    exact congrArg some (BitVec.mul_one x)
  | div =>
    have hne : 1#w ≠ 0 := mt BitVec.one_eq_zero_iff.mp (by omega)
    refine ⟨decide (c = 1), rfl, fun hb x => ?_⟩
    rw [of_decide_eq_true hb, Word.low_one hw, onValues, if_neg hne, BitVec.sdiv_one]
  | rem => exact ⟨false, rfl, by rintro ⟨⟩⟩
  | and =>
    refine ⟨decide (c &&& Word.mask k.bits = Word.mask k.bits), rfl, fun hb x => ?_⟩
    have hmask := of_decide_eq_true hb
    rw [hk] at hmask
    rw [Word.low_eq_allOnes hw c hmask]
    exact congrArg some BitVec.and_allOnes
  | or =>
    refine ⟨decide (c = 0), rfl, fun hb x => ?_⟩
    rw [of_decide_eq_true hb, Word.low_zero]
    exact congrArg some BitVec.or_zero
  | xor =>
    refine ⟨decide (c = 0), rfl, fun hb x => ?_⟩
    rw [of_decide_eq_true hb, Word.low_zero]
    exact congrArg some BitVec.xor_zero

namespace Canonical

open Reduction

variable {g : Graph Label} {ρ : NodeId → Word} {s : IntStamp} {x y : NodeId}

namespace Computing

variable (h : Computing g ρ s)

include h

theorem eq_of_integer {c : Word} (hc : g.integer? x = some c) : c = ρ x := by
  unfold Graph.integer? at hc
  split at hc
  · rename_i hconst
    split at hc
    · cases hc
      exact (h.models.eq_of_constant h.sorted.wellTyped hconst).symm
    · cases hc
  · cases hc

variable (hx : (g.stamp x).IsInteger s.bits)

include hx

theorem arith {op : BinaryOp} {a b : NodeId} {v : BitVec s.bits}
    (hshape : g.shape? x = some (.binary (.arith op) a b))
    (hv : op.onValues (Word.low s.bits (ρ a)) (Word.low s.bits (ρ b)) = some v) :
    (g.stamp a).IsInteger s.bits ∧ (g.stamp b).IsInteger s.bits ∧ Word.low s.bits (ρ x) = v := by
  obtain ⟨ha, hb⟩ := h.sorted.wellTyped.operands rfl hshape hx
  refine ⟨ha, hb, ?_⟩
  rw [h.models.eq_of_arith hshape hx hv, Word.low_ofLow h.le]

theorem arith1 {op : UnaryOp} {a : NodeId} {v : BitVec s.bits}
    (hshape : g.shape? x = some (.unary (.arith op) a))
    (hv : op.onValue (Word.low s.bits (ρ a)) = some v) :
    (g.stamp a).IsInteger s.bits ∧ Word.low s.bits (ρ x) = v := by
  refine ⟨h.sorted.operand_of_arith hshape hx, ?_⟩
  rw [h.models.eq_of_unaryArith hshape hx hv, Word.low_ofLow h.le]

end Computing

theorem and_mask_ne_zero (hc : g.integer? y = some (ρ y))
    (hpass : andNothing g (.int s) x y = pass) : ρ y &&& Word.mask s.bits ≠ 0 := by
  intro hzero
  have hbuild : andNothing g (.int s) x y = build (Term.integer (.int s) 0) := by
    simp only [andNothing, onIntegerRight, hc]
    exact if_pos hzero
  exact build_ne_pass _ (hbuild.symm.trans hpass)

section Binary

variable (h : Computing g ρ s)

include h

theorem gives_onIntegerRight {P : Term → Prop}
    {rule : Graph Label → Stamp → NodeId → Word → Reduction}
    (hrule : g.integer? y = some (ρ y) → Gives P (rule g (.int s) x (ρ y))) :
    Gives P (onIntegerRight rule g (.int s) x y) := by
  unfold onIntegerRight
  split
  · rename_i c hc
    obtain rfl := h.eq_of_integer hc
    exact hrule hc
  · exact gives_pass

theorem gives_andNothing :
    Gives (·.Denotes g ρ (Word.low s.bits (ρ x) &&& Word.low s.bits (ρ y)))
      (andNothing g (.int s) x y) := by
  refine gives_onIntegerRight h fun _ => ?_
  split
  · rename_i hzero
    refine h.gives_integer ?_
    rw [Word.low_eq_zero h.le (ρ y) hzero, BitVec.and_zero, Word.low_zero]
  · exact gives_pass

theorem gives_orEverything :
    Gives (·.Denotes g ρ (Word.low s.bits (ρ x) ||| Word.low s.bits (ρ y)))
      (orEverything g (.int s) x y) := by
  refine gives_onIntegerRight h fun _ => ?_
  dsimp only
  split
  · rename_i hall
    refine h.gives_integer ?_
    rw [Word.low_eq_allOnes h.le (ρ y) hall, BitVec.or_allOnes]
    exact Word.low_mask h.le
  · exact gives_pass

variable (hx : (g.stamp x).IsInteger s.bits)

include hx

theorem gives_xorEverything :
    Gives (·.Denotes g ρ (Word.low s.bits (ρ x) ^^^ Word.low s.bits (ρ y)))
      (xorEverything g (.int s) x y) := by
  refine gives_onIntegerRight h fun _ => ?_
  dsimp only
  split
  · rename_i hall
    refine h.gives_arith1 hx ?_
    rw [Word.low_eq_allOnes h.le (ρ y) hall, BitVec.xor_allOnes]
    rfl
  · exact gives_pass

theorem gives_andCovering :
    Gives (·.Denotes g ρ (Word.low s.bits (ρ x) &&& Word.low s.bits (ρ y)))
      (andCovering g (.int s) x y) := by
  refine gives_onIntegerRight h fun _ => ?_
  obtain ⟨a, ha, hbits, hwell⟩ := hx.exists_int
  simp only [ha]
  split
  · rename_i hcovers
    have hand := hwell.low_and_of_covers (h.known.contains ha hx) hcovers
    rw [hbits] at hand
    exact h.gives_node hx hand.symm
  · exact gives_pass

theorem gives_andExtended (hpass : andNothing g (.int s) x y = pass) :
    Gives (·.Denotes g ρ (Word.low s.bits (ρ x) &&& Word.low s.bits (ρ y)))
      (andExtended g (.int s) x y) := by
  refine gives_onIntegerRight h fun hc => ?_
  split
  · rename_i m n v hshape
    split
    · rename_i hmask
      obtain ⟨hv, rfl, _⟩ := h.sorted.operand_of_resize hshape hx
      obtain ⟨a, ha, rfl, _⟩ := hv.exists_int
      have hm : a.bits < 64 := by
        -- A mask for all bits of a word would be zero, which is left to the rule before.
        refine Nat.lt_of_le_of_ne hv.le fun h64 => ?_
        apply and_mask_ne_zero hc hpass
        rw [hmask, h64]
        simp [Word.shl]
      obtain ⟨t, ht, hvalue⟩ := Term.exists_resize hv.le .zeroExtend s.bits
        (Term.denotes_node h.models hv)
      rw [ha]
      refine gives_build ht ?_
      rw [h.models.eq_of_resize hshape, Word.low_ofLow h.le, hmask, ResizeOp.onValue,
        Word.signExtend_and_mask hm]
      exact hvalue
    · exact gives_pass
  · exact gives_pass

/-! Equal operands. -/

theorem gives_idempotent {op : BinaryOp} (hop : op = .and ∨ op = .or) {v : BitVec s.bits}
    (hv : op.onValues (Word.low s.bits (ρ x)) (Word.low s.bits (ρ y)) = some v) :
    Gives (·.Denotes g ρ v) (idempotent g (.int s) x y) := by
  unfold idempotent
  split
  · rename_i hsame
    rw [← h.models.eq_of_sameValue hsame] at hv
    refine h.gives_node hx ?_
    rcases hop with rfl | rfl
    · cases hv
      exact BitVec.and_self.symm
    · cases hv
      exact BitVec.or_self.symm
  · exact gives_pass

theorem exists_zero {op : BinaryOp} (hop : op = .sub ∨ op = .xor) :
    ∃ c t, op.zero? (g.stamp x) = .ok (some c) ∧ Term.primitive (.int s) c = .ok t ∧
      t.Denotes g ρ (0#s.bits) := by
  obtain ⟨a, ha, hbits, _⟩ := hx.exists_int
  obtain ⟨k, hk⟩ := Kind.exists_ofBits? h.width
  obtain ⟨t, ht, hzero⟩ := Term.exists_primitive (g := g) (ρ := ρ) rfl h.width hk 0
  have hconst : Constant.ofBits a.bits 0 = .ok (.primitive k (k.clip 0)) := by
    rw [hbits, Constant.ofBits, hk]
  refine ⟨_, t, ?_, ht, Word.low_zero s.bits ▸ hzero⟩
  rw [ha]
  rcases hop with rfl | rfl
  all_goals
    rw [BinaryOp.zero?, Result.bind_of_ok hconst]
    rfl

theorem gives_subSelf :
    Gives (·.Denotes g ρ (Word.low s.bits (ρ x) - Word.low s.bits (ρ y)))
      (subSelf g (.int s) x y) := by
  unfold subSelf
  split
  · rename_i hsame
    obtain ⟨c, t, hc, ht, hzero⟩ := exists_zero h hx (.inl rfl)
    rw [Result.bind_of_ok hc]
    refine gives_build ht ?_
    rw [h.models.eq_of_sameValue hsame, BitVec.sub_self]
    exact hzero
  · exact gives_pass

theorem gives_xorSelf :
    Gives (·.Denotes g ρ (Word.low s.bits (ρ x) ^^^ Word.low s.bits (ρ y)))
      (xorSelf g (.int s) x y) := by
  unfold xorSelf
  split
  · rename_i hsame
    obtain ⟨c, t, hc, ht, hzero⟩ := exists_zero h hx (.inr rfl)
    rw [Result.bind_of_ok hc]
    refine gives_build ht ?_
    rw [h.models.eq_of_sameValue hsame, BitVec.xor_self]
    exact hzero
  · exact gives_pass

variable (hy : (g.stamp y).IsInteger s.bits)

include hy

/-! Rules shared by several operators. -/

section Shared

variable {op : BinaryOp} (hdiv : op ≠ .div) (hrem : op ≠ .rem) {v : BitVec s.bits}
  (hv : op.onValues (Word.low s.bits (ρ x)) (Word.low s.bits (ρ y)) = some v)

include hv

theorem gives_constantRight (hop : op.isCommutative = true) :
    Gives (·.Denotes g ρ v) (constantRight op g (.int s) x y) := by
  unfold constantRight
  split
  · rw [BinaryOp.onValues_comm hop] at hv
    exact h.gives_arith hy hx hv
  · exact gives_pass

theorem gives_foldConstants : Gives (·.Denotes g ρ v) (foldConstants op g (.int s) x y) := by
  unfold foldConstants
  split
  · rename_i a b ha hb
    obtain ⟨k, rfl, hk⟩ := h.constant ha hx
    obtain ⟨k', rfl, _⟩ := h.constant hb hy
    obtain ⟨r, hr, hlow⟩ := BinaryOp.exists_onConstants h.pos h.le (h.isInteger_kind hk).1 k'
      (h.fits hx) (h.fits hy) hv
    obtain ⟨t, ht, hvalue⟩ := Term.exists_primitive (g := g) (ρ := ρ) rfl h.width hk r
    rw [Result.bind_of_ok hr]
    exact gives_build ht (hlow ▸ hvalue)
  · exact gives_pass

theorem gives_dropNeutral : Gives (·.Denotes g ρ v) (dropNeutral op g (.int s) x y) := by
  unfold dropNeutral onConstantRight
  split
  · rename_i c hc
    obtain ⟨k, rfl, hk⟩ := h.constant hc hy
    obtain ⟨t, ht, _, _⟩ := hx.exists_int
    obtain ⟨b, hb, hneutral⟩ := BinaryOp.exists_isNeutral h.pos h.le op
      (h.isInteger_kind hk).2 (ρ y)
    dsimp only
    rw [ht, isNeutralAt, Stamp.family?, Result.bind_of_ok hb]
    split
    · rename_i htrue
      rw [hneutral htrue] at hv
      exact h.gives_node hx (Option.some.inj hv)
    · exact gives_pass
  · exact gives_pass

include hdiv hrem

theorem gives_regrouped (p : NodeId → Bool) :
    Gives (·.Denotes g ρ v) (reassociate p op g x y) :=
  (gives_reassociate h.sorted.wellTyped h.models p hdiv hrem hx hy hv).mono fun _ ht => ht.1

theorem gives_regroupConstants :
    Gives (·.Denotes g ρ v) (regroupConstants op g (.int s) x y) := by
  unfold regroupConstants
  split
  · exact gives_regrouped h hx hy hdiv hrem hv _
  · exact gives_pass

end Shared

/-! Sums and differences. -/

theorem gives_cancelDifference :
    Gives (·.Denotes g ρ (Word.low s.bits (ρ x) + Word.low s.bits (ρ y)))
      (cancelDifference g (.int s) x y) := by
  have hleft {a : NodeId} (hd : g.binary? (.arith .sub) x = some (a, y)) :
      Gives (·.Denotes g ρ (Word.low s.bits (ρ x) + Word.low s.bits (ρ y))) (keep a) := by
    obtain ⟨ha, _, hvalue⟩ := h.arith hx (Graph.shape?_of_binary? hd) rfl
    refine h.gives_node ha ?_
    rw [hvalue, BitVec.sub_add_cancel]
  have hright {c : NodeId} (hd : g.binary? (.arith .sub) y = some (c, x)) :
      Gives (·.Denotes g ρ (Word.low s.bits (ρ x) + Word.low s.bits (ρ y))) (keep c) := by
    obtain ⟨hc, _, hvalue⟩ := h.arith hy (Graph.shape?_of_binary? hd) rfl
    refine h.gives_node hc ?_
    rw [hvalue, BitVec.add_comm, BitVec.sub_add_cancel]
  unfold cancelDifference
  split
  · split
    · rename_i hdx hdy
      split
      · subst y
        exact hleft hdx
      · split
        · subst x
          exact hright hdy
        · exact gives_pass
    · rename_i hdx _
      split
      · subst y
        exact hleft hdx
      · exact gives_pass
    · rename_i _ hdy
      split
      · subst x
        exact hright hdy
      · exact gives_pass
    · exact gives_pass
  · exact gives_pass

theorem gives_addNegated :
    Gives (·.Denotes g ρ (Word.low s.bits (ρ x) + Word.low s.bits (ρ y)))
      (addNegated g (.int s) x y) := by
  unfold addNegated
  split
  · rename_i v _ hneg
    obtain ⟨hv, hvalue⟩ := h.arith1 hx (Graph.shape?_of_unary? hneg) rfl
    refine h.gives_arith hy hv ?_
    rw [hvalue, BitVec.add_comm, ← BitVec.sub_eq_add_neg]
    rfl
  · rename_i v _ hneg
    obtain ⟨hv, hvalue⟩ := h.arith1 hy (Graph.shape?_of_unary? hneg) rfl
    refine h.gives_arith hx hv ?_
    rw [hvalue, ← BitVec.sub_eq_add_neg]
    rfl
  · exact gives_pass

theorem gives_cancelLeft :
    Gives (·.Denotes g ρ (Word.low s.bits (ρ x) - Word.low s.bits (ρ y)))
      (cancelLeft g (.int s) x y) := by
  unfold cancelLeft
  split
  · split
    · rename_i a b hshape
      obtain ⟨ha, hb, hvalue⟩ := h.arith hx hshape rfl
      split
      · subst y
        refine h.gives_node ha ?_
        rw [hvalue, BitVec.add_sub_cancel]
      · split
        · subst y
          refine h.gives_node hb ?_
          rw [hvalue, BitVec.add_comm, BitVec.add_sub_cancel]
        · exact gives_pass
    · rename_i a b hshape
      obtain ⟨_, hb, hvalue⟩ := h.arith hx hshape rfl
      split
      · subst y
        refine h.gives_arith1 hb ?_
        rw [hvalue, sub_sub_cancel_left]
        rfl
      · exact gives_pass
    · exact gives_pass
  · exact gives_pass

theorem gives_cancelRight :
    Gives (·.Denotes g ρ (Word.low s.bits (ρ x) - Word.low s.bits (ρ y)))
      (cancelRight g (.int s) x y) := by
  unfold cancelRight
  split
  · split
    · rename_i a b hshape
      obtain ⟨ha, hb, hvalue⟩ := h.arith hy hshape rfl
      split
      · subst x
        refine h.gives_arith1 hb ?_
        rw [hvalue, sub_add_cancel_left]
        rfl
      · split
        · subst x
          refine h.gives_arith1 ha ?_
          rw [hvalue, sub_add_cancel_right]
          rfl
        · exact gives_pass
    · rename_i a b hshape
      obtain ⟨_, hb, hvalue⟩ := h.arith hy hshape rfl
      split
      · subst x
        refine h.gives_node hb ?_
        rw [hvalue, sub_sub_cancel]
      · exact gives_pass
    · exact gives_pass
  · exact gives_pass

theorem gives_subConstant :
    Gives (·.Denotes g ρ (Word.low s.bits (ρ x) - Word.low s.bits (ρ y)))
      (subConstant g (.int s) x y) := by
  refine gives_onIntegerRight h fun _ => ?_
  obtain ⟨a, ha, _, _⟩ := hy.exists_int
  obtain ⟨range, hrange⟩ : ∃ range, Stamp.ofKind (g.stamp y).stackKind = .int range := by
    rw [ha, Stamp.stackKind]
    split <;> exact ⟨_, rfl⟩
  simp only [hrange]
  split
  · obtain ⟨r, hr, hconst⟩ := Term.exists_integer (g := g) (ρ := ρ) h.width (-ρ y)
    obtain ⟨t, ht, hsum⟩ := Term.exists_arith h.le .add (Term.denotes_node h.models hx) hconst rfl
    rw [Result.bind_of_ok hr]
    refine gives_build ht ?_
    rw [BitVec.sub_eq_add_neg, ← Word.low_neg h.le]
    exact hsum
  · exact gives_pass

theorem gives_subFromNeutral :
    Gives (·.Denotes g ρ (Word.low s.bits (ρ x) - Word.low s.bits (ρ y)))
      (subFromNeutral g (.int s) x y) := by
  unfold subFromNeutral
  split
  · rename_i c hc _
    obtain ⟨k, rfl, hk⟩ := h.constant hc hx
    obtain ⟨b, hb, hneutral⟩ := BinaryOp.exists_isNeutral h.pos h.le .add
      (h.isInteger_kind hk).2 (ρ x)
    rw [isNeutralAt, Stamp.family?, Result.bind_of_ok hb]
    split
    · rename_i htrue
      have hzero : Word.low s.bits (ρ x) = 0#s.bits := by
        simpa [BinaryOp.onValues] using hneutral htrue 0
      refine h.gives_arith1 hy ?_
      rw [hzero, BitVec.zero_sub]
      rfl
    · exact gives_pass
  · exact gives_pass

theorem gives_regroupFromConstant :
    Gives (·.Denotes g ρ (Word.low s.bits (ρ x) - Word.low s.bits (ρ y)))
      (regroupFromConstant g (.int s) x y) := by
  unfold regroupFromConstant
  split
  · exact gives_regrouped h hx hy (by decide) (by decide) rfl _
  · exact gives_pass

theorem gives_subNegated :
    Gives (·.Denotes g ρ (Word.low s.bits (ρ x) - Word.low s.bits (ρ y)))
      (subNegated g (.int s) x y) := by
  unfold subNegated
  split
  · exact gives_pass
  · split
    · rename_i v hneg
      obtain ⟨hv, hvalue⟩ := h.arith1 hy (Graph.shape?_of_unary? hneg) rfl
      refine h.gives_arith hx hv ?_
      rw [hvalue, sub_neg_eq_add]
      rfl
    · exact gives_pass

/-! Products. -/

theorem gives_mulPowerOfTwo :
    Gives (·.Denotes g ρ (Word.low s.bits (ρ x) * Word.low s.bits (ρ y)))
      (mulPowerOfTwo g (.int s) x y) := by
  refine gives_onIntegerRight h fun _ => ?_
  split
  · rename_i hpow
    have hlow : Word.low s.bits (ρ y) = BitVec.twoPow s.bits (Word.log2 (ρ y)) := by
      apply BitVec.eq_of_toNat_eq
      rw [Word.low, BitVec.toNat_setWidth, Word.toNat_of_isPowerOfTwo hpow, BitVec.toNat_twoPow]
    have hlt : Word.log2 (ρ y) < s.bits := by
      have hfits := (h.fits hy).2
      rw [Word.toInt_of_isPowerOfTwo hpow] at hfits
      have hpred : Word.log2 (ρ y) < s.bits - 1 := by
        exact_mod_cast (Nat.pow_lt_pow_iff_right (a := 2) (by decide)).mp (by exact_mod_cast hfits)
      omega
    refine h.gives_shift hx hlt ?_
    rw [hlow, ← BitVec.shiftLeft_eq_mul_twoPow]
    rfl
  · exact gives_pass

theorem gives_binaryArith {op : BinaryOp} (hdiv : op ≠ .div) (hrem : op ≠ .rem)
    {v : BitVec s.bits}
    (hv : op.onValues (Word.low s.bits (ρ x)) (Word.low s.bits (ρ y)) = some v) :
    Gives (·.Denotes g ρ v) (binaryArith op g (.int s) x y) := by
  -- The rules that all operators have, with the value left open.
  have hfold := gives_foldConstants h hx hy hv
  have hneutral := gives_dropNeutral h hx hy hv
  have hregroup := gives_regroupConstants h hx hy hdiv hrem hv
  cases op with
  | add =>
    refine gives_firstBinary_cons hfold fun _ => ?_
    refine gives_firstBinary_cons (gives_constantRight h hx hy hv rfl) fun _ => ?_
    cases hv
    refine gives_firstBinary_cons (gives_cancelDifference h hx hy) fun _ => ?_
    refine gives_firstBinary_cons hneutral fun _ => ?_
    refine gives_firstBinary_cons hregroup fun _ => ?_
    exact gives_firstBinary_cons (gives_addNegated h hx hy) fun _ => gives_firstBinary_nil
  | sub =>
    cases hv
    refine gives_firstBinary_cons hfold fun _ => ?_
    refine gives_firstBinary_cons (gives_subSelf h hx) fun _ => ?_
    refine gives_firstBinary_cons (gives_cancelLeft h hx hy) fun _ => ?_
    refine gives_firstBinary_cons (gives_cancelRight h hx hy) fun _ => ?_
    refine gives_firstBinary_cons hneutral fun _ => ?_
    refine gives_firstBinary_cons hregroup fun _ => ?_
    refine gives_firstBinary_cons (gives_subConstant h hx hy) fun _ => ?_
    refine gives_firstBinary_cons (gives_subFromNeutral h hx hy) fun _ => ?_
    refine gives_firstBinary_cons (gives_regroupFromConstant h hx hy) fun _ => ?_
    exact gives_firstBinary_cons (gives_subNegated h hx hy) fun _ => gives_firstBinary_nil
  | mul =>
    refine gives_firstBinary_cons hfold fun _ => ?_
    refine gives_firstBinary_cons (gives_constantRight h hx hy hv rfl) fun _ => ?_
    refine gives_firstBinary_cons hneutral fun _ => ?_
    cases hv
    refine gives_firstBinary_cons (gives_mulPowerOfTwo h hx hy) fun _ => ?_
    exact gives_firstBinary_cons hregroup fun _ => gives_firstBinary_nil
  | div => exact absurd rfl hdiv
  | rem => exact absurd rfl hrem
  | and =>
    refine gives_firstBinary_cons hfold fun _ => ?_
    refine gives_firstBinary_cons (gives_idempotent h hx (.inl rfl) hv) fun _ => ?_
    refine gives_firstBinary_cons (gives_constantRight h hx hy hv rfl) fun _ => ?_
    refine gives_firstBinary_cons hneutral fun _ => ?_
    cases hv
    refine gives_firstBinary_cons (gives_andNothing h) fun hpass => ?_
    refine gives_firstBinary_cons (gives_andExtended h hx hpass) fun _ => ?_
    refine gives_firstBinary_cons (gives_andCovering h hx) fun _ => ?_
    exact gives_firstBinary_cons hregroup fun _ => gives_firstBinary_nil
  | or =>
    refine gives_firstBinary_cons hfold fun _ => ?_
    refine gives_firstBinary_cons (gives_idempotent h hx (.inr rfl) hv) fun _ => ?_
    refine gives_firstBinary_cons (gives_constantRight h hx hy hv rfl) fun _ => ?_
    refine gives_firstBinary_cons hneutral fun _ => ?_
    cases hv
    refine gives_firstBinary_cons (gives_orEverything h) fun _ => ?_
    exact gives_firstBinary_cons hregroup fun _ => gives_firstBinary_nil
  | xor =>
    refine gives_firstBinary_cons hfold fun _ => ?_
    refine gives_firstBinary_cons (by cases hv; exact gives_xorSelf h hx) fun _ => ?_
    refine gives_firstBinary_cons (gives_constantRight h hx hy hv rfl) fun _ => ?_
    refine gives_firstBinary_cons hneutral fun _ => ?_
    cases hv
    refine gives_firstBinary_cons (gives_xorEverything h hx) fun _ => ?_
    exact gives_firstBinary_cons hregroup fun _ => gives_firstBinary_nil

end Binary

/-! Operators with one operand. -/

section Unary

variable (h : Computing g ρ s) (hx : (g.stamp x).IsInteger s.bits)

include h hx

theorem gives_foldConstant {op : UnaryOp} {v : BitVec s.bits}
    (hv : op.onValue (Word.low s.bits (ρ x)) = some v) :
    Gives (·.Denotes g ρ v) (foldConstant op g (.int s) x) := by
  unfold foldConstant
  split
  · rename_i c hc
    obtain ⟨k, rfl, hk⟩ := h.constant hc hx
    obtain ⟨a, ha, hbits, _⟩ := hx.exists_int
    have hop : op ≠ .sqrt := by
      rintro rfl
      cases hv
    obtain ⟨b, hb, hwidth⟩ := op.exists_onStamp hop a
    obtain ⟨r, hr, hlow⟩ := UnaryOp.exists_onConstant h.pos h.le (h.isInteger_kind hk).1
      (h.fits hx) hv
    obtain ⟨t, ht, hvalue⟩ := Term.exists_primitive (g := g) (ρ := ρ) (hwidth.trans hbits) h.width
      hk r
    rw [ha, Result.bind_of_ok hb, Result.bind_of_ok hr]
    exact gives_build ht (hlow ▸ hvalue)
  · exact gives_pass

theorem gives_involution {op : UnaryOp} (hop : op = .neg ∨ op = .not) {v : BitVec s.bits}
    (hv : op.onValue (Word.low s.bits (ρ x)) = some v) :
    Gives (·.Denotes g ρ v) (involution op g (.int s) x) := by
  unfold involution
  split
  · rename_i a ha
    have hshape := Graph.shape?_of_unary? ha
    have hint := h.sorted.operand_of_arith hshape hx
    refine h.gives_node hint ?_
    rcases hop with rfl | rfl
    · obtain ⟨_, hvalue⟩ := h.arith1 hx hshape rfl
      cases hv
      rw [hvalue, BitVec.neg_neg]
    · obtain ⟨_, hvalue⟩ := h.arith1 hx hshape rfl
      cases hv
      rw [hvalue, BitVec.not_not]
  · exact gives_pass

theorem gives_negDifference :
    Gives (·.Denotes g ρ (-Word.low s.bits (ρ x))) (negDifference g (.int s) x) := by
  unfold negDifference
  split
  · rename_i a b hd
    obtain ⟨ha, hb, hvalue⟩ := h.arith hx (Graph.shape?_of_binary? hd) rfl
    refine h.gives_arith hb ha ?_
    rw [hvalue, neg_sub]
    rfl
  · exact gives_pass

theorem gives_absTwice :
    Gives (·.Denotes g ρ (Word.low s.bits (ρ x)).abs) (absTwice g (.int s) x) := by
  unfold absTwice
  split
  · rename_i a ha
    obtain ⟨_, hvalue⟩ := h.arith1 hx (Graph.shape?_of_unary? ha) rfl
    refine h.gives_node hx ?_
    rw [hvalue, Word.abs_abs]
  · exact gives_pass

theorem gives_unaryArith {op : UnaryOp} {v : BitVec s.bits}
    (hv : op.onValue (Word.low s.bits (ρ x)) = some v) :
    Gives (·.Denotes g ρ v) (unaryArith op g (.int s) x) := by
  cases op with
  | neg =>
    refine gives_firstUnary_cons (gives_foldConstant h hx hv) ?_
    refine gives_firstUnary_cons (gives_involution h hx (.inl rfl) hv) ?_
    cases hv
    exact gives_firstUnary_cons (gives_negDifference h hx) gives_firstUnary_nil
  | not =>
    refine gives_firstUnary_cons (gives_foldConstant h hx hv) ?_
    exact gives_firstUnary_cons (gives_involution h hx (.inr rfl) hv) gives_firstUnary_nil
  | abs =>
    refine gives_firstUnary_cons (gives_foldConstant h hx hv) ?_
    cases hv
    exact gives_firstUnary_cons (gives_absTwice h hx) gives_firstUnary_nil
  | sqrt => cases hv

end Unary

end Canonical

def Shape.isTotal : Shape → Bool
  | .unary (.arith op) _ => op ≠ .sqrt
  | .binary (.arith op) _ _ => op ≠ .div ∧ op ≠ .rem
  | _ => false

namespace FlowGraph

/-- Arithmetic always has a canonical form, itself if no rule applies, and that form has the value
which the operator computes, wrapped around at the width. -/
theorem canonical_arithmetic_exact (f : FlowGraph) {ρ : NodeId → Word} (hg : f.graph.WellSorted)
    (hρ : f.graph.Models ρ) (hknown : f.graph.Known ρ) {n : NodeId} {e : Shape}
    (hn : f.graph.shape? n = some e) (he : e.isTotal = true) {w : Nat} (hw : w = 32 ∨ w = 64)
    (hint : (f.graph.stamp n).IsInteger w) :
    ∃ o, f.canonical n = .ok (f, o) ∧ (o.getD (.node n)).eval ρ = some (ρ n) ∧
      f.graph.computed ρ n = some (ρ n) := by
  obtain ⟨s, hs, rfl, _⟩ := hint.exists_int
  have h : Canonical.Computing f.graph ρ s := ⟨hg, hρ, hknown, hw⟩
  unfold Shape.isTotal at he
  split at he
  · rename_i op x
    have hx := hg.operand_of_arith hn hint
    obtain ⟨v, hv⟩ := UnaryOp.exists_onValue (of_decide_eq_true he) (Word.low s.bits (ρ x))
    have hvalue := hρ.eq_of_unaryArith hn hint hv
    obtain ⟨o, ho, heval⟩ := f.exists_canonical_denoting (Graph.shape?_unary hn).1 (by rintro _ ⟨⟩)
      hvalue (by simpa only [reduce, hn, hs] using Canonical.gives_unaryArith h hx hv)
    refine ⟨o, ho, heval, ?_⟩
    simp only [Graph.computed, hn, hs, Unary.eval, hv, hvalue, Option.map_some]
  · rename_i op x y
    obtain ⟨hdiv, hrem⟩ := of_decide_eq_true he
    obtain ⟨hx, hy⟩ := hg.wellTyped.operands rfl hn hint
    obtain ⟨v, hv⟩ := BinaryOp.exists_onValues hdiv hrem (Word.low s.bits (ρ x))
      (Word.low s.bits (ρ y))
    have hvalue := hρ.eq_of_arith hn hint hv
    obtain ⟨o, ho, heval⟩ := f.exists_canonical_denoting (Graph.shape?_binary hn).1 (by rintro _ ⟨⟩)
      hvalue (by simpa only [reduce, hn, hs] using Canonical.gives_binaryArith h hx hy hdiv hrem hv)
    refine ⟨o, ho, heval, ?_⟩
    simp only [Graph.computed, hn, hs, Binary.eval, hv, hvalue, Option.map_some]
  · cases he

/-- A byte that is extended with its sign and then masked. -/
def lowByte : FlowGraph where
  graph := ⟨#[⟨{ op := .leaf (.parameter 0), stamp := .int (.full 8) }, [], .ofList [1], true⟩,
    ⟨{ op := .unary (.resize .signExtend 8 32), stamp := .int (.ofBounds 32 (-128) 127) },
      [some 0], .ofList [3], true⟩,
    ⟨{ op := .leaf (.constant (.ofInt32 255)), stamp := .int (.single 32 255) }, [], .ofList [3], true⟩,
    ⟨{ op := .binary (.arith .and), stamp := .int (.ofBounds 32 0 255) }, [some 1, some 2], {},
      true⟩], #[], []⟩
  control := []

def lowByteValues (i : NodeId) : Word := [-2, -2, 255, 254].getD i 0

theorem canonical_arithmetic_exact_lowByte :
    ∃ o, lowByte.canonical 3 = .ok (lowByte, o) ∧
      (o.getD (.node 3)).eval lowByteValues = some 254 := by
  obtain ⟨o, ho, hvalue, _⟩ := @canonical_arithmetic_exact lowByte lowByteValues (by decide)
    (by decide) (by decide) 3 (.binary (.arith .and) 1 2) rfl rfl 32 (.inl rfl) (by decide)
  exact ⟨o, ho, hvalue⟩

end FlowGraph

end CompilerKit
