import CompilerKit.Proofs.Word

/-! # Division of values

Quotients and remainders of values of a width, and how they are computed by shifts and masks if the
divisor is a power of two.
-/

namespace CompilerKit.Word

section Folding

variable {w : Nat} (h0 : 0 < w) (hw : w ≤ 64) {a b : Word}

include h0 hw

theorem low_sdiv (ha : Fits w a) (hb : Fits w b) :
    low w (a.sdiv b) = (low w a).sdiv (low w b) := by
  apply BitVec.eq_of_toInt_eq
  rw [toInt_low hw, BitVec.toInt_sdiv, BitVec.toInt_sdiv,
    Int.bmod_bmod_of_dvd (Nat.pow_dvd_pow 2 hw), toInt_low_of_fits h0 hw ha,
    toInt_low_of_fits h0 hw hb]

theorem low_srem (ha : Fits w a) (hb : Fits w b) :
    low w (a.srem b) = (low w a).srem (low w b) := by
  have hrem : ((low w a).srem (low w b)).toInt = a.toInt.tmod b.toInt := by
    rw [BitVec.toInt_srem, toInt_low_of_fits h0 hw ha, toInt_low_of_fits h0 hw hb]
  apply BitVec.eq_of_toInt_eq
  rw [toInt_low hw, BitVec.toInt_srem, ← hrem, bmod_of_range h0 (BitVec.le_toInt _) BitVec.toInt_lt]

end Folding

theorem zeroExtend_eq {w : Nat} (hw : w ≤ 64) (x : Word) :
    zeroExtend x w = (low w x).setWidth 64 := by
  apply BitVec.eq_of_getLsbD_eq
  intro i hi
  rw [BitVec.getLsbD_setWidth, getLsbD_low, decide_eq_true hi, Bool.true_and]
  unfold zeroExtend
  split
  · rename_i hlt
    rw [BitVec.getLsbD_and, BitVec.getLsbD_not, getLsbD_shl_allOnes hlt, decide_eq_true hi,
      Bool.true_and]
    rcases Nat.lt_or_ge i w with h | h
    · rw [decide_eq_true h, decide_eq_false (p := w ≤ i ∧ i < 64) (by omega), Bool.not_false,
        Bool.and_true, Bool.true_and]
    · rw [decide_eq_true (⟨h, hi⟩ : w ≤ i ∧ i < 64), decide_eq_false (by omega), Bool.not_true,
        Bool.and_false, Bool.false_and]
  · rw [decide_eq_true (by omega), Bool.true_and]

theorem zeroExtend_zero {w : Nat} (hw : w ≤ 64) : zeroExtend 0 w = 0 := by
  rw [zeroExtend_eq hw, low_zero]
  exact BitVec.setWidth_zero 64 w

theorem toNat_zeroExtend {w : Nat} (hw : w ≤ 64) (x : Word) :
    (zeroExtend x w).toNat = (low w x).toNat := by
  rw [zeroExtend_eq hw, BitVec.toNat_setWidth_of_le hw]

theorem low_zeroExtend {w : Nat} (hw : w ≤ 64) (x : Word) :
    low w (zeroExtend x w) = low w x := by
  rw [zeroExtend_eq hw, low, BitVec.setWidth_setWidth_of_le _ hw, BitVec.setWidth_eq]

theorem low_udiv_zeroExtend {w : Nat} (hw : w ≤ 64) (a b : Word) :
    low w ((zeroExtend a w).udiv (zeroExtend b w)) = (low w a).udiv (low w b) := by
  have hlt := Nat.lt_of_le_of_lt (Nat.div_le_self (low w a).toNat (low w b).toNat) (low w a).isLt
  apply BitVec.eq_of_toNat_eq
  rw [low, BitVec.toNat_setWidth, BitVec.udiv_eq, BitVec.toNat_udiv, toNat_zeroExtend hw,
    toNat_zeroExtend hw, Nat.mod_eq_of_lt hlt, BitVec.udiv_eq, BitVec.toNat_udiv]

theorem low_umod_zeroExtend {w : Nat} (hw : w ≤ 64) (a b : Word) :
    low w ((zeroExtend a w).umod (zeroExtend b w)) = (low w a).umod (low w b) := by
  have hlt := Nat.lt_of_le_of_lt (Nat.mod_le (low w a).toNat (low w b).toNat) (low w a).isLt
  apply BitVec.eq_of_toNat_eq
  rw [low, BitVec.toNat_setWidth, BitVec.umod_eq, BitVec.toNat_umod, toNat_zeroExtend hw,
    toNat_zeroExtend hw, Nat.mod_eq_of_lt hlt, BitVec.umod_eq, BitVec.toNat_umod]

theorem toNat_of_isPowerOfTwo {m : Word} (h : isPowerOfTwo m = true) : m.toNat = 2 ^ log2 m := by
  simp only [isPowerOfTwo, Bool.and_eq_true, beq_iff_eq] at h
  obtain ⟨hpos, hand⟩ := h
  have hm : m ≠ 0 := by
    rintro rfl
    exact absurd hpos (by decide)
  have hne : m.toNat ≠ 0 := fun hz => hm (BitVec.eq_of_toNat_eq hz)
  have hpred : (m - 1).toNat = m.toNat - 1 := by
    have := m.isLt
    bv_omega
  have hnat : m.toNat &&& m.toNat - 1 = 0 := by
    rw [← hpred, ← BitVec.toNat_and, hand]
    rfl
  obtain ⟨k, hk⟩ := (Nat.and_sub_one_eq_zero_iff_isPowerOfTwo hne).mp hnat
  have hlt : m.toNat.log2 < 64 := (Nat.log2_lt hne).mpr m.isLt
  rw [log2, leadingZeros, if_neg hm, hk, Nat.log2_two_pow] 
  rw [hk, Nat.log2_two_pow] at hlt
  congr 1
  omega

theorem toInt_of_isPowerOfTwo {m : Word} (h : isPowerOfTwo m = true) : m.toInt = 2 ^ log2 m := by
  have hpos : 0 < m.toInt := by
    simp only [isPowerOfTwo, Bool.and_eq_true] at h
    exact BitVec.slt_iff_toInt_lt.mp h.1
  rw [BitVec.toInt_eq_toNat_of_msb (msb_of_nonneg (by omega)), toNat_of_isPowerOfTwo h,
    Int.natCast_pow]
  rfl

theorem toInt_of_isPowerOfTwo_abs {c : Word} (h : isPowerOfTwo (abs c) = true) :
    c.toInt = if c.slt 0 then -2 ^ log2 (abs c) else 2 ^ log2 (abs c) := by
  have hpow := toInt_of_isPowerOfTwo h
  have hpos : (0 : Int) < 2 ^ log2 (abs c) := Int.pow_pos (by decide)
  split
  · rename_i hneg
    have hlt := (slt_zero_iff c).mp hneg
    have hle := BitVec.le_toInt c
    have habs : (abs c).toInt = (-c.toInt).bmod (2 ^ 64) := by
      rw [abs, if_pos hneg, BitVec.toInt_neg]
    rw [bmod_eq (w := 64) (by decide) (by omega) (by omega), if_neg (by omega)] at habs
    split at habs <;> omega
  · rename_i hneg
    rw [← hpow, abs, if_neg hneg]

theorem low_sub_one {w : Nat} (hw : w ≤ 64) (x : Word) : low w (x - 1) = low w x - 1 := by
  have hone : BitVec.setWidth w (1 : Word) = 1 := BitVec.setWidth_ofNat_of_le hw 1
  rw [low, low, BitVec.sub_eq_add_neg, BitVec.setWidth_add _ _ hw, BitVec.setWidth_neg_of_le hw,
    hone, ← BitVec.sub_eq_add_neg]

section Power

variable {w e : Nat} {x y : BitVec w}

theorem toInt_sshiftRight_of_nonneg (hx : 0 ≤ x.toInt) (e : Nat) :
    (x.sshiftRight e).toInt = x.toInt.tdiv (2 ^ e) := by
  rw [BitVec.toInt_sshiftRight, Int.shiftRight_eq_div_pow, Int.tdiv_eq_ediv_of_nonneg hx]
  norm_cast

/-- The quotient rounded towards zero is the one rounded down, of the dividend increased. -/
theorem tdiv_of_neg {n p : Int} (hn : n < 0) (hp : 0 < p) : n.tdiv p = (n + (p - 1)) / p := by
  have hdiv := Int.mul_ediv_add_emod (-n) p
  have hge := Int.emod_nonneg (-n) (by omega : p ≠ 0)
  have hlt := Int.emod_lt_of_pos (-n) hp
  have hneg : n.tdiv p = -(-n / p) := by
    rw [← Int.tdiv_eq_ediv_of_nonneg (by omega), Int.neg_tdiv, Int.neg_neg]
  have hunique := (Int.ediv_emod_unique (a := n + (p - 1)) (b := p) (q := -(-n / p))
    (r := p - 1 - -n % p) hp).mpr ⟨by rw [Int.mul_neg]; omega, by omega, by omega⟩
  rw [hneg, hunique.1]

theorem sign_of_nonneg (hx : 0 ≤ x.toInt) : x.sshiftRight (w - 1) = 0#w := by
  have hlt : x.toInt < 2 ^ (w - 1) := BitVec.toInt_lt
  apply BitVec.eq_of_toInt_eq
  rw [BitVec.toInt_sshiftRight, Int.shiftRight_eq_div_pow, Int.natCast_pow, BitVec.toInt_zero]
  exact Int.ediv_eq_zero_of_lt hx hlt

theorem toNat_sign_of_neg (hx : x.toInt < 0) : (x.sshiftRight (w - 1)).toNat = 2 ^ w - 1 := by
  have hle := BitVec.le_toInt x
  have hquotient := (Int.ediv_emod_unique (a := x.toInt) (b := 2 ^ (w - 1)) (q := -1)
    (r := x.toInt + 2 ^ (w - 1)) (by omega)).mpr ⟨by omega, by omega, by omega⟩
  have hsign : (x.sshiftRight (w - 1)).toInt = -1 := by
    rw [BitVec.toInt_sshiftRight, Int.shiftRight_eq_div_pow, Int.natCast_pow]
    exact hquotient.1
  have hcond := BitVec.toInt_eq_toNat_cond (x.sshiftRight (w - 1))
  have hlt := (x.sshiftRight (w - 1)).isLt
  have hcast : ((2 ^ w : Nat) : Int) = 2 ^ w := Int.natCast_pow 2 w
  rw [hsign] at hcond
  split at hcond <;> omega

theorem toNat_round (hx : x.toInt < 0) (he : e < w) :
    ((x.sshiftRight (w - 1)) >>> (w - e)).toNat = 2 ^ e - 1 := by
  have hsplit : 2 ^ w = 2 ^ e * 2 ^ (w - e) := by
    rw [← Nat.pow_add, Nat.add_sub_cancel' (Nat.le_of_lt he)]
  have hq := Nat.two_pow_pos (w - e)
  have hp := Nat.two_pow_pos e
  rw [BitVec.toNat_ushiftRight, toNat_sign_of_neg hx, Nat.shiftRight_eq_div_pow, hsplit]
  apply Nat.div_eq_of_lt_le
  · rw [Nat.sub_mul]
    omega
  · rw [Nat.sub_add_cancel hp]
    have := Nat.mul_pos hp hq
    omega

theorem toInt_sshiftRight_round (he : e < w) :
    ((x + (x.sshiftRight (w - 1)) >>> (w - e)).sshiftRight e).toInt = x.toInt.tdiv (2 ^ e) := by
  rcases Int.lt_or_le x.toInt 0 with hx | hx
  · -- The rounding term is less than the sign bit, so it cannot carry a negative dividend over.
    have hround := toNat_round hx he
    have hp := Nat.two_pow_pos e
    have hle : 2 ^ e ≤ 2 ^ (w - 1) := Nat.pow_le_pow_right (by decide) (by omega)
    have hw : 2 ^ w = 2 * 2 ^ (w - 1) := by
      rw [← Nat.pow_succ', Nat.succ_eq_add_one, Nat.sub_add_cancel (by omega)]
    have hcast : ((2 ^ e : Nat) : Int) = 2 ^ e := Int.natCast_pow 2 e
    have hcast' : ((2 ^ (w - 1) : Nat) : Int) = 2 ^ (w - 1) := Int.natCast_pow 2 (w - 1)
    have hroundInt : ((x.sshiftRight (w - 1)) >>> (w - e)).toInt = 2 ^ e - 1 := by
      rw [BitVec.toInt_eq_toNat_of_lt (by omega), hround]
      omega
    have hmin := BitVec.le_toInt x
    rw [BitVec.toInt_sshiftRight, Int.shiftRight_eq_div_pow, hcast, BitVec.toInt_add, hroundInt,
      bmod_of_range (by omega) (by omega) (by omega), tdiv_of_neg hx (by omega)]
  · rw [sign_of_nonneg hx, BitVec.zero_ushiftRight, BitVec.add_zero,
      toInt_sshiftRight_of_nonneg hx]

theorem sdiv_eq_of_toInt {q : BitVec w} (hy : y.toInt = 2 ^ e)
    (hq : q.toInt = x.toInt.tdiv (2 ^ e)) : x.sdiv y = q := by
  apply BitVec.eq_of_toInt_eq
  rw [BitVec.toInt_sdiv, hy, ← hq, BitVec.toInt_bmod_cancel]

theorem sdiv_eq_neg_of_toInt {q : BitVec w} (hy : y.toInt = -2 ^ e)
    (hq : q.toInt = x.toInt.tdiv (2 ^ e)) : x.sdiv y = -q := by
  apply BitVec.eq_of_toInt_eq
  rw [BitVec.toInt_sdiv, hy, Int.tdiv_neg, ← hq, BitVec.toInt_neg]

theorem ushiftRight_eq_udiv (hy : y.toNat = 2 ^ e) : x >>> e = x.udiv y := by
  apply BitVec.eq_of_toNat_eq
  rw [BitVec.toNat_ushiftRight, Nat.shiftRight_eq_div_pow, BitVec.udiv_eq, BitVec.toNat_udiv, hy]

theorem and_pred_eq_umod (hy : y.toNat = 2 ^ e) : x &&& (y - 1) = x.umod y := by
  have hp := Nat.two_pow_pos e
  have hlt := y.isLt
  have hone : (1 : BitVec w).toNat = 1 := by
    change (1#w).toNat = 1
    rw [BitVec.toNat_ofNat, Nat.mod_eq_of_lt (by omega)]
  have hpred : (y - 1).toNat = 2 ^ e - 1 := by
    rw [BitVec.toNat_sub_of_le (BitVec.le_def.mpr (by rw [hone]; omega)), hone, hy]
  apply BitVec.eq_of_toNat_eq
  rw [BitVec.toNat_and, hpred, Nat.and_two_pow_sub_one_eq_mod, BitVec.umod_eq, BitVec.toNat_umod,
    hy]

theorem and_pred_eq_srem (hx : 0 ≤ x.toInt) (hy : y.toInt = 2 ^ e) :
    x &&& (y - 1) = x.srem y := by
  have hpow : (0 : Int) < 2 ^ e := Int.pow_pos (by decide)
  have hmsb : y.msb = false := msb_of_nonneg (by omega)
  have hnat : y.toNat = 2 ^ e := by
    rw [BitVec.toInt_eq_toNat_of_msb hmsb] at hy
    exact_mod_cast hy
  rw [BitVec.srem_eq, msb_of_nonneg hx, hmsb]
  exact and_pred_eq_umod hnat

end Power

section Identities

variable {w : Nat} {x y : BitVec w}

theorem srem_eq_zero_of_unit (hy : y.toInt = 1 ∨ y.toInt = -1) : x.srem y = 0#w := by
  apply BitVec.eq_of_toInt_eq
  rw [BitVec.toInt_srem, BitVec.toInt_zero]
  rcases hy with h | h <;> rw [h]
  · exact Int.tmod_one x.toInt
  · rw [Int.tmod_neg, Int.tmod_one]

theorem tmod_between (a b : Int) : min a 0 ≤ a.tmod b ∧ a.tmod b ≤ max a 0 := by
  have habs := Int.natAbs_tmod a b
  have hle := Nat.mod_le a.natAbs b.natAbs
  have hneg := Int.neg_tmod a b
  have hpos := Int.tmod_nonneg (a := a) b
  have hpos' := Int.tmod_nonneg (a := -a) b
  omega

theorem natAbs_tmod_lt (a : Int) {b : Int} (hb : b ≠ 0) : (a.tmod b).natAbs < b.natAbs := by
  rw [Int.natAbs_tmod]
  exact Nat.mod_lt _ (by omega)

/-- What is left of a dividend without its remainder lies between it and zero. -/
theorem toInt_sub_srem (h0 : 0 < w) : (x - x.srem y).toInt = y.toInt * x.toInt.tdiv y.toInt := by
  have hle := BitVec.le_toInt x
  have hlt := BitVec.toInt_lt (x := x)
  have hrem := tmod_between x.toInt y.toInt
  have hdiv := Int.mul_tdiv_add_tmod x.toInt y.toInt
  rw [BitVec.toInt_sub, BitVec.toInt_srem, bmod_of_range h0 (by omega) (by omega)]
  omega

theorem sdiv_sub_srem (h0 : 0 < w) (hy : y ≠ 0) : (x - x.srem y).sdiv y = x.sdiv y := by
  have hne : y.toInt ≠ 0 := fun hz => hy (BitVec.eq_of_toInt_eq (hz.trans BitVec.toInt_zero.symm))
  apply BitVec.eq_of_toInt_eq
  rw [BitVec.toInt_sdiv, BitVec.toInt_sdiv, toInt_sub_srem h0, Int.mul_tdiv_cancel_left _ hne]

end Identities

end CompilerKit.Word
