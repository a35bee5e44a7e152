import CompilerKit.Word
import Mathlib

/-! # Words and the values they hold

A word holds a value of a width in its low bits. The masks and limits of a width are described by their
bits and by the integers they stand for, so that bounds can be left to integer arithmetic and masks to
single bits.
-/

namespace CompilerKit.Word

def low (w : Nat) (x : Word) : BitVec w := x.setWidth w

/-- The word that holds a value, sign extended. -/
def ofLow {w : Nat} (v : BitVec w) : Word := v.signExtend 64

/-- The word is the sign extension of its low bits. -/
def Fits (w : Nat) (x : Word) : Prop := -2 ^ (w - 1) ≤ x.toInt ∧ x.toInt < 2 ^ (w - 1)

@[simp] theorem getLsbD_low (w : Nat) (x : Word) (i : Nat) :
    (low w x).getLsbD i = (decide (i < w) && x.getLsbD i) := by
  rw [low, BitVec.getLsbD_setWidth]

theorem getLsbD_ofLow {w : Nat} (v : BitVec w) (i : Nat) :
    (ofLow v).getLsbD i = (decide (i < 64) && if i < w then v.getLsbD i else v.msb) := by
  rw [ofLow, BitVec.getLsbD_signExtend]

theorem getLsbD_ofLow_of_lt {w : Nat} (hw : w ≤ 64) (v : BitVec w) {i : Nat} (hi : i < w) :
    (ofLow v).getLsbD i = v.getLsbD i := by
  rw [getLsbD_ofLow, if_pos hi, decide_eq_true (by omega : i < 64), Bool.true_and]

theorem toInt_ofLow {w : Nat} (hw : w ≤ 64) (v : BitVec w) : (ofLow v).toInt = v.toInt :=
  BitVec.toInt_signExtend_of_le hw

theorem low_ofLow {w : Nat} (hw : w ≤ 64) (v : BitVec w) : low w (ofLow v) = v := by
  apply BitVec.eq_of_getLsbD_eq
  intro i hi
  rw [getLsbD_low, getLsbD_ofLow_of_lt hw v hi, decide_eq_true hi, Bool.true_and]

theorem ofLow_zero (w : Nat) : ofLow (0#w) = 0 := by
  apply BitVec.eq_of_getLsbD_eq
  intro i _
  rw [getLsbD_ofLow]
  simp

theorem low_zero (w : Nat) : low w 0 = 0#w := BitVec.setWidth_zero w 64

theorem fits_ofLow {w : Nat} (hw : w ≤ 64) (v : BitVec w) : Fits w (ofLow v) := by
  rw [Fits, toInt_ofLow hw]
  exact ⟨BitVec.le_toInt v, BitVec.toInt_lt⟩

theorem toInt_low {w : Nat} (hw : w ≤ 64) (x : Word) : (low w x).toInt = x.toInt.bmod (2 ^ w) := by
  rw [low, ← BitVec.signExtend_eq_setWidth_of_le x hw,
    BitVec.toInt_signExtend_eq_toInt_bmod_of_le x hw]

theorem zero_sle_iff (x : Word) : (0 : Word).sle x = true ↔ 0 ≤ x.toInt := BitVec.sle_iff_toInt_le

theorem slt_zero_eq_msb (x : Word) : x.slt 0 = x.msb := BitVec.slt_zero_eq_msb

theorem slt_zero_iff (x : Word) : x.slt 0 = true ↔ x.toInt < 0 := BitVec.slt_iff_toInt_lt

theorem msb_of_nonneg {w : Nat} {x : BitVec w} (h : 0 ≤ x.toInt) : x.msb = false := by
  rw [BitVec.msb_eq_toInt, decide_eq_false (by omega)]

theorem two_pow_pred {w : Nat} (h0 : 0 < w) : (2 : Int) ^ w = 2 * 2 ^ (w - 1) := by
  obtain ⟨n, rfl⟩ : ∃ n, w = n + 1 := ⟨w - 1, by omega⟩
  rw [Int.pow_succ, Int.mul_comm]
  rfl

theorem two_pow_pred_le {w : Nat} (hw : w ≤ 64) : (2 : Int) ^ (w - 1) ≤ 2 ^ 63 := by
  exact_mod_cast Nat.pow_le_pow_right (n := 2) (by decide) (by omega : w - 1 ≤ 63)

theorem bmod_of_range {w : Nat} (h0 : 0 < w) {z : Int} (hl : -2 ^ (w - 1) ≤ z)
    (hu : z < 2 ^ (w - 1)) : z.bmod (2 ^ w) = z := by
  have hp := two_pow_pred h0
  apply Int.bmod_eq_of_le <;> push_cast <;> omega

theorem bmod_eq {w : Nat} (h0 : 0 < w) {z : Int} (hl : -2 ^ w ≤ z) (hu : z < 2 ^ w) :
    z.bmod (2 ^ w) =
      if z < -2 ^ (w - 1) then z + 2 ^ w else if z < 2 ^ (w - 1) then z else z - 2 ^ w := by
  have hp := two_pow_pred h0
  have hcast : ((2 ^ w : Nat) : Int) = 2 ^ w := Int.natCast_pow 2 w
  split
  · rw [← Int.add_bmod_right, hcast, bmod_of_range h0 (by omega) (by omega)]
  · split
    · exact bmod_of_range h0 (by omega) (by omega)
    · rw [← Int.sub_bmod_right, hcast, bmod_of_range h0 (by omega) (by omega)]

theorem ofLow_low {w : Nat} (h0 : 0 < w) (hw : w ≤ 64) {x : Word} (h : Fits w x) :
    ofLow (low w x) = x := by
  apply BitVec.eq_of_toInt_eq
  rw [toInt_ofLow hw, toInt_low hw, bmod_of_range h0 h.1 h.2]

theorem toNat_mask {w : Nat} (hw : w ≤ 64) : (mask w).toNat = 2 ^ w - 1 := by
  unfold mask
  split
  · subst w
    rfl
  · have hlt : w < 64 := by omega
    have hpow : 2 ^ w < 2 ^ 64 := Nat.pow_lt_pow_right (by decide) hlt
    rw [shl, Nat.mod_eq_of_lt hlt, BitVec.toNat_sub, BitVec.toNat_shiftLeft]
    have h1 : (1 : Word).toNat = 1 := rfl
    have hpos : 0 < 2 ^ w := Nat.two_pow_pos w
    rw [h1, Nat.shiftLeft_eq, Nat.one_mul, Nat.mod_eq_of_lt hpow]
    omega

@[simp] theorem getLsbD_mask {w : Nat} (hw : w ≤ 64) (i : Nat) :
    (mask w).getLsbD i = decide (i < w) := by
  rw [← BitVec.testBit_toNat, toNat_mask hw, Nat.testBit_two_pow_sub_one]

theorem toNat_allOnes_shiftLeft {n : Nat} (hn : n < 64) :
    (BitVec.allOnes 64 <<< n).toNat = 2 ^ 64 - 2 ^ n := by
  have hpow : 2 ^ n < 2 ^ 64 := Nat.pow_lt_pow_right (by decide) hn
  have hpos : 0 < 2 ^ n := Nat.two_pow_pos n
  rw [BitVec.toNat_shiftLeft, BitVec.toNat_allOnes, Nat.shiftLeft_eq]
  have hsplit : (2 ^ 64 - 1) * 2 ^ n = (2 ^ 64 - 2 ^ n) + 2 ^ 64 * (2 ^ n - 1) := by
    rw [Nat.sub_mul, Nat.mul_sub]
    omega
  rw [hsplit, Nat.add_mul_mod_self_left, Nat.mod_eq_of_lt (by omega)]

theorem toInt_minValue {w : Nat} (hw : w ≤ 64) : (minValue w).toInt = -2 ^ (w - 1) := by
  have hlt : w - 1 < 64 := by omega
  have hle : 2 ^ (w - 1) ≤ 2 ^ 63 := Nat.pow_le_pow_right (by decide) (by omega)
  have hpos : 0 < 2 ^ (w - 1) := Nat.two_pow_pos _
  rw [minValue, shl, Nat.mod_eq_of_lt hlt, BitVec.toInt_eq_toNat_cond, toNat_allOnes_shiftLeft hlt,
    if_neg (by omega)]
  have hcast : ((2 ^ (w - 1) : Nat) : Int) = 2 ^ (w - 1) := Int.natCast_pow 2 (w - 1)
  omega

theorem toInt_maxValue {w : Nat} (hw : w ≤ 64) : (maxValue w).toInt = 2 ^ (w - 1) - 1 := by
  have hle : 2 ^ (w - 1) ≤ 2 ^ 63 := Nat.pow_le_pow_right (by decide) (by omega)
  have hpos : 0 < 2 ^ (w - 1) := Nat.two_pow_pos _
  rw [maxValue, BitVec.toInt_eq_toNat_cond, toNat_mask (by omega), if_pos (by omega)]
  have hcast : ((2 ^ (w - 1) : Nat) : Int) = 2 ^ (w - 1) := Int.natCast_pow 2 (w - 1)
  omega

theorem ushr_and_one (x : Word) {n : Nat} (hn : n < 64) :
    ushr x n &&& 1 = if x.getLsbD n then 1 else 0 := by
  apply BitVec.eq_of_getLsbD_eq
  intro i hi
  rw [ushr, Nat.mod_eq_of_lt hn, BitVec.getLsbD_and, BitVec.getLsbD_ushiftRight]
  cases i with
  | zero => cases x.getLsbD n <;> simp
  | succ i =>
    have h1 : (1 : Word).getLsbD (i + 1) = false := by simp
    rw [h1, Bool.and_false]
    split <;> simp

theorem ushr_and_one_eq_one (x : Word) {n : Nat} (hn : n < 64) :
    ushr x n &&& 1 = 1 ↔ x.getLsbD n = true := by
  rw [ushr_and_one x hn]
  split <;> simp_all

theorem ushr_and_one_eq_zero (x : Word) {n : Nat} (hn : n < 64) :
    ushr x n &&& 1 = 0 ↔ x.getLsbD n = false := by
  rw [ushr_and_one x hn]
  split <;> simp_all

theorem getLsbD_shl_allOnes {n : Nat} (hn : n < 64) (i : Nat) :
    (shl (BitVec.allOnes 64) n).getLsbD i = decide (n ≤ i ∧ i < 64) := by
  rw [shl, Nat.mod_eq_of_lt hn, BitVec.getLsbD_shiftLeft, BitVec.getLsbD_allOnes, Bool.eq_iff_iff]
  simp
  omega

theorem msb_low {w : Nat} (h0 : 0 < w) (x : Word) : (low w x).msb = x.getLsbD (w - 1) := by
  rw [BitVec.msb_eq_getLsbD_last, getLsbD_low, decide_eq_true (by omega), Bool.true_and]

theorem signExtend_eq {w : Nat} (h0 : 0 < w) (hw : w ≤ 64) (x : Word) :
    signExtend x w = ofLow (low w x) := by
  unfold signExtend
  apply BitVec.eq_of_getLsbD_eq
  intro i hi
  rw [getLsbD_ofLow, msb_low h0, getLsbD_low]
  split
  · rename_i hlt
    simp only [ushr_and_one_eq_one x (by omega : w - 1 < 64)]
    split
    · rename_i hx
      rw [BitVec.getLsbD_or, getLsbD_shl_allOnes hlt]
      by_cases hiw : i < w
      · simp [hiw, hi, show ¬w ≤ i by omega]
      · simp [hiw, hi, hx, show w ≤ i by omega]
    · rename_i hx
      rw [BitVec.getLsbD_and, BitVec.getLsbD_not, getLsbD_shl_allOnes hlt]
      by_cases hiw : i < w
      · simp [hiw, hi, show ¬w ≤ i by omega]
      · simp [hiw, hi, hx, show w ≤ i by omega]
  · obtain rfl : w = 64 := by omega
    simp [hi]

theorem narrow_eq {w : Nat} (h0 : 0 < w) (hw : w ≤ 64) (x : Word) :
    narrow x w = ofLow (low w x) := by
  rw [narrow, signExtend_eq h0 hw]
  congr 1
  apply BitVec.eq_of_getLsbD_eq
  intro i hi
  rw [getLsbD_low, getLsbD_low, BitVec.getLsbD_and, getLsbD_mask hw, decide_eq_true hi, Bool.and_true]

theorem getLsbD_ushr_allOnes {n : Nat} (hn : n < 64) (i : Nat) :
    (ushr (BitVec.allOnes 64) n).getLsbD i = decide (i + n < 64) := by
  rw [ushr, Nat.mod_eq_of_lt hn, BitVec.getLsbD_ushiftRight, BitVec.getLsbD_allOnes, Nat.add_comm]

theorem toNat_lt_leadingZeros (x : Word) : x.toNat < 2 ^ (64 - leadingZeros x) := by
  unfold leadingZeros
  split
  · subst x
    decide
  · rename_i hx
    have hne : x.toNat ≠ 0 := fun h => hx (BitVec.eq_of_toNat_eq h)
    have hlog : x.toNat.log2 < 64 := (Nat.log2_lt hne).mpr x.isLt
    rw [show 64 - (63 - x.toNat.log2) = x.toNat.log2 + 1 by omega]
    exact Nat.lt_log2_self

theorem leadingZeros_lt {x : Word} (hx : x ≠ 0) : leadingZeros x < 64 := by
  rw [leadingZeros, if_neg hx]
  omega

theorem add_leadingZeros_shl {d : Word} {z : Nat} (hd : d ≠ 0) (hz : d.toNat < 2 ^ (64 - z)) :
    z + leadingZeros (shl d z) = leadingZeros d := by
  have hne : d.toNat ≠ 0 := fun h => hd (BitVec.eq_of_toNat_eq h)
  have hz64 : z < 64 := by
    rcases Nat.lt_or_ge z 64 with h | h
    · exact h
    · rw [Nat.sub_eq_zero_of_le h] at hz
      omega
  have hlog : d.toNat.log2 < 64 - z := (Nat.log2_lt hne).mpr hz
  have hnat : (shl d z).toNat = d.toNat * 2 ^ z := by
    rw [shl, Nat.mod_eq_of_lt hz64, BitVec.toNat_shiftLeft, Nat.shiftLeft_eq, Nat.mod_eq_of_lt]
    calc d.toNat * 2 ^ z < 2 ^ (64 - z) * 2 ^ z := Nat.mul_lt_mul_of_pos_right hz (Nat.two_pow_pos z)
      _ = 2 ^ 64 := by rw [← Nat.pow_add, Nat.sub_add_cancel (by omega)]
  have hpos : 0 < d.toNat * 2 ^ z := Nat.mul_pos (by omega) (Nat.two_pow_pos z)
  have hshl : shl d z ≠ 0 := by
    intro h
    have h0 : (shl d z).toNat = 0 := congrArg BitVec.toNat h
    omega
  have hlog' : (d.toNat * 2 ^ z).log2 = d.toNat.log2 + z := by
    rw [Nat.log2_eq_iff (by omega), Nat.add_right_comm, Nat.pow_add, Nat.pow_add]
    exact ⟨Nat.mul_le_mul_right _ (Nat.log2_self_le hne),
      Nat.mul_lt_mul_of_pos_right Nat.lt_log2_self (Nat.two_pow_pos z)⟩
  rw [leadingZeros, if_neg hshl, leadingZeros, if_neg hd, hnat, hlog']
  omega

theorem testBit_of_between {a b c q i : Nat} (hab : a ≤ b) (hbc : b ≤ c) (hac : a ^^^ c < 2 ^ q)
    (hi : q ≤ i) : b.testBit i = c.testBit i := by
  have hshift : a / 2 ^ q = c / 2 ^ q := by
    rw [← Nat.shiftRight_eq_div_pow, ← Nat.shiftRight_eq_div_pow]
    apply Nat.eq_of_testBit_eq
    intro j
    have hle : 2 ^ q ≤ 2 ^ (q + j) := Nat.pow_le_pow_right (by decide) (Nat.le_add_right q j)
    have hj := Nat.testBit_lt_two_pow (Nat.lt_of_lt_of_le hac hle)
    rw [Nat.testBit_xor] at hj
    rw [Nat.testBit_shiftRight, Nat.testBit_shiftRight]
    simpa using hj
  have hb : b / 2 ^ q = c / 2 ^ q :=
    Nat.le_antisymm (Nat.div_le_div_right hbc) (hshift ▸ Nat.div_le_div_right hab)
  rw [show i = q + (i - q) by omega, ← Nat.testBit_shiftRight, ← Nat.testBit_shiftRight,
    Nat.shiftRight_eq_div_pow, Nat.shiftRight_eq_div_pow, hb]

theorem toNat_le_of_subset {w : Nat} {x y : BitVec w}
    (h : ∀ i < w, x.getLsbD i = true → y.getLsbD i = true) : x.toNat ≤ y.toNat := by
  have hand : x &&& y = x := by
    apply BitVec.eq_of_getLsbD_eq
    intro i hi
    rw [BitVec.getLsbD_and]
    cases hx : x.getLsbD i with
    | false => rfl
    | true => rw [h i hi hx, Bool.and_true]
  rw [← hand, BitVec.toNat_and]
  exact Nat.and_le_right

/-- Signed values are ordered by their bits below the sign, and against the sign. -/
theorem toInt_le_of_subset {w : Nat} {x y : BitVec w}
    (hlow : ∀ i < w - 1, x.getLsbD i = true → y.getLsbD i = true)
    (hmsb : y.msb = true → x.msb = true) : x.toInt ≤ y.toInt := by
  by_cases heq : x.msb = y.msb
  · have hle : x.toNat ≤ y.toNat := by
      apply toNat_le_of_subset
      intro i hi hb
      by_cases hlast : i < w - 1
      · exact hlow i hlast hb
      · obtain rfl : i = w - 1 := by omega
        rw [← BitVec.msb_eq_getLsbD_last] at hb ⊢
        rwa [← heq]
    rw [BitVec.toInt_eq_msb_cond, BitVec.toInt_eq_msb_cond, heq]
    split <;> omega
  · have hy : y.msb = false := by
      cases h : y.msb with
      | true => exact absurd ((hmsb h).trans h.symm) heq
      | false => rfl
    have hx : x.msb = true := by simpa [hy] using heq
    have := BitVec.toInt_neg_of_msb_true hx
    have := BitVec.toInt_nonneg_of_msb_false hy
    omega

theorem toInt_low_of_fits {w : Nat} (h0 : 0 < w) (hw : w ≤ 64) {x : Word} (h : Fits w x) :
    (low w x).toInt = x.toInt := by
  rw [toInt_low hw, bmod_of_range h0 h.1 h.2]

theorem toInt_signExtend_le {w : Nat} (h0 : 0 < w) (hw : w ≤ 64) {x v : Word} (hv : Fits w v)
    (hlow : ∀ i < w - 1, x.getLsbD i = true → v.getLsbD i = true)
    (hmsb : v.getLsbD (w - 1) = true → x.getLsbD (w - 1) = true) :
    (signExtend x w).toInt ≤ v.toInt := by
  rw [signExtend_eq h0 hw, toInt_ofLow hw, ← toInt_low_of_fits h0 hw hv]
  apply toInt_le_of_subset
  · intro i hi hb
    rw [getLsbD_low, decide_eq_true (by omega), Bool.true_and] at hb ⊢
    exact hlow i hi hb
  · rwa [msb_low h0, msb_low h0]

theorem le_toInt_signExtend {w : Nat} (h0 : 0 < w) (hw : w ≤ 64) {x v : Word} (hv : Fits w v)
    (hlow : ∀ i < w - 1, v.getLsbD i = true → x.getLsbD i = true)
    (hmsb : x.getLsbD (w - 1) = true → v.getLsbD (w - 1) = true) :
    v.toInt ≤ (signExtend x w).toInt := by
  rw [signExtend_eq h0 hw, toInt_ofLow hw, ← toInt_low_of_fits h0 hw hv]
  apply toInt_le_of_subset
  · intro i hi hb
    rw [getLsbD_low, decide_eq_true (by omega), Bool.true_and] at hb ⊢
    exact hlow i hi hb
  · rwa [msb_low h0, msb_low h0]

theorem getLsbD_maxValue {w : Nat} (hw : w ≤ 64) (i : Nat) :
    (maxValue w).getLsbD i = decide (i < w - 1) := getLsbD_mask (by omega) i

theorem toNat_le_of_sameSign {w : Nat} {x y : BitVec w} (h : x.toInt ≤ y.toInt)
    (hs : 0 ≤ x.toInt ∨ y.toInt < 0) : x.toNat ≤ y.toNat := by
  have hx := BitVec.toInt_eq_toNat_cond x
  have hy := BitVec.toInt_eq_toNat_cond y
  have := x.isLt
  have := y.isLt
  split at hx <;> split at hy <;> omega

theorem getLsbD_minValue {w : Nat} (hw : w ≤ 64) (i : Nat) :
    (minValue w).getLsbD i = decide (w - 1 ≤ i ∧ i < 64) := getLsbD_shl_allOnes (by omega) i

theorem signExtend_minValue_or {w : Nat} (h0 : 0 < w) (hw : w ≤ 64) (x : Word) :
    signExtend (minValue w ||| x) w = minValue w ||| x := by
  have hones : ∀ i, w - 1 ≤ i → i < 64 → (minValue w ||| x).getLsbD i = true := by
    intro i hi hi64
    rw [BitVec.getLsbD_or, getLsbD_minValue hw, decide_eq_true ⟨hi, hi64⟩, Bool.true_or]
  rw [signExtend_eq h0 hw]
  apply BitVec.eq_of_getLsbD_eq
  intro i hi
  rw [getLsbD_ofLow, msb_low h0, getLsbD_low, hones (w - 1) (by omega) (by omega),
    decide_eq_true hi, Bool.true_and]
  split
  · rename_i hiw
    rw [decide_eq_true hiw, Bool.true_and]
  · rw [hones i (by omega) hi]

section Signed

theorem toInt_smin (x y : Word) : (smin x y).toInt = min x.toInt y.toInt := by
  unfold smin
  simp only [BitVec.sle_iff_toInt_le]
  split <;> omega

theorem toInt_smax (x y : Word) : (smax x y).toInt = max x.toInt y.toInt := by
  unfold smax
  simp only [BitVec.sle_iff_toInt_le]
  split <;> omega

theorem toInt_not {w : Nat} (h0 : 0 < w) (x : BitVec w) : (~~~x).toInt = -x.toInt - 1 := by
  have hlt := x.isLt
  have hw : 2 ^ w = 2 * 2 ^ (w - 1) := by
    rw [← Nat.pow_succ', Nat.succ_eq_add_one, Nat.sub_add_cancel h0]
  rw [BitVec.toInt_eq_toNat_cond, BitVec.toInt_eq_toNat_cond, BitVec.toNat_not]
  split <;> split <;> omega

theorem toInt_neg_of_lt {x : Word} (h : -2 ^ 63 < x.toInt) : (-x).toInt = -x.toInt := by
  have hlt := BitVec.toInt_lt (x := x)
  rw [BitVec.toInt_neg, bmod_of_range (w := 64) (by decide) (by omega) (by omega)]

theorem toInt_abs {x : Word} (h : -2 ^ 63 < x.toInt) : (abs x).toInt = x.toInt.natAbs := by
  unfold abs
  simp only [slt_zero_iff]
  split
  · rw [toInt_neg_of_lt h]
    omega
  · omega

end Signed

/-- The distance a word asks for when a value of a width is shifted. -/
def distance (w : Nat) (k : Word) : Nat := (k.toInt % w).toNat

theorem distance_lt {w : Nat} (h0 : 0 < w) (k : Word) : distance w k < w := by
  have hlt := Int.emod_lt_of_pos k.toInt (by omega : (0 : Int) < w)
  have hge := Int.emod_nonneg k.toInt (by omega : (w : Int) ≠ 0)
  rw [distance]
  omega

theorem distance_ofLow {w : Nat} (hw : w ≤ 64) {n : Nat} (hn : n < w) :
    distance w (ofLow (low 32 (BitVec.ofInt 64 n))) = n := by
  have hword : (BitVec.ofInt 64 (n : Int)).toInt = n := by
    rw [BitVec.toInt_ofInt]
    exact bmod_of_range (w := 64) (by decide) (by omega) (by omega)
  rw [distance, toInt_ofLow (by decide), toInt_low (by decide), hword,
    bmod_of_range (w := 32) (by decide) (by omega) (by omega),
    Int.emod_eq_of_lt (by omega) (by omega), Int.toNat_natCast]

/-- The sum of two values of a width, wrapped around. -/
def sum (w : Nat) (x y : Word) : Word := ofLow (low w x + low w y)

/-- The difference of two values of a width, wrapped around. -/
def difference (w : Nat) (x y : Word) : Word := ofLow (low w x - low w y)

theorem sum_eq {w : Nat} (hw : w ≤ 64) (x y : Word) : sum w x y = ofLow (low w (x + y)) := by
  rw [sum, low, low, low, BitVec.setWidth_add x y hw]

theorem fits_sum {w : Nat} (hw : w ≤ 64) (x y : Word) : Fits w (sum w x y) := fits_ofLow hw _

theorem toInt_sum {w : Nat} (h0 : 0 < w) (hw : w ≤ 64) {x y : Word} (hx : Fits w x)
    (hy : Fits w y) : (sum w x y).toInt = (x.toInt + y.toInt).bmod (2 ^ w) := by
  rw [sum, toInt_ofLow hw, BitVec.toInt_add, toInt_low_of_fits h0 hw hx, toInt_low_of_fits h0 hw hy]

theorem getLsbD_sum {w : Nat} (hw : w ≤ 64) (x y : Word) {i : Nat} (hi : i < w) :
    (sum w x y).getLsbD i = (x + y).getLsbD i := by
  rw [sum_eq hw, getLsbD_ofLow_of_lt hw _ hi, getLsbD_low, decide_eq_true hi, Bool.true_and]

end CompilerKit.Word
