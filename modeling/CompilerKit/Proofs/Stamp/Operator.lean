import CompilerKit.Proofs.Division
import CompilerKit.Proofs.Stamp.Shift
import CompilerKit.Proofs.Stamp.Sum

/-! # Stamps of operators

Negation, complement, absolute value, products, remainders, the bitwise operators and extensions. Their
stamps take bounds from bounds or masks from masks and complete the one by the other, so nothing has to
be assumed of how tight bounds and masks are.
-/

namespace CompilerKit

namespace Word

theorem ofLow_not {w : Nat} (h0 : 0 < w) (hw : w ≤ 64) {x : Word} (h : Fits w x) :
    ofLow (~~~low w x) = ~~~x := by
  apply BitVec.eq_of_toInt_eq
  rw [toInt_ofLow hw, toInt_not h0, toInt_low_of_fits h0 hw h, toInt_not (by decide)]

theorem getLsbD_zeroExtend {w : Nat} (hw : w ≤ 64) (x : Word) (i : Nat) :
    (zeroExtend x w).getLsbD i = (decide (i < w) && x.getLsbD i) := by
  rw [zeroExtend_eq hw, BitVec.getLsbD_setWidth, getLsbD_low]
  by_cases hi : i < w
  · simp [hi, show i < 64 by omega]
  · simp [hi]

theorem toInt_zeroExtend {w : Nat} (hw : w < 64) (x : Word) :
    (zeroExtend x w).toInt = (low w x).toNat := by
  have hlt := (low w x).isLt
  have hpow : 2 ^ w ≤ 2 ^ 63 := Nat.pow_le_pow_right (by decide) (by omega)
  have hnat := toNat_zeroExtend (Nat.le_of_lt hw) x
  rw [BitVec.toInt_eq_toNat_of_lt (by omega), hnat]

theorem toInt_zeroExtend_mono {w : Nat} (h0 : 0 < w) (hw : w < 64) {x y : Word} (hx : Fits w x)
    (hy : Fits w y) (h : x.toInt ≤ y.toInt) (hs : 0 ≤ x.toInt ∨ y.toInt < 0) :
    (zeroExtend x w).toInt ≤ (zeroExtend y w).toInt := by
  rw [← toInt_low_of_fits h0 (by omega) hx, ← toInt_low_of_fits h0 (by omega) hy] at h
  rw [← toInt_low_of_fits h0 (by omega) hx, ← toInt_low_of_fits h0 (by omega) hy] at hs
  rw [toInt_zeroExtend hw, toInt_zeroExtend hw]
  exact_mod_cast toNat_le_of_sameSign h hs

theorem ofLow_setWidth {w n : Nat} (hn : w < n) (hw : n ≤ 64) (x : Word) :
    ofLow ((low w x).setWidth n) = zeroExtend x w := by
  apply BitVec.eq_of_getLsbD_eq
  intro i hi
  rw [getLsbD_zeroExtend (by omega), getLsbD_ofLow, BitVec.msb_setWidth, BitVec.getLsbD_setWidth,
    getLsbD_low]
  by_cases hin : i < n
  · simp [hin, hi]
  · simp [hin, show ¬i < w by omega, show ¬n - 1 < w by omega]

theorem ofLow_signExtend {w n : Nat} (h0 : 0 < w) (hn : w ≤ n) (hw : n ≤ 64) {x : Word}
    (h : Fits w x) : ofLow ((low w x).signExtend n) = x := by
  apply BitVec.eq_of_toInt_eq
  rw [toInt_ofLow hw, BitVec.toInt_signExtend_of_le hn, toInt_low_of_fits h0 (by omega) h]

theorem getLsbD_signExtend {w : Nat} (h0 : 0 < w) (hw : w ≤ 64) (x : Word) {i : Nat} (hi : i < 64) :
    (signExtend x w).getLsbD i = x.getLsbD (min i (w - 1)) := by
  rw [signExtend_eq h0 hw, getLsbD_ofLow, msb_low h0, getLsbD_low]
  by_cases hiw : i < w
  · simp [hiw, hi, Nat.min_eq_left (show i ≤ w - 1 by omega)]
  · simp [hiw, hi, Nat.min_eq_right (show w - 1 ≤ i by omega)]

end Word

namespace IntStamp

section Unary

variable {s : IntStamp} {v : Word} (hs : s.WellFormed) (hv : s.contains v = true)

include hs hv

theorem contains_not : s.not.contains (Word.ofLow (~~~Word.low s.bits v)) = true := by
  obtain ⟨⟨hlo, hhi⟩, _, _⟩ := (contains_iff hs.bits_le v).mp hv
  have hle := hs.bits_le
  rw [Word.ofLow_not hs.bits_pos hs.bits_le (hs.fits_of_contains hv)]
  apply contains_mk_masked hs.bits_le
  · rw [Word.toInt_not (by decide), Word.toInt_not (by decide)]
    omega
  · rw [Word.toInt_not (by decide), Word.toInt_not (by decide)]
    omega
  · intro i hi hb
    rw [BitVec.getLsbD_not, decide_eq_true (by omega), Bool.true_and, Bool.not_eq_true'] at hb ⊢
    rw [← Bool.not_eq_true] at hb ⊢
    exact fun h => hb (hs.getLsbD_up hv hi h)
  · intro i hi hb
    rw [BitVec.getLsbD_not, decide_eq_true (by omega), Bool.true_and, Bool.not_eq_true'] at hb ⊢
    rw [← Bool.not_eq_true] at hb ⊢
    exact fun h => hb (hs.getLsbD_of_down hv h)

theorem contains_abs : s.abs.contains (Word.ofLow (Word.low s.bits v).abs) = true := by
  obtain ⟨⟨hlo, hhi⟩, _, _⟩ := (contains_iff hs.bits_le v).mp hv
  unfold abs
  split
  · exact contains_full hs.bits_le (Word.fits_ofLow hs.bits_le _)
  · rename_i hmin
    obtain ⟨hneg, _, _⟩ := toInt_neg_of_between hs hmin (Int.le_refl _) (Int.le_trans hlo hhi)
    obtain ⟨_, hlt, _⟩ := toInt_neg_of_between hs hmin hlo hhi
    have hfits := Word.toInt_low_of_fits hs.bits_pos hs.bits_le (hs.fits_of_contains hv)
    have hne : Word.low s.bits v ≠ BitVec.intMin s.bits := by
      intro h
      rw [h, BitVec.toInt_intMin_of_pos hs.bits_pos] at hfits
      omega
    have habs : (Word.ofLow (Word.low s.bits v).abs).toInt = v.toInt.natAbs := by
      rw [Word.toInt_ofLow hs.bits_le, BitVec.toInt_abs_eq_natAbs_of_ne_intMin hne, hfits]
    apply contains_ofBounds hs.bits_le
    · rw [habs]
      exact Int.natCast_nonneg _
    · rw [habs, Word.toInt_smax, hneg]
      omega

theorem contains_zeroExtend {n : Nat} (hn : s.bits < n) (hw : n ≤ 64) :
    (s.zeroExtend s.bits n).contains (Word.ofLow ((Word.low s.bits v).setWidth n)) = true := by
  obtain ⟨⟨hlo, hhi⟩, hdown, _⟩ := (contains_iff hs.bits_le v).mp hv
  have hfits := Word.fits_ofLow hw ((Word.low s.bits v).setWidth n)
  rw [Word.ofLow_setWidth hn hw] at hfits ⊢
  have hdown : ∀ i, (Word.zeroExtend s.down s.bits).getLsbD i = true →
      (Word.zeroExtend v s.bits).getLsbD i = true := by
    intro i
    simp only [Word.getLsbD_zeroExtend hs.bits_le, Bool.and_eq_true]
    exact fun h => ⟨h.1, hdown i h.2⟩
  have hup : ∀ i < n, (Word.zeroExtend v s.bits).getLsbD i = true →
      (Word.zeroExtend s.up s.bits).getLsbD i = true := by
    intro i _
    simp only [Word.getLsbD_zeroExtend hs.bits_le, Bool.and_eq_true, decide_eq_true_eq]
    exact fun h => ⟨h.1, hs.getLsbD_up hv h.1 h.2⟩
  have hin : ∀ i, (Word.zeroExtend s.up s.bits).getLsbD i = true → i < n := by
    intro i
    simp only [Word.getLsbD_zeroExtend hs.bits_le, Bool.and_eq_true, decide_eq_true_eq]
    omega
  unfold zeroExtend
  simp only [Bool.and_eq_true, Word.slt_zero_iff, Word.zero_sle_iff]
  split
  · exact contains_ofMasks (by omega) hw hfits hdown hup hin
  · -- The bounds have one sign, and so has every value: their order is that of their low bits.
    rename_i hsign
    obtain ⟨hlofits, hhifits⟩ := hs.fits_bounds hv
    have hvfits := hs.fits_of_contains hv
    apply contains_mk hw _ _ hdown hup hin
    · exact Word.toInt_zeroExtend_mono hs.bits_pos (by omega) hlofits hvfits hlo (by omega)
    · exact Word.toInt_zeroExtend_mono hs.bits_pos (by omega) hvfits hhifits hhi (by omega)

theorem contains_signExtend {n : Nat} (hn : s.bits < n) (hw : n ≤ 64) :
    (s.signExtend s.bits n).contains (Word.ofLow ((Word.low s.bits v).signExtend n)) = true := by
  obtain ⟨⟨hlo, hhi⟩, _, _⟩ := (contains_iff hs.bits_le v).mp hv
  have h0 := hs.bits_pos
  have hle := hs.bits_le
  have hfits := hs.fits_of_contains hv
  have hself : Word.signExtend v s.bits = v := by
    rw [Word.signExtend_eq h0 hle, Word.ofLow_low h0 hle hfits]
  rw [Word.ofLow_signExtend h0 (by omega) hw hfits]
  apply contains_mk_masked hw hlo hhi
  · intro i hi hb
    rw [← hself, Word.getLsbD_signExtend h0 hle _ (by omega)]
    rw [Word.getLsbD_signExtend h0 hle _ (by omega)] at hb
    exact hs.getLsbD_of_down hv hb
  · intro i hi hb
    rw [← hself, Word.getLsbD_signExtend h0 hle _ (by omega)] at hb
    rw [Word.getLsbD_signExtend h0 hle _ (by omega)]
    exact hs.getLsbD_up hv (by omega) hb

end Unary

namespace Summands

variable {a b : IntStamp} {v u : Word}

theorem masks_inside (h : Summands a b v u) {i : Nat} (hi : i < a.bits) :
    ((a.down.getLsbD i = true → v.getLsbD i = true) ∧
        (v.getLsbD i = true → a.up.getLsbD i = true)) ∧
      (b.down.getLsbD i = true → u.getLsbD i = true) ∧
        (u.getLsbD i = true → b.up.getLsbD i = true) :=
  ⟨⟨h.left.getLsbD_of_down h.left_contains, h.left.getLsbD_up h.left_contains hi⟩,
    h.right.getLsbD_of_down h.right_contains,
    h.right.getLsbD_up h.right_contains (h.bits_eq ▸ hi)⟩

theorem masks_outside (h : Summands a b v u) {i : Nat} (hi : a.bits ≤ i) :
    (a.down.getLsbD i = false ∧ a.up.getLsbD i = false) ∧
      b.down.getLsbD i = false ∧ b.up.getLsbD i = false :=
  ⟨h.left.masks_outside hi, h.right.masks_outside (h.bits_eq ▸ hi)⟩

theorem contains_mul (h : Summands a b v u) :
    (a.mul b).contains (Word.ofLow (Word.low a.bits v * Word.low a.bits u)) = true := by
  unfold mul
  split
  · rename_i hup
    obtain rfl := eq_zero_of_up h.left h.left_contains hup
    rw [Word.low_zero, BitVec.zero_mul, Word.ofLow_zero]
    exact h.left_contains
  · split
    · rename_i hup
      obtain rfl := eq_zero_of_up h.right h.right_contains hup
      rw [Word.low_zero, BitVec.mul_zero, Word.ofLow_zero]
      exact h.right_contains
    · exact contains_full h.left.bits_le (Word.fits_ofLow h.left.bits_le _)

theorem contains_and (h : Summands a b v u) :
    (a.and b).contains (Word.ofLow (Word.low a.bits v &&& Word.low a.bits u)) = true := by
  apply contains_ofMasks_ofLow h.left.bits_pos h.left.bits_le
  · intro i hi
    have hmasks := h.masks_inside hi
    simp only [BitVec.getLsbD_and, Word.getLsbD_low, decide_eq_true hi, Bool.true_and]
    grind
  · intro i hi
    simp [h.masks_outside hi]

theorem contains_or (h : Summands a b v u) :
    (a.or b).contains (Word.ofLow (Word.low a.bits v ||| Word.low a.bits u)) = true := by
  apply contains_ofMasks_ofLow h.left.bits_pos h.left.bits_le
  · intro i hi
    have hmasks := h.masks_inside hi
    simp only [BitVec.getLsbD_or, Word.getLsbD_low, decide_eq_true hi, Bool.true_and]
    grind
  · intro i hi
    simp [h.masks_outside hi]

theorem contains_xor (h : Summands a b v u) :
    (a.xor b).contains (Word.ofLow (Word.low a.bits v ^^^ Word.low a.bits u)) = true := by
  apply contains_ofMasks_ofLow h.left.bits_pos h.left.bits_le
  · intro i hi
    have hi64 : i < 64 := Nat.lt_of_lt_of_le hi h.left.bits_le
    have hv := h.left.getLsbD_of_known h.left_contains hi
    have hu := h.right.getLsbD_of_known h.right_contains (i := i) (h.bits_eq ▸ hi)
    simp only [BitVec.getLsbD_and, BitVec.getLsbD_or, BitVec.getLsbD_xor, BitVec.getLsbD_not,
      Word.getLsbD_low, decide_eq_true hi, decide_eq_true hi64, Bool.true_and]
    by_cases hknown : a.down.getLsbD i = a.up.getLsbD i ∧ b.down.getLsbD i = b.up.getLsbD i
    · simp [hv hknown.1, hu hknown.2, hknown]
    · grind
  · intro i hi
    simp [h.masks_outside hi]

end Summands

section Remainder

/-- The greatest distance of a divisor from zero, less one. -/
def remLimit (b : IntStamp) : Word :=
  if b.lo = Word.minValue b.bits then Word.maxValue b.bits
  else Word.smax (Word.abs b.lo) (Word.abs b.hi) - 1

theorem natAbs_le_remLimit {b : IntStamp} {u : Word} (hb : b.WellFormed)
    (hu : b.contains u = true) : (u.toInt.natAbs : Int) ≤ b.remLimit.toInt + 1 := by
  obtain ⟨⟨hlo, hhi⟩, _, _⟩ := (contains_iff hb.bits_le u).mp hu
  unfold remLimit
  split
  · obtain ⟨hmin, hmax⟩ := hb.fits_of_contains hu
    rw [Word.toInt_maxValue hb.bits_le]
    omega
  · rename_i hmin
    obtain ⟨_, hlt, _⟩ := toInt_neg_of_between hb hmin (Int.le_refl _) (Int.le_trans hlo hhi)
    have hpow := Word.two_pow_pred_le hb.bits_le
    have hmax : (Word.smax (Word.abs b.lo) (Word.abs b.hi)).toInt =
        max (b.lo.toInt.natAbs : Int) b.hi.toInt.natAbs := by
      rw [Word.toInt_smax, Word.toInt_abs (by omega), Word.toInt_abs (by omega)]
    have hone : (1 : Word).toInt = 1 := rfl
    have hhi' := BitVec.toInt_lt (x := b.hi)
    rw [BitVec.toInt_sub, hmax, hone, Word.bmod_of_range (w := 64) (by decide) (by omega) (by omega)]
    omega

theorem Summands.contains_rem {a b : IntStamp} {v u : Word} (h : Summands a b v u) (h0 : u ≠ 0) :
    (a.rem b).contains (Word.ofLow ((Word.low a.bits v).srem (Word.low a.bits u))) = true := by
  have hw := h.left.bits_le
  have hne : u.toInt ≠ 0 := fun hz => h0 (BitVec.eq_of_toInt_eq hz)
  have hvalue : (Word.ofLow ((Word.low a.bits v).srem (Word.low a.bits u))).toInt =
      v.toInt.tmod u.toInt := by
    rw [Word.toInt_ofLow hw, BitVec.toInt_srem,
      Word.toInt_low_of_fits h.left.bits_pos hw (h.left.fits_of_contains h.left_contains),
      Word.toInt_low_of_fits h.left.bits_pos hw h.right_fits]
  obtain ⟨⟨hlo, hhi⟩, _, _⟩ := (contains_iff hw v).mp h.left_contains
  obtain ⟨hmin, hmax⟩ := Word.tmod_between v.toInt u.toInt
  have hrem := Word.natAbs_tmod_lt v.toInt hne
  have hlimit := natAbs_le_remLimit h.right h.right_contains
  have hneg : (-b.remLimit).toInt = -b.remLimit.toInt := Word.toInt_neg_of_lt (by omega)
  have hzero : (0 : Word).toInt = 0 := rfl
  apply contains_ofBounds hw
  · rw [hvalue, Word.toInt_smax, Word.toInt_smin, ← remLimit, hneg, hzero]
    omega
  · rw [hvalue, Word.toInt_smin, Word.toInt_smax, ← remLimit, hzero]
    omega

end Remainder

/-- Each stamp holds what its operator computes from values of the operands' stamps. -/
theorem contains_computed {a b : IntStamp} {v u : Word} (ha : a.WellFormed) (hb : b.WellFormed)
    (hbits : a.bits = b.bits) (hv : a.contains v = true) (hu : b.contains u = true) :
    (a.neg.contains (Word.ofLow (-Word.low a.bits v)) = true ∧
      a.not.contains (Word.ofLow (~~~Word.low a.bits v)) = true ∧
      a.abs.contains (Word.ofLow (Word.low a.bits v).abs) = true) ∧
    ((a.mul b).contains (Word.ofLow (Word.low a.bits v * Word.low a.bits u)) = true ∧
      (a.and b).contains (Word.ofLow (Word.low a.bits v &&& Word.low a.bits u)) = true ∧
      (a.or b).contains (Word.ofLow (Word.low a.bits v ||| Word.low a.bits u)) = true ∧
      (a.xor b).contains (Word.ofLow (Word.low a.bits v ^^^ Word.low a.bits u)) = true ∧
      (u ≠ 0 → (a.rem b).contains
        (Word.ofLow ((Word.low a.bits v).srem (Word.low a.bits u))) = true)) ∧
    ∀ n, a.bits < n → n ≤ 64 →
      (a.zeroExtend a.bits n).contains (Word.ofLow ((Word.low a.bits v).setWidth n)) = true ∧
      (a.signExtend a.bits n).contains (Word.ofLow ((Word.low a.bits v).signExtend n)) = true := by
  have h : Summands a b v u := ⟨ha, hb, hbits.symm, hv, hu⟩
  refine ⟨⟨contains_neg ha hv, contains_not ha hv, contains_abs ha hv⟩, ?_, ?_⟩
  · exact ⟨h.contains_mul, h.contains_and, h.contains_or, h.contains_xor, h.contains_rem⟩
  · intro n hn hw
    exact ⟨contains_zeroExtend ha hv hn hw, contains_signExtend ha hv hn hw⟩

/-- A byte below zero whose stamp has loose bounds, and an odd byte. -/
theorem contains_computed_loose_bytes :
    (WellFormed ⟨8, -128, 4, 0, 0x83⟩ ∧ contains ⟨8, -128, 4, 0, 0x83⟩ (-125) = true) ∧
      (WellFormed ⟨8, -3, 9, 1, 0xff⟩ ∧ contains ⟨8, -3, 9, 1, 0xff⟩ (-3) = true) ∧
      (neg ⟨8, -128, 4, 0, 0x83⟩).contains 125 = true ∧
      (not ⟨8, -128, 4, 0, 0x83⟩).contains 124 = true ∧
      (abs ⟨8, -128, 4, 0, 0x83⟩).contains 125 = true ∧
      (mul ⟨8, -128, 4, 0, 0x83⟩ ⟨8, -3, 9, 1, 0xff⟩).contains 119 = true ∧
      (and ⟨8, -128, 4, 0, 0x83⟩ ⟨8, -3, 9, 1, 0xff⟩).contains (-127) = true ∧
      (or ⟨8, -128, 4, 0, 0x83⟩ ⟨8, -3, 9, 1, 0xff⟩).contains (-1) = true ∧
      (xor ⟨8, -128, 4, 0, 0x83⟩ ⟨8, -3, 9, 1, 0xff⟩).contains 126 = true ∧
      (rem ⟨8, -128, 4, 0, 0x83⟩ ⟨8, -3, 9, 1, 0xff⟩).contains (-2) = true ∧
      (zeroExtend 8 32 ⟨8, -128, 4, 0, 0x83⟩).contains 131 = true ∧
      (signExtend 8 32 ⟨8, -128, 4, 0, 0x83⟩).contains (-125) = true := by
  have ha : WellFormed ⟨8, -128, 4, 0, 0x83⟩ := by decide
  have hb : WellFormed ⟨8, -3, 9, 1, 0xff⟩ := by decide
  have hv : contains ⟨8, -128, 4, 0, 0x83⟩ (-125) = true := by decide
  have hu : contains ⟨8, -3, 9, 1, 0xff⟩ (-3) = true := by decide
  obtain ⟨⟨hneg, hnot, habs⟩, ⟨hmul, hand, hor, hxor, hrem⟩, hextend⟩ :=
    contains_computed ha hb rfl hv hu
  obtain ⟨hzero, hsign⟩ := hextend 32 (by decide) (by decide)
  exact ⟨⟨ha, hv⟩, ⟨hb, hu⟩, hneg, hnot, habs, hmul, hand, hor, hxor, hrem (by decide), hzero, hsign⟩

end IntStamp

end CompilerKit
