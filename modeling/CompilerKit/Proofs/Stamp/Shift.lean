import CompilerKit.Proofs.Stamp.Membership
import CompilerKit.Stamp.Integer.Transfer

/-! # Stamps of shifted values

A shift takes its amount modulo the width. Each shift's stamp holds the shifted value, whatever is known
of the amount: one value, some values of one block of the width's size, or nothing.
-/

namespace CompilerKit

namespace Word

theorem and_shiftMask {w : Nat} (hw : w = 32 ∨ w = 64) (k : Word) :
    (k &&& BitVec.ofNat 64 (w - 1)).toNat = distance w k := by
  have hk := BitVec.toInt_eq_toNat_cond k
  rw [distance]
  rcases hw with rfl | rfl
  · have hmod : (k &&& BitVec.ofNat 64 (32 - 1)).toNat = k.toNat % 2 ^ 5 := by
      rw [BitVec.toNat_and]
      exact Nat.and_two_pow_sub_one_eq_mod k.toNat 5
    split at hk <;> omega
  · have hmod : (k &&& BitVec.ofNat 64 (64 - 1)).toNat = k.toNat % 2 ^ 6 := by
      rw [BitVec.toNat_and]
      exact Nat.and_two_pow_sub_one_eq_mod k.toNat 6
    split at hk <;> omega

theorem getLsbD_shl (x : Word) {n : Nat} (hn : n < 64) (i : Nat) :
    (shl x n).getLsbD i = (decide (i < 64 ∧ n ≤ i) && x.getLsbD (i - n)) := by
  rw [shl, Nat.mod_eq_of_lt hn, BitVec.getLsbD_shiftLeft]
  by_cases h : i < n
  · simp [h, show ¬n ≤ i by omega]
  · simp [h, show n ≤ i by omega]

theorem getLsbD_ushr (x : Word) {n : Nat} (hn : n < 64) (i : Nat) :
    (ushr x n).getLsbD i = x.getLsbD (n + i) := by
  rw [ushr, Nat.mod_eq_of_lt hn, BitVec.getLsbD_ushiftRight]

theorem getLsbD_sar (x : Word) {n : Nat} (hn : n < 64) {i : Nat} (hi : i < 64) :
    (sar x n).getLsbD i = if n + i < 64 then x.getLsbD (n + i) else x.getLsbD 63 := by
  rw [sar, Nat.mod_eq_of_lt hn, BitVec.getLsbD_sshiftRight, BitVec.msb_eq_getLsbD_last]
  simp [show ¬64 ≤ i by omega]

theorem toInt_sar (x : Word) {n : Nat} (hn : n < 64) : (sar x n).toInt = x.toInt / 2 ^ n := by
  rw [sar, Nat.mod_eq_of_lt hn, BitVec.toInt_sshiftRight, Int.shiftRight_eq_div_pow]
  norm_cast

theorem sar_mono {x y : Word} (h : x.toInt ≤ y.toInt) {n : Nat} (hn : n < 64) :
    (sar x n).toInt ≤ (sar y n).toInt := by
  rw [toInt_sar x hn, toInt_sar y hn]
  exact Int.ediv_le_ediv (Int.pow_pos (by decide)) h

section Fitting

variable {w n : Nat} {v : Word}

theorem getLsbD_of_fits (h0 : 0 < w) (hw : w ≤ 64) (hv : Fits w v) {i : Nat} (hi : w - 1 ≤ i)
    (hi64 : i < 64) : v.getLsbD i = v.getLsbD (w - 1) := by
  by_cases hlast : i = w - 1
  · rw [hlast]
  · rw [← ofLow_low h0 hw hv, getLsbD_ofLow, if_neg (by omega), decide_eq_true hi64, Bool.true_and,
      msb_low h0, ofLow_low h0 hw hv]

theorem ofLow_sshiftRight (h0 : 0 < w) (hw : w ≤ 64) (hv : Fits w v) (hn : n < w) :
    ofLow ((low w v).sshiftRight n) = sar v n := by
  apply BitVec.eq_of_toInt_eq
  rw [toInt_ofLow hw, BitVec.toInt_sshiftRight, toInt_low_of_fits h0 hw hv,
    toInt_sar v (by omega), Int.shiftRight_eq_div_pow]
  norm_cast

theorem getLsbD_sar_of_fits (h0 : 0 < w) (hw : w ≤ 64) (hv : Fits w v) (hn : n < w) {i : Nat}
    (hi : i < w) : (sar v n).getLsbD i = v.getLsbD (min (n + i) (w - 1)) := by
  rw [getLsbD_sar v (by omega) (by omega)]
  by_cases h : n + i < w
  · rw [if_pos (by omega), Nat.min_eq_left (by omega)]
  · rw [Nat.min_eq_right (by omega)]
    split <;> exact getLsbD_of_fits h0 hw hv (by omega) (by omega)

theorem getLsbD_sar_shl (hw : w ≤ 64) (hn : n < w) (m : Word) {i : Nat} (hi : i < w) :
    (sar (shl m (64 - w)) (n + (64 - w))).getLsbD i = m.getLsbD (min (n + i) (w - 1)) := by
  rw [getLsbD_sar _ (by omega) (by omega), getLsbD_shl m (by omega), getLsbD_shl m (by omega)]
  by_cases h : n + i < w
  · rw [if_pos (by omega), Nat.min_eq_left (by omega), decide_eq_true (by omega), Bool.true_and]
    congr 1
    omega
  · rw [if_neg (by omega), Nat.min_eq_right (by omega), decide_eq_true (by omega), Bool.true_and]
    congr 1
    omega

theorem sshiftRight_eq_of_nonneg {m : Nat} {x : BitVec m} (h : 0 ≤ x.toInt) (n : Nat) :
    x.sshiftRight n = x >>> n :=
  BitVec.sshiftRight_eq_of_msb_false (msb_of_nonneg h)

theorem ushr_eq_sar {x : Word} (h : 0 ≤ x.toInt) (n : Nat) : ushr x n = sar x n :=
  (sshiftRight_eq_of_nonneg h (n % 64)).symm

theorem ofLow_ushiftRight_of_nonneg (h0 : 0 < w) (hw : w ≤ 64) (hv : Fits w v) (hn : n < w)
    (h : 0 ≤ v.toInt) : ofLow (low w v >>> n) = sar v n := by
  rw [← sshiftRight_eq_of_nonneg (by rwa [toInt_low_of_fits h0 hw hv]),
    ofLow_sshiftRight h0 hw hv hn]

theorem getLsbD_ofLow_ushiftRight (hw : w ≤ 64) (hn : 0 < n) (i : Nat) :
    (ofLow (low w v >>> n)).getLsbD i = (decide (n + i < w) && v.getLsbD (n + i)) := by
  rw [getLsbD_ofLow, BitVec.msb_eq_getLsbD_last, BitVec.getLsbD_ushiftRight,
    BitVec.getLsbD_ushiftRight, getLsbD_low, getLsbD_low]
  by_cases hi : i < w
  · simp [hi, show i < 64 by omega]
  · simp [hi, show ¬n + i < w by omega, show ¬n + (w - 1) < w by omega]

theorem toNat_sar_le {hi : Word} (hv : 0 ≤ v.toInt) (hle : v.toInt ≤ hi.toInt) (hn : n < 64) :
    (sar v n).toNat ≤ hi.toNat := by
  have hpow : (0 : Int) < 2 ^ n := Int.pow_pos (by decide)
  have hdiv := Int.ediv_nonneg hv (Int.le_of_lt hpow)
  have hself := Int.ediv_le_self (2 ^ n) hv
  rw [← toInt_sar v hn] at hdiv hself
  exact toNat_le_of_sameSign (by omega) (.inl hdiv)

theorem getLsbD_ofLow_shiftLeft (hw : w ≤ 64) {i : Nat} (hi : i < w) :
    (ofLow (low w v <<< n)).getLsbD i = (decide (n ≤ i) && v.getLsbD (i - n)) := by
  rw [getLsbD_ofLow_of_lt hw _ hi, BitVec.getLsbD_shiftLeft, getLsbD_low]
  by_cases h : i < n
  · simp [h, show ¬n ≤ i by omega]
  · simp [h, hi, show n ≤ i by omega, show i - n < w by omega]

theorem toNat_lt_of_and_shl_allOnes {m : Nat} (hm : m < 64)
    (h : v &&& shl (BitVec.allOnes 64) m = 0) : v.toNat < 2 ^ m := by
  apply Nat.lt_pow_two_of_testBit
  intro i hi
  rw [BitVec.testBit_toNat]
  by_cases hi64 : i < 64
  · have hbit := congrArg (fun x : Word => x.getLsbD i) h
    simp only [BitVec.getLsbD_and, getLsbD_shl_allOnes hm] at hbit
    simpa [hi, hi64] using hbit
  · exact BitVec.getLsbD_of_ge v i (by omega)

theorem toInt_shl_of_lt {m : Nat} (hm : m + n < 64) (h : v.toNat < 2 ^ m) :
    (shl v n).toInt = v.toInt * 2 ^ n := by
  have hlt : v.toNat * 2 ^ n < 2 ^ 63 :=
    calc v.toNat * 2 ^ n < 2 ^ m * 2 ^ n := Nat.mul_lt_mul_of_pos_right h (Nat.two_pow_pos n)
      _ = 2 ^ (m + n) := (Nat.pow_add 2 m n).symm
      _ ≤ 2 ^ 63 := Nat.pow_le_pow_right (by decide) (by omega)
  have hv : v.toNat < 2 ^ 63 := Nat.lt_of_le_of_lt (Nat.le_mul_of_pos_right _ (Nat.two_pow_pos n)) hlt
  have hnat : (shl v n).toNat = v.toNat * 2 ^ n := by
    rw [shl, Nat.mod_eq_of_lt (by omega), BitVec.toNat_shiftLeft, Nat.shiftLeft_eq,
      Nat.mod_eq_of_lt (by omega)]
  rw [BitVec.toInt_eq_toNat_of_lt (by omega), BitVec.toInt_eq_toNat_of_lt (by omega), hnat]
  norm_cast

theorem ofLow_shiftLeft_of_lt {m : Nat} (hm : m + n < w) (hw : w ≤ 64) (h : v.toNat < 2 ^ m) :
    ofLow (low w v <<< n) = shl v n := by
  apply BitVec.eq_of_getLsbD_eq
  intro i hi
  have hhigh : ∀ j, m ≤ j → v.getLsbD j = false := by
    intro j hj
    rw [← BitVec.testBit_toNat]
    exact Nat.testBit_lt_two_pow (Nat.lt_of_lt_of_le h (Nat.pow_le_pow_right (by decide) hj))
  rw [getLsbD_shl v (by omega)]
  by_cases hiw : i < w
  · rw [getLsbD_ofLow_shiftLeft hw hiw]
    simp [hi]
  · rw [getLsbD_ofLow, if_neg hiw, BitVec.msb_eq_getLsbD_last, BitVec.getLsbD_shiftLeft, getLsbD_low,
      hhigh (w - 1 - n) (by omega), hhigh (i - n) (by omega)]
    simp

end Fitting

end Word

namespace IntStamp

variable {s t : IntStamp} {v k : Word}

theorem eq_lo_of_contains (h : t.lo = t.hi) (hk : t.contains k = true) : k = t.lo := by
  rw [contains, Bool.and_eq_true, Bool.and_eq_true, Bool.and_eq_true, BitVec.sle_iff_toInt_le,
    BitVec.sle_iff_toInt_le, ← h] at hk
  exact BitVec.eq_of_toInt_eq (by omega)

theorem shiftAmount_eq (hw : s.bits = 32 ∨ s.bits = 64) (h : t.lo = t.hi)
    (hk : t.contains k = true) : s.shiftAmount t = Word.distance s.bits k := by
  rw [shiftAmount, shiftMask, Word.and_shiftMask hw, eq_lo_of_contains h hk]

/-- A value that has no bits above those of the bounds obeys their mask. -/
theorem getLsbD_upMaskFor {w : Nat} (hw : w ≤ 64) {lo hi r : Word}
    (h : lo.toInt < 0 ∨ r.toNat ≤ hi.toNat) {i : Nat} (hi' : i < w) (hr : r.getLsbD i = true) :
    (upMaskFor w lo hi).getLsbD i = true := by
  have hmask := Word.toNat_lt_leadingZeros (lo ||| hi)
  have hlo : lo.toNat ≤ (lo ||| hi).toNat := by
    rw [BitVec.toNat_or]
    exact Nat.left_le_or
  have hhi : hi.toNat ≤ (lo ||| hi).toNat := by
    rw [BitVec.toNat_or]
    exact Nat.right_le_or
  have hbit : 2 ^ i ≤ r.toNat := Nat.ge_two_pow_of_testBit (by rwa [BitVec.testBit_toNat])
  have hlt : i < 64 - Word.leadingZeros (lo ||| hi) := by
    rcases h with hneg | hle
    · have h63 : 2 ^ 63 ≤ lo.toNat := by
        have := BitVec.toInt_eq_toNat_cond lo
        split at this <;> omega
      have := (Nat.pow_lt_pow_iff_right (by decide)).mp
        (Nat.lt_of_le_of_lt (Nat.le_trans h63 hlo) hmask)
      omega
    · exact (Nat.pow_lt_pow_iff_right (by decide)).mp
        (Nat.lt_of_le_of_lt (Nat.le_trans hbit (Nat.le_trans hle hhi)) hmask)
  have hne : lo ||| hi ≠ 0 := by
    intro h0
    rw [h0] at hlt
    exact absurd hlt (by simp [Word.leadingZeros])
  rw [upMaskFor]
  simp only [if_neg hne]
  rw [BitVec.getLsbD_and, Word.getLsbD_mask hw, Word.getLsbD_ushr_allOnes (by omega),
    decide_eq_true hi', decide_eq_true (by omega)]
  rfl

theorem lt_of_upMaskFor {w : Nat} (hw : w ≤ 64) {lo hi : Word} {i : Nat}
    (h : (upMaskFor w lo hi).getLsbD i = true) : i < w := by
  simp only [upMaskFor] at h
  split at h
  · exact absurd h (by simp)
  · exact ((getLsbD_and_mask hw _ i).mp h).2

/-- A right shift by an unknown amount: it takes no value of the bounds' sign out of their mask. -/
theorem contains_ofMasks_upMaskFor {w : Nat} (h0 : 0 < w) (hw : w ≤ 64) {lo hi r : Word}
    (hr : Word.Fits w r) (h : lo.toInt < 0 ∨ r.toNat ≤ hi.toNat) :
    (ofMasks w 0 (upMaskFor w lo hi)).contains r = true :=
  contains_ofMasks h0 hw hr (fun i hb => absurd hb (by simp))
    (fun _ hi' hb => getLsbD_upMaskFor hw h hi' hb) (fun _ hb => lt_of_upMaskFor hw hb)

theorem contains_shr (hs : s.WellFormed) (hw : s.bits = 32 ∨ s.bits = 64)
    (hv : s.contains v = true) (hk : t.contains k = true) :
    (s.shr t).contains
      (Word.ofLow ((Word.low s.bits v).sshiftRight (Word.distance s.bits k))) = true := by
  have hfits := hs.fits_of_contains hv
  have hn := Word.distance_lt hs.bits_pos k
  have hle := hs.bits_le
  rw [Word.ofLow_sshiftRight hs.bits_pos hle hfits hn]
  obtain ⟨⟨hlo, hhi⟩, hdown, _⟩ := (contains_iff hs.bits_le v).mp hv
  unfold shr
  split
  · rename_i heq
    simp only [shiftAmount_eq hw heq hk]
    split
    · rename_i hz
      rw [hz]
      simpa [Word.sar] using hv
    · apply contains_mk_masked hle (Word.sar_mono hlo (by omega)) (Word.sar_mono hhi (by omega))
      · intro i hi hb
        rw [Word.getLsbD_sar_shl hle hn s.down hi] at hb
        rw [Word.getLsbD_sar_of_fits hs.bits_pos hle hfits hn hi]
        exact hdown _ hb
      · intro i hi hb
        rw [Word.getLsbD_sar_of_fits hs.bits_pos hle hfits hn hi] at hb
        rw [Word.getLsbD_sar_shl hle hn s.up hi]
        exact hs.getLsbD_up hv (by omega) hb
  · refine contains_ofMasks_upMaskFor hs.bits_pos hle ?_ ?_
    · rw [← Word.ofLow_sshiftRight hs.bits_pos hle hfits hn]
      exact Word.fits_ofLow hle _
    · by_cases hneg : s.lo.toInt < 0
      · exact .inl hneg
      · exact .inr (Word.toNat_sar_le (by omega) hhi (by omega))

section LogicalShift

variable {n : Nat} (hs : s.WellFormed) (hv : s.contains v = true) (h0 : 0 < n) (hn : n < s.bits)

include hs hv h0 hn

theorem getLsbD_of_ushr_down {i : Nat} (hb : (Word.ushr s.down n).getLsbD i = true) :
    (Word.ofLow (Word.low s.bits v >>> n)).getLsbD i = true := by
  have hle := hs.bits_le
  rw [Word.getLsbD_ushr s.down (by omega)] at hb
  rw [Word.getLsbD_ofLow_ushiftRight hle h0, decide_eq_true (hs.lt_of_down hb),
    hs.getLsbD_of_down hv hb]
  rfl

theorem getLsbD_ushr_up {i : Nat}
    (hb : (Word.ofLow (Word.low s.bits v >>> n)).getLsbD i = true) :
    (Word.ushr s.up n).getLsbD i = true := by
  have hle := hs.bits_le
  rw [Word.getLsbD_ofLow_ushiftRight hle h0, Bool.and_eq_true, decide_eq_true_eq] at hb
  rw [Word.getLsbD_ushr s.up (by omega)]
  exact hs.getLsbD_up hv hb.1 hb.2

theorem contains_ushr_masks {lo hi : Word}
    (hlo : lo.toInt ≤ (Word.ofLow (Word.low s.bits v >>> n)).toInt)
    (hhi : (Word.ofLow (Word.low s.bits v >>> n)).toInt ≤ hi.toInt) :
    contains ⟨s.bits, lo, hi, Word.ushr s.down n, Word.ushr s.up n⟩
      (Word.ofLow (Word.low s.bits v >>> n)) = true := by
  refine contains_mk hs.bits_le hlo hhi (fun i => getLsbD_of_ushr_down hs hv h0 hn)
    (fun i _ => getLsbD_ushr_up hs hv h0 hn) ?_
  intro i hb
  have hle := hs.bits_le
  rw [Word.getLsbD_ushr s.up (by omega)] at hb
  have := hs.lt_of_up hb
  omega

theorem toInt_ushr_down_le :
    (Word.ushr s.down n).toInt ≤ (Word.ofLow (Word.low s.bits v >>> n)).toInt := by
  have hle := hs.bits_le
  apply Word.toInt_le_of_subset (fun i _ => getLsbD_of_ushr_down hs hv h0 hn)
  intro hb
  rw [BitVec.msb_eq_getLsbD_last, Word.getLsbD_ofLow_ushiftRight hle h0,
    decide_eq_false (by omega)] at hb
  exact absurd hb (by simp)

theorem le_toInt_ushr_up :
    (Word.ofLow (Word.low s.bits v >>> n)).toInt ≤ (Word.ushr s.up n).toInt := by
  have hle := hs.bits_le
  apply Word.toInt_le_of_subset (fun i _ => getLsbD_ushr_up hs hv h0 hn)
  intro hb
  rw [BitVec.msb_eq_getLsbD_last, Word.getLsbD_ushr s.up (by omega)] at hb
  have := hs.lt_of_up hb
  omega

end LogicalShift

theorem contains_ushr (hs : s.WellFormed) (hw : s.bits = 32 ∨ s.bits = 64)
    (hv : s.contains v = true) (hk : t.contains k = true) :
    (s.ushr t).contains
      (Word.ofLow (Word.low s.bits v >>> Word.distance s.bits k)) = true := by
  have hfits := hs.fits_of_contains hv
  have hn := Word.distance_lt hs.bits_pos k
  have hle := hs.bits_le
  obtain ⟨⟨hlo, hhi⟩, _, _⟩ := (contains_iff hs.bits_le v).mp hv
  unfold ushr
  split
  · rename_i heq
    simp only [shiftAmount_eq hw heq hk]
    split
    · rename_i hz
      rwa [hz, BitVec.ushiftRight_zero, Word.ofLow_low hs.bits_pos hle hfits]
    · rename_i hz
      have h0 : 0 < Word.distance s.bits k := Nat.pos_of_ne_zero hz
      split
      · exact contains_ushr_masks hs hv h0 hn (toInt_ushr_down_le hs hv h0 hn)
          (le_toInt_ushr_up hs hv h0 hn)
      · rename_i hneg
        rw [Word.slt_zero_iff] at hneg
        apply contains_ushr_masks hs hv h0 hn
        · rw [Word.ofLow_ushiftRight_of_nonneg hs.bits_pos hle hfits hn (by omega),
            Word.ushr_eq_sar (by omega)]
          exact Word.sar_mono hlo (by omega)
        · rw [Word.ofLow_ushiftRight_of_nonneg hs.bits_pos hle hfits hn (by omega),
            Word.ushr_eq_sar (by omega)]
          exact Word.sar_mono hhi (by omega)
  · refine contains_ofMasks_upMaskFor hs.bits_pos hle (Word.fits_ofLow hle _) ?_
    by_cases hneg : s.lo.toInt < 0
    · exact .inl hneg
    · right
      rw [Word.ofLow_ushiftRight_of_nonneg hs.bits_pos hle hfits hn (by omega)]
      exact Word.toNat_sar_le (by omega) hhi (by omega)

theorem mem_amounts (hk : t.contains k = true) : k ∈ t.amounts := by
  have hbounds := hk
  rw [contains, Bool.and_eq_true, Bool.and_eq_true, Bool.and_eq_true, BitVec.sle_iff_toInt_le,
    BitVec.sle_iff_toInt_le] at hbounds
  obtain ⟨⟨⟨hlo, hhi⟩, _⟩, _⟩ := hbounds
  rw [amounts, List.mem_filter]
  refine ⟨List.mem_map.mpr ⟨(k.toInt - t.lo.toInt).toNat, List.mem_range.mpr (by omega), ?_⟩, hk⟩
  apply BitVec.eq_of_toNat_eq
  rw [BitVec.toNat_add, BitVec.toNat_ofNat]
  have hk := BitVec.toInt_eq_toNat_cond k
  have hl := BitVec.toInt_eq_toNat_cond t.lo
  have := k.isLt
  have := t.lo.isLt
  split at hk <;> split at hl <;> omega

def shlStep (s : IntStamp) (masks : Word × Word) (i : Word) : Word × Word :=
  let n := (i &&& BitVec.ofNat 64 s.shiftMask).toNat
  (masks.1 &&& Word.shl s.down n, masks.2 ||| Word.shl s.up n)

theorem foldl_shlStep_loosens (ks : List Word) (masks : Word × Word) (i : Nat) :
    ((ks.foldl s.shlStep masks).1.getLsbD i = true → masks.1.getLsbD i = true) ∧
      (masks.2.getLsbD i = true → (ks.foldl s.shlStep masks).2.getLsbD i = true) := by
  induction ks generalizing masks with
  | nil => exact ⟨id, id⟩
  | cons k ks ih =>
    obtain ⟨hdown, hup⟩ := ih (s.shlStep masks k)
    rw [List.foldl_cons]
    constructor
    · intro h
      have hbit := hdown h
      rw [shlStep, BitVec.getLsbD_and, Bool.and_eq_true] at hbit
      exact hbit.1
    · intro h
      apply hup
      rw [shlStep, BitVec.getLsbD_or, h, Bool.true_or]

theorem foldl_shlStep_covers {ks : List Word} (hk : k ∈ ks) (masks : Word × Word) (i : Nat) :
    ((ks.foldl s.shlStep masks).1.getLsbD i = true →
        (Word.shl s.down (k &&& BitVec.ofNat 64 s.shiftMask).toNat).getLsbD i = true) ∧
      ((Word.shl s.up (k &&& BitVec.ofNat 64 s.shiftMask).toNat).getLsbD i = true →
        (ks.foldl s.shlStep masks).2.getLsbD i = true) := by
  induction ks generalizing masks with
  | nil => cases hk
  | cons k' ks ih =>
    rw [List.foldl_cons]
    rcases List.mem_cons.mp hk with rfl | hk
    · obtain ⟨hdown, hup⟩ := foldl_shlStep_loosens (s := s) ks (s.shlStep masks k) i
      constructor
      · intro h
        have hbit := hdown h
        rw [shlStep, BitVec.getLsbD_and, Bool.and_eq_true] at hbit
        exact hbit.2
      · intro h
        apply hup
        rw [shlStep, BitVec.getLsbD_or, h, Bool.or_true]
    · exact ih hk (s.shlStep masks k')

section LeftShift

variable (hs : s.WellFormed) (hv : s.contains v = true)

include hs hv

theorem eq_zero_of_up (h : s.up = 0) : v = 0 := by
  rw [← Word.ofLow_low hs.bits_pos hs.bits_le (hs.fits_of_contains hv)]
  have hlow : Word.low s.bits v = 0#s.bits := by
    apply BitVec.eq_of_getLsbD_eq
    intro i hi
    rw [Word.getLsbD_low, BitVec.getLsbD_zero, decide_eq_true hi, Bool.true_and]
    cases hb : v.getLsbD i with
    | false => rfl
    | true =>
      have hup := hs.getLsbD_up hv hi hb
      rw [h] at hup
      exact absurd hup (by simp)
  rw [hlow, Word.ofLow_zero]

theorem contains_shl_exact {n : Nat} (hn : n < s.bits)
    (hlo : s.lo &&& Word.shl (BitVec.allOnes 64) (s.bits - n - 1) = 0)
    (hhi : s.hi &&& Word.shl (BitVec.allOnes 64) (s.bits - n - 1) = 0) :
    contains ⟨s.bits, Word.shl s.lo n, Word.shl s.hi n, Word.shl s.down n, Word.shl s.up n⟩
      (Word.ofLow (Word.low s.bits v <<< n)) = true := by
  have hle := hs.bits_le
  obtain ⟨⟨hl, hu⟩, hdown, _⟩ := (contains_iff hs.bits_le v).mp hv
  have hlolt := Word.toNat_lt_of_and_shl_allOnes (by omega) hlo
  have hhilt := Word.toNat_lt_of_and_shl_allOnes (by omega) hhi
  have hpow : 2 ^ (s.bits - n - 1) ≤ 2 ^ 63 := Nat.pow_le_pow_right (by decide) (by omega)
  have hlo0 : 0 ≤ s.lo.toInt := by
    rw [BitVec.toInt_eq_toNat_of_lt (by omega)]
    omega
  have hvlt : v.toNat < 2 ^ (s.bits - n - 1) :=
    Nat.lt_of_le_of_lt (Word.toNat_le_of_sameSign hu (.inl (by omega))) hhilt
  rw [Word.ofLow_shiftLeft_of_lt (by omega) hle hvlt, contains_mk_iff hle]
  refine ⟨⟨?_, ?_⟩, ?_, ?_⟩
  · rw [Word.toInt_shl_of_lt (by omega) hlolt, Word.toInt_shl_of_lt (by omega) hvlt]
    exact Int.mul_le_mul_of_nonneg_right hl (Int.le_of_lt (Int.pow_pos (by decide)))
  · rw [Word.toInt_shl_of_lt (by omega) hhilt, Word.toInt_shl_of_lt (by omega) hvlt]
    exact Int.mul_le_mul_of_nonneg_right hu (Int.le_of_lt (Int.pow_pos (by decide)))
  · intro i hb
    rw [Word.getLsbD_shl _ (by omega), Bool.and_eq_true] at hb ⊢
    exact ⟨hb.1, hdown _ hb.2⟩
  · intro i hb
    rw [Word.getLsbD_shl _ (by omega), Bool.and_eq_true, decide_eq_true_eq] at hb
    obtain ⟨⟨hi64, hni⟩, hb⟩ := hb
    have hbit : 2 ^ (i - n) < 2 ^ (s.bits - n - 1) :=
      Nat.lt_of_le_of_lt (Nat.ge_two_pow_of_testBit (by rwa [BitVec.testBit_toNat])) hvlt
    have hlt : i - n < s.bits - n - 1 := (Nat.pow_lt_pow_iff_right (by decide)).mp hbit
    rw [Word.getLsbD_shl _ (by omega), hs.getLsbD_up hv (by omega) hb,
      decide_eq_true (⟨hi64, hni⟩ : i < 64 ∧ n ≤ i), decide_eq_true (by omega)]
    rfl

theorem contains_shl_gathered (hw : s.bits = 32 ∨ s.bits = 64) (hk : t.contains k = true) :
    (ofMasks s.bits (t.amounts.foldl s.shlStep (Word.mask s.bits, 0)).1
        ((t.amounts.foldl s.shlStep (Word.mask s.bits, 0)).2 &&& Word.mask s.bits)).contains
      (Word.ofLow (Word.low s.bits v <<< Word.distance s.bits k)) = true := by
  have hle := hs.bits_le
  have hn := Word.distance_lt hs.bits_pos k
  have hcovers := foldl_shlStep_covers (s := s) (mem_amounts hk) (Word.mask s.bits, 0)
  rw [shiftMask, Word.and_shiftMask hw] at hcovers
  refine contains_ofMasks hs.bits_pos hle (Word.fits_ofLow hle _) ?_ ?_ ?_
  · intro i hb
    have hmask := (foldl_shlStep_loosens _ _ i).1 hb
    rw [Word.getLsbD_mask hle, decide_eq_true_eq] at hmask
    have hdown := (hcovers i).1 hb
    rw [Word.getLsbD_shl _ (by omega), Bool.and_eq_true, decide_eq_true_eq] at hdown
    rw [Word.getLsbD_ofLow_shiftLeft hle hmask, decide_eq_true hdown.1.2,
      hs.getLsbD_of_down hv hdown.2]
    rfl
  · intro i hi hb
    rw [Word.getLsbD_ofLow_shiftLeft hle hi, Bool.and_eq_true, decide_eq_true_eq] at hb
    rw [getLsbD_and_mask hle]
    refine ⟨(hcovers i).2 ?_, hi⟩
    rw [Word.getLsbD_shl _ (by omega), hs.getLsbD_up hv (by omega) hb.2,
      decide_eq_true (⟨by omega, hb.1⟩ : i < 64 ∧ Word.distance s.bits k ≤ i)]
    rfl
  · intro i hb
    exact ((getLsbD_and_mask hle _ i).mp hb).2

end LeftShift

theorem contains_shl (hs : s.WellFormed) (hw : s.bits = 32 ∨ s.bits = 64)
    (hv : s.contains v = true) (hk : t.contains k = true) :
    (s.shl t).contains
      (Word.ofLow (Word.low s.bits v <<< Word.distance s.bits k)) = true := by
  have hle := hs.bits_le
  have hfits := hs.fits_of_contains hv
  unfold shl
  split
  · rename_i hup
    obtain rfl := eq_zero_of_up hs hv hup
    rwa [Word.low_zero, BitVec.zero_shiftLeft, Word.ofLow_zero]
  · simp only [Bool.and_eq_true, decide_eq_true_eq]
    split
    · rename_i h
      have hz : Word.distance s.bits k = 0 := shiftAmount_eq hw h.1 hk ▸ h.2
      rwa [hz, BitVec.shiftLeft_zero, Word.ofLow_low hs.bits_pos hle hfits]
    · split
      · rename_i h
        obtain ⟨⟨heq, hlo⟩, hhi⟩ := h
        rw [shiftAmount_eq hw heq hk] at hlo hhi ⊢
        exact contains_shl_exact hs hv (Word.distance_lt hs.bits_pos k) hlo hhi
      · split
        · exact contains_shl_gathered hs hv hw hk
        · exact contains_full hle (Word.fits_ofLow hle _)

/-- The stamps of the three shifts hold the shifted values, whatever the amount: it may be negative or
exceed the width. -/
theorem contains_shifted (hs : s.WellFormed) (hw : s.bits = 32 ∨ s.bits = 64)
    (hv : s.contains v = true) (hk : t.contains k = true) :
    (s.shl t).contains
        (Word.ofLow (Word.low s.bits v <<< Word.distance s.bits k)) = true ∧
      (s.shr t).contains
        (Word.ofLow ((Word.low s.bits v).sshiftRight (Word.distance s.bits k))) = true ∧
      (s.ushr t).contains
        (Word.ofLow (Word.low s.bits v >>> Word.distance s.bits k)) = true :=
  ⟨contains_shl hs hw hv hk, contains_shr hs hw hv hk, contains_ushr hs hw hv hk⟩

/-- Seven below zero, shifted by some amount between minus thirty-five and minus thirty-three. -/
theorem contains_shifted_negative :
    (shl ⟨32, -8, 5, 0, 0xffffffff⟩ ⟨32, -35, -33, 0, 0xffffffff⟩).contains 0x40000000 = true ∧
      (shr ⟨32, -8, 5, 0, 0xffffffff⟩ ⟨32, -35, -33, 0, 0xffffffff⟩).contains (-1) = true ∧
      (ushr ⟨32, -8, 5, 0, 0xffffffff⟩ ⟨32, -35, -33, 0, 0xffffffff⟩).contains 3 = true :=
  contains_shifted (s := ⟨32, -8, 5, 0, 0xffffffff⟩) (t := ⟨32, -35, -33, 0, 0xffffffff⟩)
    (v := -7) (k := -34) (by decide) (.inl rfl) (by decide) (by decide)

end IntStamp

end CompilerKit
