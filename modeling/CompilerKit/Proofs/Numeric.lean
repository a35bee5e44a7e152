import CompilerKit.Proofs.Word

/-! # What fits into a field

The tests for ranges say what their names promise, and a number that passes is read back from the low bits
that a field has room for.
-/

namespace CompilerKit.Numeric

variable {w n : Nat}

theorem bitLength_le_iff (x : BitVec w) : bitLength x ≤ n ↔ x.toNat < 2 ^ n := by
  unfold bitLength
  split
  case isTrue hx =>
    subst hx
    simp
  case isFalse hx =>
    have hne : x.toNat ≠ 0 := fun h => hx (BitVec.eq_of_toNat_eq h)
    rw [Nat.succ_le_iff, Nat.log2_lt hne]

theorem fitsUnsigned_iff (x : BitVec w) : fitsUnsigned n x = true ↔ x.toNat < 2 ^ n := by
  rw [fitsUnsigned, decide_eq_true_iff, Nat.cast_le, bitLength_le_iff]

theorem toNat_bit (hn : n < w) : ((1 <<< n : Nat) : BitVec w).toNat = 2 ^ n := by
  rw [BitVec.natCast_eq_ofNat, BitVec.toNat_ofNat, Nat.shiftLeft_eq, Nat.one_mul,
    Nat.mod_eq_of_lt (Nat.pow_lt_pow_right (by decide) hn)]

theorem toNat_bit_sub_one (hn : n < w) : (((1 <<< n : Nat) : BitVec w) - 1).toNat = 2 ^ n - 1 := by
  have hone : (1 : BitVec w).toNat = 1 := BitVec.toNat_one (by omega)
  have hle : (1 : BitVec w) ≤ ((1 <<< n : Nat) : BitVec w) := by
    rw [BitVec.le_def, hone, toNat_bit hn]
    exact Nat.two_pow_pos n
  rw [BitVec.toNat_sub_of_le hle, hone, toNat_bit hn]

theorem fitsSigned_iff (h0 : 0 < n) (hn : n ≤ w) (x : BitVec w) :
    fitsSigned n x = true ↔ -2 ^ (n - 1) ≤ x.toInt ∧ x.toInt < 2 ^ (n - 1) := by
  have hshift : (((n : Int) - 1) % w).toNat = n - 1 := by
    rw [Int.emod_eq_of_lt (by omega) (by omega)]
    omega
  have hlt : n - 1 < w := by omega
  have hpos : 0 < 2 ^ (n - 1) := Nat.two_pow_pos _
  have hdouble : 2 * 2 ^ (n - 1) ≤ 2 ^ w := by
    rw [← Nat.pow_succ', Nat.succ_eq_add_one, Nat.sub_add_cancel h0]
    exact Nat.pow_le_pow_right (by decide) hn
  have hlow : (-((1 <<< (n - 1) : Nat) : BitVec w)).toInt = -2 ^ (n - 1) := by
    rw [BitVec.toInt_eq_toNat_cond, BitVec.toNat_neg, toNat_bit hlt, Nat.mod_eq_of_lt (by omega),
      if_neg (by omega), Nat.cast_sub (by omega)]
    push_cast
    ring
  have hhigh : (((1 <<< (n - 1) : Nat) : BitVec w) - 1).toInt = 2 ^ (n - 1) - 1 := by
    have hnat := toNat_bit_sub_one hlt
    rw [BitVec.toInt_eq_toNat_of_lt (by omega), hnat, Nat.cast_sub hpos]
    push_cast
    rfl
  simp only [fitsSigned, hshift, Bool.and_eq_true, BitVec.sle_iff_toInt_le, hlow, hhigh, Int.le_sub_one_iff]

theorem setWidth_of_fitsUnsigned {x : BitVec w} (hx : fitsUnsigned n x = true) :
    (x.setWidth n).setWidth w = x := by
  rw [fitsUnsigned_iff] at hx
  apply BitVec.eq_of_toNat_eq
  rw [BitVec.toNat_setWidth, BitVec.toNat_setWidth, Nat.mod_eq_of_lt hx, Nat.mod_eq_of_lt x.isLt]

theorem toInt_setWidth_of_fitsSigned (h0 : 0 < n) (hn : n ≤ w) {x : BitVec w} (hx : fitsSigned n x = true) :
    (x.setWidth n).toInt = x.toInt := by
  obtain ⟨hl, hu⟩ := (fitsSigned_iff h0 hn x).mp hx
  rw [← BitVec.signExtend_eq_setWidth_of_le x hn, BitVec.toInt_signExtend_eq_toInt_bmod_of_le x hn,
    Word.bmod_of_range h0 hl hu]

theorem and_lowBits (hn : n < w) (x : BitVec w) : x &&& lowBits w n = (x.setWidth n).setWidth w := by
  have hmask : (lowBits w n).toNat = 2 ^ n - 1 := by
    rw [lowBits, if_pos (by omega), Int.emod_eq_of_lt (by omega) (by omega), Int.toNat_natCast,
      toNat_bit_sub_one hn]
  apply BitVec.eq_of_toNat_eq
  rw [BitVec.toNat_and, hmask, Nat.and_two_pow_sub_one_eq_mod, BitVec.toNat_setWidth, BitVec.toNat_setWidth,
    Nat.mod_eq_of_lt ((Nat.mod_le _ _).trans_lt x.isLt)]

end CompilerKit.Numeric
