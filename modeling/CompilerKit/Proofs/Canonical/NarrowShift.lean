import CompilerKit.Proofs.Canonical.Shift

/-! # Shifts of narrowed values

A narrowed shift asks for a lesser amount, as it counts modulo a lesser width, and it shifts in what
stands at the narrowed value's end. The check asks that the bits by which the two amounts could differ
are never set, and that a right shift moves nothing into the narrowed value that it would not have
moved in by itself.
-/

namespace CompilerKit

namespace Word

theorem distance_two_pow {e : Nat} (he : e ≤ 64) (k : Word) : distance (2 ^ e) k = k.toNat % 2 ^ e := by
  have hdvd : ((2 ^ e : Nat) : Int) ∣ ((2 ^ 64 : Nat) : Int) := by
    exact_mod_cast pow_dvd_pow 2 he
  rw [distance, BitVec.toInt_eq_toNat_bmod, ← Int.emod_emod_of_dvd _ hdvd, Int.bmod_emod,
    Int.emod_emod_of_dvd _ hdvd]
  exact_mod_cast Int.toNat_natCast (k.toNat % 2 ^ e)

/-- Two widths ask for one distance if no bit is set that only the greater one looks at. -/
theorem distance_eq_of_unset {a b : Nat} (hba : b ≤ a) (ha : a ≤ 64) {k : Word}
    (h : ∀ i, b ≤ i → i < a → k.getLsbD i = false) : distance (2 ^ a) k = distance (2 ^ b) k := by
  rw [distance_two_pow ha, distance_two_pow (by omega)]
  apply Nat.eq_of_testBit_eq
  intro i
  rw [Nat.testBit_mod_two_pow, Nat.testBit_mod_two_pow, BitVec.testBit_toNat]
  by_cases hib : i < b
  · rw [decide_eq_true hib, decide_eq_true (by omega)]
  · by_cases hia : i < a
    · rw [h i (by omega) hia, Bool.and_false, Bool.and_false]
    · rw [decide_eq_false hib, decide_eq_false hia]

theorem getLsbD_ofNat_two_pow_sub_one (e : Nat) {i : Nat} (hi : i < 64) :
    (BitVec.ofNat 64 (2 ^ e - 1)).getLsbD i = decide (i < e) := by
  rw [BitVec.getLsbD_ofNat, decide_eq_true hi, Bool.true_and, Nat.testBit_two_pow_sub_one]

end Word

section Narrowing

variable {w r n : Nat} (hrw : r ≤ w) (hn : n < r) (v : Word)

include hrw hn

theorem ShiftOp.setWidth_shiftLeft :
    (Word.low w v <<< n).setWidth r = Word.low r v <<< n := by
  apply BitVec.eq_of_getLsbD_eq
  intro i hi
  rw [BitVec.getLsbD_setWidth, BitVec.getLsbD_shiftLeft, BitVec.getLsbD_shiftLeft,
    Word.getLsbD_low, Word.getLsbD_low, decide_eq_true hi, decide_eq_true (by omega : i < w),
    decide_eq_true (by omega : i - n < w), decide_eq_true (by omega : i - n < r), Bool.true_and]

theorem ShiftOp.setWidth_sshiftRight (hw : w ≤ 64) (hv : Word.Fits r v) :
    ((Word.low w v).sshiftRight n).setWidth r = (Word.low r v).sshiftRight n := by
  have hsign : ∀ i, r - 1 ≤ i → i < w → v.getLsbD i = v.getLsbD (r - 1) :=
    fun i hi hiw => Word.getLsbD_of_fits (by omega) (by omega) hv hi (by omega)
  apply BitVec.eq_of_getLsbD_eq
  intro i hi
  rw [BitVec.getLsbD_setWidth, BitVec.getLsbD_sshiftRight, BitVec.getLsbD_sshiftRight,
    Word.getLsbD_low, Word.getLsbD_low, Word.msb_low (by omega), Word.msb_low (by omega),
    decide_eq_true hi, decide_eq_false (by omega : ¬w ≤ i), decide_eq_false (by omega : ¬r ≤ i)]
  by_cases hr : n + i < r
  · rw [if_pos (by omega), if_pos hr, decide_eq_true (by omega), decide_eq_true hr]
    rfl
  · rw [if_neg hr, hsign (w - 1) (by omega) (by omega)]
    split
    · rw [decide_eq_true ‹_›, hsign (n + i) (by omega) ‹_›]
      rfl
    · rfl

omit hn in
/-- An unsigned shift moves zeros into the narrowed value, if the cut off bits are zero. -/
theorem ShiftOp.setWidth_ushiftRight (hv : ∀ i < w, v.getLsbD i = true → i < r) :
    (Word.low w v >>> n).setWidth r = Word.low r v >>> n := by
  apply BitVec.eq_of_getLsbD_eq
  intro i hi
  rw [BitVec.getLsbD_setWidth, BitVec.getLsbD_ushiftRight, BitVec.getLsbD_ushiftRight,
    Word.getLsbD_low, Word.getLsbD_low, decide_eq_true hi, Bool.true_and, Bool.eq_iff_iff]
  simp only [Bool.and_eq_true, decide_eq_true_eq]
  constructor
  · rintro ⟨hlt, hbit⟩
    exact ⟨hv _ hlt hbit, hbit⟩
  · rintro ⟨hlt, hbit⟩
    exact ⟨by omega, hbit⟩

end Narrowing

namespace Canonical

variable {s t : IntStamp} {v k : Word}

/-- The bits that only the amount of the wide shift has are never set. -/
theorem distance_of_unset {a b : Nat} (hba : b ≤ a) (ha : a ≤ 6) (ht : t.bits = 32)
    (h : t.up &&& (BitVec.ofNat 64 (2 ^ a - 1) &&& ~~~BitVec.ofNat 64 (2 ^ b - 1)) = 0)
    (hk : t.contains k = true) : Word.distance (2 ^ a) k = Word.distance (2 ^ b) k := by
  apply Word.distance_eq_of_unset hba (by omega)
  intro i hbi hia
  have hmasked := congrArg (fun z : Word => z.getLsbD i) h
  simp only [BitVec.getLsbD_and, BitVec.getLsbD_not, Word.getLsbD_ofNat_two_pow_sub_one _
    (by omega : i < 64), decide_eq_true hia, decide_eq_false (by omega : ¬i < b),
    decide_eq_true (by omega : i < 64), Bool.not_false, Bool.and_true] at hmasked
  have hup := ((IntStamp.contains_iff (by omega) k).mp hk).2.2 i
  rw [hmasked, ht, decide_eq_true (by omega : i < 32)] at hup
  simpa using hup

theorem fits_of_bounds {r : Nat} (hr : r ≤ 64) (hs : s.bits ≤ 64)
    (hlo : (Word.minValue r).sle s.lo = true) (hhi : s.hi.sle (Word.maxValue r) = true)
    (hv : s.contains v = true) : Word.Fits r v := by
  obtain ⟨⟨hvlo, hvhi⟩, _, _⟩ := (IntStamp.contains_iff hs v).mp hv
  have hle := BitVec.sle_iff_toInt_le.mp hlo
  have hge := BitVec.sle_iff_toInt_le.mp hhi
  rw [Word.toInt_minValue hr] at hle
  rw [Word.toInt_maxValue hr] at hge
  exact ⟨by omega, by omega⟩

/-- A value whose bits all lie under the mask of the amount has none beyond the width. -/
theorem lt_of_up_within {e : Nat} (hs : s.bits ≤ 64)
    (h : s.up &&& ~~~BitVec.ofNat 64 (2 ^ e - 1) = 0) (hv : s.contains v = true) {i : Nat}
    (hi : i < s.bits) (hbit : v.getLsbD i = true) : i < 2 ^ e := by
  have hup := ((IntStamp.contains_iff hs v).mp hv).2.2 i hbit
  have hmasked := congrArg (fun z : Word => z.getLsbD i) h
  simp only [BitVec.getLsbD_and, BitVec.getLsbD_not, Word.getLsbD_ofNat_two_pow_sub_one _
    (by omega : i < 64), hup, decide_eq_true hi, decide_eq_true (by omega : i < 64),
    Bool.true_and] at hmasked
  have hie : i < e := by simpa using hmasked
  exact Nat.lt_trans hie Nat.lt_two_pow_self

/-- A shift that is found narrowable may be done after narrowing the shifted value: the narrowed results
agree, for every value and every amount that the stamps admit. -/
theorem narrowed_shift_agrees (op : ShiftOp) (hw : s.bits = 32 ∨ s.bits = 64) (ht : t.bits = 32)
    {r : Nat} (hr : r.isPowerOfTwo) (hrw : r < s.bits) (h : isNarrowable op r s t = true)
    (hv : s.contains v = true) (hk : t.contains k = true) :
    (op.onValue (Word.low s.bits v) (Word.distance s.bits k)).setWidth r =
      op.onValue (Word.low r v) (Word.distance r k) := by
  obtain ⟨b, rfl⟩ := hr
  obtain ⟨a, ha, hwidth⟩ : ∃ a ≤ 6, s.bits = 2 ^ a := by
    rcases hw with hw | hw
    · exact ⟨5, by decide, hw⟩
    · exact ⟨6, by decide, hw⟩
  have hba : b < a := (Nat.pow_lt_pow_iff_right (by decide)).mp (hwidth ▸ hrw)
  have hle : s.bits ≤ 64 := by omega
  simp only [isNarrowable, IntStamp.shiftMask, hwidth] at h
  have hsame : t.up &&& (BitVec.ofNat 64 (2 ^ a - 1) &&& ~~~BitVec.ofNat 64 (2 ^ b - 1)) = 0 := by
    cases op <;> simp only [Bool.and_eq_true, beq_iff_eq] at h
    · exact h
    · exact h.1.1
    · exact h.1
  have hdistance : Word.distance s.bits k = Word.distance (2 ^ b) k := by
    rw [hwidth]
    exact distance_of_unset (by omega) ha ht hsame hk
  have hlt := Word.distance_lt (Nat.two_pow_pos b) k
  rw [hdistance]
  cases op with
  | shl => exact ShiftOp.setWidth_shiftLeft (by omega) hlt v
  | shr =>
    simp only [Bool.and_eq_true] at h
    exact ShiftOp.setWidth_sshiftRight (by omega) hlt v hle
      (fits_of_bounds (by omega) hle h.1.2 h.2 hv)
  | ushr =>
    simp only [Bool.and_eq_true, beq_iff_eq] at h
    exact ShiftOp.setWidth_ushiftRight (by omega) v
      fun i hi hbit => lt_of_up_within hle h.2 hv hi hbit

/-- Minus one hundred, shifted by seventy-one at 64 and at 8 bits, which is by seven at both. -/
theorem narrowed_shift_agrees_signed :
    ((Word.low 64 (-100)).sshiftRight (Word.distance 64 71)).setWidth 8 =
      (Word.low 8 (-100)).sshiftRight (Word.distance 8 71) :=
  narrowed_shift_agrees (s := .ofBounds 64 (-128) 127) (t := ⟨32, 0, 71, 0, 71⟩) (r := 8) (v := -100)
    (k := 71) .shr (.inr rfl) rfl ⟨3, rfl⟩ (by decide) (by decide) (by decide) (by decide)

end Canonical

end CompilerKit
