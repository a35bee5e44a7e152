import CompilerKit.Proofs.Word
import CompilerKit.Stamp.Integer

/-! # Membership in integer stamps

A stamp's values are described by integer bounds and by single bits. The two ways to complete a stamp,
masks from bounds and bounds from masks, keep every value.
-/

namespace CompilerKit.IntStamp

/-- What is asked of a stamp when it is made: bounds and masks that lie inside its width. -/
structure WellFormed (s : IntStamp) : Prop where
  bits_pos : 0 < s.bits
  bits_le : s.bits ≤ 64
  minValue_sle : (Word.minValue s.bits).sle s.lo = true
  sle_maxValue : s.hi.sle (Word.maxValue s.bits) = true
  down_within : s.down &&& Word.mask s.bits = s.down
  up_within : s.up &&& Word.mask s.bits = s.up

instance (s : IntStamp) : Decidable s.WellFormed :=
  decidable_of_iff
    (0 < s.bits ∧ s.bits ≤ 64 ∧ (Word.minValue s.bits).sle s.lo = true ∧
      s.hi.sle (Word.maxValue s.bits) = true ∧ s.down &&& Word.mask s.bits = s.down ∧
      s.up &&& Word.mask s.bits = s.up)
    ⟨fun ⟨h0, h1, h2, h3, h4, h5⟩ => ⟨h0, h1, h2, h3, h4, h5⟩,
      fun h => ⟨h.1, h.2, h.3, h.4, h.5, h.6⟩⟩

theorem and_eq_right_iff (x y : Word) :
    x &&& y = y ↔ ∀ i, y.getLsbD i = true → x.getLsbD i = true := by
  constructor
  · intro h i hi
    rw [← h, BitVec.getLsbD_and, Bool.and_eq_true] at hi
    exact hi.1
  · intro h
    apply BitVec.eq_of_getLsbD_eq
    intro i _
    rw [BitVec.getLsbD_and]
    cases hy : y.getLsbD i with
    | false => rw [Bool.and_false]
    | true => rw [h i hy, Bool.true_and]

theorem and_eq_and_mask_iff {w : Nat} (hw : w ≤ 64) (x y : Word) :
    x &&& y = x &&& Word.mask w ↔
      ∀ i, x.getLsbD i = true → y.getLsbD i = decide (i < w) := by
  constructor
  · intro h i hi
    have hbit := congrArg (fun z : Word => z.getLsbD i) h
    simp only [BitVec.getLsbD_and, hi, Bool.true_and, Word.getLsbD_mask hw] at hbit
    exact hbit
  · intro h
    apply BitVec.eq_of_getLsbD_eq
    intro i _
    rw [BitVec.getLsbD_and, BitVec.getLsbD_and, Word.getLsbD_mask hw]
    cases hx : x.getLsbD i with
    | false => rfl
    | true => rw [h i hx]

theorem contains_mk_iff {w : Nat} (hw : w ≤ 64) (lo hi down up v : Word) :
    contains ⟨w, lo, hi, down, up⟩ v = true ↔ (lo.toInt ≤ v.toInt ∧ v.toInt ≤ hi.toInt) ∧
      (∀ i, down.getLsbD i = true → v.getLsbD i = true) ∧
      ∀ i, v.getLsbD i = true → up.getLsbD i = decide (i < w) := by
  rw [contains, Bool.and_eq_true, Bool.and_eq_true, Bool.and_eq_true, beq_iff_eq, beq_iff_eq,
    BitVec.sle_iff_toInt_le, BitVec.sle_iff_toInt_le, and_eq_right_iff, and_eq_and_mask_iff hw,
    and_assoc]

theorem contains_iff {s : IntStamp} (hw : s.bits ≤ 64) (v : Word) :
    s.contains v = true ↔ (s.lo.toInt ≤ v.toInt ∧ v.toInt ≤ s.hi.toInt) ∧
      (∀ i, s.down.getLsbD i = true → v.getLsbD i = true) ∧
      ∀ i, v.getLsbD i = true → s.up.getLsbD i = decide (i < s.bits) :=
  contains_mk_iff hw s.lo s.hi s.down s.up v

namespace WellFormed

variable {s : IntStamp} {v : Word}

theorem lt_of_down (h : s.WellFormed) {i : Nat} (hi : s.down.getLsbD i = true) : i < s.bits := by
  rw [← h.down_within, BitVec.getLsbD_and, Word.getLsbD_mask h.bits_le, Bool.and_eq_true] at hi
  exact of_decide_eq_true hi.2

theorem lt_of_up (h : s.WellFormed) {i : Nat} (hi : s.up.getLsbD i = true) : i < s.bits := by
  rw [← h.up_within, BitVec.getLsbD_and, Word.getLsbD_mask h.bits_le, Bool.and_eq_true] at hi
  exact of_decide_eq_true hi.2

theorem masks_outside (h : s.WellFormed) {i : Nat} (hi : s.bits ≤ i) :
    s.down.getLsbD i = false ∧ s.up.getLsbD i = false := by
  simp only [← Bool.not_eq_true]
  exact ⟨fun hb => Nat.not_lt.mpr hi (h.lt_of_down hb), fun hb => Nat.not_lt.mpr hi (h.lt_of_up hb)⟩

theorem le_toInt_lo (h : s.WellFormed) : -2 ^ (s.bits - 1) ≤ s.lo.toInt := by
  rw [← Word.toInt_minValue h.bits_le]
  exact BitVec.sle_iff_toInt_le.mp h.minValue_sle

theorem toInt_hi_lt (h : s.WellFormed) : s.hi.toInt < 2 ^ (s.bits - 1) := by
  have hle := BitVec.sle_iff_toInt_le.mp h.sle_maxValue
  rw [Word.toInt_maxValue h.bits_le] at hle
  omega

theorem fits_of_contains (h : s.WellFormed) (hv : s.contains v = true) : Word.Fits s.bits v := by
  obtain ⟨⟨hlo, hhi⟩, _, _⟩ := (contains_iff h.bits_le v).mp hv
  exact ⟨Int.le_trans h.le_toInt_lo hlo, Int.lt_of_le_of_lt hhi h.toInt_hi_lt⟩

theorem getLsbD_of_down (h : s.WellFormed) (hv : s.contains v = true) {i : Nat}
    (hi : s.down.getLsbD i = true) : v.getLsbD i = true :=
  ((contains_iff h.bits_le v).mp hv).2.1 i hi

theorem getLsbD_up (h : s.WellFormed) (hv : s.contains v = true) {i : Nat} (hi : i < s.bits)
    (hb : v.getLsbD i = true) : s.up.getLsbD i = true := by
  rw [((contains_iff h.bits_le v).mp hv).2.2 i hb, decide_eq_true hi]

end WellFormed

section Parts

variable {w : Nat} {lo hi down up v : Word}

theorem contains_mk (hw : w ≤ 64) (hlo : lo.toInt ≤ v.toInt) (hhi : v.toInt ≤ hi.toInt)
    (hdown : ∀ i, down.getLsbD i = true → v.getLsbD i = true)
    (hup : ∀ i < w, v.getLsbD i = true → up.getLsbD i = true)
    (hin : ∀ i, up.getLsbD i = true → i < w) : contains ⟨w, lo, hi, down, up⟩ v = true := by
  rw [contains_mk_iff hw]
  refine ⟨⟨hlo, hhi⟩, hdown, fun i hi => ?_⟩
  rw [Bool.eq_iff_iff, decide_eq_true_eq]
  exact ⟨hin i, fun h => hup i h hi⟩

theorem getLsbD_and_mask (hw : w ≤ 64) (x : Word) (i : Nat) :
    (x &&& Word.mask w).getLsbD i = true ↔ x.getLsbD i = true ∧ i < w := by
  rw [BitVec.getLsbD_and, Word.getLsbD_mask hw, Bool.and_eq_true, decide_eq_true_eq]

theorem contains_mk_masked (hw : w ≤ 64) (hlo : lo.toInt ≤ v.toInt) (hhi : v.toInt ≤ hi.toInt)
    (hdown : ∀ i < w, down.getLsbD i = true → v.getLsbD i = true)
    (hup : ∀ i < w, v.getLsbD i = true → up.getLsbD i = true) :
    contains ⟨w, lo, hi, down &&& Word.mask w, up &&& Word.mask w⟩ v = true := by
  apply contains_mk hw hlo hhi
  · intro i hb
    obtain ⟨hb, hi⟩ := (getLsbD_and_mask hw down i).mp hb
    exact hdown i hi hb
  · intro i hi hb
    exact (getLsbD_and_mask hw up i).mpr ⟨hup i hi hb, hi⟩
  · intro i hb
    exact ((getLsbD_and_mask hw up i).mp hb).2

end Parts

theorem isPositive_iff (s : IntStamp) : s.isPositive = true ↔ 0 ≤ s.lo.toInt :=
  Word.zero_sle_iff s.lo

theorem isStrictlyNegative_iff (s : IntStamp) : s.isStrictlyNegative = true ↔ s.hi.toInt < 0 :=
  Word.slt_zero_iff s.hi

theorem contains_full {w : Nat} (hw : w ≤ 64) {v : Word} (hv : Word.Fits w v) :
    (full w).contains v = true := by
  apply contains_mk hw
  · rw [Word.toInt_minValue hw]
    exact hv.1
  · rw [Word.toInt_maxValue hw]
    have := hv.2
    omega
  · intro i hi
    exact absurd hi (by simp)
  · intro i hi _
    rw [Word.getLsbD_mask hw, decide_eq_true hi]
  · intro i hi
    rw [Word.getLsbD_mask hw] at hi
    exact of_decide_eq_true hi

theorem wellFormed_full {w : Nat} (h0 : 0 < w) (hw : w ≤ 64) : (full w).WellFormed where
  bits_pos := h0
  bits_le := hw
  minValue_sle := BitVec.sle_iff_toInt_le.mpr (Int.le_refl _)
  sle_maxValue := BitVec.sle_iff_toInt_le.mpr (Int.le_refl _)
  down_within := BitVec.zero_and
  up_within := BitVec.and_self

section Bounds

variable {lo hi v : Word}

/-- Above the highest bit in which the bounds differ, a value has the bits of both. -/
theorem getLsbD_of_between (hlo : lo.toInt ≤ v.toInt) (hhi : v.toInt ≤ hi.toInt)
    (hs : 0 ≤ lo.toInt ∨ hi.toInt < 0) {i : Nat}
    (hle : 64 - Word.leadingZeros (lo ^^^ hi) ≤ i) : v.getLsbD i = hi.getLsbD i := by
  have hlow : lo.toNat ≤ v.toNat := Word.toNat_le_of_sameSign hlo (by omega)
  have hhigh : v.toNat ≤ hi.toNat := Word.toNat_le_of_sameSign hhi (by omega)
  have hdiff := Word.toNat_lt_leadingZeros (lo ^^^ hi)
  rw [BitVec.toNat_xor] at hdiff
  rw [← BitVec.testBit_toNat, ← BitVec.testBit_toNat]
  exact Word.testBit_of_between hlow hhigh hdiff hle

theorem xor_ne_zero (hne : lo ≠ hi) : lo ^^^ hi ≠ 0 := by
  intro h
  exact hne (BitVec.xor_eq_zero_iff.mp h)

theorem leadingZeros_of_nonneg (hne : lo ≠ hi) (h0 : 0 ≤ lo.toInt) (h : lo.toInt ≤ hi.toInt) :
    Word.leadingZeros hi + Word.leadingZeros (Word.shl (lo ^^^ hi) (Word.leadingZeros hi)) =
      Word.leadingZeros (lo ^^^ hi) := by
  apply Word.add_leadingZeros_shl (xor_ne_zero hne)
  have hhi := Word.toNat_lt_leadingZeros hi
  have hle : lo.toNat ≤ hi.toNat := Word.toNat_le_of_sameSign h (.inl h0)
  rw [BitVec.toNat_xor]
  exact Nat.xor_lt_two_pow (by omega) hhi

theorem leadingZeros_of_neg (hne : lo ≠ hi) (h0 : hi.toInt < 0) (h : lo.toInt ≤ hi.toInt) :
    Word.leadingZeros (~~~lo) +
        Word.leadingZeros (Word.shl (lo ^^^ hi) (Word.leadingZeros (~~~lo))) =
      Word.leadingZeros (lo ^^^ hi) := by
  apply Word.add_leadingZeros_shl (xor_ne_zero hne)
  have hlo := Word.toNat_lt_leadingZeros (~~~lo)
  have hle : lo.toNat ≤ hi.toNat := Word.toNat_le_of_sameSign h (.inr h0)
  have hnot : (~~~hi).toNat ≤ (~~~lo).toNat := by
    rw [BitVec.toNat_not, BitVec.toNat_not]
    omega
  have hxor : lo ^^^ hi = ~~~lo ^^^ ~~~hi := by
    rw [← BitVec.not_xor_left, ← BitVec.not_xor_right, BitVec.not_not]
  rw [hxor, BitVec.toNat_xor]
  exact Nat.xor_lt_two_pow hlo (by omega)

theorem getLsbD_of_leadingZeros_not {i : Nat} (hi64 : i < 64)
    (hle : 64 - Word.leadingZeros (~~~lo) ≤ i) : lo.getLsbD i = true := by
  have hlt := Nat.lt_of_lt_of_le (Word.toNat_lt_leadingZeros (~~~lo))
    (Nat.pow_le_pow_right (by decide) hle)
  have hbit := Nat.testBit_lt_two_pow hlt
  rw [BitVec.testBit_toNat, BitVec.getLsbD_not, decide_eq_true hi64, Bool.true_and] at hbit
  simpa using hbit

theorem getLsbD_of_boundMasks {w : Nat} (hw : w ≤ 64) (hne : lo ≠ hi) (hlo : lo.toInt ≤ v.toInt)
    (hhi : v.toInt ≤ hi.toInt) {i : Nat} (hi64 : i < 64) :
    ((boundMasks w lo hi).1.getLsbD i = true → v.getLsbD i = true) ∧
      (i < w → v.getLsbD i = true → (boundMasks w lo hi).2.getLsbD i = true) := by
  have hlt := Word.leadingZeros_lt (xor_ne_zero hne)
  have hle : lo.toInt ≤ hi.toInt := Int.le_trans hlo hhi
  unfold boundMasks
  split
  · rename_i h0
    have hz := (Word.zero_sle_iff lo).mp h0
    have hsame : ¬i + Word.leadingZeros (lo ^^^ hi) < 64 → v.getLsbD i = hi.getLsbD i :=
      fun h => getLsbD_of_between hlo hhi (.inl hz) (by omega)
    simp only [leadingZeros_of_nonneg hne hz hle, BitVec.getLsbD_and, BitVec.getLsbD_or,
      BitVec.getLsbD_not, Word.getLsbD_ushr_allOnes hlt]
    grind
  · split
    · exact ⟨fun h => absurd h (by simp),
        fun hi _ => by rw [Word.getLsbD_mask hw, decide_eq_true hi]⟩
    · rename_i h0
      rw [Word.zero_sle_iff] at h0
      have hz : hi.toInt < 0 := by omega
      have hsum := leadingZeros_of_neg hne hz hle
      have hlead : Word.leadingZeros (~~~lo) < 64 := by omega
      have hsame : ¬i + Word.leadingZeros (lo ^^^ hi) < 64 → v.getLsbD i = lo.getLsbD i := by
        intro h
        rw [getLsbD_of_between hlo hhi (.inr hz) (by omega),
          getLsbD_of_between (Int.le_refl _) hle (.inr hz) (by omega)]
      have hones : ¬i + Word.leadingZeros (~~~lo) < 64 → lo.getLsbD i = true :=
        fun h => getLsbD_of_leadingZeros_not hi64 (by omega)
      simp only [hsum, BitVec.getLsbD_and, BitVec.getLsbD_or, BitVec.getLsbD_not,
        Word.getLsbD_ushr_allOnes hlt, Word.getLsbD_ushr_allOnes hlead]
      grind

@[simp] theorem ofBounds_bits (w : Nat) (lo hi : Word) : (ofBounds w lo hi).bits = w := by
  unfold ofBounds
  split <;> rfl

@[simp] theorem ofBounds_lo (w : Nat) (lo hi : Word) : (ofBounds w lo hi).lo = lo := by
  unfold ofBounds
  split <;> rfl

@[simp] theorem ofBounds_hi (w : Nat) (lo hi : Word) : (ofBounds w lo hi).hi = hi := by
  unfold ofBounds
  split
  · assumption
  · rfl

theorem getLsbD_of_ofBounds {w : Nat} (hw : w ≤ 64) (hlo : lo.toInt ≤ v.toInt)
    (hhi : v.toInt ≤ hi.toInt) (i : Nat) :
    ((ofBounds w lo hi).down.getLsbD i = true → v.getLsbD i = true) ∧
      (v.getLsbD i = true → (ofBounds w lo hi).up.getLsbD i = decide (i < w)) := by
  unfold ofBounds
  split
  · rename_i heq
    obtain rfl : v = lo := BitVec.eq_of_toInt_eq (by rw [heq] at hlo ⊢; omega)
    simp only [BitVec.getLsbD_and, Word.getLsbD_mask hw]
    grind
  · rename_i hne
    by_cases hi64 : i < 64
    · obtain ⟨hdown, hup⟩ := getLsbD_of_boundMasks hw hne hlo hhi hi64
      simp only [BitVec.getLsbD_and, Word.getLsbD_mask hw]
      grind
    · rw [BitVec.getLsbD_of_ge v i (by omega), BitVec.getLsbD_of_ge _ i (by omega)]
      simp

theorem contains_ofBounds {w : Nat} (hw : w ≤ 64) (hlo : lo.toInt ≤ v.toInt)
    (hhi : v.toInt ≤ hi.toInt) : (ofBounds w lo hi).contains v = true := by
  rw [contains_iff (by simpa using hw), ofBounds_lo, ofBounds_hi, ofBounds_bits]
  exact ⟨⟨hlo, hhi⟩, fun i => (getLsbD_of_ofBounds hw hlo hhi i).1,
    fun i => (getLsbD_of_ofBounds hw hlo hhi i).2⟩

theorem contains_ofBounds_iff {w : Nat} (hw : w ≤ 64) :
    (ofBounds w lo hi).contains v = true ↔ lo.toInt ≤ v.toInt ∧ v.toInt ≤ hi.toInt := by
  constructor
  · intro hv
    rw [contains_iff (by simpa using hw), ofBounds_lo, ofBounds_hi] at hv
    exact hv.1
  · rintro ⟨hlo, hhi⟩
    exact contains_ofBounds hw hlo hhi

theorem wellFormed_ofBounds {w : Nat} (h0 : 0 < w) (hw : w ≤ 64)
    (hlo : (Word.minValue w).sle lo = true) (hhi : hi.sle (Word.maxValue w) = true) :
    (ofBounds w lo hi).WellFormed where
  bits_pos := by rwa [ofBounds_bits]
  bits_le := by rwa [ofBounds_bits]
  minValue_sle := by rwa [ofBounds_bits, ofBounds_lo]
  sle_maxValue := by rwa [ofBounds_bits, ofBounds_hi]
  down_within := by
    unfold ofBounds
    split <;> simp [BitVec.and_assoc]
  up_within := by
    unfold ofBounds
    split <;> simp [BitVec.and_assoc]

end Bounds

section Masks

variable {w : Nat} {down up v : Word}

theorem contains_ofMasks (h0 : 0 < w) (hw : w ≤ 64) (hv : Word.Fits w v)
    (hdown : ∀ i, down.getLsbD i = true → v.getLsbD i = true)
    (hup : ∀ i < w, v.getLsbD i = true → up.getLsbD i = true)
    (hin : ∀ i, up.getLsbD i = true → i < w) : (ofMasks w down up).contains v = true := by
  have hlast : w - 1 < 64 := by omega
  have hsign : v.getLsbD (w - 1) = true → up.getLsbD (w - 1) = true := hup _ (by omega)
  unfold ofMasks
  simp only [Word.ushr_and_one_eq_zero up hlast, Word.ushr_and_one_eq_one down hlast]
  split
  · rename_i hpos
    apply contains_mk hw _ _ hdown hup hin
    · apply Word.toInt_signExtend_le h0 hw hv (fun i _ => hdown i)
      intro h
      rw [hsign h] at hpos
      exact absurd hpos (by decide)
    · apply Word.le_toInt_signExtend h0 hw hv (fun i hi => hup i (by omega))
      intro h
      rw [hpos] at h
      exact absurd h (by decide)
  · split
    · rename_i hneg
      apply contains_mk hw _ _ hdown hup hin
      · exact Word.toInt_signExtend_le h0 hw hv (fun i _ => hdown i) (fun _ => hneg)
      · exact Word.le_toInt_signExtend h0 hw hv (fun i hi => hup i (by omega))
          (fun _ => hdown _ hneg)
    · apply contains_mk hw _ _ hdown hup hin
      · apply Word.toInt_signExtend_le h0 hw hv
        · intro i hi hb
          rw [BitVec.getLsbD_or, Word.getLsbD_shl_allOnes hlast] at hb
          simp [show ¬w - 1 ≤ i by omega] at hb
          exact hdown i hb
        · intro _
          rw [BitVec.getLsbD_or, Word.getLsbD_shl_allOnes hlast]
          simp [hlast]
      · apply Word.le_toInt_signExtend h0 hw hv
        · intro i hi hb
          rw [BitVec.getLsbD_and, Word.getLsbD_maxValue hw, decide_eq_true hi, hup i (by omega) hb]
          rfl
        · intro h
          rw [BitVec.getLsbD_and, Word.getLsbD_maxValue hw] at h
          simp at h

theorem contains_ofMasks_ofLow {r : BitVec w} (h0 : 0 < w) (hw : w ≤ 64)
    (hin : ∀ i < w, (down.getLsbD i = true → r.getLsbD i = true) ∧
      (r.getLsbD i = true → up.getLsbD i = true))
    (hout : ∀ i, w ≤ i → down.getLsbD i = false ∧ up.getLsbD i = false) :
    (ofMasks w down up).contains (Word.ofLow r) = true := by
  apply contains_ofMasks h0 hw (Word.fits_ofLow hw r)
  · intro i hb
    have hi : i < w := by
      by_contra hi
      rw [(hout i (by omega)).1] at hb
      cases hb
    rw [Word.getLsbD_ofLow_of_lt hw r hi]
    exact (hin i hi).1 hb
  · intro i hi hb
    rw [Word.getLsbD_ofLow_of_lt hw r hi] at hb
    exact (hin i hi).2 hb
  · intro i hb
    by_contra hi
    rw [(hout i (by omega)).2] at hb
    cases hb

end Masks

end CompilerKit.IntStamp
