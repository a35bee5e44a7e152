import CompilerKit.Proofs.Stamp.Sum

/-! # Stamps of narrowed values

A narrowed value keeps its low bits and with them what the masks say of those. Its bounds are those of
the wide value if they lie inside the narrow range, else the limits of that range; either way each of
them is then given the bits of the lower mask and stripped of those outside the upper one. That is safe
for the limits of a range and for bounds that are values of the wide stamp. Any other bound may be moved
past a value.
-/

namespace CompilerKit.IntStamp

def narrowLo (s : IntStamp) (n : Nat) : Word :=
  if (Word.maxValue n).slt s.hi then Word.minValue n else saturate s.lo n

def narrowHi (s : IntStamp) (n : Nat) : Word :=
  if s.lo.slt (Word.minValue n) then Word.maxValue n else saturate s.hi n

/-- A bound with the low bits that a stamp's masks demand of its values. -/
def fitted (s : IntStamp) (n : Nat) (x : Word) : Word :=
  Word.signExtend ((x ||| (s.down &&& Word.mask n)) &&& (s.up &&& Word.mask n)) n

/-- A narrowed value lies inside the fitted bounds. -/
def NarrowKept (s : IntStamp) (n : Nat) (r : Word) : Prop :=
  (s.fitted n (s.narrowLo n)).toInt ≤ r.toInt ∧ r.toInt ≤ (s.fitted n (s.narrowHi n)).toInt

theorem narrow_eq (s : IntStamp) {m n : Nat} (h : n ≠ m) :
    s.narrow m n = ⟨n, s.fitted n (s.narrowLo n), s.fitted n (s.narrowHi n),
      s.down &&& Word.mask n, s.up &&& Word.mask n⟩ := by
  rw [narrow, if_neg h]
  rfl

theorem toInt_saturate {n : Nat} (hn : n < 64) (x : Word) :
    (saturate x n).toInt = max (-2 ^ (n - 1)) (min x.toInt (2 ^ (n - 1) - 1)) := by
  have hpow : (0 : Int) < 2 ^ (n - 1) := Int.pow_pos (by decide)
  have hmin := Word.toInt_minValue (Nat.le_of_lt hn)
  have hmax := Word.toInt_maxValue (Nat.le_of_lt hn)
  unfold saturate
  simp only [if_pos hn, BitVec.slt_iff_toInt_lt, hmin, hmax]
  split
  · omega
  · split <;> omega

section Bounds

variable {s : IntStamp} {n : Nat} (hn : n < 64)

include hn

/-- A range that leaves the narrow one on either side wraps around it. -/
theorem narrow_bounds_of_leaves (hle : s.lo.toInt ≤ s.hi.toInt)
    (h : s.lo.toInt < -2 ^ (n - 1) ∨ 2 ^ (n - 1) ≤ s.hi.toInt) :
    s.narrowLo n = Word.minValue n ∧ s.narrowHi n = Word.maxValue n := by
  have hpow : (0 : Int) < 2 ^ (n - 1) := Int.pow_pos (by decide)
  have hmin := Word.toInt_minValue (Nat.le_of_lt hn)
  have hmax := Word.toInt_maxValue (Nat.le_of_lt hn)
  unfold narrowLo narrowHi
  simp only [BitVec.slt_iff_toInt_lt, hmin, hmax]
  constructor
  · split
    · rfl
    · apply BitVec.eq_of_toInt_eq
      rw [toInt_saturate hn, hmin]
      omega
  · split
    · rfl
    · apply BitVec.eq_of_toInt_eq
      rw [toInt_saturate hn, hmax]
      omega

theorem narrow_bounds_of_stays (hle : s.lo.toInt ≤ s.hi.toInt)
    (hlo : -2 ^ (n - 1) ≤ s.lo.toInt) (hhi : s.hi.toInt < 2 ^ (n - 1)) :
    s.narrowLo n = s.lo ∧ s.narrowHi n = s.hi := by
  have hmin := Word.toInt_minValue (Nat.le_of_lt hn)
  have hmax := Word.toInt_maxValue (Nat.le_of_lt hn)
  unfold narrowLo narrowHi
  simp only [BitVec.slt_iff_toInt_lt, hmin, hmax]
  rw [if_neg (by omega), if_neg (by omega)]
  constructor
  · apply BitVec.eq_of_toInt_eq
    rw [toInt_saturate hn]
    omega
  · apply BitVec.eq_of_toInt_eq
    rw [toInt_saturate hn]
    omega

end Bounds

section Narrowing

variable {s : IntStamp} {v : Word} {n : Nat} (hs : s.WellFormed) (hn : n < s.bits)
  (hv : s.contains v = true)

theorem getLsbD_fitted {x : Word} (hw : n ≤ 64) {i : Nat} (hi : i < n) :
    ((x ||| (s.down &&& Word.mask n)) &&& (s.up &&& Word.mask n)).getLsbD i =
      ((x.getLsbD i || s.down.getLsbD i) && s.up.getLsbD i) := by
  simp [Word.getLsbD_mask hw, hi]

theorem getLsbD_narrowed (hw : n ≤ 64) {i : Nat} (hi : i < n) :
    (Word.ofLow (Word.low n v)).getLsbD i = v.getLsbD i := by
  rw [Word.getLsbD_ofLow_of_lt hw _ hi, Word.getLsbD_low, decide_eq_true hi, Bool.true_and]

include hs hn hv

theorem contains_narrow_iff :
    (s.narrow s.bits n).contains (Word.ofLow (Word.low n v)) = true ↔
      s.NarrowKept n (Word.ofLow (Word.low n v)) := by
  have hw : n ≤ 64 := Nat.le_trans (Nat.le_of_lt hn) hs.bits_le
  obtain ⟨_, hdown, _⟩ := (contains_iff hs.bits_le v).mp hv
  rw [narrow_eq s (Nat.ne_of_lt hn), contains_mk_iff hw]
  refine ⟨fun h => h.1, fun h => ⟨h, fun i hb => ?_, fun i hb => ?_⟩⟩
  · obtain ⟨hb, hi⟩ := (getLsbD_and_mask hw _ i).mp hb
    rw [getLsbD_narrowed hw hi]
    exact hdown i hb
  · rw [BitVec.getLsbD_and, Word.getLsbD_mask hw]
    by_cases hi : i < n
    · rw [getLsbD_narrowed hw hi] at hb
      rw [hs.getLsbD_up hv (by omega) hb, Bool.true_and]
    · simp [hi]

theorem narrowKept_of_leaves (hn0 : 0 < n)
    (h : s.lo.toInt < -2 ^ (n - 1) ∨ 2 ^ (n - 1) ≤ s.hi.toInt) :
    s.NarrowKept n (Word.ofLow (Word.low n v)) := by
  have hw : n < 64 := Nat.lt_of_lt_of_le hn hs.bits_le
  obtain ⟨⟨hlo, hhi⟩, hdown, _⟩ := (contains_iff hs.bits_le v).mp hv
  obtain ⟨hmin, hmax⟩ := narrow_bounds_of_leaves hw (Int.le_trans hlo hhi) h
  have hfits := Word.fits_ofLow (Nat.le_of_lt hw) (Word.low n v)
  have hup (i : Nat) (hi : i < n) : v.getLsbD i = true → s.up.getLsbD i = true :=
    hs.getLsbD_up hv (by omega)
  rw [NarrowKept, hmin, hmax]
  constructor
  · apply Word.toInt_signExtend_le hn0 (by omega) hfits
    · intro i hi hb
      rw [getLsbD_fitted (by omega) (by omega), Word.getLsbD_minValue (by omega),
        decide_eq_false (by omega), Bool.false_or, Bool.and_eq_true] at hb
      rw [getLsbD_narrowed (by omega) (by omega)]
      exact hdown i hb.1
    · intro hb
      rw [getLsbD_narrowed (by omega) (by omega)] at hb
      rw [getLsbD_fitted (by omega) (by omega), Word.getLsbD_minValue (by omega),
        decide_eq_true (by omega), hup _ (by omega) hb]
      rfl
  · apply Word.le_toInt_signExtend hn0 (by omega) hfits
    · intro i hi hb
      rw [getLsbD_narrowed (by omega) (by omega)] at hb
      rw [getLsbD_fitted (by omega) (by omega), Word.getLsbD_maxValue (by omega),
        decide_eq_true hi, hup i (by omega) hb]
      rfl
    · intro hb
      rw [getLsbD_fitted (by omega) (by omega), Word.getLsbD_maxValue (by omega),
        decide_eq_false (by omega), Bool.false_or, Bool.and_eq_true] at hb
      rw [getLsbD_narrowed (by omega) (by omega)]
      exact hdown _ hb.1

theorem fitted_eq (hn0 : 0 < n) (hfits : Word.Fits n v) : s.fitted n v = v := by
  have hw : n ≤ 64 := Nat.le_trans (Nat.le_of_lt hn) hs.bits_le
  rw [fitted, Word.signExtend_eq hn0 hw]
  nth_rewrite 2 [← Word.ofLow_low hn0 hw hfits]
  congr 1
  apply BitVec.eq_of_getLsbD_eq
  intro i hi
  rw [Word.getLsbD_low, Word.getLsbD_low, getLsbD_fitted hw hi]
  have hdown := hs.getLsbD_of_down (i := i) hv
  have hup := hs.getLsbD_up hv (by omega : i < s.bits)
  grind

theorem narrowKept_of_held (hn0 : 0 < n) (hheld : s.BoundsHeld) :
    s.NarrowKept n (Word.ofLow (Word.low n v)) := by
  by_cases hleaves : s.lo.toInt < -2 ^ (n - 1) ∨ 2 ^ (n - 1) ≤ s.hi.toInt
  · exact narrowKept_of_leaves hs hn hv hn0 hleaves
  · have hw : n < 64 := Nat.lt_of_lt_of_le hn hs.bits_le
    obtain ⟨⟨hlo, hhi⟩, _, _⟩ := (contains_iff hs.bits_le v).mp hv
    obtain ⟨hlow, hhigh⟩ :=
      narrow_bounds_of_stays hw (Int.le_trans hlo hhi) (by omega) (by omega)
    rw [NarrowKept, hlow, hhigh, fitted_eq hs hn hheld.1 hn0 ⟨by omega, by omega⟩,
      fitted_eq hs hn hheld.2 hn0 ⟨by omega, by omega⟩,
      Word.ofLow_low hn0 (Nat.le_of_lt hw) ⟨by omega, by omega⟩]
    exact ⟨hlo, hhi⟩

end Narrowing

/-- A narrowed value is one of its stamp unless the fitted bounds cut it off. They do not if the range
of the wide value leaves the narrow one, or if its bounds are values. -/
theorem contains_narrowed_iff {s : IntStamp} {v : Word} {n : Nat} (hs : s.WellFormed) (hn0 : 0 < n)
    (hn : n < s.bits) (hv : s.contains v = true) :
    ((s.narrow s.bits n).contains (Word.ofLow (Word.low n v)) = true ↔
      s.NarrowKept n (Word.ofLow (Word.low n v))) ∧
    (s.lo.toInt < -2 ^ (n - 1) ∨ 2 ^ (n - 1) ≤ s.hi.toInt ∨ s.BoundsHeld →
      (s.narrow s.bits n).contains (Word.ofLow (Word.low n v)) = true) := by
  have hiff := contains_narrow_iff hs hn hv
  refine ⟨hiff, fun h => hiff.mpr ?_⟩
  rcases h with hlo | hhi | hheld
  · exact narrowKept_of_leaves hs hn hv hn0 (.inl hlo)
  · exact narrowKept_of_leaves hs hn hv hn0 (.inr hhi)
  · exact narrowKept_of_held hs hn hv hn0 hheld

theorem contains_narrowed_iff_loose :
    loose.WellFormed ∧ loose.contains 1 = true ∧
      ((loose.narrow 32 8).contains 1 = true ↔ loose.NarrowKept 8 1) ∧
      WellFormed ⟨32, -300, 4, 0, 0xffffffff⟩ ∧
      contains ⟨32, -300, 4, 0, 0xffffffff⟩ (-200) = true ∧
      (narrow 32 8 ⟨32, -300, 4, 0, 0xffffffff⟩).contains 56 = true := by
  have hs : loose.WellFormed := by decide
  have hv : loose.contains 1 = true := by decide
  have ht : WellFormed ⟨32, -300, 4, 0, 0xffffffff⟩ := by decide
  have hu : contains ⟨32, -300, 4, 0, 0xffffffff⟩ (-200) = true := by decide
  exact ⟨hs, hv, (contains_narrowed_iff hs (by decide) (by decide) hv).1, ht, hu,
    (contains_narrowed_iff (n := 8) ht (by decide) (by decide) hu).2 (.inl (by decide))⟩

/-- The upper bound of the one stamp loses its only bit to the mask, and the values above zero with it.
The lower bound of the other one, five, is given the second bit and moves past six. -/
theorem narrow_cuts_off :
    ((ofBounds 32 0 4).join ((full 32).and (single 32 11)) = loose ∧
      loose.WellFormed ∧ loose.contains 1 = true ∧
      (loose.narrow 32 8).contains (Word.ofLow (Word.low 8 1)) = false) ∧
    ((ofBoundsWithin 32 5 7 ((full 32).or (single 32 2))).WellFormed ∧
      (ofBoundsWithin 32 5 7 ((full 32).or (single 32 2))).contains 6 = true ∧
      ((ofBoundsWithin 32 5 7 ((full 32).or (single 32 2))).narrow 32 8).contains
        (Word.ofLow (Word.low 8 6)) = false) := by
  decide

end CompilerKit.IntStamp
