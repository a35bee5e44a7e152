import CompilerKit.Canonical.Phase
import CompilerKit.Proofs.Stamp.Shift
import CompilerKit.Proofs.Stamp.Sum

/-! # Stamps of quotients

The stamp of a quotient by something positive divides both bounds of the dividend by the least divisor.
A greater divisor brings the quotient closer to zero, so the bounds hold for a dividend whose own bounds
enclose zero, and may fail for one that keeps away from it. A stamp that has shrunk to one value then
makes a constant of a quotient that is none.
-/

namespace CompilerKit

namespace Word

section Truncation

variable {a b c : Int}

theorem tdiv_anti (ha : 0 ≤ a) (hb : 0 < b) (hbc : b ≤ c) : a.tdiv c ≤ a.tdiv b := by
  have hq := Int.tdiv_nonneg ha (Int.le_trans (Int.le_of_lt hb) hbc)
  have hdiv := Int.mul_tdiv_add_tmod a c
  have hrem := Int.tmod_nonneg c ha
  apply Int.le_tdiv_of_mul_le hb
  calc a.tdiv c * b ≤ a.tdiv c * c := Int.mul_le_mul_of_nonneg_left hbc hq
    _ = c * a.tdiv c := Int.mul_comm _ _
    _ ≤ a := by omega

theorem tdiv_mono_of_nonpos (ha : a ≤ 0) (hb : 0 < b) (hbc : b ≤ c) : a.tdiv b ≤ a.tdiv c := by
  have hanti := tdiv_anti (a := -a) (by omega) hb hbc
  rw [Int.neg_tdiv, Int.neg_tdiv] at hanti
  omega

theorem tdiv_between (a : Int) (hb : 0 < b) : min a 0 ≤ a.tdiv b ∧ a.tdiv b ≤ max a 0 := by
  have hone := Int.tdiv_one a
  rcases Int.le_total 0 a with h0 | h0
  · have hle := tdiv_anti h0 (by decide : (0 : Int) < 1) hb
    have hpos := Int.tdiv_nonneg h0 (Int.le_of_lt hb)
    omega
  · have hle := tdiv_mono_of_nonpos h0 (by decide : (0 : Int) < 1) hb
    have hneg := Int.tdiv_nonneg (a := -a) (by omega) (Int.le_of_lt hb)
    rw [Int.neg_tdiv] at hneg
    omega

theorem toInt_sdiv_of_pos {w : Nat} {x y : BitVec w} (hy : 0 < y.toInt) :
    (x.sdiv y).toInt = x.toInt.tdiv y.toInt := by
  apply BitVec.toInt_sdiv_of_ne_or_ne
  right
  rintro rfl
  rw [BitVec.neg_one_eq_allOnes, BitVec.toInt_allOnes] at hy
  split at hy <;> omega

end Truncation

/-- The quotient of two values of a width, rounded towards zero and wrapped around. -/
def quotient (w : Nat) (x y : Word) : Word := ofLow ((low w x).sdiv (low w y))

end Word

namespace IntStamp

theorem isStrictlyPositive_iff (s : IntStamp) : s.isStrictlyPositive = true ↔ 0 < s.lo.toInt :=
  BitVec.slt_iff_toInt_lt

theorem div_of_pos {a b : IntStamp} (h : 0 < b.lo.toInt) :
    a.div b = ofBounds a.bits (a.lo.sdiv b.lo) (a.hi.sdiv b.lo) :=
  if_pos (b.isStrictlyPositive_iff.mpr h)

theorem div_of_nonpos {a b : IntStamp} (h : b.lo.toInt ≤ 0) : a.div b = full a.bits :=
  if_neg fun hpos => Int.not_lt.mpr h (b.isStrictlyPositive_iff.mp hpos)

/-- A quotient lies inside the bounds divided by the least divisor. -/
def QuotientKept (a b : IntStamp) (q : Word) : Prop :=
  a.lo.toInt.tdiv b.lo.toInt ≤ q.toInt ∧ q.toInt ≤ a.hi.toInt.tdiv b.lo.toInt

/-- The greatest divisor takes neither bound of the dividend out of the bounds that the least divisor
gives. -/
def CornersKept (a b : IntStamp) : Prop :=
  a.lo.toInt.tdiv b.lo.toInt ≤ a.lo.toInt.tdiv b.hi.toInt ∧
    a.hi.toInt.tdiv b.hi.toInt ≤ a.hi.toInt.tdiv b.lo.toInt

instance (a b : IntStamp) : Decidable (a.CornersKept b) := inferInstanceAs (Decidable (_ ∧ _))

theorem cornersKept_of_zero_between {a b : IntStamp} (ha : a.lo.toInt ≤ 0 ∧ 0 ≤ a.hi.toInt)
    (hb : 0 < b.lo.toInt) (hle : b.lo.toInt ≤ b.hi.toInt) : a.CornersKept b :=
  ⟨Word.tdiv_mono_of_nonpos ha.1 hb hle, Word.tdiv_anti ha.2 hb hle⟩

namespace Summands

variable {a b : IntStamp} {v u : Word}

theorem toInt_quotient (h : Summands a b v u) (hpos : 0 < b.lo.toInt) :
    (Word.quotient a.bits v u).toInt = v.toInt.tdiv u.toInt := by
  obtain ⟨⟨hlo, _⟩, _, _⟩ := (contains_iff h.right.bits_le u).mp h.right_contains
  have hw := h.left.bits_le
  have hv := Word.toInt_low_of_fits h.left.bits_pos hw (h.left.fits_of_contains h.left_contains)
  have hu := Word.toInt_low_of_fits h.left.bits_pos hw h.right_fits
  rw [Word.quotient, Word.toInt_ofLow hw, Word.toInt_sdiv_of_pos (by omega), hv, hu]

theorem contains_div_iff (h : Summands a b v u) :
    (a.div b).contains (Word.quotient a.bits v u) = true ↔
      b.lo.toInt ≤ 0 ∨ a.QuotientKept b (Word.quotient a.bits v u) := by
  have hw := h.left.bits_le
  rcases Int.lt_or_le 0 b.lo.toInt with hpos | hle
  · rw [div_of_pos hpos, contains_ofBounds_iff hw, Word.toInt_sdiv_of_pos hpos,
      Word.toInt_sdiv_of_pos hpos]
    exact ⟨.inr, fun hkept => hkept.resolve_left (by omega)⟩
  · rw [div_of_nonpos hle]
    exact iff_of_true (contains_full hw (Word.fits_ofLow hw _)) (.inl hle)

/-- Each bound of the dividend is reached at one of the two extreme divisors. -/
theorem quotientKept_of_corners (h : Summands a b v u) (hpos : 0 < b.lo.toInt)
    (hkept : a.CornersKept b) : a.QuotientKept b (Word.quotient a.bits v u) := by
  obtain ⟨⟨hlv, hvh⟩, _, _⟩ := (contains_iff h.left.bits_le v).mp h.left_contains
  obtain ⟨⟨hlu, huh⟩, _, _⟩ := (contains_iff h.right.bits_le u).mp h.right_contains
  have hu : 0 < u.toInt := by omega
  rw [QuotientKept, h.toInt_quotient hpos]
  constructor
  · refine Int.le_trans ?_ (Int.tdiv_le_tdiv hu hlv)
    rcases Int.le_total a.lo.toInt 0 with h0 | h0
    · exact Word.tdiv_mono_of_nonpos h0 hpos hlu
    · exact Int.le_trans hkept.1 (Word.tdiv_anti h0 hu huh)
  · refine Int.le_trans (Int.tdiv_le_tdiv hu hvh) ?_
    rcases Int.le_total a.hi.toInt 0 with h0 | h0
    · exact Int.le_trans (Word.tdiv_mono_of_nonpos h0 hu huh) hkept.2
    · exact Word.tdiv_anti h0 hpos hlu

end Summands

theorem cornersKept_of_all {a b : IntStamp} (ha : a.WellFormed) (hb : b.WellFormed)
    (hbits : b.bits = a.bits) (haheld : a.BoundsHeld) (hbheld : b.BoundsHeld)
    (hpos : 0 < b.lo.toInt)
    (hall : ∀ v u, a.contains v = true → b.contains u = true →
      (a.div b).contains (Word.quotient a.bits v u) = true) : a.CornersKept b := by
  have hlow : Summands a b a.lo b.hi := ⟨ha, hb, hbits, haheld.1, hbheld.2⟩
  have hhigh : Summands a b a.hi b.hi := ⟨ha, hb, hbits, haheld.2, hbheld.2⟩
  have hkept := (hlow.contains_div_iff.mp (hall _ _ haheld.1 hbheld.2)).resolve_left (by omega)
  have hkept' := (hhigh.contains_div_iff.mp (hall _ _ haheld.2 hbheld.2)).resolve_left (by omega)
  rw [QuotientKept, hlow.toInt_quotient hpos] at hkept
  rw [QuotientKept, hhigh.toInt_quotient hpos] at hkept'
  exact ⟨hkept.1, hkept'.2⟩

section Constant

theorem constant?_full {w : Nat} (hw : w ≤ 64) : (full w).constant? = none := by
  apply if_neg
  intro heq
  have hint := congrArg BitVec.toInt heq
  simp only [full, Word.toInt_minValue hw, Word.toInt_maxValue hw] at hint
  omega

theorem constant?_eq {s : IntStamp} (hw : s.bits = 32 ∨ s.bits = 64)
    (hlo : Word.Fits s.bits s.lo) {k : Kind} {c : Word}
    (h : s.constant? = some (.primitive k c)) : s.lo = s.hi ∧ c = s.lo := by
  unfold constant? at h
  split at h
  · rename_i heq
    refine ⟨heq, ?_⟩
    have hself : Word.signExtend s.lo s.bits = s.lo := by
      rw [Word.signExtend_eq (by omega) (by omega), Word.ofLow_low (by omega) (by omega) hlo]
    rcases hw with hb | hb
    · rw [hb] at h hself
      cases h
      exact hself
    · rw [hb] at h hself
      cases h
      exact hself
  · cases h

theorem Summands.div_constant_eq_iff {a b : IntStamp} {v u : Word} (h : Summands a b v u)
    (hw : a.bits = 32 ∨ a.bits = 64) {k : Kind} {c : Word}
    (hc : (a.div b).constant? = some (.primitive k c)) (q : Word) :
    c = q ↔ (a.div b).contains q = true := by
  have hw64 := h.left.bits_le
  rcases Int.lt_or_le 0 b.lo.toInt with hpos | hle
  · rw [div_of_pos hpos] at hc ⊢
    obtain ⟨hlow, hhigh⟩ := h.fits_bounds.1.1
    have hbetween := Word.tdiv_between a.lo.toInt hpos
    rw [← Word.toInt_sdiv_of_pos hpos] at hbetween
    have hfits : Word.Fits a.bits (a.lo.sdiv b.lo) := ⟨by omega, by omega⟩
    obtain ⟨heq, rfl⟩ := constant?_eq (by simpa using hw) (by simpa using hfits) hc
    constructor
    · rintro rfl
      simp only [ofBounds_lo, ofBounds_hi] at heq ⊢
      exact contains_ofBounds hw64 (Int.le_refl _) (by rw [heq])
    · intro hq
      exact (eq_lo_of_contains heq hq).symm
  · rw [div_of_nonpos hle, constant?_full hw64] at hc
    cases hc

end Constant

theorem inferredStamp_quotient {g : Graph Label} {i x y : NodeId} {a b : IntStamp}
    (h : g.shape? i = some (.binary (.divide .quotient) x y)) (hx : g.stamp x = .int a)
    (hy : g.stamp y = .int b) : g.inferredStamp i = .ok (.int (a.div b)) := by
  simp only [Graph.inferredStamp, h, hx, hy, Term.divisionStamp]

/-- A quotient is a value of its stamp, and the constant that the stamp stands for if it does for one,
exactly if the divisor may be zero or less or the divided bounds do not cut the quotient off. They cut
off none if they keep the quotients of the dividend's bounds by the greatest divisor, and for bounds that
are values only then. -/
theorem contains_quotient_iff {a b : IntStamp} (ha : a.WellFormed) (hb : b.WellFormed)
    (hbits : a.bits = b.bits) (hw : a.bits = 32 ∨ a.bits = 64) :
    (∀ v u, a.contains v = true → b.contains u = true →
      ((a.div b).contains (Word.quotient a.bits v u) = true ↔
        b.lo.toInt ≤ 0 ∨ a.QuotientKept b (Word.quotient a.bits v u)) ∧
      ∀ k c, (a.div b).constant? = some (.primitive k c) →
        (c = Word.quotient a.bits v u ↔
          b.lo.toInt ≤ 0 ∨ a.QuotientKept b (Word.quotient a.bits v u))) ∧
    (b.lo.toInt ≤ 0 ∨ a.CornersKept b ∨ a.lo.toInt ≤ 0 ∧ 0 ≤ a.hi.toInt →
      ∀ v u, a.contains v = true → b.contains u = true →
        (a.div b).contains (Word.quotient a.bits v u) = true) ∧
    (a.BoundsHeld → b.BoundsHeld →
      (∀ v u, a.contains v = true → b.contains u = true →
        (a.div b).contains (Word.quotient a.bits v u) = true) →
      b.lo.toInt ≤ 0 ∨ a.CornersKept b) ∧
    ∀ (g : Graph Label) (i x y : NodeId), g.shape? i = some (.binary (.divide .quotient) x y) →
      g.stamp x = .int a → g.stamp y = .int b → g.inferredStamp i = .ok (.int (a.div b)) := by
  refine ⟨fun v u hv hu => ?_, fun hcase v u hv hu => ?_, fun haheld hbheld hall => ?_,
    fun g i x y => inferredStamp_quotient⟩
  · have h : Summands a b v u := ⟨ha, hb, hbits.symm, hv, hu⟩
    refine ⟨h.contains_div_iff, fun k c hc => ?_⟩
    rw [h.div_constant_eq_iff hw hc, h.contains_div_iff]
  · have h : Summands a b v u := ⟨ha, hb, hbits.symm, hv, hu⟩
    rw [h.contains_div_iff]
    refine (Int.lt_or_le 0 b.lo.toInt).elim (fun hpos => .inr ?_) .inl
    rcases hcase with hle | hkept | hzero
    · omega
    · exact h.quotientKept_of_corners hpos hkept
    · obtain ⟨⟨hlo, hhi⟩, _, _⟩ := (contains_iff hb.bits_le u).mp hu
      exact h.quotientKept_of_corners hpos
        (cornersKept_of_zero_between hzero hpos (Int.le_trans hlo hhi))
  · refine (Int.lt_or_le 0 b.lo.toInt).elim (fun hpos => .inr ?_) .inl
    exact cornersKept_of_all ha hb hbits.symm haheld hbheld hpos hall

/-- A dividend of either sign, and a divisor from four to eight. -/
theorem contains_quotient_iff_between :
    (ofBounds 32 (-9) 9).WellFormed ∧ (ofBounds 32 4 8).WellFormed ∧
      (ofBounds 32 (-9) 9).contains (-8) = true ∧ (ofBounds 32 4 8).contains 5 = true ∧
      ((ofBounds 32 (-9) 9).div (ofBounds 32 4 8)).contains (-1) = true := by
  have ha : (ofBounds 32 (-9) 9).WellFormed := by decide
  have hb : (ofBounds 32 4 8).WellFormed := by decide
  have hv : (ofBounds 32 (-9) 9).contains (-8) = true := by decide
  have hu : (ofBounds 32 4 8).contains 5 = true := by decide
  exact ⟨ha, hb, hv, hu,
    (contains_quotient_iff ha hb rfl (.inl rfl)).2.1 (.inr (.inr (by decide))) (-8) 5 hv hu⟩

def quotientFlow (a b : IntStamp) : Result FlowGraph := do
  let (f, x) := FlowGraph.start.insert (.leaf (.parameter 0) (.int a))
  let (f, y) := f.insert (.leaf (.parameter 1) (.int b))
  let (f, q) := f.insert (← Term.divide f.graph .quotient (.node x) (.node y))
  return f.finish q

/-- Eight or nine by something from four to eight is one or two. Its stamp holds only two, and so the
constant two is returned in its place. -/
theorem quotient_made_constant :
    (ofBounds 32 8 9).contains 8 = true ∧ (ofBounds 32 4 8).contains 4 = true ∧
      (ofBounds 32 4 8).contains 8 = true ∧
      Word.quotient 32 8 4 = 2 ∧ Word.quotient 32 8 8 = 1 ∧
      ((ofBounds 32 8 9).div (ofBounds 32 4 8)).contains 1 = false ∧
      (do
        let f ← (← quotientFlow (ofBounds 32 8 9) (ofBounds 32 4 8)).canonicalize
        return f.result?.bind f.graph.constant?).toOption =
          some (some (Constant.primitive .int 2)) := by
  decide +kernel

end IntStamp

end CompilerKit
