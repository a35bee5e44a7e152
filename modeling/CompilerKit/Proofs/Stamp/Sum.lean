import CompilerKit.Proofs.Stamp.Membership
import CompilerKit.Stamp.Integer.Transfer

/-! # Stamps of sums and differences

The stamp of a sum is found in two steps. Bounds and masks are computed from those of the summands, and
then each bound is tightened by a mask. The first step keeps every sum. The second takes the bits of a
mask into a bound, or out of it, one by one; it keeps every sum if the summands' bounds are values of
theirs, but may cut sums off if they are not.
-/

namespace CompilerKit.IntStamp

/-- The bits of a sum that are not known: an open bit of a summand or an open carry goes in. -/
def sumUnknown (a b : IntStamp) : Word :=
  ((a.down ^^^ a.up) ||| (b.down ^^^ b.up)) |||
    (carryBits a.down b.down ^^^ carryBits a.up b.up)

/-- Some sums leave the range of the width and others do not, or not on the same side. -/
def sumWraps (a b : IntStamp) : Bool :=
  addOverflowsNegatively a.lo b.lo a.bits && !addOverflowsNegatively a.hi b.hi a.bits ||
    !addOverflowsPositively a.lo b.lo a.bits && addOverflowsPositively a.hi b.hi a.bits

def sumLo (a b : IntStamp) : Word :=
  if a.sumWraps b then Word.minValue a.bits
  else Word.signExtend ((a.lo + b.lo) &&& Word.mask a.bits) a.bits

def sumHi (a b : IntStamp) : Word :=
  if a.sumWraps b then Word.maxValue a.bits
  else Word.signExtend ((a.hi + b.hi) &&& Word.mask a.bits) a.bits

def sumDown (a b : IntStamp) : Word :=
  (a.down + b.down) &&& ~~~(a.sumUnknown b) &&& Word.mask a.bits |||
    (ofBounds a.bits (a.sumLo b) (a.sumHi b)).down

def sumUp (a b : IntStamp) : Word :=
  ((a.down + b.down) ||| a.sumUnknown b) &&& Word.mask a.bits &&&
    (ofBounds a.bits (a.sumLo b) (a.sumHi b)).up

def sumStamp (a b : IntStamp) : IntStamp :=
  ⟨a.bits, a.sumLo b, a.sumHi b, a.sumDown b, a.sumUp b⟩

theorem add_eq {a b : IntStamp} (ha : a.isUnrestricted = false) (hb : b.isUnrestricted = false) :
    a.add b = ⟨a.bits, a.sumLo b ||| a.sumDown b,
      Word.signExtend (a.sumHi b &&& a.sumUp b) a.bits, a.sumDown b, a.sumUp b⟩ := by
  rw [add, ha, hb]
  rfl

section Carries

theorem getLsbD_carryBits (x y : Word) {i : Nat} (hi : i < 64) :
    (carryBits x y).getLsbD i = BitVec.carry i x y false := by
  rw [carryBits, BitVec.getLsbD_xor, BitVec.getLsbD_xor, BitVec.getLsbD_add hi]
  cases x.getLsbD i <;> cases y.getLsbD i <;> simp

theorem carry_mono {x x' y y' : Word} {i : Nat}
    (hx : ∀ j < i, x.getLsbD j = true → x'.getLsbD j = true)
    (hy : ∀ j < i, y.getLsbD j = true → y'.getLsbD j = true)
    (h : BitVec.carry i x y false = true) : BitVec.carry i x' y' false = true := by
  induction i with
  | zero => simp [BitVec.carry_zero] at h
  | succ i ih =>
    rw [BitVec.carry_succ] at h ⊢
    have hc := ih (fun j hj => hx j (by omega)) (fun j hj => hy j (by omega))
    have hxi := hx i (by omega)
    have hyi := hy i (by omega)
    revert h hc hxi hyi
    cases x.getLsbD i <;> cases x'.getLsbD i <;> cases y.getLsbD i <;> cases y'.getLsbD i <;>
      cases BitVec.carry i x y false <;> cases BitVec.carry i x' y' false <;> decide

end Carries

section Overflow

variable {w : Nat} (hw : w ≤ 64) {x y : Word} (hx : Word.Fits w x) (hy : Word.Fits w y)

include hw hx hy

theorem toInt_add_of_lt (hlt : w < 64) : (x + y).toInt = x.toInt + y.toInt := by
  obtain ⟨hxl, hxu⟩ := hx
  obtain ⟨hyl, hyu⟩ := hy
  have hpow : (2 : Int) ^ (w - 1) ≤ 2 ^ 62 := by
    exact_mod_cast Nat.pow_le_pow_right (n := 2) (by decide) (by omega : w - 1 ≤ 62)
  rw [BitVec.toInt_add, Word.bmod_of_range (by decide) (by omega) (by omega)]

theorem addOverflowsPositively_iff :
    addOverflowsPositively x y w = true ↔ 2 ^ (w - 1) ≤ x.toInt + y.toInt := by
  unfold addOverflowsPositively
  split
  · subst w
    obtain ⟨hxl, hxu⟩ := hx
    obtain ⟨hyl, hyu⟩ := hy
    have hsum := BitVec.toInt_add x y
    rw [Word.bmod_eq (by decide) (by omega) (by omega)] at hsum
    rw [Word.slt_zero_eq_msb, BitVec.msb_and, BitVec.msb_and, BitVec.msb_not, BitVec.msb_not,
      BitVec.msb_eq_toInt, BitVec.msb_eq_toInt, BitVec.msb_eq_toInt, hsum]
    simp
    split <;> (try split) <;> omega
  · rw [BitVec.slt_iff_toInt_lt, Word.toInt_maxValue hw, toInt_add_of_lt hw hx hy (by omega)]
    omega

theorem addOverflowsNegatively_iff :
    addOverflowsNegatively x y w = true ↔ x.toInt + y.toInt < -2 ^ (w - 1) := by
  unfold addOverflowsNegatively
  split
  · subst w
    obtain ⟨hxl, hxu⟩ := hx
    obtain ⟨hyl, hyu⟩ := hy
    have hsum := BitVec.toInt_add x y
    rw [Word.bmod_eq (by decide) (by omega) (by omega)] at hsum
    rw [Word.slt_zero_eq_msb, BitVec.msb_and, BitVec.msb_and, BitVec.msb_not,
      BitVec.msb_eq_toInt, BitVec.msb_eq_toInt, BitVec.msb_eq_toInt, hsum]
    simp
    split <;> (try split) <;> omega
  · rw [BitVec.slt_iff_toInt_lt, Word.toInt_minValue hw, toInt_add_of_lt hw hx hy (by omega)]

end Overflow

theorem WellFormed.fits_bounds {s : IntStamp} {v : Word} (hs : s.WellFormed)
    (hv : s.contains v = true) : Word.Fits s.bits s.lo ∧ Word.Fits s.bits s.hi := by
  obtain ⟨⟨hlo, hhi⟩, _, _⟩ := (contains_iff hs.bits_le v).mp hv
  have hl := hs.le_toInt_lo
  have hu := hs.toInt_hi_lt
  exact ⟨⟨hl, by omega⟩, by omega, hu⟩

theorem WellFormed.getLsbD_of_known {s : IntStamp} {v : Word} (hs : s.WellFormed)
    (hv : s.contains v = true) {i : Nat} (hi : i < s.bits)
    (h : s.down.getLsbD i = s.up.getLsbD i) : v.getLsbD i = s.down.getLsbD i := by
  cases hd : s.down.getLsbD i with
  | true => exact hs.getLsbD_of_down hv hd
  | false =>
    cases hb : v.getLsbD i with
    | false => rfl
    | true =>
      rw [← hs.getLsbD_up hv hi hb, ← h, hd]

theorem lt_of_sumUp {a b : IntStamp} (ha : a.WellFormed) {i : Nat}
    (h : (a.sumUp b).getLsbD i = true) : i < a.bits := by
  rw [sumUp, BitVec.getLsbD_and, Bool.and_eq_true, getLsbD_and_mask ha.bits_le] at h
  exact h.1.2

theorem sumLo_eq {a b : IntStamp} (ha : a.WellFormed) (hno : ¬a.sumWraps b = true) :
    a.sumLo b = Word.sum a.bits a.lo b.lo := by
  rw [sumLo, if_neg hno, Word.sum_eq ha.bits_le]
  exact Word.narrow_eq ha.bits_pos ha.bits_le (a.lo + b.lo)

theorem sumHi_eq {a b : IntStamp} (ha : a.WellFormed) (hno : ¬a.sumWraps b = true) :
    a.sumHi b = Word.sum a.bits a.hi b.hi := by
  rw [sumHi, if_neg hno, Word.sum_eq ha.bits_le]
  exact Word.narrow_eq ha.bits_pos ha.bits_le (a.hi + b.hi)

theorem contains_of_isUnrestricted {s : IntStamp} (h : s.isUnrestricted = true)
    (hw : s.bits ≤ 64) {v : Word} (hv : Word.Fits s.bits v) : s.contains v = true := by
  have hfull := contains_full hw hv
  simp only [isUnrestricted, Bool.and_eq_true, beq_iff_eq] at h
  obtain ⟨⟨⟨hlo, hhi⟩, hdown⟩, hup⟩ := h
  rwa [full, ← hlo, ← hhi, ← hdown, ← hup] at hfull

/-- Two values of stamps of one width. -/
structure Summands (a b : IntStamp) (v u : Word) : Prop where
  left : a.WellFormed
  right : b.WellFormed
  bits_eq : b.bits = a.bits
  left_contains : a.contains v = true
  right_contains : b.contains u = true

def BoundsHeld (s : IntStamp) : Prop := s.contains s.lo = true ∧ s.contains s.hi = true

/-- A sum lies inside the tightened bounds. -/
def SumKept (a b : IntStamp) (r : Word) : Prop :=
  (a.sumLo b ||| a.sumDown b).toInt ≤ r.toInt ∧
    r.toInt ≤ (Word.signExtend (a.sumHi b &&& a.sumUp b) a.bits).toInt

namespace Summands

variable {a b : IntStamp} {v u : Word}

theorem right_fits (h : Summands a b v u) : Word.Fits a.bits u :=
  h.bits_eq ▸ h.right.fits_of_contains h.right_contains

theorem fits_bounds (h : Summands a b v u) :
    (Word.Fits a.bits a.lo ∧ Word.Fits a.bits a.hi) ∧
      Word.Fits a.bits b.lo ∧ Word.Fits a.bits b.hi := by
  refine ⟨h.left.fits_bounds h.left_contains, ?_⟩
  rw [← h.bits_eq]
  exact h.right.fits_bounds h.right_contains

theorem getLsbD_add_of_known (h : Summands a b v u) {i : Nat} (hi : i < a.bits)
    (hknown : (a.sumUnknown b).getLsbD i = false) :
    (v + u).getLsbD i = (a.down + b.down).getLsbD i := by
  have hi64 : i < 64 := Nat.lt_of_lt_of_le hi h.left.bits_le
  have hib : i < b.bits := by rwa [h.bits_eq]
  simp only [sumUnknown, BitVec.getLsbD_or, BitVec.getLsbD_xor, Bool.or_eq_false_iff,
    getLsbD_carryBits _ _ hi64, bne_eq_false_iff_eq] at hknown
  obtain ⟨⟨hva, hub⟩, hcarry⟩ := hknown
  have hlow : BitVec.carry i a.down b.down false = true → BitVec.carry i v u false = true :=
    carry_mono (fun j _ => h.left.getLsbD_of_down h.left_contains)
      (fun j _ => h.right.getLsbD_of_down h.right_contains)
  have hhigh : BitVec.carry i v u false = true → BitVec.carry i a.up b.up false = true :=
    carry_mono (fun j _ => h.left.getLsbD_up h.left_contains (by omega))
      (fun j _ => h.right.getLsbD_up h.right_contains (by omega))
  have hmid : BitVec.carry i v u false = BitVec.carry i a.down b.down false := by
    rw [Bool.eq_iff_iff]
    exact ⟨fun hc => hcarry ▸ hhigh hc, hlow⟩
  rw [BitVec.getLsbD_add hi64, BitVec.getLsbD_add hi64, hmid,
    h.left.getLsbD_of_known h.left_contains hi hva,
    h.right.getLsbD_of_known h.right_contains hib hub]

theorem sumWraps_iff (h : Summands a b v u) :
    a.sumWraps b = true ↔
      a.lo.toInt + b.lo.toInt < -2 ^ (a.bits - 1) ∧ -2 ^ (a.bits - 1) ≤ a.hi.toInt + b.hi.toInt ∨
      a.lo.toInt + b.lo.toInt < 2 ^ (a.bits - 1) ∧ 2 ^ (a.bits - 1) ≤ a.hi.toInt + b.hi.toInt := by
  obtain ⟨⟨hal, hah⟩, hbl, hbh⟩ := h.fits_bounds
  have hw := h.left.bits_le
  rw [sumWraps, Bool.or_eq_true, Bool.and_eq_true, Bool.and_eq_true, Bool.not_eq_true',
    Bool.not_eq_true', ← Bool.not_eq_true, ← Bool.not_eq_true,
    addOverflowsNegatively_iff hw hal hbl, addOverflowsNegatively_iff hw hah hbh,
    addOverflowsPositively_iff hw hal hbl, addOverflowsPositively_iff hw hah hbh]
  omega

theorem between (h : Summands a b v u) :
    (a.sumLo b).toInt ≤ (Word.sum a.bits v u).toInt ∧
      (Word.sum a.bits v u).toInt ≤ (a.sumHi b).toInt := by
  have h0 := h.left.bits_pos
  have hw := h.left.bits_le
  by_cases hwrap : a.sumWraps b = true
  · rw [sumLo, sumHi, if_pos hwrap, if_pos hwrap, Word.toInt_minValue hw, Word.toInt_maxValue hw]
    obtain ⟨hlow, hhigh⟩ := Word.fits_sum hw v u
    exact ⟨hlow, by omega⟩
  · obtain ⟨⟨hal, hah⟩, hbl, hbh⟩ := h.fits_bounds
    rw [sumLo_eq h.left hwrap, sumHi_eq h.left hwrap, Word.toInt_sum h0 hw hal hbl,
      Word.toInt_sum h0 hw hah hbh,
      Word.toInt_sum h0 hw (h.left.fits_of_contains h.left_contains) h.right_fits]
    obtain ⟨⟨hlv, hvh⟩, _, _⟩ := (contains_iff hw v).mp h.left_contains
    obtain ⟨⟨hlu, huh⟩, _, _⟩ := (contains_iff h.right.bits_le u).mp h.right_contains
    rw [h.sumWraps_iff] at hwrap
    have hp := Word.two_pow_pred h0
    obtain ⟨hal1, hal2⟩ := hal
    obtain ⟨hah1, hah2⟩ := hah
    obtain ⟨hbl1, hbl2⟩ := hbl
    obtain ⟨hbh1, hbh2⟩ := hbh
    rw [Word.bmod_eq h0 (by omega) (by omega), Word.bmod_eq h0 (by omega) (by omega),
      Word.bmod_eq h0 (by omega) (by omega)]
    constructor <;> split <;> split <;> (try split) <;> omega

theorem getLsbD_of_sumDown (h : Summands a b v u) {i : Nat}
    (hb : (a.sumDown b).getLsbD i = true) : (Word.sum a.bits v u).getLsbD i = true := by
  obtain ⟨hlo, hhi⟩ := h.between
  have hw := h.left.bits_le
  rw [sumDown, BitVec.getLsbD_or, Bool.or_eq_true, getLsbD_and_mask hw] at hb
  rcases hb with ⟨hb, hi⟩ | hb
  · rw [BitVec.getLsbD_and, BitVec.getLsbD_not, Bool.and_eq_true, Bool.and_eq_true,
      Bool.not_eq_true'] at hb
    rw [Word.getLsbD_sum hw v u hi, h.getLsbD_add_of_known hi hb.2.2]
    exact hb.1
  · exact (getLsbD_of_ofBounds hw hlo hhi i).1 hb

theorem getLsbD_sumUp (h : Summands a b v u) {i : Nat} (hi : i < a.bits)
    (hb : (Word.sum a.bits v u).getLsbD i = true) : (a.sumUp b).getLsbD i = true := by
  obtain ⟨hlo, hhi⟩ := h.between
  have hw := h.left.bits_le
  rw [sumUp, BitVec.getLsbD_and, (getLsbD_of_ofBounds hw hlo hhi i).2 hb, decide_eq_true hi,
    Bool.and_true, getLsbD_and_mask hw]
  refine ⟨?_, hi⟩
  rw [BitVec.getLsbD_or]
  cases hknown : (a.sumUnknown b).getLsbD i with
  | true => rw [Bool.or_true]
  | false =>
    rw [Bool.or_false, ← h.getLsbD_add_of_known hi hknown, ← Word.getLsbD_sum hw v u hi]
    exact hb

/-- The stamp of a sum, before its bounds are tightened, holds every sum. -/
theorem contains_sumStamp (h : Summands a b v u) :
    (a.sumStamp b).contains (Word.sum a.bits v u) = true :=
  contains_mk h.left.bits_le h.between.1 h.between.2 (fun _ => h.getLsbD_of_sumDown)
    (fun _ => h.getLsbD_sumUp) (fun _ => lt_of_sumUp h.left)

theorem contains_add_iff (h : Summands a b v u) :
    (a.add b).contains (Word.sum a.bits v u) = true ↔
      a.isUnrestricted = true ∨ b.isUnrestricted = true ∨ a.SumKept b (Word.sum a.bits v u) := by
  have hw := h.left.bits_le
  have hfits := Word.fits_sum hw v u
  cases ha : a.isUnrestricted with
  | true =>
    rw [add, ha, if_pos rfl, contains_of_isUnrestricted ha hw hfits]
    simp
  | false =>
    cases hb : b.isUnrestricted with
    | true =>
      rw [← h.bits_eq] at hfits
      rw [add, ha, hb, if_neg (by decide), if_pos rfl, ← h.bits_eq,
        contains_of_isUnrestricted hb h.right.bits_le hfits]
      simp
    | false =>
      rw [add_eq ha hb]
      constructor
      · intro hc
        exact .inr (.inr ((contains_mk_iff hw _ _ _ _ _).mp hc).1)
      · intro hc
        rcases hc with hc | hc | ⟨hlo, hhi⟩
        · cases hc
        · cases hc
        · have hmasks := ((contains_mk_iff hw _ _ _ _ _).mp h.contains_sumStamp).2
          exact (contains_mk_iff hw _ _ _ _ _).mpr ⟨⟨hlo, hhi⟩, hmasks⟩

/-- Tightened by masks, the bounds of all values of the width still hold for every sum. -/
theorem sumKept_of_wraps (h : Summands a b v u) (hwrap : a.sumWraps b = true) :
    a.SumKept b (Word.sum a.bits v u) := by
  have h0 := h.left.bits_pos
  have hw := h.left.bits_le
  have hfits := Word.fits_sum hw v u
  constructor
  · rw [sumLo, if_pos hwrap, ← Word.signExtend_minValue_or h0 hw]
    apply Word.toInt_signExtend_le h0 hw hfits
    · intro i hi hb
      rw [BitVec.getLsbD_or, Word.getLsbD_minValue hw, decide_eq_false (by omega),
        Bool.false_or] at hb
      exact h.getLsbD_of_sumDown hb
    · intro _
      rw [BitVec.getLsbD_or, Word.getLsbD_minValue hw, decide_eq_true (by omega), Bool.true_or]
  · rw [sumHi, if_pos hwrap]
    apply Word.le_toInt_signExtend h0 hw hfits
    · intro i hi hb
      rw [BitVec.getLsbD_and, Word.getLsbD_maxValue hw, decide_eq_true hi,
        h.getLsbD_sumUp (by omega) hb, Bool.and_true]
    · intro hb
      rw [BitVec.getLsbD_and, Word.getLsbD_maxValue hw, decide_eq_false (by omega),
        Bool.false_and] at hb
      exact absurd hb (by decide)

/-- Bounds that are sums themselves obey the masks already: tightening them changes nothing. -/
theorem sumKept_of_held (h : Summands a b v u) (ha : a.BoundsHeld) (hb : b.BoundsHeld) :
    a.SumKept b (Word.sum a.bits v u) := by
  by_cases hwrap : a.sumWraps b = true
  · exact h.sumKept_of_wraps hwrap
  · have h0 := h.left.bits_pos
    have hw := h.left.bits_le
    have hlow : Summands a b a.lo b.lo := ⟨h.left, h.right, h.bits_eq, ha.1, hb.1⟩
    have hhigh : Summands a b a.hi b.hi := ⟨h.left, h.right, h.bits_eq, ha.2, hb.2⟩
    -- The bounds are sums of values now, so what is known of the bits of every sum holds for them.
    have hlo : a.sumLo b ||| a.sumDown b = a.sumLo b := by
      apply BitVec.eq_of_getLsbD_eq
      intro i _
      rw [BitVec.getLsbD_or]
      cases hbit : (a.sumDown b).getLsbD i with
      | false => rw [Bool.or_false]
      | true => rw [Bool.or_true, sumLo_eq h.left hwrap, hlow.getLsbD_of_sumDown hbit]
    have hhi : Word.signExtend (a.sumHi b &&& a.sumUp b) a.bits = a.sumHi b := by
      have hfits : Word.Fits a.bits (a.sumHi b) := by
        rw [sumHi_eq h.left hwrap]
        exact Word.fits_sum hw a.hi b.hi
      rw [Word.signExtend_eq h0 hw, ← Word.ofLow_low h0 hw hfits]
      congr 1
      apply BitVec.eq_of_getLsbD_eq
      intro i hi
      rw [Word.ofLow_low h0 hw hfits, Word.getLsbD_low, Word.getLsbD_low, BitVec.getLsbD_and]
      cases hbit : (a.sumHi b).getLsbD i with
      | false => rw [Bool.false_and]
      | true =>
        rw [sumHi_eq h.left hwrap] at hbit
        rw [hhigh.getLsbD_sumUp hi hbit, Bool.and_true]
    rw [SumKept, hlo, hhi]
    exact h.between

end Summands

@[simp] theorem neg_bits (s : IntStamp) : s.neg.bits = s.bits := by
  unfold neg
  split
  · rw [ofBounds_bits]
  · rfl

section Negation

variable {s : IntStamp} {v : Word} (hs : s.WellFormed)

include hs

theorem toInt_neg_of_between (hmin : s.lo ≠ Word.minValue s.bits) {x : Word}
    (hlo : s.lo.toInt ≤ x.toInt) (hhi : x.toInt ≤ s.hi.toInt) :
    (-x).toInt = -x.toInt ∧ -2 ^ (s.bits - 1) < x.toInt ∧ x.toInt < 2 ^ (s.bits - 1) := by
  have hlow := hs.le_toInt_lo
  have hhigh := hs.toInt_hi_lt
  have hne : s.lo.toInt ≠ -2 ^ (s.bits - 1) := by
    rw [← Word.toInt_minValue hs.bits_le]
    exact fun h => hmin (BitVec.eq_of_toInt_eq h)
  have hpow := Word.two_pow_pred_le hs.bits_le
  exact ⟨Word.toInt_neg_of_lt (by omega), by omega, by omega⟩

variable (hv : s.contains v = true)

include hv

theorem wellFormed_neg : s.neg.WellFormed := by
  obtain ⟨⟨hlo, hhi⟩, _, _⟩ := (contains_iff hs.bits_le v).mp hv
  unfold neg
  split
  · rename_i hmin
    obtain ⟨hnlo, hlo1, hlo2⟩ := toInt_neg_of_between hs hmin (Int.le_refl _) (by omega)
    obtain ⟨hnhi, hhi1, hhi2⟩ := toInt_neg_of_between hs hmin (by omega) (Int.le_refl _)
    apply wellFormed_ofBounds hs.bits_pos hs.bits_le
    · rw [BitVec.sle_iff_toInt_le, Word.toInt_minValue hs.bits_le, hnhi]
      omega
    · rw [BitVec.sle_iff_toInt_le, Word.toInt_maxValue hs.bits_le, hnlo]
      omega
  · exact wellFormed_full hs.bits_pos hs.bits_le

theorem contains_neg : s.neg.contains (Word.ofLow (-Word.low s.bits v)) = true := by
  obtain ⟨⟨hlo, hhi⟩, _, _⟩ := (contains_iff hs.bits_le v).mp hv
  unfold neg
  split
  · rename_i hmin
    obtain ⟨hnlo, _, _⟩ := toInt_neg_of_between hs hmin (Int.le_refl _) (by omega)
    obtain ⟨hnhi, _, _⟩ := toInt_neg_of_between hs hmin (by omega) (Int.le_refl _)
    obtain ⟨_, hv1, hv2⟩ := toInt_neg_of_between hs hmin hlo hhi
    have hneg : (Word.ofLow (-Word.low s.bits v)).toInt = -v.toInt := by
      rw [Word.toInt_ofLow hs.bits_le, BitVec.toInt_neg,
        Word.toInt_low_of_fits hs.bits_pos hs.bits_le (hs.fits_of_contains hv),
        Word.bmod_of_range hs.bits_pos (by omega) (by omega)]
    apply contains_ofBounds hs.bits_le
    · rw [hneg, hnhi]
      omega
    · rw [hneg, hnlo]
      omega
  · exact contains_full hs.bits_le (Word.fits_ofLow hs.bits_le _)

theorem neg_unrestricted_or_held : s.neg.isUnrestricted = true ∨ s.neg.BoundsHeld := by
  obtain ⟨⟨hlo, hhi⟩, _, _⟩ := (contains_iff hs.bits_le v).mp hv
  unfold neg
  split
  · rename_i hmin
    obtain ⟨hnlo, _, _⟩ := toInt_neg_of_between hs hmin (Int.le_refl _) (by omega)
    obtain ⟨hnhi, _, _⟩ := toInt_neg_of_between hs hmin (by omega) (Int.le_refl _)
    right
    rw [BoundsHeld, ofBounds_lo, ofBounds_hi]
    exact ⟨contains_ofBounds hs.bits_le (Int.le_refl _) (by omega),
      contains_ofBounds hs.bits_le (by omega) (Int.le_refl _)⟩
  · left
    simp [isUnrestricted, full]

end Negation

theorem Summands.neg {a b : IntStamp} {v u : Word} (h : Summands a b v u) :
    Summands a b.neg v (Word.ofLow (-Word.low a.bits u)) where
  left := h.left
  right := wellFormed_neg h.right h.right_contains
  bits_eq := by rw [neg_bits, h.bits_eq]
  left_contains := h.left_contains
  right_contains := h.bits_eq ▸ contains_neg h.right h.right_contains

theorem sum_neg {w : Nat} (hw : w ≤ 64) (x y : Word) :
    Word.sum w x (Word.ofLow (-Word.low w y)) = Word.difference w x y := by
  rw [Word.sum, Word.difference, Word.low_ofLow hw, BitVec.sub_eq_add_neg]

/-- A sum or a difference is a value of its stamp unless the tightened bounds cut it off. They do not
if the sums wrap, or if the bounds of the first stamp, and for a sum those of the second one too, are
values. -/
theorem contains_sum_difference_iff {a b : IntStamp} {v u : Word} (ha : a.WellFormed)
    (hb : b.WellFormed) (hbits : a.bits = b.bits) (hv : a.contains v = true)
    (hu : b.contains u = true) :
    ((a.add b).contains (Word.sum a.bits v u) = true ↔
      a.isUnrestricted = true ∨ b.isUnrestricted = true ∨ a.SumKept b (Word.sum a.bits v u)) ∧
    ((a.sub b).contains (Word.difference a.bits v u) = true ↔
      a.isUnrestricted = true ∨ b.neg.isUnrestricted = true ∨
        a.SumKept b.neg (Word.difference a.bits v u)) ∧
    (a.sumWraps b = true ∨ a.BoundsHeld ∧ b.BoundsHeld →
      (a.add b).contains (Word.sum a.bits v u) = true) ∧
    (a.sumWraps b.neg = true ∨ a.BoundsHeld →
      (a.sub b).contains (Word.difference a.bits v u) = true) := by
  have h : Summands a b v u := ⟨ha, hb, hbits.symm, hv, hu⟩
  have hneg := h.neg
  have hsub := hneg.contains_add_iff
  have hwraps := hneg.sumKept_of_wraps
  have hkept := hneg.sumKept_of_held
  rw [sum_neg ha.bits_le] at hsub hwraps hkept
  refine ⟨h.contains_add_iff, hsub, ?_, ?_⟩
  · intro hcase
    refine h.contains_add_iff.mpr (.inr (.inr ?_))
    rcases hcase with hwrap | ⟨hheld, hheld'⟩
    · exact h.sumKept_of_wraps hwrap
    · exact h.sumKept_of_held hheld hheld'
  · intro hcase
    refine hsub.mpr (.inr ?_)
    rcases hcase with hwrap | hheld
    · exact .inr (hwraps hwrap)
    · rcases neg_unrestricted_or_held hb hu with hfull | hheld'
      · exact .inl hfull
      · exact .inr (hkept hheld hheld')

/-- A stamp whose upper bound is not a value of it: only values up to three obey the mask. It is what is
known of a value between zero and four whose bits are all among those of eleven. -/
def loose : IntStamp := ⟨32, 0, 4, 0, 3⟩

theorem contains_sum_difference_iff_loose :
    loose.WellFormed ∧ loose.contains 1 = true ∧
      ((loose.add loose).contains (Word.sum loose.bits 1 1) = true ↔
        loose.isUnrestricted = true ∨ loose.isUnrestricted = true ∨
          loose.SumKept loose (Word.sum loose.bits 1 1)) :=
  ⟨by decide, by decide,
    (contains_sum_difference_iff (by decide) (by decide) rfl (by decide) (by decide)).1⟩

/-- The upper bound of the sum loses its only bit to the mask, and with it the sum of one and one; a
difference with zero loses one in the same way. -/
theorem loose_sum_cut_off :
    (ofBounds 32 0 4).join ((full 32).and (single 32 11)) = loose ∧
      loose.WellFormed ∧ loose.contains 1 = true ∧
      (loose.add loose).contains (Word.sum loose.bits 1 1) = false ∧
      (single 32 0).WellFormed ∧ (single 32 0).contains 0 = true ∧
      (loose.sub (single 32 0)).contains (Word.difference loose.bits 1 0) = false := by
  decide

end CompilerKit.IntStamp
