import CompilerKit.Proofs.Stamp.Shift

/-! # Joined stamps

The join of two stamps intersects bounds and masks, and then raises the lower bound to the least word
that has its bits and those of the lower mask. A value may reach the bound and have the bits of the mask
without being that large, so the join is the intersection only above the raised bound.
-/

namespace CompilerKit

theorem Word.toInt_le_or {x d : Word} (h : d.msb = true → x.msb = true) :
    x.toInt ≤ (x ||| d).toInt := by
  apply Word.toInt_le_of_subset
  · intro i _ hb
    rw [BitVec.getLsbD_or, hb, Bool.true_or]
  · intro hb
    rw [BitVec.msb_or, Bool.or_eq_true] at hb
    exact hb.elim id h

namespace IntStamp

theorem not_contains_empty {w : Nat} (hw : w ≤ 64) (v : Word) : ¬(empty w).contains v = true := by
  intro hv
  obtain ⟨⟨hlo, hhi⟩, _, _⟩ := (contains_mk_iff hw _ _ _ _ v).mp hv
  rw [Word.toInt_maxValue hw] at hlo
  rw [Word.toInt_minValue hw] at hhi
  have hpow : (0 : Int) < 2 ^ (w - 1) := Int.pow_pos (by decide)
  omega

/-- A stamp whose bounds and masks plainly contradict each other has no values already. -/
theorem contains_combine {s : IntStamp} (hs : s.WellFormed) (v : Word) :
    (combine s.bits s.lo s.hi s.down s.up).contains v = true ↔ s.contains v = true := by
  unfold combine
  split
  · rename_i hbad
    refine iff_of_false (not_contains_empty hs.bits_le v) ?_
    intro hv
    obtain ⟨⟨hlo, hhi⟩, hdown, _⟩ := (contains_iff hs.bits_le v).mp hv
    simp only [Bool.or_eq_true, Bool.and_eq_true, beq_iff_eq, bne_iff_ne, ne_eq,
      BitVec.slt_iff_toInt_lt] at hbad
    rcases hbad with (hcross | hmasks) | ⟨hup, hzero⟩
    · omega
    · apply hmasks
      apply BitVec.eq_of_getLsbD_eq
      intro i _
      rw [BitVec.getLsbD_and, BitVec.getLsbD_not]
      cases hb : s.down.getLsbD i with
      | false => simp
      | true => simp [hs.getLsbD_up hv (hs.lt_of_down hb) (hdown i hb)]
    · obtain rfl := eq_zero_of_up hs hv hup
      omega
  · rfl

section Within

variable {w : Nat} {lo hi : Word} {s : IntStamp}

/-- The masks of an interval say nothing new about the values in it. -/
theorem contains_ofBoundsWithin (hw : w ≤ 64) (hup : s.up &&& Word.mask w = s.up) (v : Word) :
    (ofBoundsWithin w lo hi s).contains v = true ↔
      contains ⟨w, lo, hi, s.down, s.up⟩ v = true := by
  unfold ofBoundsWithin
  rw [contains_mk_iff hw, contains_mk_iff hw]
  refine and_congr_right fun ⟨hlo, hhi⟩ => ?_
  have hlimit := getLsbD_of_ofBounds hw hlo hhi
  have hin : ∀ i, s.up.getLsbD i = true → i < w := by
    intro i hb
    rw [← hup] at hb
    exact ((getLsbD_and_mask hw _ i).mp hb).2
  refine and_congr (forall_congr' fun i => ?_) (forall_congr' fun i => ?_)
  · rw [BitVec.getLsbD_or, Bool.or_eq_true]
    exact ⟨fun h hb => h (.inr hb), fun h hb => hb.elim (hlimit i).1 h⟩
  · refine forall_congr' fun hb => ?_
    rw [BitVec.getLsbD_and, (hlimit i).2 hb]
    have := hin i
    grind

theorem wellFormed_ofBoundsWithin (hs : s.WellFormed) :
    (ofBoundsWithin s.bits s.lo s.hi s).WellFormed := by
  have hlimit := wellFormed_ofBounds hs.bits_pos hs.bits_le hs.minValue_sle hs.sle_maxValue
  have hdown := hlimit.down_within
  have hup := hlimit.up_within
  rw [ofBounds_bits] at hdown hup
  refine ⟨hs.bits_pos, hs.bits_le, hs.minValue_sle, hs.sle_maxValue, ?_, ?_⟩
  · simp only [ofBoundsWithin, BitVec.and_or_distrib_right, hdown, hs.down_within]
  · simp only [ofBoundsWithin, BitVec.and_assoc, hs.up_within]

end Within

section Intersection

def intersection (a b : IntStamp) : IntStamp :=
  ⟨a.bits, Word.smax a.lo b.lo, Word.smin a.hi b.hi, a.down ||| b.down, a.up &&& b.up⟩

/-- The stamp with the lower bound raised by the bits that all of its values have. -/
def raised (s : IntStamp) : IntStamp := { s with lo := s.lo ||| s.down }

variable {a b : IntStamp} {v : Word} (ha : a.WellFormed) (hb : b.WellFormed)
  (hbits : b.bits = a.bits)

include ha hb hbits

theorem contains_intersection_iff (v : Word) :
    (a.intersection b).contains v = true ↔ a.contains v = true ∧ b.contains v = true := by
  have hdown (i : Nat) : (a.down ||| b.down).getLsbD i = true ↔
      a.down.getLsbD i = true ∨ b.down.getLsbD i = true := by
    rw [BitVec.getLsbD_or, Bool.or_eq_true]
  rw [contains_iff ha.bits_le, contains_iff hb.bits_le, intersection, contains_mk_iff ha.bits_le,
    Word.toInt_smax, Word.toInt_smin, hbits]
  constructor
  · rintro ⟨⟨hlo, hhi⟩, hset, hopen⟩
    refine ⟨⟨by omega, fun i h => hset i ((hdown i).mpr (.inl h)), fun i h => ?_⟩,
      by omega, fun i h => hset i ((hdown i).mpr (.inr h)), fun i h => ?_⟩
    all_goals
      have hup := hopen i h
      have := ha.lt_of_up (i := i)
      have := hb.lt_of_up (i := i)
      grind
  · rintro ⟨⟨⟨hlo, hhi⟩, hset, hopen⟩, ⟨hlo', hhi'⟩, hset', hopen'⟩
    refine ⟨by omega, fun i h => ((hdown i).mp h).elim (hset i) (hset' i), fun i h => ?_⟩
    rw [BitVec.getLsbD_and, hopen i h, hopen' i h, Bool.and_self]

theorem wellFormed_intersection : (a.intersection b).WellFormed := by
  have hmin := BitVec.sle_iff_toInt_le.mp ha.minValue_sle
  have hmax := BitVec.sle_iff_toInt_le.mp ha.sle_maxValue
  have hdown := hb.down_within
  have hup := hb.up_within
  rw [hbits] at hdown hup
  refine ⟨ha.bits_pos, ha.bits_le, ?_, ?_, ?_, ?_⟩
  · simp only [intersection, BitVec.sle_iff_toInt_le, Word.toInt_smax]
    omega
  · simp only [intersection, BitVec.sle_iff_toInt_le, Word.toInt_smin]
    omega
  · simp only [intersection, BitVec.and_or_distrib_right, ha.down_within, hdown]
  · simp only [intersection, BitVec.and_assoc, hup]

end Intersection

section Raised

variable {s : IntStamp} (hs : s.WellFormed)

include hs

/-- Below the size of a word no mask reaches the sign of the bound. -/
theorem msb_down (hlt : s.bits < 64) : s.down.msb = false := by
  rw [BitVec.msb_eq_getLsbD_last]
  exact (hs.masks_outside (by omega)).1

theorem wellFormed_raised : s.raised.WellFormed := by
  refine ⟨hs.bits_pos, hs.bits_le, ?_, hs.sle_maxValue, hs.down_within, hs.up_within⟩
  rw [BitVec.sle_iff_toInt_le]
  have hmin := BitVec.sle_iff_toInt_le.mp hs.minValue_sle
  rcases Nat.lt_or_ge s.bits 64 with hlt | hge
  · have hmsb := msb_down hs hlt
    exact Int.le_trans hmin (Word.toInt_le_or fun h => absurd (hmsb.symm.trans h) (by decide))
  · have hbits : s.bits = 64 := Nat.le_antisymm hs.bits_le hge
    have hle := BitVec.le_toInt (s.lo ||| s.down)
    simp only [raised, hbits, Word.toInt_minValue (Nat.le_refl 64)]
    exact hle

theorem contains_raised_iff {v : Word} (hv : s.contains v = true) :
    s.raised.contains v = true ↔ (s.lo ||| s.down).toInt ≤ v.toInt := by
  obtain ⟨⟨_, hhi⟩, hmasks⟩ := (contains_iff hs.bits_le v).mp hv
  rw [raised, contains_mk_iff hs.bits_le]
  exact ⟨fun h => h.1.1, fun h => ⟨⟨h, hhi⟩, hmasks⟩⟩

theorem contains_of_raised {v : Word} (hsign : 0 ≤ s.lo.toInt → 0 ≤ (s.lo ||| s.down).toInt)
    (hv : s.raised.contains v = true) : s.contains v = true := by
  obtain ⟨⟨hlo, hhi⟩, hmasks⟩ := (contains_mk_iff hs.bits_le _ _ _ _ v).mp hv
  have hle : s.lo.toInt ≤ (s.lo ||| s.down).toInt := by
    apply Word.toInt_le_or
    intro hd
    by_contra hlo
    have hneg : (s.lo ||| s.down).toInt < 0 := by
      apply BitVec.toInt_neg_of_msb_true
      rw [BitVec.msb_or, hd, Bool.or_true]
    have := hsign (BitVec.toInt_nonneg_of_msb_false (Bool.eq_false_of_not_eq_true hlo))
    omega
  exact (contains_iff hs.bits_le v).mpr ⟨⟨Int.le_trans hle hlo, hhi⟩, hmasks⟩

end Raised

theorem contains_join {a b : IntStamp} (ha : a.WellFormed) (hb : b.WellFormed)
    (hbits : b.bits = a.bits) (v : Word) :
    (a.join b).contains v = true ↔ (a.intersection b).raised.contains v = true := by
  have hs := wellFormed_raised (wellFormed_intersection ha hb hbits)
  have hcombine := contains_combine (wellFormed_ofBoundsWithin hs) v
  rw [contains_ofBoundsWithin hs.bits_le hs.up_within] at hcombine
  exact hcombine

def joinLo (a b : IntStamp) : Word := Word.smax a.lo b.lo ||| (a.down ||| b.down)

section Exactness

variable {a b : IntStamp} {v : Word} (ha : a.WellFormed) (hb : b.WellFormed)
  (hbits : b.bits = a.bits)

include ha hb hbits

theorem contains_join_of_both (hv : a.contains v = true ∧ b.contains v = true) :
    (a.join b).contains v = true ↔ (a.joinLo b).toInt ≤ v.toInt := by
  have hmem := (contains_intersection_iff ha hb hbits v).mpr hv
  rw [contains_join ha hb hbits, contains_raised_iff (wellFormed_intersection ha hb hbits) hmem]
  rfl

theorem both_of_contains_join (hsign : 0 ≤ (Word.smax a.lo b.lo).toInt → 0 ≤ (a.joinLo b).toInt)
    (hv : (a.join b).contains v = true) : a.contains v = true ∧ b.contains v = true := by
  rw [contains_join ha hb hbits] at hv
  rw [← contains_intersection_iff ha hb hbits]
  exact contains_of_raised (wellFormed_intersection ha hb hbits) hsign hv

/-- Only a mask that reaches the sign of a word can change that of a bound. -/
theorem bits_of_joinLo_neg (h0 : 0 ≤ (Word.smax a.lo b.lo).toInt)
    (hneg : (a.joinLo b).toInt < 0) : a.bits = 64 := by
  by_contra hne
  have hlt : a.bits < 64 := Nat.lt_of_le_of_ne ha.bits_le hne
  have hmsb := msb_down (wellFormed_intersection ha hb hbits) hlt
  have hle := Word.toInt_le_or (x := Word.smax a.lo b.lo) (d := (a.intersection b).down)
    fun h => absurd (hmsb.symm.trans h) (by decide)
  exact absurd (Int.le_trans h0 hle) (Int.not_le.mpr hneg)

theorem contains_join_of_joinLo (h : a.joinLo b = Word.smax a.lo b.lo) :
    (a.join b).contains v = true ↔ a.contains v = true ∧ b.contains v = true := by
  constructor
  · exact both_of_contains_join ha hb hbits (by rw [h]; exact id)
  · intro hv
    rw [contains_join_of_both ha hb hbits hv, h, Word.toInt_smax]
    obtain ⟨⟨hlo, _⟩, _, _⟩ := (contains_iff ha.bits_le v).mp hv.1
    obtain ⟨⟨hlo', _⟩, _, _⟩ := (contains_iff hb.bits_le v).mp hv.2
    omega

end Exactness

section Neutral

variable {s : IntStamp} (hs : s.WellFormed)

include hs

theorem joinLo_full : s.joinLo (full s.bits) = s.lo ||| s.down := by
  have hmin := BitVec.sle_iff_toInt_le.mp hs.minValue_sle
  have hmax : Word.smax s.lo (Word.minValue s.bits) = s.lo := by
    apply BitVec.eq_of_toInt_eq
    rw [Word.toInt_smax]
    omega
  simp [joinLo, full, hmax]

theorem full_joinLo : (full s.bits).joinLo s = s.lo ||| s.down := by
  have hmin := BitVec.sle_iff_toInt_le.mp hs.minValue_sle
  have hmax : Word.smax (Word.minValue s.bits) s.lo = s.lo := by
    apply BitVec.eq_of_toInt_eq
    rw [Word.toInt_smax]
    omega
  simp [joinLo, full, hmax]

end Neutral

/-- A common value of two stamps is one of their join exactly if it is not below the raised bound, and
the join has no other values unless raising made the bound negative. -/
theorem contains_join_iff {a b : IntStamp} (ha : a.WellFormed) (hb : b.WellFormed)
    (hbits : a.bits = b.bits) (v : Word) :
    (a.contains v = true ∧ b.contains v = true →
      ((a.join b).contains v = true ↔ (a.joinLo b).toInt ≤ v.toInt)) ∧
    ((a.join b).contains v = true →
      a.contains v = true ∧ b.contains v = true ∨
        a.bits = 64 ∧ 0 ≤ (Word.smax a.lo b.lo).toInt ∧ (a.joinLo b).toInt < 0) ∧
    (a.joinLo b = Word.smax a.lo b.lo →
      ((a.join b).contains v = true ↔ a.contains v = true ∧ b.contains v = true)) ∧
    (a.contains v = true →
      ((a.join (full a.bits)).contains v = true ↔ (a.lo ||| a.down).toInt ≤ v.toInt) ∧
      (((full a.bits).join a).contains v = true ↔ (a.lo ||| a.down).toInt ≤ v.toInt)) := by
  refine ⟨contains_join_of_both ha hb hbits.symm, ?_, contains_join_of_joinLo ha hb hbits.symm, ?_⟩
  · intro hv
    by_cases hsign : 0 ≤ (Word.smax a.lo b.lo).toInt ∧ (a.joinLo b).toInt < 0
    · exact .inr ⟨bits_of_joinLo_neg ha hb hbits.symm hsign.1 hsign.2, hsign⟩
    · exact .inl (both_of_contains_join ha hb hbits.symm (by omega) hv)
  · intro hv
    have hf := wellFormed_full ha.bits_pos ha.bits_le
    have hfv := contains_full ha.bits_le (ha.fits_of_contains hv)
    rw [contains_join_of_both ha hf rfl ⟨hv, hfv⟩, contains_join_of_both hf ha rfl ⟨hfv, hv⟩,
      joinLo_full ha, full_joinLo ha]
    exact ⟨Iff.rfl, Iff.rfl⟩

/-- The values from five to seven, and those with the second bit. -/
theorem contains_join_iff_masked :
    (ofBounds 32 5 7).WellFormed ∧ ((full 32).or (single 32 2)).WellFormed ∧
      (ofBounds 32 5 7).contains 6 = true ∧ ((full 32).or (single 32 2)).contains 6 = true ∧
      (((ofBounds 32 5 7).join ((full 32).or (single 32 2))).contains 6 = true ↔
        ((ofBounds 32 5 7).joinLo ((full 32).or (single 32 2))).toInt ≤ 6) := by
  have ha : (ofBounds 32 5 7).WellFormed := by decide
  have hb : ((full 32).or (single 32 2)).WellFormed := by decide
  have hv : (ofBounds 32 5 7).contains 6 = true := by decide
  have hu : ((full 32).or (single 32 2)).contains 6 = true := by decide
  exact ⟨ha, hb, hv, hu, (contains_join_iff ha hb rfl 6).1 ⟨hv, hu⟩⟩

/-- Raised by the second bit, five becomes seven: six is lost, and the join is a constant. A loose stamp
loses six even if it is joined with all values. Among words, the mask of the sign turns a bound of zero
into the least value, and lets in what is negative. -/
theorem six_lost_in_join :
    ((ofBounds 32 5 7).contains 6 = true ∧ ((full 32).or (single 32 2)).contains 6 = true ∧
      ((ofBounds 32 5 7).join ((full 32).or (single 32 2))).contains 6 = false ∧
      ((ofBounds 32 5 7).join ((full 32).or (single 32 2))).constant? =
        some (.primitive .int 7)) ∧
    (WellFormed ⟨32, 5, 7, 2, 7⟩ ∧ contains ⟨32, 5, 7, 2, 7⟩ 6 = true ∧
      (join ⟨32, 5, 7, 2, 7⟩ (full 32)).contains 6 = false) ∧
    (WellFormed ⟨64, 0, 9, 0, BitVec.allOnes 64⟩ ∧
      contains ⟨64, 0, 9, 0, BitVec.allOnes 64⟩ (-1) = false ∧
      (join ⟨64, 0, 9, 0, BitVec.allOnes 64⟩
        ((full 64).or (single 64 (Word.minValue 64)))).contains (-1) = true) := by
  decide

end IntStamp

end CompilerKit
