import CompilerKit.Proofs.Stamp.Membership

/-! # Stamps that lose nothing

A stamp says all that bounds and masks can say about a set of values when its bounds are the ends of the
set and its masks hold exactly the bits that all, or some, of the values have. The stamp of an interval
and the stamp of two masks are of this kind.
-/

namespace CompilerKit

namespace Word

/-- Between two numbers lies a carry into the highest bit in which they differ. -/
theorem exists_carry {a c q : Nat} (hac : a < c) (hge : 2 ^ q ≤ a ^^^ c) (hlt : a ^^^ c < 2 ^ (q + 1)) :
    ∃ m, a ≤ m ∧ m + 1 ≤ c ∧
      ∀ i ≤ q, m.testBit i = decide (i < q) ∧ (m + 1).testBit i = decide (i = q) := by
  have hpos : 0 < 2 ^ q := Nat.two_pow_pos q
  have hxor : a / 2 ^ q ^^^ c / 2 ^ q = 1 := by
    rw [← Nat.shiftRight_eq_div_pow, ← Nat.shiftRight_eq_div_pow, ← Nat.shiftRight_xor_distrib,
      Nat.shiftRight_eq_div_pow]
    exact Nat.div_eq_of_lt_le (by omega) (by rw [Nat.pow_succ] at hlt; omega)
  obtain ⟨hnext, heven⟩ : c / 2 ^ q = a / 2 ^ q + 1 ∧ a / 2 ^ q % 2 = 0 := by
    have hle : a / 2 ^ q ≤ c / 2 ^ q := Nat.div_le_div_right hac.le
    have hhalf : a / 2 ^ q / 2 = c / 2 ^ q / 2 := by
      rw [← Nat.xor_eq_zero_iff, ← Nat.xor_div_two, hxor]
    have hmod := Nat.xor_mod_two_eq (m := a / 2 ^ q) (n := c / 2 ^ q)
    rw [hxor] at hmod
    omega
  have hsplit := Nat.div_add_mod a (2 ^ q)
  have hrest := Nat.mod_lt a hpos
  have hbelow := Nat.mul_div_le c (2 ^ q)
  have hcarry : 2 ^ q * (a / 2 ^ q) + (2 ^ q - 1) + 1 = 2 ^ q * (c / 2 ^ q) + 0 := by
    rw [hnext, Nat.mul_add]
    omega
  refine ⟨2 ^ q * (a / 2 ^ q) + (2 ^ q - 1), by omega, by omega, fun i hi => ?_⟩
  rw [hcarry, Nat.testBit_two_pow_mul_add _ (by omega), Nat.testBit_two_pow_mul_add _ hpos,
    Nat.testBit_two_pow_sub_one]
  by_cases h : i < q
  · simp [h, h.ne]
  · obtain rfl : i = q := by omega
    simp only [Nat.lt_irrefl, if_false, Nat.sub_self, Nat.testBit_zero, decide_false, decide_true,
      decide_eq_false_iff_not, decide_eq_true_eq]
    omega

theorem two_pow_le_of_leadingZeros {x : Word} (hx : x ≠ 0) : 2 ^ (63 - leadingZeros x) ≤ x.toNat := by
  have hne : x.toNat ≠ 0 := fun h => hx (BitVec.eq_of_toNat_eq h)
  have hlog : x.toNat.log2 < 64 := (Nat.log2_lt hne).mpr x.isLt
  rw [leadingZeros, if_neg hx, show 63 - (63 - x.toNat.log2) = x.toNat.log2 by omega]
  exact Nat.log2_self_le hne

theorem getLsbD_signExtend_of_lt {w : Nat} (h0 : 0 < w) (hw : w ≤ 64) (x : Word) {i : Nat} (hi : i < w) :
    (signExtend x w).getLsbD i = x.getLsbD i := by
  rw [signExtend_eq h0 hw, getLsbD_ofLow_of_lt hw _ hi, getLsbD_low, decide_eq_true hi, Bool.true_and]

theorem fits_signExtend {w : Nat} (h0 : 0 < w) (hw : w ≤ 64) (x : Word) : Fits w (signExtend x w) := by
  rw [signExtend_eq h0 hw]
  exact fits_ofLow hw _

end Word

namespace IntStamp

/-- What bounds and masks can say about some values of a width, a stamp says. -/
structure Describes (s : IntStamp) (w : Nat) (values : Set Word) : Prop where
  bits_eq : s.bits = w
  contains_iff : ∀ v, s.contains v = true ↔ v ∈ values
  lo_mem : s.lo ∈ values
  lo_le : ∀ v ∈ values, s.lo.toInt ≤ v.toInt
  hi_mem : s.hi ∈ values
  le_hi : ∀ v ∈ values, v.toInt ≤ s.hi.toInt
  down_iff : ∀ i, s.down.getLsbD i = true ↔ i < w ∧ ∀ v ∈ values, v.getLsbD i = true
  up_iff : ∀ i, s.up.getLsbD i = true ↔ i < w ∧ ∃ v ∈ values, v.getLsbD i = true

def interval (lo hi : Word) : Set Word := {v | lo.toInt ≤ v.toInt ∧ v.toInt ≤ hi.toInt}

/-- The values of a width that have all bits of one mask and no bits outside another. -/
def masked (w : Nat) (down up : Word) : Set Word :=
  {v | Word.Fits w v ∧ ∀ i < w, (down.getLsbD i = true → v.getLsbD i = true) ∧
    (v.getLsbD i = true → up.getLsbD i = true)}

section Bounds

variable {w : Nat} {lo hi : Word} {i : Nat}

/-- Up to the highest bit in which bounds of one sign differ, both values of a bit occur. -/
theorem exists_mem_interval (hne : lo ≠ hi) (hle : lo.toInt ≤ hi.toInt)
    (hs : 0 ≤ lo.toInt ∨ hi.toInt < 0) (hi64 : i + Word.leadingZeros (lo ^^^ hi) < 64) (b : Bool) :
    ∃ v ∈ interval lo hi, v.getLsbD i = b := by
  have hlow := BitVec.toInt_eq_toNat_cond lo
  have hhigh := BitVec.toInt_eq_toNat_cond hi
  have hnat : lo.toNat ≤ hi.toNat := Word.toNat_le_of_sameSign hle hs
  have hdiff : lo.toNat ≠ hi.toNat := fun h => hne (BitVec.eq_of_toNat_eq h)
  have hge := Word.two_pow_le_of_leadingZeros (xor_ne_zero hne)
  have hlt := Word.toNat_lt_leadingZeros (lo ^^^ hi)
  rw [BitVec.toNat_xor] at hge hlt
  rw [show 64 - Word.leadingZeros (lo ^^^ hi) = 63 - Word.leadingZeros (lo ^^^ hi) + 1 by omega] at hlt
  obtain ⟨m, hm, hm', bits⟩ := Word.exists_carry (by omega) hge hlt
  have mem : ∀ n, lo.toNat ≤ n → n ≤ hi.toNat → BitVec.ofNat 64 n ∈ interval lo hi := by
    intro n hn hn'
    have hsmall : n < 2 ^ 64 := Nat.lt_of_le_of_lt hn' hi.isLt
    have hword := BitVec.toInt_eq_toNat_cond (BitVec.ofNat 64 n)
    rw [BitVec.toNat_ofNat, Nat.mod_eq_of_lt hsmall] at hword
    constructor <;> split at hlow <;> split at hhigh <;> split at hword <;> omega
  have read : ∀ n, (BitVec.ofNat 64 n).getLsbD i = n.testBit i := by
    intro n
    rw [BitVec.getLsbD_ofNat, decide_eq_true (by omega), Bool.true_and]
  -- the two numbers next to the carry differ in every bit up to it
  have hbit : m.testBit i = b ∨ (m + 1).testBit i = b := by
    rw [(bits i (by omega)).1, (bits i (by omega)).2]
    cases b <;> simp <;> omega
  rcases hbit with hbit | hbit
  · exact ⟨_, mem m hm (by omega), (read m).trans hbit⟩
  · exact ⟨_, mem (m + 1) (by omega) hm', (read (m + 1)).trans hbit⟩

theorem exists_of_boundMasks (hw : w ≤ 64) (hne : lo ≠ hi) (hle : lo.toInt ≤ hi.toInt) (hiw : i < w) :
    ((boundMasks w lo hi).1.getLsbD i = false → ∃ v ∈ interval lo hi, v.getLsbD i = false) ∧
      ((boundMasks w lo hi).2.getLsbD i = true → ∃ v ∈ interval lo hi, v.getLsbD i = true) := by
  have hlt := Word.leadingZeros_lt (xor_ne_zero hne)
  have hi64 : i < 64 := by omega
  have lo_mem : lo ∈ interval lo hi := ⟨Int.le_refl _, hle⟩
  have hi_mem : hi ∈ interval lo hi := ⟨hle, Int.le_refl _⟩
  unfold boundMasks
  split
  case isTrue h0 =>
    have hz := (Word.zero_sle_iff lo).mp h0
    simp only [leadingZeros_of_nonneg hne hz hle, BitVec.getLsbD_and, BitVec.getLsbD_or,
      BitVec.getLsbD_not, Word.getLsbD_ushr_allOnes hlt]
    by_cases hfree : i + Word.leadingZeros (lo ^^^ hi) < 64
    · exact ⟨fun _ => exists_mem_interval hne hle (.inl hz) hfree false,
        fun _ => exists_mem_interval hne hle (.inl hz) hfree true⟩
    · exact ⟨fun h => ⟨hi, hi_mem, by simpa [hfree, hi64] using h⟩,
        fun h => ⟨hi, hi_mem, by simpa [hfree] using h⟩⟩
  case isFalse h0 =>
    rw [Word.zero_sle_iff] at h0
    split
    case isTrue h1 =>
      -- the interval holds zero and its predecessor
      rw [Word.zero_sle_iff] at h1
      have zero_mem : (0 : Word) ∈ interval lo hi := ⟨by simp; omega, by simpa using h1⟩
      have ones_mem : BitVec.allOnes 64 ∈ interval lo hi := by
        have hone : (BitVec.allOnes 64).toInt = -1 := by decide
        constructor <;> omega
      refine ⟨fun _ => ⟨0, zero_mem, by simp⟩, fun _ => ⟨_, ones_mem, ?_⟩⟩
      rw [BitVec.getLsbD_allOnes, decide_eq_true hi64]
    case isFalse h1 =>
      rw [Word.zero_sle_iff] at h1
      have hz : hi.toInt < 0 := by omega
      have hsum := leadingZeros_of_neg hne hz hle
      have hlead : Word.leadingZeros (~~~lo) < 64 := by omega
      have hones : ¬i + Word.leadingZeros (~~~lo) < 64 → lo.getLsbD i = true :=
        fun h => getLsbD_of_leadingZeros_not hi64 (by omega)
      simp only [hsum, BitVec.getLsbD_and, BitVec.getLsbD_or, BitVec.getLsbD_not,
        Word.getLsbD_ushr_allOnes hlt, Word.getLsbD_ushr_allOnes hlead]
      by_cases hfree : i + Word.leadingZeros (lo ^^^ hi) < 64
      · exact ⟨fun _ => exists_mem_interval hne hle (.inr hz) hfree false,
          fun _ => exists_mem_interval hne hle (.inr hz) hfree true⟩
      · exact ⟨fun h => ⟨lo, lo_mem, by grind⟩, fun h => ⟨lo, lo_mem, by grind⟩⟩

theorem ofBounds_masks_lt (hw : w ≤ 64) :
    ((ofBounds w lo hi).down.getLsbD i = true → i < w) ∧
      ((ofBounds w lo hi).up.getLsbD i = true → i < w) := by
  unfold ofBounds
  split <;>
    exact ⟨fun h => ((getLsbD_and_mask hw _ i).mp h).2, fun h => ((getLsbD_and_mask hw _ i).mp h).2⟩

theorem exists_of_ofBounds (hw : w ≤ 64) (hle : lo.toInt ≤ hi.toInt) (hiw : i < w) :
    ((ofBounds w lo hi).down.getLsbD i = false → ∃ v ∈ interval lo hi, v.getLsbD i = false) ∧
      ((ofBounds w lo hi).up.getLsbD i = true → ∃ v ∈ interval lo hi, v.getLsbD i = true) := by
  have masked : ∀ x : Word, (x &&& Word.mask w).getLsbD i = x.getLsbD i := by
    intro x
    rw [BitVec.getLsbD_and, Word.getLsbD_mask hw, decide_eq_true hiw, Bool.and_true]
  unfold ofBounds
  split
  · rw [masked]
    exact ⟨fun h => ⟨lo, ⟨Int.le_refl _, hle⟩, h⟩, fun h => ⟨lo, ⟨Int.le_refl _, hle⟩, h⟩⟩
  · rename_i hne
    simp only [masked]
    exact exists_of_boundMasks hw hne hle hiw

theorem describes_ofBounds (hw : w ≤ 64) (hle : lo.toInt ≤ hi.toInt) :
    (ofBounds w lo hi).Describes w (interval lo hi) where
  bits_eq := ofBounds_bits w lo hi
  contains_iff _ := contains_ofBounds_iff hw
  lo_mem := by
    rw [ofBounds_lo]
    exact ⟨Int.le_refl _, hle⟩
  lo_le v hv := by
    rw [ofBounds_lo]
    exact hv.1
  hi_mem := by
    rw [ofBounds_hi]
    exact ⟨hle, Int.le_refl _⟩
  le_hi v hv := by
    rw [ofBounds_hi]
    exact hv.2
  down_iff i := by
    constructor
    · intro h
      exact ⟨(ofBounds_masks_lt hw).1 h, fun v hv => (getLsbD_of_ofBounds hw hv.1 hv.2 i).1 h⟩
    · rintro ⟨hiw, all⟩
      by_contra hb
      obtain ⟨v, hv, hbit⟩ := (exists_of_ofBounds hw hle hiw).1 (by simpa using hb)
      rw [all v hv] at hbit
      cases hbit
  up_iff i := by
    constructor
    · intro h
      have hiw := (ofBounds_masks_lt hw).2 h
      exact ⟨hiw, (exists_of_ofBounds hw hle hiw).2 h⟩
    · rintro ⟨hiw, v, hv, hbit⟩
      rw [(getLsbD_of_ofBounds hw hv.1 hv.2 i).2 hbit, decide_eq_true hiw]

end Bounds

section Masks

variable {w : Nat} {down up : Word}

theorem signExtend_mem_masked (h0 : 0 < w) (hw : w ≤ 64) {x : Word}
    (h : ∀ i < w, (down.getLsbD i = true → x.getLsbD i = true) ∧
      (x.getLsbD i = true → up.getLsbD i = true)) :
    Word.signExtend x w ∈ masked w down up := by
  refine ⟨Word.fits_signExtend h0 hw x, fun i hi => ?_⟩
  rw [Word.getLsbD_signExtend_of_lt h0 hw x hi]
  exact h i hi

theorem ofMasks_ends_mem (h0 : 0 < w) (hw : w ≤ 64)
    (hsub : ∀ i, down.getLsbD i = true → up.getLsbD i = true) :
    (ofMasks w down up).lo ∈ masked w down up ∧ (ofMasks w down up).hi ∈ masked w down up := by
  have hlast : w - 1 < 64 := by omega
  have ends : Word.signExtend down w ∈ masked w down up ∧ Word.signExtend up w ∈ masked w down up :=
    ⟨signExtend_mem_masked h0 hw fun i _ => ⟨id, hsub i⟩,
      signExtend_mem_masked h0 hw fun i _ => ⟨hsub i, id⟩⟩
  unfold ofMasks
  simp only [Word.ushr_and_one_eq_zero up hlast, Word.ushr_and_one_eq_one down hlast]
  split
  · exact ends
  · rename_i hup
    split
    · exact ends
    · rename_i hdown
      -- the sign is open: the least value has it, the greatest does not
      refine ⟨signExtend_mem_masked h0 hw fun i hi => ?_, signExtend_mem_masked h0 hw fun i hi => ?_⟩
      · rw [BitVec.getLsbD_or, Word.getLsbD_shl_allOnes hlast]
        by_cases hsign : i = w - 1
        · subst hsign
          simp [hup, hlast]
        · simpa [show ¬w - 1 ≤ i by omega] using hsub i
      · rw [BitVec.getLsbD_and, Word.getLsbD_maxValue hw]
        by_cases hsign : i = w - 1
        · subst hsign
          simp [hdown]
        · simpa [show i < w - 1 by omega] using hsub i

theorem contains_ofMasks_iff (h0 : 0 < w) (hw : w ≤ 64)
    (hsub : ∀ i, down.getLsbD i = true → up.getLsbD i = true)
    (hin : ∀ i, up.getLsbD i = true → i < w) (v : Word) :
    (ofMasks w down up).contains v = true ↔ v ∈ masked w down up := by
  constructor
  · intro hv
    obtain ⟨⟨hlo, hhi⟩, hdown, hup⟩ := (contains_mk_iff hw _ _ down up v).mp hv
    obtain ⟨lo_mem, hi_mem⟩ := ofMasks_ends_mem h0 hw hsub
    refine ⟨⟨lo_mem.1.1.trans hlo, hhi.trans_lt hi_mem.1.2⟩, fun i hi => ⟨hdown i, fun hb => ?_⟩⟩
    rw [hup i hb, decide_eq_true hi]
  · rintro ⟨fits, bits⟩
    exact contains_ofMasks h0 hw fits (fun i hb => (bits i (hin i (hsub i hb))).1 hb)
      (fun i hi => (bits i hi).2) hin

theorem describes_ofMasks (h0 : 0 < w) (hw : w ≤ 64)
    (hsub : ∀ i, down.getLsbD i = true → up.getLsbD i = true)
    (hin : ∀ i, up.getLsbD i = true → i < w) : (ofMasks w down up).Describes w (masked w down up) where
  bits_eq := rfl
  contains_iff := contains_ofMasks_iff h0 hw hsub hin
  lo_mem := (ofMasks_ends_mem h0 hw hsub).1
  lo_le v hv := ((contains_iff hw v).mp ((contains_ofMasks_iff h0 hw hsub hin v).mpr hv)).1.1
  hi_mem := (ofMasks_ends_mem h0 hw hsub).2
  le_hi v hv := ((contains_iff hw v).mp ((contains_ofMasks_iff h0 hw hsub hin v).mpr hv)).1.2
  down_iff i := by
    constructor
    · intro (hb : down.getLsbD i = true)
      have hi := hin i (hsub i hb)
      exact ⟨hi, fun v hv => (hv.2 i hi).1 hb⟩
    · rintro ⟨hi, all⟩
      have hb := all _ (signExtend_mem_masked h0 hw fun j _ => ⟨id, hsub j⟩)
      rwa [Word.getLsbD_signExtend_of_lt h0 hw down hi] at hb
  up_iff i := by
    constructor
    · intro (hb : up.getLsbD i = true)
      refine ⟨hin i hb, _, signExtend_mem_masked h0 hw fun j _ => ⟨hsub j, id⟩, ?_⟩
      rwa [Word.getLsbD_signExtend_of_lt h0 hw up (hin i hb)]
    · rintro ⟨hi, v, hv, hb⟩
      exact (hv.2 i hi).2 hb

end Masks

/-- The stamp of an interval and the stamp of two masks say all that can be said about their values. -/
theorem bounds_and_masks_describe (w : Nat) (h0 : 0 < w) (hw : w ≤ 64) :
    (∀ lo hi : Word, lo.sle hi = true → (ofBounds w lo hi).Describes w (interval lo hi)) ∧
    ∀ down up : Word, up &&& down = down → Word.mask w &&& up = up →
      (ofMasks w down up).Describes w (masked w down up) := by
  constructor
  · intro lo hi hle
    exact describes_ofBounds hw (BitVec.sle_iff_toInt_le.mp hle)
  · intro down up hsub hin
    apply describes_ofMasks h0 hw ((and_eq_right_iff up down).mp hsub)
    intro i hb
    have hmask := (and_eq_right_iff (Word.mask w) up).mp hin i hb
    rw [Word.getLsbD_mask hw] at hmask
    exact of_decide_eq_true hmask

/-- A negative interval, and masks that leave the sign open. -/
theorem bounds_and_masks_describe_bytes :
    (ofBounds 8 (-7) (-5) = ⟨8, -7, -5, 0xf8, 0xfb⟩ ∧
      (ofBounds 8 (-7) (-5)).Describes 8 (interval (-7) (-5))) ∧
    ofMasks 8 0x02 0x8b = ⟨8, -126, 11, 0x02, 0x8b⟩ ∧
      (ofMasks 8 0x02 0x8b).Describes 8 (masked 8 0x02 0x8b) := by
  obtain ⟨bounds, masks⟩ := bounds_and_masks_describe 8 (by decide) (by decide)
  exact ⟨⟨by decide, bounds _ _ (by decide)⟩, by decide, masks _ _ (by decide) (by decide)⟩

end IntStamp

end CompilerKit
