import CompilerKit.FloatingPoint.Double
import Mathlib

/-! # Equal numbers

Two floating point numbers are equal if they are the same infinity or have the same value. What is not a
number has none, so that equality is symmetric and transitive, and reflexive on numbers only.
-/

namespace CompilerKit.FloatingPoint

namespace Datum

def value (negative : Bool) (m : Nat) (e : Int) : ℚ := (if negative then -1 else 1) * m * 2 ^ e

def number? : Datum → Option (Bool ⊕ ℚ)
  | .nan => none
  | .infinite negative => some (.inl negative)
  | .finite negative m e => some (.inr (value negative m e))

theorem scaled_eq {negative : Bool} {m : Nat} {e place : Int} (h : place ≤ e) :
    (scaled negative m e place : ℚ) = value negative m e / 2 ^ place := by
  have hpow : (2 : ℚ) ^ (e - place).toNat = 2 ^ e / 2 ^ place := by
    rw [← zpow_sub₀ two_ne_zero, ← zpow_natCast, Int.toNat_of_nonneg (Int.sub_nonneg.mpr h)]
  rw [scaled, value, mul_div_assoc, ← hpow]
  cases negative with
  | false => simp
  | true => simp

theorem compare_eq_iff (x y : Datum) :
    x.compare y = some .eq ↔ ∃ v, x.number? = some v ∧ y.number? = some v := by
  cases x with
  | nan => simp [compare, number?]
  | infinite a =>
    cases y with
    | nan => simp [compare, number?]
    | infinite b => cases a <;> cases b <;> simp [compare, number?]
    | finite b n d => cases a <;> simp [compare, number?]
  | finite a m e =>
    cases y with
    | nan => simp [compare, number?]
    | infinite b => cases b <;> simp [compare, number?]
    | finite b n d =>
      have hscaled : scaled a m e (min e d) = scaled b n d (min e d) ↔ value a m e = value b n d := by
        rw [← Int.cast_inj (α := ℚ), scaled_eq (min_le_left e d), scaled_eq (min_le_right e d),
          div_left_inj' (zpow_ne_zero _ two_ne_zero)]
      simp only [compare, number?, Option.some.injEq, compare_eq_iff_eq, hscaled]
      simp [eq_comm]

end Datum

namespace Double

theorem beq_iff (x y : Double) :
    x.beq y = true ↔ ∃ v, x.datum.number? = some v ∧ y.datum.number? = some v := by
  rw [beq, decide_eq_true_eq, Datum.compare_eq_iff]

theorem beq_symm {x y : Double} (h : x.beq y = true) : y.beq x = true := by
  obtain ⟨v, hx, hy⟩ := (beq_iff x y).mp h
  exact (beq_iff y x).mpr ⟨v, hy, hx⟩

theorem beq_trans {x y z : Double} (h : x.beq y = true) (h' : y.beq z = true) : x.beq z = true := by
  obtain ⟨v, hx, hy⟩ := (beq_iff x y).mp h
  obtain ⟨w, hy', hz⟩ := (beq_iff y z).mp h'
  obtain rfl : v = w := Option.some.inj (hy.symm.trans hy')
  exact (beq_iff x z).mpr ⟨v, hx, hz⟩

end Double

/-! ## Sign -/

namespace Format

theorem encodeFinite_le_infinity (f : Format) (m : Nat) (e : Int) :
    f.encodeFinite false m e ≤ f.infinity false := by
  have hsign : f.signOf false = 0 := rfl
  unfold encodeFinite
  rw [hsign]
  split
  · exact Nat.zero_le _
  · dsimp only
    split_ifs <;> omega

end Format

namespace Double

theorem datum_zero : Double.zero.datum = .finite false 0 (-1074) := by decide +kernel

theorem ofDatum_not_lt_zero (m : Nat) (e : Int) : (ofDatum (.finite false m e)).lt .zero = false := by
  have hbits : (ofDatum (.finite false m e)).bits.toNat < 2 ^ 63 := by
    have hle := Format.double.encodeFinite_le_infinity m e
    have hlt : Format.double.infinity false < 2 ^ 63 := by decide
    exact (Nat.mod_le _ _).trans_lt (hle.trans_lt hlt)
  -- The sign is the highest bit.
  have hsign := Nat.testBit_lt_two_pow hbits
  have hposition : Format.double.signPosition = 63 := rfl
  generalize ofDatum (.finite false m e) = x at hsign
  have hdatum : x.datum = .nan ∨ x.datum = .infinite false ∨ ∃ m e, x.datum = .finite false m e := by
    rw [datum, Format.decode, hposition, hsign]
    grind
  rw [lt, datum_zero]
  rcases hdatum with hx | hx | ⟨m, e, hx⟩
  · rw [hx]
    rfl
  · rw [hx]
    rfl
  · rw [hx]
    simp [Datum.compare, Datum.scaled, compare_lt_iff_lt]

theorem div_ten_not_lt_zero {x : Double} (h : Double.zero.le x = true) : (x.div 10).lt .zero = false := by
  have hten : (10 : Double).datum = .finite false 5629499534213120 (-49) := by decide +kernel
  rw [le, datum_zero] at h
  rw [div, hten]
  cases hx : x.datum with
  | nan =>
    rw [hx] at h
    cases h
  | infinite negative =>
    rw [hx] at h
    cases negative with
    | true => cases h
    | false => decide +kernel
  | finite negative m e =>
    rw [hx] at h
    cases negative with
    | false =>
      rw [Datum.div, if_neg (by decide)]
      exact ofDatum_not_lt_zero _ _
    | true =>
      have hm : m = 0 := by
        have hle : ((m * Nat.pow 2 (e - Min.min (-1074) e).toNat : Nat) : Int) ≤ 0 := by
          simpa [Datum.compare, Datum.scaled, Int.isLE_compare] using h
        have hpow : 0 < Nat.pow 2 (e - Min.min (-1074) e).toNat := Nat.pow_pos (by decide)
        exact (Nat.mul_eq_zero.mp (by omega)).resolve_right hpow.ne'
      subst hm
      have hquotient : ofDatum ((Datum.finite true 0 e).div (.finite false 5629499534213120 (-49))) =
          ofDatum (.finite true 0 0) := by
        simp [Datum.div, ofDatum, Format.encode, Format.encodeFinite]
      rw [hquotient]
      decide +kernel

end Double

end CompilerKit.FloatingPoint
