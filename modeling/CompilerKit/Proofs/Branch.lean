import CompilerKit.Canonical.Compare
import CompilerKit.Proofs.Comparison
import CompilerKit.Proofs.Stamp.Join
import CompilerKit.Proofs.Stamp.Sum

/-! # What comparisons tell

Where the stamps of its operands decide a comparison, the operands' values agree with it. Where the
comparison is taken to hold or to fail, the stamps that are learnt keep the values for which it does.
-/

namespace CompilerKit

namespace Word

theorem toInt_sub_one {x v : Word} (h : v.toInt < x.toInt) : (x - 1).toInt = x.toInt - 1 := by
  have hlow := BitVec.le_toInt v
  have hhigh := BitVec.toInt_lt (x := x)
  have hone : (1 : Word).toInt = 1 := rfl
  rw [BitVec.toInt_sub, hone, bmod_of_range (w := 64) (by decide) (by omega) (by omega)]

theorem toInt_add_one {x v : Word} (h : x.toInt < v.toInt) : (x + 1).toInt = x.toInt + 1 := by
  have hlow := BitVec.le_toInt x
  have hhigh := BitVec.toInt_lt (x := v)
  have hone : (1 : Word).toInt = 1 := rfl
  rw [BitVec.toInt_add, hone, bmod_of_range (w := 64) (by decide) (by omega) (by omega)]

end Word

namespace IntStamp

theorem contains_within {s : IntStamp} {lo hi v : Word} (hs : s.WellFormed)
    (hv : s.contains v = true) (hlo : lo.toInt ≤ v.toInt) (hhi : v.toInt ≤ hi.toInt) :
    (ofBoundsWithin s.bits lo hi s).contains v = true := by
  obtain ⟨_, hmasks⟩ := (contains_iff hs.bits_le v).mp hv
  rw [contains_ofBoundsWithin hs.bits_le hs.up_within, contains_mk_iff hs.bits_le]
  exact ⟨⟨hlo, hhi⟩, hmasks⟩

namespace Summands

variable {a b : IntStamp} {v u : Word} (h : Summands a b v u)

include h

theorem bounds : (a.lo.toInt ≤ v.toInt ∧ v.toInt ≤ a.hi.toInt) ∧
    b.lo.toInt ≤ u.toInt ∧ u.toInt ≤ b.hi.toInt :=
  ⟨((contains_iff h.left.bits_le v).mp h.left_contains).1,
    ((contains_iff h.right.bits_le u).mp h.right_contains).1⟩

theorem toInt_low : (Word.low a.bits v).toInt = v.toInt ∧ (Word.low a.bits u).toInt = u.toInt := by
  have hright := h.right.fits_of_contains h.right_contains
  rw [h.bits_eq] at hright
  exact ⟨Word.toInt_low_of_fits h.left.bits_pos h.left.bits_le
      (h.left.fits_of_contains h.left_contains),
    Word.toInt_low_of_fits h.left.bits_pos h.left.bits_le hright⟩

theorem slt_iff : (Word.low a.bits v).slt (Word.low a.bits u) = true ↔ v.toInt < u.toInt := by
  rw [BitVec.slt_iff_toInt_lt, h.toInt_low.1, h.toInt_low.2]

theorem ult_iff : (Word.low a.bits v).ult (Word.low a.bits u) = true ↔
    0 ≤ v.toInt ∧ u.toInt < 0 ∨ v.toInt < u.toInt ∧ (0 ≤ v.toInt ∨ u.toInt < 0) := by
  rw [Word.ult_iff_toInt, h.toInt_low.1, h.toInt_low.2]

theorem contains_within_right {lo hi : Word} (hlo : lo.toInt ≤ u.toInt) (hhi : u.toInt ≤ hi.toInt) :
    (ofBoundsWithin a.bits lo hi b).contains u = true := by
  rw [← h.bits_eq]
  exact contains_within h.right h.right_contains hlo hhi

/-! The truth that the stamps decide. -/

theorem decideLess_eq : ∀ t ∈ a.decideLess b,
    t = (Word.low a.bits v).slt (Word.low a.bits u) := by
  intro t ht
  obtain ⟨⟨hlo, hhi⟩, hlo', hhi'⟩ := h.bounds
  rw [Bool.eq_iff_iff, h.slt_iff]
  simp only [decideLess, Option.mem_def, BitVec.slt_iff_toInt_lt, BitVec.sle_iff_toInt_le] at ht
  split at ht
  · cases ht
    exact iff_of_true rfl (by omega)
  · split at ht
    · cases ht
      exact iff_of_false Bool.false_ne_true (by omega)
    · cases ht

theorem decideBelow_eq : ∀ t ∈ a.decideBelow b,
    t = (Word.low a.bits v).ult (Word.low a.bits u) := by
  intro t ht
  obtain ⟨⟨hlo, hhi⟩, hlo', hhi'⟩ := h.bounds
  rw [Bool.eq_iff_iff, h.ult_iff]
  simp only [decideBelow, Option.mem_def, Bool.and_eq_true, Bool.or_eq_true, isPositive_iff,
    isStrictlyNegative_iff, BitVec.slt_iff_toInt_lt, BitVec.sle_iff_toInt_le] at ht
  split at ht
  · split at ht
    · cases ht
      exact iff_of_true rfl (by omega)
    · split at ht
      · cases ht
        exact iff_of_false Bool.false_ne_true (by omega)
      · cases ht
  · cases ht

/-! What is learnt of the operands, signed. -/

theorem contains_lessHoldsX (hlt : (Word.low a.bits v).slt (Word.low a.bits u) = true) :
    ∀ s ∈ a.lessHoldsX b, s.contains v = true := by
  intro s hs
  obtain ⟨⟨hlo, hhi⟩, hlo', hhi'⟩ := h.bounds
  rw [h.slt_iff] at hlt
  have hpred := Word.toInt_sub_one (Int.lt_of_lt_of_le hlt hhi')
  simp only [lessHoldsX, Option.mem_def, Option.ite_none_left_eq_some,
    Option.ite_none_right_eq_some, Option.some.injEq] at hs
  obtain ⟨_, _, rfl⟩ := hs
  exact contains_within h.left h.left_contains hlo (by omega)

theorem contains_lessFailsX (hge : (Word.low a.bits v).slt (Word.low a.bits u) = false) :
    ∀ s ∈ a.lessFailsX b, s.contains v = true := by
  intro s hs
  obtain ⟨⟨hlo, hhi⟩, hlo', hhi'⟩ := h.bounds
  rw [← Bool.not_eq_true, h.slt_iff] at hge
  simp only [lessFailsX, Option.mem_def, Option.ite_none_right_eq_some, Option.some.injEq] at hs
  obtain ⟨_, rfl⟩ := hs
  exact contains_within h.left h.left_contains (by omega) hhi

theorem contains_lessHoldsY (hlt : (Word.low a.bits v).slt (Word.low a.bits u) = true) :
    ∀ s ∈ a.lessHoldsY b, s.contains u = true := by
  intro s hs
  obtain ⟨⟨hlo, hhi⟩, hlo', hhi'⟩ := h.bounds
  rw [h.slt_iff] at hlt
  have hsucc := Word.toInt_add_one (Int.lt_of_le_of_lt hlo hlt)
  simp only [lessHoldsY, Option.mem_def, Option.ite_none_left_eq_some,
    Option.ite_none_right_eq_some, Option.some.injEq] at hs
  obtain ⟨_, _, rfl⟩ := hs
  exact h.contains_within_right (by omega) hhi'

theorem contains_lessFailsY (hge : (Word.low a.bits v).slt (Word.low a.bits u) = false) :
    ∀ s ∈ a.lessFailsY b, s.contains u = true := by
  intro s hs
  obtain ⟨⟨hlo, hhi⟩, hlo', hhi'⟩ := h.bounds
  rw [← Bool.not_eq_true, h.slt_iff] at hge
  simp only [lessFailsY, Option.mem_def, Option.ite_none_right_eq_some, Option.some.injEq] at hs
  obtain ⟨_, rfl⟩ := hs
  exact h.contains_within_right hlo' (by omega)

/-! What is learnt of the operands, unsigned: only if one of them has no negative values, and then the
order leaves none to the other one either. -/

theorem contains_belowHoldsX (hlt : (Word.low a.bits v).ult (Word.low a.bits u) = true) :
    ∀ s ∈ a.belowHoldsX b, s.contains v = true := by
  intro s hs
  obtain ⟨⟨hlo, hhi⟩, hlo', hhi'⟩ := h.bounds
  rw [h.ult_iff] at hlt
  simp only [belowHoldsX, Option.mem_def, Option.ite_none_right_eq_some, Option.some.injEq,
    Bool.and_eq_true, isStrictlyPositive, BitVec.slt_iff_toInt_lt] at hs
  obtain ⟨⟨hpos, _⟩, rfl⟩ := hs
  have hzero : (0 : Word).toInt = 0 := rfl
  have hpred := Word.toInt_sub_one (Int.lt_of_lt_of_le (by omega : v.toInt < u.toInt) hhi')
  apply contains_within h.left h.left_contains
  · rw [Word.toInt_smax]
    omega
  · rw [Word.toInt_smin]
    omega

theorem contains_belowFailsX (hge : (Word.low a.bits v).ult (Word.low a.bits u) = false) :
    ∀ s ∈ a.belowFailsX b, s.contains v = true := by
  intro s hs
  obtain ⟨⟨hlo, hhi⟩, hlo', hhi'⟩ := h.bounds
  rw [← Bool.not_eq_true, h.ult_iff] at hge
  simp only [belowFailsX, Option.mem_def, Option.ite_none_right_eq_some, Option.some.injEq,
    Bool.and_eq_true, isPositive_iff] at hs
  obtain ⟨⟨⟨hpos, hpos'⟩, _⟩, rfl⟩ := hs
  exact contains_within h.left h.left_contains (by omega) hhi

theorem contains_belowHoldsY (hlt : (Word.low a.bits v).ult (Word.low a.bits u) = true) :
    ∀ s ∈ a.belowHoldsY b, s.contains u = true := by
  intro s hs
  obtain ⟨⟨hlo, hhi⟩, hlo', hhi'⟩ := h.bounds
  rw [h.ult_iff] at hlt
  simp only [belowHoldsY, Option.mem_def, Option.ite_none_right_eq_some, Option.some.injEq,
    Bool.and_eq_true, isPositive_iff] at hs
  obtain ⟨⟨⟨⟨hpos, hpos'⟩, _⟩, _⟩, rfl⟩ := hs
  have hsucc := Word.toInt_add_one (Int.lt_of_le_of_lt hlo (by omega : v.toInt < u.toInt))
  exact h.contains_within_right (by omega) hhi'

theorem contains_belowFailsY (hge : (Word.low a.bits v).ult (Word.low a.bits u) = false) :
    ∀ s ∈ a.belowFailsY b, s.contains u = true := by
  intro s hs
  obtain ⟨⟨hlo, hhi⟩, hlo', hhi'⟩ := h.bounds
  rw [← Bool.not_eq_true, h.ult_iff] at hge
  simp only [belowFailsY, Option.mem_def, Option.ite_none_right_eq_some, Option.some.injEq,
    Bool.and_eq_true, isPositive_iff] at hs
  obtain ⟨⟨hpos, _⟩, rfl⟩ := hs
  have hzero : (0 : Word).toInt = 0 := rfl
  apply h.contains_within_right
  · rw [Word.toInt_smax]
    omega
  · rw [Word.toInt_smin]
    omega

end Summands

end IntStamp

namespace Graph

/-- What is told about a comparison agrees with its truth `t`: the truth that the stamps decide, the
constant that stands for the comparison, and the stamps that are learnt where it comes out so. -/
structure TellsTruth (g : Graph Label) (ρ : NodeId → Word) (c : Comparison)
    (decideOn : IntStamp → IntStamp → Option Bool) (x y : NodeId) (t : Bool) : Prop where
  decided : ∃ o, g.decide? (.compare c) x y = .ok o ∧ ∀ b ∈ o, b = t
  synonym : ∀ r ∈ Term.synonymLess decideOn g x y, r = Term.truth t
  learntX : ∃ o, g.learnX (.compare c) x y (!t) = .ok o ∧
    ∀ s ∈ o, ∃ r, s = .int r ∧ r.contains (ρ x) = true
  learntY : ∃ o, g.learnY (.compare c) x y (!t) = .ok o ∧
    ∀ s ∈ o, ∃ r, s = .int r ∧ r.contains (ρ y) = true

section Nodes

variable {g : Graph Label} {x y : NodeId} {a b : IntStamp} (hx : g.stamp x = .int a)
  (hy : g.stamp y = .int b)

include hx hy

theorem learn_less (negated : Bool) :
    g.learnX (.compare .intLess) x y negated =
        .ok ((if negated then a.lessFailsX b else a.lessHoldsX b).map .int) ∧
      g.learnY (.compare .intLess) x y negated =
        .ok ((if negated then a.lessFailsY b else a.lessHoldsY b).map .int) := by
  cases negated
  all_goals
    simp only [learnX, learnY, hx, hy]
    exact ⟨rfl, rfl⟩

theorem learn_below (negated : Bool) :
    g.learnX (.compare .intBelow) x y negated =
        .ok ((if negated then a.belowFailsX b else a.belowHoldsX b).map .int) ∧
      g.learnY (.compare .intBelow) x y negated =
        .ok ((if negated then a.belowFailsY b else a.belowHoldsY b).map .int) := by
  cases negated
  all_goals
    simp only [learnX, learnY, hx, hy]
    exact ⟨rfl, rfl⟩

theorem synonymLess_eq {ρ : NodeId → Word} (hρ : g.Models ρ)
    {decideOn : IntStamp → IntStamp → Option Bool} {t : Bool}
    (hsame : ρ x = ρ y → t = false) (hdecide : ∀ b' ∈ decideOn a b, b' = t) :
    ∀ r ∈ Term.synonymLess decideOn g x y, r = Term.truth t := by
  intro r hr
  unfold Term.synonymLess at hr
  split at hr
  · rename_i h
    cases hr
    rw [hsame (hρ.eq_of_sameValue h)]
  · rw [hx, hy] at hr
    obtain ⟨b', hb, rfl⟩ := Option.map_eq_some_iff.mp hr
    rw [hdecide b' hb]

end Nodes

theorem exists_learnt {o : Option IntStamp} {r : Learnt} {v : Word} (hr : r = .ok (o.map .int))
    (ho : ∀ s ∈ o, s.contains v = true) :
    ∃ o, r = .ok o ∧ ∀ s ∈ o, ∃ r, s = .int r ∧ r.contains v = true := by
  refine ⟨_, hr, ?_⟩
  intro s hs
  obtain ⟨r, hr, rfl⟩ := Option.map_eq_some_iff.mp hs
  exact ⟨r, rfl, ho r hr⟩

variable {g : Graph Label} {ρ : NodeId → Word} {x y : NodeId} {a b : IntStamp}

theorem tellsTruth_less (hρ : g.Models ρ) (hx : g.stamp x = .int a) (hy : g.stamp y = .int b)
    (h : IntStamp.Summands a b (ρ x) (ρ y)) :
    g.TellsTruth ρ .intLess IntStamp.decideLess x y
      ((Word.low a.bits (ρ x)).slt (Word.low a.bits (ρ y))) where
  decided := ⟨_, by simp only [decide?, hx, hy], h.decideLess_eq⟩
  synonym := by
    refine synonymLess_eq hx hy hρ ?_ h.decideLess_eq
    intro heq
    rw [heq, ← Bool.not_eq_true, BitVec.slt_iff_toInt_lt]
    exact Int.lt_irrefl _
  learntX := by
    refine exists_learnt (learn_less hx hy _).1 ?_
    cases ht : (Word.low a.bits (ρ x)).slt (Word.low a.bits (ρ y)) with
    | true => exact h.contains_lessHoldsX ht
    | false => exact h.contains_lessFailsX ht
  learntY := by
    refine exists_learnt (learn_less hx hy _).2 ?_
    cases ht : (Word.low a.bits (ρ x)).slt (Word.low a.bits (ρ y)) with
    | true => exact h.contains_lessHoldsY ht
    | false => exact h.contains_lessFailsY ht

theorem tellsTruth_below (hρ : g.Models ρ) (hx : g.stamp x = .int a) (hy : g.stamp y = .int b)
    (h : IntStamp.Summands a b (ρ x) (ρ y)) :
    g.TellsTruth ρ .intBelow IntStamp.decideBelow x y
      ((Word.low a.bits (ρ x)).ult (Word.low a.bits (ρ y))) where
  decided := ⟨_, by simp only [decide?, hx, hy], h.decideBelow_eq⟩
  synonym := by
    refine synonymLess_eq hx hy hρ ?_ h.decideBelow_eq
    intro heq
    rw [heq, BitVec.ult, decide_eq_false (Nat.lt_irrefl _)]
  learntX := by
    refine exists_learnt (learn_below hx hy _).1 ?_
    cases ht : (Word.low a.bits (ρ x)).ult (Word.low a.bits (ρ y)) with
    | true => exact h.contains_belowHoldsX ht
    | false => exact h.contains_belowFailsX ht
  learntY := by
    refine exists_learnt (learn_below hx hy _).2 ?_
    cases ht : (Word.low a.bits (ρ x)).ult (Word.low a.bits (ρ y)) with
    | true => exact h.contains_belowHoldsY ht
    | false => exact h.contains_belowFailsY ht

/-- All that is told about the signed and the unsigned order of two integers of one width agrees with
their values. -/
theorem comparisons_tell_truth (hρ : g.Models ρ) (hx : g.stamp x = .int a)
    (hy : g.stamp y = .int b) (ha : a.WellFormed) (hb : b.WellFormed) (hbits : a.bits = b.bits)
    (hv : a.contains (ρ x) = true) (hu : b.contains (ρ y) = true) :
    g.TellsTruth ρ .intLess IntStamp.decideLess x y
        ((Word.low a.bits (ρ x)).slt (Word.low a.bits (ρ y))) ∧
      g.TellsTruth ρ .intBelow IntStamp.decideBelow x y
        ((Word.low a.bits (ρ x)).ult (Word.low a.bits (ρ y))) := by
  have h : IntStamp.Summands a b (ρ x) (ρ y) := ⟨ha, hb, hbits.symm, hv, hu⟩
  exact ⟨tellsTruth_less hρ hx hy h, tellsTruth_below hρ hx hy h⟩

/-- A parameter of either sign, and one that is above zero. -/
def signedAndPositive : Graph Label :=
  ⟨#[⟨{ op := .leaf (.parameter 0), stamp := .int (.ofBounds 32 (-5) 9) }, [], {}, true⟩,
    ⟨{ op := .leaf (.parameter 1), stamp := .int (.ofBounds 32 1 7) }, [], {}, true⟩], #[], []⟩

theorem comparisons_tell_truth_signed :
    signedAndPositive.TellsTruth (fun i => [-3, 2].getD i 0) .intLess IntStamp.decideLess 0 1 true ∧
      signedAndPositive.TellsTruth (fun i => [-3, 2].getD i 0) .intBelow IntStamp.decideBelow 0 1
        false :=
  @comparisons_tell_truth signedAndPositive (fun i => [-3, 2].getD i 0) 0 1 _ _ (by decide) rfl rfl
    (by decide) (by decide) rfl (by decide) (by decide)

end Graph

end CompilerKit
