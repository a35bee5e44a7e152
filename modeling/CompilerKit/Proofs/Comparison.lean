import CompilerKit.Proofs.Evaluation

/-! # Comparisons of integers

Words hold values sign extended, so comparing the words compares the values, with and without sign.
The unsigned order is described by the signed values, which are what stamps bound.
-/

namespace CompilerKit

theorem Word.ult_iff_toInt {w : Nat} (x y : BitVec w) : x.ult y = true ↔
    0 ≤ x.toInt ∧ y.toInt < 0 ∨ x.toInt < y.toInt ∧ (0 ≤ x.toInt ∨ y.toInt < 0) := by
  have hx := BitVec.toInt_eq_toNat_cond x
  have hy := BitVec.toInt_eq_toNat_cond y
  have hxlt := x.isLt
  have hylt := y.isLt
  rw [BitVec.ult, decide_eq_true_eq]
  split at hx <;> split at hy <;> omega

def Comparison.onIntegers {w : Nat} : Comparison → BitVec w → BitVec w → Option Bool
  | intEquals, x, y => some (x == y)
  | intLess, x, y => some (x.slt y)
  | intBelow, x, y => some (x.ult y)
  | _, _, _ => none

section Words

variable {w : Nat} (hw : w ≤ 64) (x y : BitVec w)

include hw

theorem Word.ofLow_beq : (ofLow x == ofLow y) = (x == y) := by
  rw [Bool.eq_iff_iff, beq_iff_eq, beq_iff_eq]
  constructor
  · intro h
    rw [← low_ofLow hw x, h, low_ofLow hw]
  · rintro rfl
    rfl

theorem Word.ofLow_slt : (ofLow x).slt (ofLow y) = x.slt y := by
  rw [Bool.eq_iff_iff, BitVec.slt_iff_toInt_lt, BitVec.slt_iff_toInt_lt, toInt_ofLow hw,
    toInt_ofLow hw]

theorem Word.ofLow_ult : (ofLow x).ult (ofLow y) = x.ult y := by
  rw [Bool.eq_iff_iff, ult_iff_toInt, ult_iff_toInt, toInt_ofLow hw, toInt_ofLow hw]

theorem Comparison.onValues_ofLow (c : Comparison) :
    c.onValues (Word.ofLow x) (Word.ofLow y) = c.onIntegers x y := by
  cases c with
  | intEquals => exact congrArg some (Word.ofLow_beq hw x y)
  | intLess => exact congrArg some (Word.ofLow_slt hw x y)
  | intBelow => exact congrArg some (Word.ofLow_ult hw x y)
  | _ => rfl

end Words

end CompilerKit
