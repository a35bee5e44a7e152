import CompilerKit.Aarch64.Branch
import CompilerKit.Proofs.Aarch64.Machine
import CompilerKit.Proofs.Assembly.Assembler

/-! # Branches in the code

How the processor reads a branch: a branch to a known position is read with the test that it was made for
and the distance that it was given. A branch that waits for its label can be told from the word that
stands for it (`Pending.ofInstr_pending`), so patching the word gives the branch that would have been
written there.
-/

namespace CompilerKit.Aarch64

open Assembler

/-! Reading branches. -/

/-- What decides whether a branch is taken. -/
inductive Test where
  | always
  | flags (n : BitVec 4)
  | register (nonZero : Bool) (width : Nat) (n : BitVec 5)
  deriving DecidableEq

/-- A branch as the processor reads it, with the distance from its own position. -/
structure Jump where
  test : Test
  distance : Int
  deriving DecidableEq

namespace Instr

/-- Reads the three kinds of branches by their major opcode. -/
def jump? (i : Instr) : Option Jump :=
  match i.extractLsb' 26 5 with
  | 0b00101#5 =>
    if i.extractLsb' 31 1 = 0 then some ⟨.always, 4 * (i.extractLsb' 0 26).toInt⟩ else none
  | 0b10101#5 =>
    if i.extractLsb' 31 1 = 0 ∧ i.extractLsb' 24 2 = 0 ∧ i.extractLsb' 4 1 = 0 then
      some ⟨.flags (i.extractLsb' 0 4), 4 * (i.extractLsb' 5 19).toInt⟩
    else none
  | 0b01101#5 =>
    if i.extractLsb' 25 1 = 0 then
      some ⟨.register (i.extractLsb' 24 1 = 1) i.width (i.extractLsb' 0 5),
        4 * (i.extractLsb' 5 19).toInt⟩
    else none
  | _ => none

theorem and_ones_shift (d : BitVec 32) (n : Nat) :
    (d &&& (BitVec.allOnes (n + 2)).setWidth 32) >>> 2 = (d.extractLsb' 2 n).setWidth 32 := by
  apply BitVec.eq_of_getLsbD_eq
  intro i hi
  have hlt : decide (2 + i < n + 2) = decide (i < n) := by rw [decide_eq_decide]; omega
  by_cases h : 2 + i < 32
  · simp only [BitVec.getLsbD_ushiftRight, BitVec.getLsbD_and, BitVec.getLsbD_setWidth,
      BitVec.getLsbD_extractLsb', BitVec.getLsbD_allOnes, hlt, hi, h, decide_true, Bool.true_and,
      Bool.and_comm]
  · simp only [BitVec.getLsbD_ushiftRight, BitVec.getLsbD_and, BitVec.getLsbD_setWidth,
      BitVec.getLsbD_extractLsb', BitVec.getLsbD_of_ge d (2 + i) (by omega), Bool.false_and, Bool.and_false]

theorem branchDistance_eq (d : BitVec 32) : branchDistance d = field 5 (d.extractLsb' 2 19) := by
  have hlow : Numeric.lowBits 32 21 = (BitVec.allOnes (19 + 2)).setWidth 32 := by decide
  rw [branchDistance, hlow, and_ones_shift, field]

theorem branch_eq (d : BitVec 32) :
    branch false d = field 26 0b00101#5 ||| field 0 (d.extractLsb' 2 26) := by
  have hlow : Numeric.lowBits 32 28 = (BitVec.allOnes (26 + 2)).setWidth 32 := by decide
  rw [branch, hlow, and_ones_shift, field, field, BitVec.shiftLeft_zero]
  rfl

theorem branchIf_eq (c : FlagTest) (d : BitVec 32) :
    branchIf c d = field 26 0b10101#5 ||| field 5 (d.extractLsb' 2 19) ||| field 0 c.encoding := by
  rw [branchIf, branchDistance_eq, field, field, field, BitVec.shiftLeft_zero]
  rfl

theorem compareBranch_eq (nonZero : Bool) (w : Width) (r : Register) (d : BitVec 32) :
    compareBranch nonZero w r d =
      field 31 (BitVec.ofBool (w = .w64)) ||| (field 26 0b01101#5 ||| field 24 (BitVec.ofBool nonZero)) |||
        field 5 (d.extractLsb' 2 19) ||| field 0 r.number := by
  rw [compareBranch, branchDistance_eq, rd_eq]
  cases w <;> cases nonZero <;> rfl

theorem four_mul_toInt_extract {n : Nat} {z : Int} (h0 : 0 < n) (hn : n ≤ 30) (hz : 4 ∣ z)
    (hl : -2 ^ (n - 1) ≤ z / 4) (hu : z / 4 < 2 ^ (n - 1)) :
    4 * ((BitVec.ofInt 32 z).extractLsb' 2 n).toInt = z := by
  obtain ⟨q, rfl⟩ := hz
  rw [Int.mul_ediv_cancel_left q (by decide)] at hl hu
  have hshift : BitVec.ofInt 32 (4 * q) = BitVec.ofInt 32 q <<< 2 := by
    rw [BitVec.ofInt_mul, BitVec.mul_comm, BitVec.shiftLeft_eq_mul_twoPow]
    rfl
  have hbits : (BitVec.ofInt 32 q <<< 2).extractLsb' 2 n = (BitVec.ofInt 32 q).signExtend n := by
    rw [BitVec.signExtend_eq_setWidth_of_le _ (by omega)]
    apply BitVec.eq_of_getLsbD_eq
    intro i hi
    have hlt : 2 + i < 32 := by omega
    have hle : ¬2 + i < 2 := by omega
    simp only [BitVec.getLsbD_extractLsb', BitVec.getLsbD_shiftLeft, BitVec.getLsbD_setWidth, hi, hlt, hle,
      decide_true, decide_false, Bool.true_and, Bool.not_false, Nat.add_sub_cancel_left]
  rw [hshift, hbits, BitVec.toInt_signExtend_eq_toInt_bmod_of_le _ (by omega), BitVec.toInt_ofInt,
    Int.bmod_bmod_of_dvd (by exact_mod_cast Nat.pow_dvd_pow 2 (by omega : n ≤ 32)),
    Word.bmod_of_range h0 hl hu]

end Instr

namespace Branch

def test : Branch → Test
  | always => .always
  | onFlag c => .flags c.encoding
  | onRegister nonZero size r => .register nonZero size.toNat r.number

/-- The branch compares the low half of a general register, or all of it. -/
def IsPlain : Branch → Prop
  | always | onFlag _ => True
  | onRegister _ size r => (size = 32 ∨ size = 64) ∧ ∃ n, r = .general n

/-- The distances that the branch has room for: 28 bits, or 21 if there is a test, with a sign. -/
def Spans (distance : Int) : Branch → Prop
  | always => -2 ^ 27 ≤ distance ∧ distance < 2 ^ 27
  | onFlag _ | onRegister .. => -2 ^ 20 ≤ distance ∧ distance < 2 ^ 20

theorem jump?_instr {b : Branch} (hb : b.IsPlain) {z : Int} (hz : 4 ∣ z) (hspan : b.Spans z) :
    (b.instr (BitVec.ofInt 32 z)).jump? = some ⟨b.test, z⟩ := by
  cases b with
  | always =>
    obtain ⟨hl, hu⟩ := hspan
    have hread := Instr.four_mul_toInt_extract (n := 26) (by decide) (by decide) hz (by omega) (by omega)
    rw [instr, Instr.branch_eq]
    simp (disch := omega) only [Instr.jump?, BitVec.extractLsb'_or, Instr.extractLsb'_field,
      Instr.extractLsb'_field_apart, BitVec.zero_or, BitVec.or_zero, hread]
    rfl
  | onFlag c =>
    obtain ⟨hl, hu⟩ := hspan
    have hread := Instr.four_mul_toInt_extract (n := 19) (by decide) (by decide) hz (by omega) (by omega)
    rw [instr, Instr.branchIf_eq]
    simp (disch := omega) only [Instr.jump?, BitVec.extractLsb'_or, Instr.extractLsb'_field,
      Instr.extractLsb'_field_apart, BitVec.zero_or, BitVec.or_zero, hread]
    rfl
  | onRegister nonZero size r =>
    obtain ⟨hl, hu⟩ := hspan
    have hread := Instr.four_mul_toInt_extract (n := 19) (by decide) (by decide) hz (by omega) (by omega)
    rw [instr, Instr.compareBranch_eq]
    simp (disch := omega) only [Instr.jump?, Instr.width, BitVec.extractLsb'_or, Instr.extractLsb'_field,
      Instr.extractLsb'_field_apart, BitVec.zero_or, BitVec.or_zero, hread]
    obtain ⟨hsize, -⟩ := hb
    rcases hsize with rfl | rfl <;> cases nonZero <;> rfl

end Branch

theorem Pending.ofInstr_pending {b : Branch} (hb : b.IsPlain) :
    Pending.ofInstr b.pending = .ok (.branch b) := by
  cases b with
  | always => rfl
  | onFlag c => cases c <;> rfl
  | onRegister nonZero size r =>
    have hall : ∀ (nonZero : Bool) (n : BitVec 5),
        Pending.ofInstr (Branch.onRegister nonZero 32 (.general n)).pending =
            .ok (.branch (.onRegister nonZero 32 (.general n))) ∧
          Pending.ofInstr (Branch.onRegister nonZero 64 (.general n)).pending =
            .ok (.branch (.onRegister nonZero 64 (.general n))) := by
      decide
    obtain ⟨hsize, n, rfl⟩ := hb
    rcases hsize with rfl | rfl
    · exact (hall nonZero n).1
    · exact (hall nonZero n).2

theorem run_patch {a : Assembly} {b : Branch} (hb : b.IsPlain) {position : Nat} (hroom : HasRoom a)
    (hlength : position + 4 ≤ a.code.length)
    (hheld : a.code.Holds position (Code.littleEndian 4 b.pending)) (target : Nat) :
    (patch position target).run.run a = (.ok (), a.overwrite position
      (Code.littleEndian 4 (b.instr (BitVec.ofInt 32 (target - position))))) := by
  have hread : (read position 4).run.run a = (.ok b.pending.toNat, a) := by
    have := run_read_held hroom (by rwa [Code.length_littleEndian]) hheld
    rwa [Code.length_littleEndian, Code.toNat_littleEndian, Nat.mod_eq_of_lt b.pending.isLt] at this
  have hoverwrite := run_overwrite position
    (Code.littleEndian 4 (b.instr (BitVec.ofInt 32 ((target : Int) - position)))) hroom
    (by rwa [Code.length_littleEndian])
  rw [patch, run_bind_of_ok hread, BitVec.ofNat_toNat, BitVec.setWidth_eq, Pending.ofInstr_pending hb]
  dsimp only
  rw [placeInstr, if_neg (by omega), ← hoverwrite]
  rfl

end CompilerKit.Aarch64
