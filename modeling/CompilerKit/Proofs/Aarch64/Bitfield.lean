import CompilerKit.Aarch64.Instruction
import CompilerKit.Proofs.Aarch64.Machine

/-! # Moves of bit fields

A move of a bit field takes the bits `r` to `s` down to the lowest place, or, if `s` is less than `r`, the
bits up to `s` up to the place `w - r`. Shifts by a constant and sign extensions are such moves.
-/

namespace CompilerKit.Aarch64

open Instr Sequence

namespace Instr

/-! The result, bit by bit. -/

namespace Bitfield

variable {op : Bitfield} {w r s : Nat}

theorem getLsbD_rotateRight_of_lt (x : BitVec w) (hr : r < w) {i : Nat} (hi : i < w) :
    (x.rotateRight r).getLsbD i = x.getLsbD ((i + r) % w) := by
  rw [BitVec.getLsbD_rotateRight, Nat.mod_eq_of_lt hr]
  by_cases h : i < w - r
  · rw [decide_eq_true h, Bool.cond_true, Nat.mod_eq_of_lt (by omega), Nat.add_comm]
  · have hwrap : (i + r) % w = i - (w - r) := by
      rw [Nat.mod_eq_sub_mod (by omega), Nat.mod_eq_of_lt (by omega)]
      omega
    rw [decide_eq_false h, Bool.cond_false, hwrap, decide_eq_true hi, Bool.true_and]

theorem getLsbD_onWord (hop : op ≠ .insert) (old src : BitVec w) (hr : r < w) {i : Nat} (hi : i < w) :
    (op.onWord old src r s).getLsbD i =
      if (i : Int) ≤ ((s : Int) - r) % w then decide ((i + r) % w ≤ s) && src.getLsbD ((i + r) % w)
      else decide (op = .signed) && src.getLsbD s := by
  have hpos : 0 < w := by omega
  have hnonneg := Int.emod_nonneg ((s : Int) - r) (by omega : (w : Int) ≠ 0)
  have hbelow : i < (((s : Int) - r) % w + 1).toNat ↔ (i : Int) ≤ ((s : Int) - r) % w := by omega
  simp only [onWord, if_neg hop, BitVec.getLsbD_or, BitVec.getLsbD_and, BitVec.getLsbD_not,
    getLsbD_rotateRight_of_lt src hr hi, getLsbD_rotatedRuns (Nat.dvd_refl w) hr,
    getLsbD_rotatedRuns (Nat.dvd_refl w) hpos, Nat.add_zero, Nat.mod_eq_of_lt hi, hbelow]
  by_cases h : (i : Int) ≤ ((s : Int) - r) % w
  · simp [h, hi, Bool.and_comm]
  · by_cases hsigned : op = .signed
    · simp [h, hi, hsigned]
    · simp [h, hi, hsigned]

theorem getLsbD_onWord_of_le (hop : op ≠ .insert) (old src : BitVec w) (hrs : r ≤ s) (hs : s < w) {i : Nat}
    (hi : i < w) :
    (op.onWord old src r s).getLsbD i =
      if i + r ≤ s then src.getLsbD (i + r) else decide (op = .signed) && src.getLsbD s := by
  rw [getLsbD_onWord hop old src (by omega) hi, Int.emod_eq_of_lt (by omega) (by omega)]
  by_cases h : i + r ≤ s
  · rw [if_pos (by omega), if_pos h, Nat.mod_eq_of_lt (by omega), decide_eq_true h, Bool.true_and]
  · rw [if_neg (by omega), if_neg h]

/-- A field that ends right below the place where it starts fills the word from `w - r` on. -/
theorem getLsbD_onWord_of_succ_eq (hop : op ≠ .insert) (old src : BitVec w) (hsr : s + 1 = r) (hr : r < w)
    {i : Nat} (hi : i < w) :
    (op.onWord old src r s).getLsbD i = (decide (w ≤ i + r) && src.getLsbD (i + r - w)) := by
  have hlast : ((s : Int) - r) % w = w - 1 := by
    rw [← Int.add_emod_right, Int.emod_eq_of_lt (by omega) (by omega)]
    omega
  rw [getLsbD_onWord hop old src hr hi, if_pos (by omega)]
  by_cases h : w ≤ i + r
  · have hwrap : (i + r) % w = i + r - w := by
      rw [Nat.mod_eq_sub_mod h, Nat.mod_eq_of_lt (by omega)]
    rw [hwrap, decide_eq_true h, decide_eq_true (by omega)]
  · rw [Nat.mod_eq_of_lt (by omega), decide_eq_false h, decide_eq_false (by omega), Bool.false_and,
      Bool.false_and]

variable (old x : BitVec w) {n : Nat}

theorem onWord_shiftRight (hn : n < w) : onWord .unsigned old x n (w - 1) = x >>> n := by
  apply BitVec.eq_of_getLsbD_eq
  intro i hi
  rw [getLsbD_onWord_of_le (by decide) old x (by omega) (by omega) hi, BitVec.getLsbD_ushiftRight, Nat.add_comm]
  split
  case isTrue => rfl
  case isFalse h =>
    have hout : w ≤ n + i := by omega
    rw [BitVec.getLsbD_of_ge x _ hout, decide_eq_false (by decide), Bool.false_and]

theorem onWord_sshiftRight (hn : n < w) : onWord .signed old x n (w - 1) = x.sshiftRight n := by
  apply BitVec.eq_of_getLsbD_eq
  intro i hi
  rw [getLsbD_onWord_of_le (by decide) old x (by omega) (by omega) hi, BitVec.getLsbD_sshiftRight, Nat.add_comm]
  simp only [hi.not_ge, decide_false, Bool.not_false, Bool.true_and, decide_true, BitVec.msb_eq_getLsbD_last]
  by_cases h : n + i ≤ w - 1
  · rw [if_pos h, if_pos (by omega)]
  · rw [if_neg h, if_neg (by omega)]

/-- To the left by nothing is the whole word; by more, it is a field that wraps around. -/
theorem onWord_shiftLeft (hn : n < w) : onWord .unsigned old x ((w - n) % w) (w - 1 - n) = x <<< n := by
  apply BitVec.eq_of_getLsbD_eq
  intro i hi
  rw [BitVec.getLsbD_shiftLeft, decide_eq_true hi, Bool.true_and]
  rcases Nat.eq_zero_or_pos n with rfl | hpos
  · rw [Nat.sub_zero, Nat.mod_self, getLsbD_onWord_of_le (by decide) old x (by omega) (by omega) hi,
      if_pos (by omega)]
    simp
  · rw [Nat.mod_eq_of_lt (by omega),
      getLsbD_onWord_of_succ_eq (by decide) old x (by omega) (by omega) hi]
    by_cases h : i < n
    · simp [h, show ¬w ≤ i + (w - n) by omega]
    · simp [h, show w ≤ i + (w - n) by omega, show i + (w - n) - w = i - n by omega]

theorem onWord_signExtend (h0 : 0 < n) (hn : n ≤ w) :
    onWord .signed old x 0 (n - 1) = (x.setWidth n).signExtend w := by
  apply BitVec.eq_of_getLsbD_eq
  intro i hi
  rw [getLsbD_onWord_of_le (by decide) old x (by omega) (by omega) hi, BitVec.getLsbD_signExtend,
    BitVec.msb_eq_getLsbD_last, BitVec.getLsbD_setWidth, BitVec.getLsbD_setWidth, Nat.add_zero]
  by_cases h : i < n
  · simp [h, hi, show i ≤ n - 1 by omega]
  · simp [h, hi, show ¬i ≤ n - 1 by omega, h0]

end Bitfield

/-! The encoder. -/

variable (op : Bitfield) (w : Width) (dst src : Register)

theorem bitfield_eq (r s : BitVec 6) :
    bitfield op w dst src (r.setWidth 32) (s.setWidth 32) =
      field 31 (BitVec.ofBool (w = .w64)) ||| field 29 op.opcode ||| field 24 0b10011#5 |||
        field 22 (BitVec.ofBool (w = .w64)) ||| field 16 r ||| field 10 s ||| field 0 dst.number |||
        field 5 src.number := by
  rw [← rd_eq]
  cases op <;> cases w <;> rfl

theorem decode_bitfield {r s : Nat} (hr : r < w.bits) (hs : s < w.bits) :
    decode (bitfield op w dst src (BitVec.ofNat 32 r) (BitVec.ofNat 32 s)) =
      some (.bitfield op w.bits dst.number src.number r s) := by
  have hbits := w.bits_le
  have hnumber {n : Nat} (hn : n < w.bits) :
      (BitVec.ofNat 6 n).setWidth 32 = BitVec.ofNat 32 n ∧ (BitVec.ofNat 6 n).toNat = n := by
    have hlt : (BitVec.ofNat 6 n).toNat = n := by
      rw [BitVec.toNat_ofNat, Nat.mod_eq_of_lt (by omega)]
    refine ⟨?_, hlt⟩
    apply BitVec.eq_of_toNat_eq
    rw [BitVec.toNat_setWidth, hlt, BitVec.toNat_ofNat]
  rw [← (hnumber hr).1, ← (hnumber hs).1, bitfield_eq]
  simp (disch := omega) only [decode, bitfield?, width, BitVec.extractLsb'_or, extractLsb'_field,
    extractLsb'_field_apart, BitVec.zero_or, BitVec.or_zero, op.ofBits?_opcode, width_eq, (hnumber hr).2,
    (hnumber hs).2]
  exact if_pos ⟨trivial, hr, hs⟩

end Instr

/-! Shifts and extensions. -/

/-- Code of one instruction, a move of a bit field, that puts a function of the source into the
destination. -/
def MovesField (op : Bitfield) (w : Width) (dst src : Register) (f : BitVec w.bits → BitVec w.bits)
    (code : Option (Result Instrs)) : Prop :=
  ∃ i r s, code = some (.ok [i]) ∧ i.decode = some (.bitfield op w.bits dst.number src.number r s) ∧
    ∀ m : Machine, m.run [i] = some (m.write w.bits dst.number (f (m.read w.bits src.number)))

variable {op : Bitfield} {w : Width} {dst src : Register}

theorem movesField_bitfield {f : BitVec w.bits → BitVec w.bits} {r s : Nat} (hr : r < w.bits) (hs : s < w.bits)
    (hf : ∀ old x, op.onWord old x r s = f x) :
    MovesField op w dst src f
      (some (.ok [bitfield op w dst src (BitVec.ofNat 32 r) (BitVec.ofNat 32 s)])) := by
  have hdecode := decode_bitfield op w dst src hr hs
  refine ⟨_, r, s, rfl, hdecode, fun m => ?_⟩
  rw [Machine.run_cons hdecode, Operation.execute, hf]
  rfl

theorem toInt_emod_bits (k : Word) (w : Width) : k.toInt % w.bits = (k.toNat % w.bits : Nat) := by
  have hdvd : (w.bits : Int) ∣ (2 ^ 64 : Nat) := by cases w <;> decide
  rw [BitVec.toInt_eq_toNat_bmod, ← Int.emod_emod_of_dvd _ hdvd, Int.bmod_emod, Int.emod_emod_of_dvd _ hdvd]
  rfl

theorem and_bits_sub_one {n : Nat} (hn : 6 < n) (x : BitVec n) (w : Width) :
    x &&& BitVec.ofNat n (w.bits - 1) = BitVec.ofNat n (x.toNat % w.bits) := by
  have hmask : x.toNat &&& (w.bits - 1) = x.toNat % w.bits := by
    cases w
    · exact Nat.and_two_pow_sub_one_eq_mod x.toNat 5
    · exact Nat.and_two_pow_sub_one_eq_mod x.toNat 6
  have hbits : w.bits < 2 ^ n := by
    have := Nat.pow_lt_pow_right (by decide : 1 < 2) hn
    cases w <;> simp only [Width.bits] <;> omega
  apply BitVec.eq_of_toNat_eq
  rw [BitVec.toNat_and, BitVec.toNat_ofNat, BitVec.toNat_ofNat, Nat.mod_eq_of_lt (by omega), hmask,
    Nat.mod_eq_of_lt ((Nat.mod_le _ _).trans_lt x.isLt)]

theorem bits_sub_one (w : Width) : BitVec.ofNat 32 w.bits - 1 = BitVec.ofNat 32 (w.bits - 1) := by
  cases w <;> rfl

theorem clampShift_eq (k : Word) (w : Width) :
    clampShift (BitVec.ofNat 32 w.bits) k = BitVec.ofNat 32 (k.toNat % w.bits) := by
  have hmask : (BitVec.ofNat 32 w.bits - 1).signExtend 64 = BitVec.ofNat 64 (w.bits - 1) := by cases w <;> rfl
  rw [clampShift, hmask, and_bits_sub_one (by decide)]
  exact BitVec.setWidth_ofNat_of_le (by decide) _

theorem movesField_shiftLeft (k : Word) :
    MovesField .unsigned w dst src (· <<< (k.toNat % w.bits))
      (some (.ok [shiftLeft (BitVec.ofNat 32 w.bits) dst src k])) := by
  have hn : k.toNat % w.bits < w.bits := Nat.mod_lt _ w.bits_pos
  have hbits := w.bits_le
  have hstart : (BitVec.ofNat 32 w.bits - BitVec.ofNat 32 (k.toNat % w.bits)) &&& BitVec.ofNat 32 (w.bits - 1) =
      BitVec.ofNat 32 ((w.bits - k.toNat % w.bits) % w.bits) := by
    rw [BitVec.ofNat_sub_ofNat_of_le _ _ (by omega) hn.le, and_bits_sub_one (by decide), BitVec.toNat_ofNat,
      Nat.mod_eq_of_lt (by omega : w.bits - k.toNat % w.bits < 2 ^ 32)]
  have hend : BitVec.ofNat 32 (w.bits - 1) - BitVec.ofNat 32 (k.toNat % w.bits) =
      BitVec.ofNat 32 (w.bits - 1 - k.toNat % w.bits) :=
    BitVec.ofNat_sub_ofNat_of_le _ _ (by omega) (by omega)
  rw [shiftLeft, clampShift_eq, bits_sub_one, hstart, hend, w.ofSize_bits]
  exact movesField_bitfield (Nat.mod_lt _ (by omega)) (by omega) fun old x => Bitfield.onWord_shiftLeft old x hn

theorem movesField_shiftRight {f : BitVec w.bits → BitVec w.bits} (k : Word)
    (hf : ∀ old x, op.onWord old x (k.toNat % w.bits) (w.bits - 1) = f x) :
    MovesField op w dst src f (some (.ok [shiftRight op (BitVec.ofNat 32 w.bits) dst src k])) := by
  have hpos := w.bits_pos
  rw [shiftRight, clampShift_eq, bits_sub_one, w.ofSize_bits]
  exact movesField_bitfield (Nat.mod_lt _ hpos) (by omega) hf

theorem movesField_signExtend {s : Nat} (hs : s ∈ [8, 16, 32]) (hlt : s < w.bits) :
    MovesField .signed w dst src (fun x => (x.setWidth s).signExtend w.bits)
      (some ((signExtend (BitVec.ofNat 32 w.bits) (BitVec.ofNat 32 s) dst src).map ([·]))) := by
  have hcode : signExtend (BitVec.ofNat 32 w.bits) (BitVec.ofNat 32 s) dst src =
      .ok (bitfield .signed w dst src (BitVec.ofNat 32 0) (BitVec.ofNat 32 (s - 1))) := by
    fin_cases hs <;> (rw [signExtend, w.ofSize_bits]; rfl)
  have hpos : 0 < s := by fin_cases hs <;> decide
  rw [hcode]
  exact movesField_bitfield (by omega) (by omega) fun old x => Bitfield.onWord_signExtend old x hpos hlt.le

/-- A shift by a constant is one move of a bit field: it shifts the low bits of the source by the remainder of
the constant. A sign extension is one as well. -/
theorem constant_shifts_exact (w : Width) (dst src : Register) :
    (∀ k : Word,
      MovesField .unsigned w dst src (· <<< (k.toInt % w.bits).toNat)
        (sequence? "shl" [.int (BitVec.ofNat 32 w.bits), .reg dst, .reg src, .long k]) ∧
      MovesField .unsigned w dst src (· >>> (k.toInt % w.bits).toNat)
        (sequence? "lshr" [.int (BitVec.ofNat 32 w.bits), .reg dst, .reg src, .long k]) ∧
      MovesField .signed w dst src (·.sshiftRight (k.toInt % w.bits).toNat)
        (sequence? "ashr" [.int (BitVec.ofNat 32 w.bits), .reg dst, .reg src, .long k])) ∧
    ∀ s ∈ [8, 16, 32], s < w.bits →
      MovesField .signed w dst src (fun x => (x.setWidth s).signExtend w.bits)
        (sequence? "sxt" [.int (BitVec.ofNat 32 w.bits), .int (BitVec.ofNat 32 s), .reg dst, .reg src]) := by
  have hpos := w.bits_pos
  refine ⟨fun k => ?_, fun s hs hlt => movesField_signExtend hs hlt⟩
  have hn : k.toNat % w.bits < w.bits := Nat.mod_lt _ hpos
  rw [toInt_emod_bits, Int.toNat_natCast]
  refine ⟨movesField_shiftLeft k, movesField_shiftRight k ?_, movesField_shiftRight k ?_⟩
  · exact fun old x => Bitfield.onWord_shiftRight old x hn
  · exact fun old x => Bitfield.onWord_sshiftRight old x hn

theorem constant_shifts_exact_narrow :
    MovesField .unsigned .w32 (.general 3) (.general 17) (· <<< 3)
      (sequence? "shl" [.int 32, .reg (.general 3), .reg (.general 17), .long (-29)]) ∧
    8 ∈ [8, 16, 32] ∧ 8 < Width.w32.bits ∧
      MovesField .signed .w32 (.general 3) (.general 17) (fun x => (x.setWidth 8).signExtend 32)
        (sequence? "sxt" [.int 32, .int 8, .reg (.general 3), .reg (.general 17)]) := by
  obtain ⟨hshift, hextend⟩ := constant_shifts_exact .w32 (.general 3) (.general 17)
  exact ⟨(hshift (-29)).1, by decide, by decide, hextend 8 (by decide) (by decide)⟩

end CompilerKit.Aarch64
