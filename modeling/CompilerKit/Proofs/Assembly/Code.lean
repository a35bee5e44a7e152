import CompilerKit.Assembly.Code
import CompilerKit.Proofs.Word

/-! # Reading machine code

What `littleEndian` writes, `toNat` and `signed?` read back. `Holds` says which bytes stand at a position;
they stay there when code is appended or overwritten elsewhere.
-/

namespace CompilerKit.Code

/-- The number in the first `n` bytes, sign extended, and the code behind it. -/
def signed? (n : Nat) (code : Code) : Option (BitVec 32 × Code) :=
  if n ≤ code.length then
    some ((BitVec.ofNat (8 * n) (toNat (code.take n))).signExtend 32, code.drop n)
  else none

theorem toNat_littleEndian {w : Nat} (n : Nat) (x : BitVec w) :
    toNat (littleEndian n x) = x.toNat % 2 ^ (8 * n) := by
  induction n generalizing x with
  | zero => simp [littleEndian, toNat, Nat.mod_one]
  | succ n ih =>
    have hpow : 2 ^ (8 * (n + 1)) = 256 * 2 ^ (8 * n) := by
      rw [Nat.mul_succ, Nat.pow_add, Nat.mul_comm]
    rw [littleEndian, toNat, ih, BitVec.toNat_setWidth, BitVec.toNat_ushiftRight,
      Nat.shiftRight_eq_div_pow, hpow, Nat.mod_mul]

theorem signed?_littleEndian {w : Nat} (n : Nat) (x : BitVec w) (rest : Code) :
    signed? n (littleEndian n x ++ rest) = some ((x.setWidth (8 * n)).signExtend 32, rest) := by
  have hlength := length_littleEndian n x
  rw [signed?, if_pos (by simp [hlength]), List.take_left' hlength, List.drop_left' hlength,
    toNat_littleEndian, ← BitVec.toNat_setWidth, BitVec.ofNat_toNat, BitVec.setWidth_eq]

theorem signExtend_setWidth {n : Nat} {x : BitVec 32} (h0 : 0 < n) (hn : n ≤ 32)
    (hl : -2 ^ (n - 1) ≤ x.toInt) (hu : x.toInt < 2 ^ (n - 1)) :
    (x.setWidth n).signExtend 32 = x := by
  apply BitVec.eq_of_toInt_eq
  rw [BitVec.toInt_signExtend_of_le hn, ← BitVec.signExtend_eq_setWidth_of_le x hn,
    BitVec.toInt_signExtend_eq_toInt_bmod_of_le x hn, Word.bmod_of_range h0 hl hu]

theorem signed?_ofInt {n : Nat} {d : Int} (h0 : 0 < n) (hn : n ≤ 4) (hl : -2 ^ (8 * n - 1) ≤ d)
    (hu : d < 2 ^ (8 * n - 1)) (rest : Code) :
    ∃ v, signed? n (littleEndian n (BitVec.ofInt (8 * n) d) ++ rest) = some (v, rest) ∧ v.toInt = d := by
  refine ⟨_, signed?_littleEndian n _ rest, ?_⟩
  rw [BitVec.setWidth_eq, BitVec.toInt_signExtend_of_le (by omega), BitVec.toInt_ofInt,
    Word.bmod_of_range (by omega) hl hu]

/-! Bytes at a position. -/

/-- The code has the given bytes from a position on. -/
def Holds (code : Code) (position : Nat) (bytes : Code) : Prop :=
  ∀ i < bytes.length, code[position + i]? = bytes[i]?

variable {code code' bytes more : Code} {p : Nat}

theorem getElem?_overwrite (code : Code) (p : Nat) (bytes : Code) (i : Nat) :
    (code.overwrite p bytes)[i]? =
      if p ≤ i ∧ i < p + bytes.length ∧ i < code.length then bytes[i - p]? else code[i]? := by
  induction bytes generalizing code p with
  | nil =>
    rw [overwrite, if_neg]
    rintro ⟨h1, h2, -⟩
    simp only [List.length_nil] at h2
    omega
  | cons b bs ih =>
    rw [overwrite, ih, List.length_set, List.length_cons, List.getElem?_set]
    by_cases hp : p = i
    · subst hp
      by_cases hlength : p < code.length
      · simp [hlength]
      · simp [hlength]
    · by_cases hin : p + 1 ≤ i ∧ i < p + 1 + bs.length ∧ i < code.length
      · obtain ⟨j, rfl⟩ : ∃ j, i = p + 1 + j := ⟨i - (p + 1), by omega⟩
        rw [if_pos hin, if_pos (by omega), Nat.add_sub_cancel_left, Nat.add_assoc p 1 j,
          Nat.add_sub_cancel_left, Nat.add_comm 1 j, List.getElem?_cons_succ]
      · rw [if_neg hin, if_neg hp, if_neg (by omega)]

theorem Holds.of_eq (h : code.Holds p bytes)
    (heq : ∀ i, p ≤ i → i < p + bytes.length → code'[i]? = code[i]?) : code'.Holds p bytes := by
  intro i hi
  rw [heq (p + i) (by omega) (by omega), h i hi]

theorem Holds.lt_length (h : code.Holds p bytes) {i : Nat} (hi : i < bytes.length) :
    p + i < code.length := by
  have hsome := h i hi
  rw [List.getElem?_eq_getElem hi] at hsome
  exact (List.getElem?_eq_some_iff.mp hsome).1

theorem Holds.append_right (h : code.Holds p bytes) (more : Code) : (code ++ more).Holds p bytes := by
  intro i hi
  rw [List.getElem?_append_left (h.lt_length hi), h i hi]

theorem holds_append (code bytes : Code) : (code ++ bytes).Holds code.length bytes := by
  intro i _
  rw [List.getElem?_append_right (by omega), Nat.add_sub_cancel_left]

theorem holds_append_iff :
    code.Holds p (bytes ++ more) ↔ code.Holds p bytes ∧ code.Holds (p + bytes.length) more := by
  constructor
  · intro h
    constructor
    · intro i hi
      rw [h i (by rw [List.length_append]; omega), List.getElem?_append_left hi]
    · intro i hi
      rw [Nat.add_assoc, h (bytes.length + i) (by rw [List.length_append]; omega),
        List.getElem?_append_right (by omega), Nat.add_sub_cancel_left]
  · rintro ⟨hbytes, hmore⟩ i hi
    rw [List.length_append] at hi
    by_cases hlt : i < bytes.length
    · rw [hbytes i hlt, List.getElem?_append_left hlt]
    · obtain ⟨j, rfl⟩ : ∃ j, i = bytes.length + j := ⟨i - bytes.length, by omega⟩
      rw [← Nat.add_assoc, hmore j (by omega), List.getElem?_append_right (by omega),
        Nat.add_sub_cancel_left]

theorem holds_overwrite (hlength : p + bytes.length ≤ code.length) :
    (code.overwrite p bytes).Holds p bytes := by
  intro i hi
  rw [getElem?_overwrite, if_pos (by omega), Nat.add_sub_cancel_left]

theorem overwrite_append (front back : Code) {old new : Code} (h : new.length = old.length) :
    (front ++ old ++ back).overwrite front.length new = front ++ new ++ back := by
  induction new generalizing front old with
  | nil =>
    obtain rfl := List.length_eq_zero_iff.mp h.symm
    rfl
  | cons b new ih =>
    obtain ⟨c, old, rfl⟩ := List.exists_cons_of_length_eq_add_one h.symm
    have hset : (front ++ c :: old ++ back).set front.length b = front ++ [b] ++ old ++ back := by
      simp
    have hnext := ih (front ++ [b]) (Nat.succ.inj h)
    rw [List.length_append, List.length_singleton] at hnext
    rw [overwrite, hset, hnext, List.append_assoc front, List.singleton_append]

theorem Holds.exists_drop (h : code.Holds p bytes) : ∃ rest, code.drop p = bytes ++ rest := by
  refine ⟨code.drop (p + bytes.length), List.ext_getElem? fun i => ?_⟩
  rw [List.getElem?_drop]
  by_cases hi : i < bytes.length
  · rw [h i hi, List.getElem?_append_left hi]
  · rw [List.getElem?_append_right (by omega), List.getElem?_drop]
    congr 1
    omega

end CompilerKit.Code
