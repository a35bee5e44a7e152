import CompilerKit.Proofs.Aarch64.Bitfield

/-! # Moves of constants

What the moves of a constant leave in their register, and how many they are. Moves in chunks take the low
three chunks only, so that a constant is lost if its highest chunk is not zero and it is neither a bitmask
nor a sign extended half. The register of a sign extended half is filled in chunks as well if the half,
with zeros above it, is no bitmask; that takes one instruction more than is counted.
-/

namespace CompilerKit.Aarch64

open Instr Sequence

namespace Machine

variable {m : Machine} {r : BitVec 5}

theorem run_append (m : Machine) (is js : List Instr) :
    m.run (is ++ js) = (m.run is).bind fun n => n.run js := by
  induction is generalizing m with
  | nil => rfl
  | cons i is ih =>
    rw [List.cons_append, run, run]
    cases i.decode with
    | none => rfl
    | some op => exact ih (op.execute m)

@[simp] theorem general_put (m : Machine) (r : BitVec 5) (x : Word) : (m.put r x).general r = x := by
  simp [put]

@[simp] theorem put_put (m : Machine) (r : BitVec 5) (x y : Word) : (m.put r x).put r y = m.put r y := by
  simp [put]

@[simp] theorem put_general (m : Machine) (r : BitVec 5) : m.put r (m.general r) = m := by
  simp [put]

theorem write_eq (hr : r ≠ 31) (m : Machine) (x : Word) : m.write 64 r x = m.put r x := by
  rw [write, if_neg hr]
  exact congrArg _ (BitVec.setWidth_eq x)

theorem read_eq (hr : r ≠ 31) (m : Machine) : m.read 64 r = m.general r := by
  rw [read, if_neg hr]
  exact BitVec.setWidth_eq _

theorem read_zero (m : Machine) (w : Nat) : m.read w 31 = 0 := if_pos rfl

end Machine

open Machine

/-! Moves in one instruction. -/

section

variable {r : BitVec 5} (hr : r ≠ 31)

include hr

theorem run_moveZero (m : Machine) :
    m.run (moveRegister .w64 (.general r) .zero) = some (m.put r 0) := by
  have hdecode := decode_logicalShifted .or false (.general r) .zero .zero .lsl 0
  have hmove : moveRegister .w64 (.general r) .zero =
      [logicalShifted .or false .w64 (.general r) .zero .zero .lsl ((0 : BitVec 6).setWidth 32)] := rfl
  rw [hmove, run_cons hdecode]
  change (m.write 64 r (m.read 64 31 ||| m.read 64 31 <<< 0)).run [] = _
  rw [read_zero, write_eq hr]
  rfl

theorem exists_moveBitmask {v : Word} (hv : IsBitmask v) :
    ∃ i, logicalImmediate .or .w64 (.general r) .zero v = .ok i ∧ ∀ m : Machine, m.run [i] = some (m.put r v) := by
  obtain ⟨p, hp⟩ := isBitmask_word_iff.mp hv
  obtain ⟨hvalid, rfl⟩ := Repetition.find?_eq_some_iff.mp hp
  obtain ⟨i, hi, hdecode⟩ := decode_logicalImmediate .or (.general r) .zero hvalid
  refine ⟨i, hi, fun m => ?_⟩
  rw [run_cons hdecode]
  change (m.writeOrStack 64 r (m.read 64 31 ||| p.value)).run [] = _
  rw [read_zero, writeOrStack, if_neg hr, write_eq hr]
  exact congrArg (fun x => some (m.put r x)) BitVec.zero_or

theorem run_signExtend (m : Machine) (x : Word) :
    (m.put r x).run [bitfield .signed .w64 (.general r) (.general r) 0 31] =
      some (m.put r ((x.setWidth 32).signExtend 64)) := by
  have hdecode : (bitfield .signed .w64 (.general r) (.general r) 0 31).decode =
      some (.bitfield .signed 64 r r 0 31) :=
    decode_bitfield .signed .w64 (.general r) (.general r) (by decide : 0 < 64) (by decide : 31 < 64)
  have hvalue := Bitfield.onWord_signExtend x x (by decide : 0 < 32) (by decide)
  rw [run_cons hdecode]
  change ((m.put r x).write 64 r (Bitfield.onWord .signed ((m.put r x).read 64 r) ((m.put r x).read 64 r) 0 31)).run [] = _
  rw [read_eq hr, write_eq hr, general_put, put_put, hvalue]
  rfl

end

/-! Moves in chunks. -/

theorem chunk_eq (v : Word) {i : Nat} (hi : i < 4) : chunk v i = (v.extractLsb' (16 * i) 16).setWidth 32 := by
  have hlow : Numeric.lowBits 32 16 = (BitVec.allOnes 16).setWidth 32 := by decide
  apply BitVec.eq_of_getLsbD_eq
  intro j hj
  simp only [chunk, hlow, BitVec.getLsbD_and, BitVec.getLsbD_setWidth, BitVec.getLsbD_sshiftRight,
    BitVec.getLsbD_allOnes, BitVec.getLsbD_extractLsb', hj, decide_true, Bool.true_and]
  by_cases h : j < 16
  · simp [h, show 16 * i + j < 64 by omega, show ¬64 ≤ j by omega]
  · simp [h]

theorem getLsbD_placed (v : Word) (i : Nat) {j : Nat} (hj : j < 64) :
    ((v.extractLsb' (16 * i) 16).setWidth 64 <<< (16 * i)).getLsbD j =
      (decide (j / 16 = i) && v.getLsbD j) := by
  simp only [BitVec.getLsbD_shiftLeft, BitVec.getLsbD_setWidth, BitVec.getLsbD_extractLsb', hj,
    decide_true, Bool.true_and]
  by_cases h : j / 16 = i
  · simp [h, show ¬j < 16 * i by omega, show j - 16 * i < 16 by omega, show j - 16 * i < 64 by omega,
      show 16 * i + (j - 16 * i) = j by omega]
  · by_cases hlow : j < 16 * i
    · simp [h, hlow]
    · simp [h, show ¬j - 16 * i < 16 by omega]

theorem getLsbD_keeping (x v : Word) {i : Nat} (hi : i < 4) {j : Nat} (hj : j < 64) :
    (MoveWide.onWord .keeping x (v.extractLsb' (16 * i) 16) (16 * i)).getLsbD j =
      if j / 16 = i then v.getLsbD j else x.getLsbD j := by
  have hones : (BitVec.allOnes 64).extractLsb' (16 * i) 16 = BitVec.allOnes 16 := by
    apply BitVec.eq_of_getLsbD_eq
    intro k hk
    rw [BitVec.getLsbD_extractLsb', BitVec.getLsbD_allOnes, BitVec.getLsbD_allOnes,
      decide_eq_true (show 16 * i + k < 64 by omega), Bool.and_true]
  rw [MoveWide.onWord, ← hones, BitVec.getLsbD_or, BitVec.getLsbD_and, BitVec.getLsbD_not,
    getLsbD_placed _ _ hj, getLsbD_placed _ _ hj, BitVec.getLsbD_allOnes]
  by_cases h : j / 16 = i
  · simp [h, hj]
  · simp [h, hj]

theorem getLsbD_of_chunk (v : Word) {j : Nat} (hj : j < 64) (h : chunk v (j / 16) = 0) : v.getLsbD j = false := by
  rw [chunk_eq v (by omega)] at h
  have hbit := congrArg (·.getLsbD (j % 16)) h
  simp only [BitVec.getLsbD_setWidth, BitVec.getLsbD_extractLsb'] at hbit
  rw [show 16 * (j / 16) + j % 16 = j by omega] at hbit
  simpa [show j % 16 < 32 by omega, show j % 16 < 16 by omega] using hbit

theorem setWidth_eq_zero_iff (v : Word) : v.setWidth 48 = 0 ↔ ∀ i < 3, chunk v i = 0 := by
  constructor
  · intro h i hi
    rw [chunk_eq v (by omega)]
    apply BitVec.eq_of_getLsbD_eq
    intro j hj
    have hbit := congrArg (·.getLsbD (16 * i + j)) h
    simp only [BitVec.getLsbD_setWidth] at hbit
    by_cases hj' : j < 16
    · simpa [hj, hj', show 16 * i + j < 48 by omega] using hbit
    · simp [hj']
  · intro h
    apply BitVec.eq_of_getLsbD_eq
    intro j hj
    rw [BitVec.getLsbD_setWidth, getLsbD_of_chunk v (by omega) (h _ (by omega)), Bool.and_false]
    simp

section

variable {r : BitVec 5} (hr : r ≠ 31)

include hr

theorem run_zeroing (m : Machine) (v : Word) {i : Nat} (hi : i < 4) (is : List Instr) :
    m.run (moveWide .zeroing .w64 (.general r) (chunk v i) (BitVec.ofNat 32 (16 * i)) :: is) =
      (m.put r ((v.extractLsb' (16 * i) 16).setWidth 64 <<< (16 * i))).run is := by
  rw [chunk_eq v hi, run_cons (decode_moveWide .zeroing (.general r) _ hi)]
  exact congrArg (·.run is) (write_eq hr m _)

theorem run_keeping (m : Machine) (x v : Word) {i : Nat} (hi : i < 4) (is : List Instr) :
    (m.put r x).run (moveWide .keeping .w64 (.general r) (chunk v i) (BitVec.ofNat 32 (16 * i)) :: is) =
      (m.put r (MoveWide.onWord .keeping x (v.extractLsb' (16 * i) 16) (16 * i))).run is := by
  rw [chunk_eq v hi, run_cons (decode_moveWide .keeping (.general r) _ hi)]
  change ((m.put r x).write 64 r (MoveWide.onWord .keeping ((m.put r x).read 64 r) _ _)).run is = _
  rw [read_eq hr, write_eq hr, general_put, put_put]

theorem exists_run_keeping (m : Machine) (v : Word) {is : List Nat} (his : ∀ i ∈ is, i < 4) (x : Word) :
    ∃ y, (m.put r x).run (is.map fun i =>
        moveWide .keeping .w64 (.general r) (chunk v i) (BitVec.ofNat 32 (16 * i))) = some (m.put r y) ∧
      ∀ j < 64, y.getLsbD j = if j / 16 ∈ is then v.getLsbD j else x.getLsbD j := by
  induction is generalizing x with
  | nil => exact ⟨x, rfl, by simp⟩
  | cons i is ih =>
    obtain ⟨hi, his⟩ := List.forall_mem_cons.mp his
    obtain ⟨y, hrun, hy⟩ := ih his (MoveWide.onWord .keeping x (v.extractLsb' (16 * i) 16) (16 * i))
    refine ⟨y, ?_, fun j hj => ?_⟩
    · rw [List.map_cons, run_keeping hr m x v hi, hrun]
    · rw [hy j hj, getLsbD_keeping x v hi hj]
      by_cases hj' : j / 16 = i
      · simp [hj']
      · simp [hj']

theorem run_moveChunks (m : Machine) (v : Word) :
    m.run (moveChunks (.general r) v true) =
      some (m.put r (if v.setWidth 48 = 0 then m.general r else (v.setWidth 48).setWidth 64)) := by
  have hmem (i : Nat) : i ∈ (List.range 3).filter (fun i => !(true && decide (chunk v i = 0))) ↔
      i < 3 ∧ chunk v i ≠ 0 := by
    simp
  rw [moveChunks]
  generalize (List.range 3).filter (fun i => !(true && decide (chunk v i = 0))) = wanted at hmem ⊢
  cases wanted with
  | nil =>
    have hzero : v.setWidth 48 = 0 := by
      rw [setWidth_eq_zero_iff]
      intro i hi
      by_contra hne
      exact List.not_mem_nil ((hmem i).mpr ⟨hi, hne⟩)
    rw [if_pos hzero, put_general]
    rfl
  | cons i rest =>
    obtain ⟨hi, hne⟩ := (hmem i).mp List.mem_cons_self
    have hrest (k : Nat) (hk : k ∈ rest) : k < 4 := by
      have := ((hmem k).mp (List.mem_cons_of_mem i hk)).1
      omega
    obtain ⟨y, hrun, hy⟩ := exists_run_keeping hr m v hrest
      ((v.extractLsb' (16 * i) 16).setWidth 64 <<< (16 * i))
    have hvalue : y = (v.setWidth 48).setWidth 64 := by
      apply BitVec.eq_of_getLsbD_eq
      intro j hj
      rw [hy j hj, getLsbD_placed v i hj, BitVec.getLsbD_setWidth, BitVec.getLsbD_setWidth]
      by_cases hwanted : j / 16 ∈ i :: rest
      · have := ((hmem (j / 16)).mp hwanted).1
        rcases List.mem_cons.mp hwanted with h | h
        · simp [h, hj, show j < 48 by omega]
        · simp [h, hj, show j < 48 by omega]
      · obtain ⟨hother, hkept⟩ := not_or.mp (mt List.mem_cons.mpr hwanted)
        rw [if_neg hkept]
        by_cases hlow : j < 48
        · have hchunk : chunk v (j / 16) = 0 := by
            by_contra hne
            exact hwanted ((hmem _).mpr ⟨by omega, hne⟩)
          simp [getLsbD_of_chunk v hj hchunk]
        · simp [hother, hlow]
    have hlow : v.setWidth 48 ≠ 0 := fun h => hne ((setWidth_eq_zero_iff v).mp h i hi)
    rw [if_neg hlow, ← hvalue, ← hrun]
    exact run_zeroing hr m v (by omega) _

end

theorem length_moveChunks (dst : Register) (v : Word) :
    (moveChunks dst v true).length = (List.range 3).countP fun i => chunk v i ≠ 0 := by
  have hwanted : (List.range 3).filter (fun i => !(true && decide (chunk v i = 0))) =
      (List.range 3).filter fun i => chunk v i ≠ 0 := by
    simp
  rw [moveChunks, hwanted, List.countP_eq_length_filter]
  cases (List.range 3).filter fun i => chunk v i ≠ 0 with
  | nil => rfl
  | cons i rest => simp

/-! The four ways to move a constant. -/

theorem isLogical_iff {v : Word} : isLogical v = true ↔ IsBitmask v := by
  rw [isLogical, decide_eq_true_iff, LogicalImmediate.representable_wide_ne_no_iff, isBitmask_word_iff]

/-- Negative halves that logical instructions can hold, as halves or with zeros above them. -/
def IsHeldHalf (h : BitVec 32) : Prop := h.msb ∧ (IsBitmask h ∨ IsBitmask (h.setWidth 64))

theorem representableNarrow_ne_no_iff {h : BitVec 32} :
    LogicalImmediate.representableNarrow h ≠ .no ↔ IsBitmask h ∨ IsBitmask (h.setWidth 64) := by
  rw [LogicalImmediate.isBitmask_narrow_iff, isBitmask_word_iff, LogicalImmediate.representableNarrow,
    LogicalImmediate.representable, LogicalImmediate.find?, if_neg Bool.false_ne_true]
  cases LogicalImmediate.findNarrow? (h.setWidth 64) with
  | some p => by_cases hwide : p.isWide <;> simp [hwide]
  | none => cases Repetition.find? (h.setWidth 64) <;> simp

/-- A word whose upper half repeats the sign of the lower half, if that is negative. -/
theorem eq_signExtend_iff (v : Word) :
    v.sshiftRight 32 = BitVec.allOnes 64 ∧ (v.setWidth 32 : BitVec 32).slt 0 ↔
      (v.setWidth 32 : BitVec 32).msb ∧ v = (v.setWidth 32 : BitVec 32).signExtend 64 := by
  have hslt : (v.setWidth 32 : BitVec 32).slt 0 = (v.setWidth 32 : BitVec 32).msb := BitVec.slt_zero_eq_msb
  rw [hslt, and_comm]
  refine and_congr_right fun hmsb => ?_
  constructor
  · intro h
    apply BitVec.eq_of_getLsbD_eq
    intro j hj
    rw [BitVec.getLsbD_signExtend, hmsb]
    by_cases hlow : j < 32
    · simp [hlow, hj]
    · have hbit := congrArg (·.getLsbD (j - 32)) h
      simp only [BitVec.getLsbD_sshiftRight, BitVec.getLsbD_allOnes] at hbit
      simpa [hlow, hj, show 32 + (j - 32) = j by omega, show j - 32 < 64 by omega,
        show ¬64 ≤ j - 32 by omega] using hbit
  · intro h
    apply BitVec.eq_of_getLsbD_eq
    intro j hj
    rw [BitVec.getLsbD_sshiftRight, BitVec.getLsbD_allOnes, h, BitVec.msb_signExtend,
      BitVec.getLsbD_signExtend, hmsb]
    by_cases hlow : 32 + j < 64
    · simp [hlow, hj, show ¬64 ≤ j by omega]
    · simp [hlow, hj, show ¬64 ≤ j by omega]

theorem isExtendedHalf_iff {v : Word} :
    isExtendedHalf v = true ↔ ∃ h : BitVec 32, IsHeldHalf h ∧ v = h.signExtend 64 := by
  rw [isExtendedHalf, Bool.and_eq_true, Bool.and_eq_true, decide_eq_true_iff, decide_eq_true_iff,
    eq_signExtend_iff, representableNarrow_ne_no_iff]
  constructor
  · rintro ⟨⟨hmsb, hv⟩, hheld⟩
    exact ⟨v.setWidth 32, ⟨hmsb, hheld⟩, hv⟩
  · rintro ⟨h, ⟨hmsb, hheld⟩, rfl⟩
    rw [show (h.signExtend 64).setWidth 32 = h from Word.low_ofLow (by decide) h]
    exact ⟨⟨hmsb, rfl⟩, hheld⟩

theorem isBitmask_setWidth_of_chunk {h : BitVec 32} (hmsb : h.msb) (hmask : IsBitmask h)
    (hchunk : chunk (h.setWidth 64) 0 = 0) : IsBitmask (h.setWidth 64) := by
  obtain ⟨p, hp, hsize, rfl⟩ := isBitmask_iff.mp hmask
  have hdvd := Repetition.size_dvd_of_le hsize
  have hbit (i : Nat) : (rotatedRuns 32 p.size p.ones p.rotation).getLsbD i =
      (decide (i < 32) && decide ((i + p.rotation) % p.size < p.ones)) :=
    getLsbD_rotatedRuns hdvd hp.rotation_lt i
  rw [BitVec.msb_eq_getLsbD_last, hbit] at hmsb
  have hsign : (31 + p.rotation) % p.size < p.ones := by simpa using hmsb
  have hlow (i : Nat) (hi : i < 16) : p.ones ≤ (i + p.rotation) % p.size := by
    have hclear := getLsbD_of_chunk _ (by omega : i < 64)
      (show chunk _ (i / 16) = 0 by rw [show i / 16 = 0 by omega, hchunk])
    rw [BitVec.getLsbD_setWidth, hbit] at hclear
    simpa [show i < 64 by omega, show i < 32 by omega] using hclear
  have hones := hp.one_le_ones
  have hrotation := hp.rotation_lt
  -- Smaller elements would repeat the highest bit in the low chunk.
  have hfull : p.size = 32 := by
    have hlog := (Nat.pow_le_pow_iff_right (a := 2) (n := p.logSize) (m := 5) (by decide)).mp hsize
    by_contra hne
    have hsmall : p.logSize ≤ 4 := by
      by_contra hlarge
      exact hne (by rw [Repetition.size_eq, show p.logSize = 5 by omega]; rfl)
    obtain ⟨c, hc⟩ : p.size ∣ 16 := Nat.pow_dvd_pow 2 hsmall
    have hrepeat := hlow 15 (by decide)
    rw [← Nat.add_mul_mod_self_left (15 + p.rotation) p.size c, ← hc,
      show 15 + p.rotation + 16 = 31 + p.rotation by omega] at hrepeat
    omega
  rw [hfull] at hsign hlow hrotation
  have hstart : p.rotation = p.ones := by
    have := hlow 0 (by decide)
    rw [mod_of_lt_two_mul (by omega)] at hsign
    split at hsign <;> omega
  refine ⟨64, by decide, p.ones, p.ones + 32, by decide, hones, by omega, by omega, ?_⟩
  apply BitVec.eq_of_getLsbD_eq
  intro i hi
  rw [BitVec.getLsbD_setWidth, hbit, hfull, getLsbD_rotatedRuns (Nat.dvd_refl 64) (by omega), hstart,
    mod_of_lt_two_mul (by omega : i + (p.ones + 32) < 2 * 64), Bool.eq_iff_iff]
  simp only [hi, decide_true, Bool.true_and, Bool.and_eq_true, decide_eq_true_eq]
  by_cases hhalf : i < 32
  · rw [mod_of_lt_two_mul (by omega)]
    split <;> split <;> omega
  · split <;> omega

theorem chunk_three_eq_zero_iff (v : Word) : chunk v 3 = 0 ↔ v >>> 48 = 0 := by
  rw [chunk_eq v (by decide)]
  constructor
  · intro h
    apply BitVec.eq_of_getLsbD_eq
    intro j hj
    have hbit := congrArg (·.getLsbD j) h
    simp only [BitVec.getLsbD_setWidth, BitVec.getLsbD_extractLsb'] at hbit
    rw [BitVec.getLsbD_ushiftRight]
    by_cases hlow : j < 16
    · simpa [hlow, show j < 32 by omega] using hbit
    · simp [BitVec.getLsbD_of_ge v (48 + j) (by omega)]
  · intro h
    apply BitVec.eq_of_getLsbD_eq
    intro j hj
    have hbit := congrArg (·.getLsbD j) h
    simp only [BitVec.getLsbD_ushiftRight] at hbit
    rw [BitVec.getLsbD_setWidth, BitVec.getLsbD_extractLsb']
    simpa using fun _ _ => hbit

theorem low_eq_iff (v : Word) : (v.setWidth 48).setWidth 64 = v ↔ v >>> 48 = 0 := by
  rw [← BitVec.toNat_inj, ← BitVec.toNat_inj, BitVec.toNat_setWidth, BitVec.toNat_setWidth,
    BitVec.toNat_ushiftRight, Nat.shiftRight_eq_div_pow]
  have := v.isLt
  simp
  omega

theorem chunks_eq_iff {v : Word} (hv : v ≠ 0) (old : Word) :
    (if v.setWidth 48 = 0 then old else (v.setWidth 48).setWidth 64) = v ↔
      v >>> 48 = 0 ∨ v.setWidth 48 = 0 ∧ old = v := by
  rw [← low_eq_iff]
  by_cases hlow : v.setWidth 48 = 0
  · have hne : ¬(v.setWidth 48).setWidth 64 = v := by
      rw [hlow]
      exact fun h => hv (h.symm.trans (BitVec.setWidth_zero 64 48))
    rw [if_pos hlow, or_iff_right hne, and_iff_right hlow]
  · rw [if_neg hlow, or_iff_left fun h => hlow h.1]

section

variable {v : Word} (hv : v ≠ 0) (hmask : ¬IsBitmask v)
  (hhalf : ¬∃ h : BitVec 32, IsHeldHalf h ∧ v = h.signExtend 64)

include hv hmask hhalf

theorem moveConstant_of_chunks (dst : Register) : moveConstant dst v = .ok (moveChunks dst v true) := by
  rw [← isLogical_iff] at hmask
  rw [← isExtendedHalf_iff] at hhalf
  rw [moveConstant, if_neg (by simp [hhalf]), moveUnextended, if_neg hv, if_neg hmask]

theorem length_moveChunks_eq_moveCost_iff (dst : Register) :
    (moveChunks dst v true).length = moveCost v ↔ v >>> 48 = 0 := by
  rw [← isLogical_iff] at hmask
  rw [← isExtendedHalf_iff] at hhalf
  rw [← chunk_three_eq_zero_iff, length_moveChunks, moveCost, if_neg (by simpa [hmask] using hv), if_neg hhalf,
    List.range_succ (n := 3), List.countP_append]
  simp

end

theorem setWidth_ushiftRight (h : BitVec 32) : (h.setWidth 64 : Word) >>> 48 = 0 := by
  rw [← BitVec.toNat_inj, BitVec.toNat_ushiftRight, BitVec.toNat_setWidth, Nat.shiftRight_eq_div_pow]
  have := h.isLt
  simp
  omega

theorem signExtend_ushiftRight_ne {h : BitVec 32} (hmsb : h.msb) : ¬(h.signExtend 64 : Word) >>> 48 = 0 := by
  intro hzero
  have hbit := congrArg (·.getLsbD 0) hzero
  simp only [BitVec.getLsbD_ushiftRight, BitVec.getLsbD_signExtend, hmsb] at hbit
  cases hbit

theorem chunk_one_ne_zero {h : BitVec 32} (hmsb : h.msb) : chunk (h.setWidth 64) 1 ≠ 0 := by
  intro hzero
  have hbit := getLsbD_of_chunk (h.setWidth 64) (by decide : 31 < 64) hzero
  have hsign : h.getLsbD 31 = true := (BitVec.msb_eq_getLsbD_last h).symm.trans hmsb
  rw [BitVec.getLsbD_setWidth, hsign] at hbit
  cases hbit

section

variable {r : BitVec 5} (hr : r ≠ 31)

include hr

theorem exists_moveUnextended {v : Word} (hv : v >>> 48 = 0) :
    ∃ is, moveUnextended (.general r) v = .ok is ∧ (∀ m : Machine, m.run is = some (m.put r v)) ∧
      (IsBitmask v → is.length = 1) ∧
      (v ≠ 0 → ¬IsBitmask v → is.length = (List.range 3).countP fun i => chunk v i ≠ 0) := by
  rw [moveUnextended]
  by_cases hzero : v = 0
  · subst hzero
    exact ⟨_, if_pos rfl, run_moveZero hr, fun _ => rfl, fun hne => absurd rfl hne⟩
  rw [if_neg hzero]
  by_cases hmask : IsBitmask v
  · obtain ⟨i, hi, hrun⟩ := exists_moveBitmask hr hmask
    refine ⟨[i], ?_, hrun, fun _ => rfl, fun _ hnot => absurd hmask hnot⟩
    rw [if_pos (isLogical_iff.mpr hmask), hi]
    rfl
  · refine ⟨_, if_neg (mt isLogical_iff.mp hmask), fun m => ?_, fun h => absurd h hmask, fun _ _ => ?_⟩
    · have hlow := (low_eq_iff v).mpr hv
      have hne : v.setWidth 48 ≠ 0 := by
        intro h
        rw [h] at hlow
        exact hzero (hlow.symm.trans (BitVec.setWidth_zero 64 48))
      rw [run_moveChunks hr, if_neg hne, hlow]
    · exact length_moveChunks _ v

theorem exists_moveExtended {h : BitVec 32} (hheld : IsHeldHalf h) :
    ∃ is, moveHalf (.general r) h = .ok is ∧
      (∀ m : Machine, m.run (is ++ [bitfield .signed .w64 (.general r) (.general r) 0 31]) =
        some (m.put r (h.signExtend 64))) ∧
      (is.length + 1 = 2 ↔ IsBitmask (h.setWidth 64)) := by
  obtain ⟨hmsb, hmask⟩ := hheld
  have hupper := chunk_one_ne_zero hmsb
  have hne : h.setWidth 64 ≠ (0 : Word) := by
    intro hzero
    rw [hzero] at hupper
    exact hupper (by decide)
  obtain ⟨is, his, hrun, hone, hmany⟩ := exists_moveUnextended hr (setWidth_ushiftRight h)
  refine ⟨is, his, fun m => ?_, fun hlength => ?_, fun hwide => congrArg (· + 1) (hone hwide)⟩
  · have hhalf : (h.setWidth 64).setWidth 32 = h := by simp
    rw [run_append, hrun, Option.bind_some, run_signExtend hr, hhalf]
  · by_contra hwide
    have hlower : chunk (h.setWidth 64) 0 ≠ 0 := fun hzero =>
      hwide (isBitmask_setWidth_of_chunk hmsb (hmask.resolve_right hwide) hzero)
    have htwo : 2 ≤ (List.range 3).countP fun i => chunk (h.setWidth 64) i ≠ 0 := by
      rw [show List.range 3 = [0, 1, 2] from rfl, List.countP_cons_of_pos (by simpa using hlower),
        List.countP_cons_of_pos (by simpa using hupper)]
      omega
    have := hmany hne hwide
    omega

end

/-- A constant is in its register after the moves if it has no fourth chunk, is a bitmask or the sign
extension of a half that is held, or if it has a fourth chunk only and was there before. The moves are as
many as they are counted for in the same cases, except that a half has to be a bitmask with zeros above it.
No other register and no flag is changed. -/
theorem moveConstant_loads_iff (r : BitVec 5) (hr : r ≠ 31) (v : Word) :
    ∃ is, moveConstant (.general r) v = .ok is ∧
      (∀ m : Machine, ∃ x, m.run is = some (m.put r x) ∧
        (x = v ↔ v >>> 48 = 0 ∨ IsBitmask v ∨ (∃ h : BitVec 32, IsHeldHalf h ∧ v = h.signExtend 64) ∨
          v.setWidth 48 = 0 ∧ m.general r = v)) ∧
      (is.length = moveCost v ↔ v >>> 48 = 0 ∨ IsBitmask v ∨
        ∃ h : BitVec 32, h.msb ∧ IsBitmask (h.setWidth 64) ∧ v = h.signExtend 64) := by
  by_cases hzero : v = 0
  · subst hzero
    refine ⟨_, rfl, fun m => ⟨0, run_moveZero hr m, ?_⟩, ?_⟩
    · simp
    · simp [moveCost, moveRegister]
  by_cases hmask : IsBitmask v
  · obtain ⟨i, hi, hrun⟩ := exists_moveBitmask hr hmask
    have hlogical := isLogical_iff.mpr hmask
    refine ⟨[i], ?_, fun m => ⟨v, hrun m, ?_⟩, ?_⟩
    · rw [moveConstant, if_neg (by simp [hlogical]), moveUnextended, if_neg hzero, if_pos hlogical, hi]
      rfl
    · simp [hmask]
    · simp [hmask, moveCost, hlogical]
  have hlogical : isLogical v = false := Bool.eq_false_iff.mpr (mt isLogical_iff.mp hmask)
  by_cases hhalf : ∃ h : BitVec 32, IsHeldHalf h ∧ v = h.signExtend 64
  · have hextended := isExtendedHalf_iff.mpr hhalf
    obtain ⟨h, hheld, rfl⟩ := hhalf
    obtain ⟨is, his, hrun, hlength⟩ := exists_moveExtended hr hheld
    have htop : ¬(h.signExtend 64 : Word) >>> 48 = 0 := signExtend_ushiftRight_ne hheld.1
    refine ⟨_, ?_, fun m => ⟨_, hrun m, ?_⟩, ?_⟩
    · rw [moveConstant, if_pos (by simpa [hlogical, hextended] using hzero),
        show (h.signExtend 64).setWidth 32 = h from Word.low_ofLow (by decide) h, his]
      rfl
    · exact iff_of_true rfl (Or.inr (Or.inr (Or.inl ⟨h, hheld, rfl⟩)))
    · rw [List.length_append, moveCost, if_neg (by simpa [hlogical] using hzero), if_pos hextended,
        List.length_singleton, hlength]
      refine ⟨fun hwide => Or.inr (Or.inr ⟨h, hheld.1, hwide, rfl⟩), ?_⟩
      rintro (hlow | hv | ⟨k, -, hwide, hk⟩)
      · exact absurd hlow htop
      · exact absurd hv hmask
      · have hhalf : h = k := by
          rw [← Word.low_ofLow (by decide) h, ← Word.low_ofLow (by decide) k, Word.ofLow, hk, Word.ofLow]
        rwa [hhalf]
  · refine ⟨_, moveConstant_of_chunks hzero hmask hhalf _, fun m => ⟨_, run_moveChunks hr m v, ?_⟩, ?_⟩
    · rw [chunks_eq_iff hzero]
      simp [hmask, hhalf]
    · rw [length_moveChunks_eq_moveCost_iff hzero hmask hhalf]
      refine ⟨Or.inl, ?_⟩
      rintro (h | h | ⟨h, hmsb, hwide, hv⟩)
      · exact h
      · exact absurd h hmask
      · exact absurd ⟨h, ⟨hmsb, Or.inr hwide⟩, hv⟩ hhalf

theorem moveConstant_loads_iff_alternating :
    (30 : BitVec 5) ≠ 31 ∧
    ∃ is, moveConstant (.general 30) 0xFFFFFFFFAAAAAAAA = .ok is ∧
      (∀ m : Machine, ∃ x, m.run is = some (m.put 30 x) ∧
        (x = 0xFFFFFFFFAAAAAAAA ↔ (0xFFFFFFFFAAAAAAAA : Word) >>> 48 = 0 ∨
          IsBitmask (0xFFFFFFFFAAAAAAAA : Word) ∨
          (∃ h : BitVec 32, IsHeldHalf h ∧ 0xFFFFFFFFAAAAAAAA = h.signExtend 64) ∨
          (0xFFFFFFFFAAAAAAAA : Word).setWidth 48 = 0 ∧ m.general 30 = 0xFFFFFFFFAAAAAAAA)) ∧
      (is.length = moveCost 0xFFFFFFFFAAAAAAAA ↔ (0xFFFFFFFFAAAAAAAA : Word) >>> 48 = 0 ∨
        IsBitmask (0xFFFFFFFFAAAAAAAA : Word) ∨
        ∃ h : BitVec 32, h.msb ∧ IsBitmask (h.setWidth 64) ∧ 0xFFFFFFFFAAAAAAAA = h.signExtend 64) :=
  ⟨by decide, moveConstant_loads_iff 30 (by decide) 0xFFFFFFFFAAAAAAAA⟩

/-- Zeros between the runs of a bitmask are equally many everywhere. -/
theorem not_isBitmask_of_gaps {v : Word} {i j : Nat} (hi : i + 2 < 64) (hj : j + 1 < 64)
    (hone : v.getLsbD i = true) (hgap : v.getLsbD (i + 1) = false) (hnext : v.getLsbD (i + 2) = true)
    (hzero : v.getLsbD j = false) (hwide : v.getLsbD (j + 1) = false) : ¬IsBitmask v := by
  intro hmask
  obtain ⟨p, hp, -, rfl⟩ := isBitmask_iff.mp hmask
  have hones := hp.one_le_ones
  have hlt := hp.ones_lt
  have hbit (k : Nat) (hk : k < 64) (b : Bool)
      (h : (rotatedRuns 64 p.size p.ones p.rotation).getLsbD k = b) :
      decide ((k + p.rotation) % p.size < p.ones) = b := by
    rw [getLsbD_rotatedRuns hp.size_dvd hp.rotation_lt] at h
    simpa [hk] using h
  have hmod (k : Nat) : (k + 1) % p.size = if k % p.size + 1 < p.size then k % p.size + 1 else 0 := by
    have := Nat.mod_lt k (show 0 < p.size by omega)
    rw [← Nat.mod_add_mod]
    split
    · exact Nat.mod_eq_of_lt ‹_›
    · rw [show k % p.size + 1 = p.size by omega, Nat.mod_self]
  have h0 := hbit i (by omega) _ hone
  have h1 := hbit (i + 1) (by omega) _ hgap
  have h2 := hbit (i + 2) hi _ hnext
  have h3 := hbit j (by omega) _ hzero
  have h4 := hbit (j + 1) hj _ hwide
  rw [Nat.add_right_comm, hmod] at h1 h4
  rw [show i + 2 + p.rotation = i + p.rotation + 1 + 1 by omega, hmod, hmod] at h2
  simp only [decide_eq_true_eq, decide_eq_false_iff_not] at h0 h1 h2 h3 h4
  have := Nat.mod_lt (j + p.rotation) (show 0 < p.size by omega)
  split_ifs at h1 h2 h4 <;> omega

/-- The fourth chunk of a constant is not moved, though it is counted. -/
theorem moveConstant_drops_fourth_chunk :
    ∃ is, moveConstant (.general 0) 0x123456789ABCDEF0 = .ok is ∧
      (∀ m : Machine, ∃ n, m.run is = some n ∧ n.general 0 ≠ 0x123456789ABCDEF0) ∧
      is.length ≠ moveCost 0x123456789ABCDEF0 := by
  have hzero : (0x123456789ABCDEF0 : Word) ≠ 0 := by decide
  have hmask : ¬IsBitmask (0x123456789ABCDEF0 : Word) :=
    @not_isBitmask_of_gaps _ 7 0 (by decide) (by decide) rfl rfl rfl rfl rfl
  have hhalf : ¬∃ h : BitVec 32, IsHeldHalf h ∧ (0x123456789ABCDEF0 : Word) = h.signExtend 64 := by
    rw [← isExtendedHalf_iff]
    simp [isExtendedHalf]
  refine ⟨_, moveConstant_of_chunks hzero hmask hhalf _, fun m => ⟨_, run_moveChunks (by decide) m _, ?_⟩, ?_⟩
  · rw [general_put, if_neg (by decide)]
    decide
  · rw [Ne, length_moveChunks_eq_moveCost_iff hzero hmask hhalf]
    decide

end CompilerKit.Aarch64
