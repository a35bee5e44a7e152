import CompilerKit.Aarch64.Plan
import CompilerKit.Proofs.Aarch64.Addition
import CompilerKit.Proofs.Aarch64.Transfer

/-! # Effective addresses

A load or a store finds its data at the sum of a base and a distance. Code that loads the address itself has
to compute the same sum, but the forms of the addition differ from those of the address: a base with the
number 31 is the stack pointer only where nothing is shifted, and where nothing has to be added the base is
not moved to its destination.
-/

namespace CompilerKit.Aarch64

open Instr Sequence

namespace Machine

variable (m : Machine)

def contents : Register → Word
  | .general n => m.general n
  | .stackPointer => m.stackPointer
  | .zero | .vector _ => 0

theorem contents_orStack (n : BitVec 5) : m.contents (.orStack n) = m.readOrStack 64 n := by
  rw [Register.orStack, readOrStack]
  split
  case isTrue => exact (BitVec.setWidth_eq _).symm
  case isFalse hn => exact (read_eq hn m).symm

theorem contents_ofNumber (n : BitVec 5) : m.contents (.ofNumber n) = m.read 64 n := by
  rw [Register.ofNumber]
  split
  case isTrue hn =>
    subst hn
    exact (m.read_zero 64).symm
  case isFalse hn => exact (read_eq hn m).symm

end Machine

theorem Extension.onWord_uxtx (x : Word) : Extension.onWord .uxtx x = x := by
  simp [onWord]

/-- Where a load or store finds its data, with the instruction itself at `pc`. -/
def Transfer.address (t : Transfer) (pc : Word) (m : Machine) : Word :=
  match t.place with
  | .scaled base units => m.contents base + BitVec.ofNat 64 (units * (t.bits / 8))
  | .unscaled base bytes | .preIndexed base bytes => m.contents base + BitVec.ofInt 64 bytes
  | .postIndexed base _ => m.contents base
  | .indexed base index e shift => m.contents base + e.onWord (m.contents index) <<< shift
  | .literal bytes => pc + BitVec.ofInt 64 bytes

/-- The modes whose addresses can be loaded, apart from places near the instruction. -/
def AddressingMode.computable : List AddressingMode :=
  [.immediateScaled, .immediateUnscaled, .registerOffset, .extendedRegisterOffset, .baseOnly]

theorem AddressingMode.ne_pcLiteral {mode : AddressingMode} (h : mode ∈ computable) : mode ≠ .pcLiteral := by
  rintro rfl
  exact absurd h (by decide)

namespace Address

variable (a : Address) (k : Nat)

/-- The distance of the base from data of `2 ^ k` bytes. -/
def distance (m : Machine) : Word :=
  let shift := if a.scaled then k else 0
  match a.mode with
  | .immediateScaled => BitVec.ofNat 64 (a.immediate.toNat * 2 ^ k)
  | .immediateUnscaled => BitVec.ofInt 64 a.immediate.toInt
  | .registerOffset => m.read 64 a.offset.number <<< shift
  | .extendedRegisterOffset => (a.extension.getD .uxtx).onWord (m.read 64 a.offset.number) <<< shift
  | _ => 0#64

end Address

theorem exists_transfer_address (q : Motion) {k : Nat} (hk : k < 4) (hq : q.Admits (8 * 2 ^ k)) (d : Register)
    {a : Address} (ha : a.isValid) (hmode : a.mode ∈ AddressingMode.computable) :
    ∃ i t, sequence? q.mnemonic (q.operands (BitVec.ofNat 32 (8 * 2 ^ k)) d a) = some (.ok [i]) ∧
      i.transfer? = some t ∧
        ∀ pc m, t.address pc m = m.readOrStack 64 a.base.number + a.distance k m := by
  have hliteral := AddressingMode.ne_pcLiteral hmode
  obtain ⟨i, p, hcode, hplace, hread⟩ := exists_transfer q hk hq d ha fun h => absurd h hliteral
  obtain ⟨hvector, hzero⟩ := Address.base_of_isValid ha hliteral
  have hbase := Register.orStack_number hvector hzero
  have hsize : 8 * 2 ^ k / 8 = 2 ^ k := Nat.mul_div_cancel_left _ (by decide)
  have hshift : (2 ^ k).log2 = k := Nat.log2_two_pow
  have hoffset := Place.encoded_indexed (Address.offset_of_isValid ha) a.base.asBase
  refine ⟨i, _, hcode, hread, fun pc m => ?_⟩
  rw [← m.contents_orStack, hbase]
  cases h : a.mode with
  | immediateScaled =>
    obtain rfl : .scaled a.base.asBase a.immediate.toNat = p := by simpa [Address.place?, h] using hplace
    simp only [Transfer.address, Place.encoded, Address.distance, h, hsize]
  | immediateUnscaled =>
    obtain rfl : .unscaled a.base.asBase a.immediate.toInt = p := by simpa [Address.place?, h] using hplace
    simp only [Transfer.address, Place.encoded, Address.distance, h]
  | baseOnly =>
    obtain rfl : .scaled a.base.asBase 0 = p := by simpa [Address.place?, h] using hplace
    simp only [Transfer.address, Place.encoded, Address.distance, h, Nat.zero_mul]
  | registerOffset =>
    simp only [Address.place?, h, hsize, hshift, Option.some.injEq] at hplace
    subst hplace
    simp only [Transfer.address, hoffset, Address.distance, h, m.contents_ofNumber, Extension.onWord_uxtx]
  | extendedRegisterOffset =>
    simp only [Address.place?, h, hsize, hshift] at hplace
    obtain ⟨e, he, rfl⟩ := Option.map_eq_some_iff.mp hplace
    simp only [Transfer.address, hoffset, Address.distance, h, m.contents_ofNumber, he, Option.getD_some]
  | pcLiteral | postIndexed | preIndexed | unknown =>
    rw [h] at hmode
    exact absurd hmode (by decide)

/-! Additions to a register. -/

theorem lowPart_spec (n : BitVec 32) :
    isArithmetic (n &&& Numeric.lowBits 32 12) ∧ (n &&& Numeric.lowBits 32 12).toNat = n.toNat % 4096 := by
  have hlow : (n &&& Numeric.lowBits 32 12).toNat = n.toNat % 4096 := by
    have hmask := congrArg BitVec.toNat (Numeric.and_lowBits (show 12 < 32 by decide) n)
    rw [BitVec.toNat_setWidth, BitVec.toNat_setWidth] at hmask
    exact hmask.trans (Nat.mod_eq_of_lt ((Nat.mod_lt _ (by decide)).trans (by decide)))
  exact ⟨isArithmetic_of_lt (hlow ▸ Nat.mod_lt _ (by decide)), hlow⟩

/-- The bits above, which can be added where there are at most twelve. -/
theorem highPart_spec {n : BitVec 32} (hn : n.toNat < 2 ^ 24) :
    isArithmetic (n &&& ~~~Numeric.lowBits 32 12) ∧
      (n &&& ~~~Numeric.lowBits 32 12).toNat = 4096 * (n.toNat / 4096) := by
  have hmask : Numeric.lowBits 32 12 = (BitVec.allOnes 12).setWidth 32 := by decide
  have hshift : n &&& ~~~Numeric.lowBits 32 12 = (n >>> 12) <<< 12 := by
    rw [hmask]
    apply BitVec.eq_of_getLsbD_eq
    intro i hi
    simp only [BitVec.getLsbD_and, BitVec.getLsbD_not, BitVec.getLsbD_setWidth, BitVec.getLsbD_allOnes,
      BitVec.getLsbD_shiftLeft, BitVec.getLsbD_ushiftRight, hi, decide_true, Bool.true_and]
    by_cases h : i < 12
    · rw [decide_eq_true h, Bool.not_true, Bool.and_false, Bool.false_and]
    · rw [decide_eq_false h, Bool.not_false, Bool.and_true, Bool.true_and, Nat.add_sub_cancel' (by omega)]
  have hhigh : (n &&& ~~~Numeric.lowBits 32 12).toNat = 4096 * (n.toNat / 4096) := by
    rw [hshift, BitVec.toNat_shiftLeft, BitVec.toNat_ushiftRight, Nat.shiftRight_eq_div_pow, Nat.shiftLeft_eq]
    omega
  refine ⟨?_, hhigh⟩
  have hfits : Numeric.fitsUnsigned 12 ((n &&& ~~~Numeric.lowBits 32 12) >>> 12) := by
    refine (Numeric.fitsUnsigned_iff _).mpr ?_
    change _ < 2 ^ 12
    rw [BitVec.toNat_ushiftRight, hhigh, Nat.shiftRight_eq_div_pow]
    omega
  have hclear : n &&& ~~~Numeric.lowBits 32 12 &&& 0xFFF = 0 := by
    rw [show (0xFFF : BitVec 32) = Numeric.lowBits 32 12 by decide, BitVec.and_assoc]
    simp
  rw [isArithmetic, hfits, hclear]
  simp

section

variable {r : BitVec 5} (hr : r ≠ 31)

include hr

theorem exists_addConstant_put {n : BitVec 32} (hn : isArithmeticConstant (n.signExtend 64)) (src : Register) :
    ∃ code, addConstant true false .w64 (.general r) src n = .ok code ∧ ∀ m : Machine,
      m.steps code = some (m.put r (m.readOrStack 64 src.number + BitVec.ofInt 64 n.toInt)) := by
  obtain ⟨code, hcode, hsteps⟩ := exists_addConstant hn true false .w64 (.general r) src
  refine ⟨code, hcode, fun m => ?_⟩
  rw [hsteps, if_neg (c := _ ∧ true = !n.slt 0) fun h => Bool.false_ne_true h.1]
  split
  case isTrue hidle =>
    obtain ⟨rfl, rfl⟩ := hidle
    have hvalue := m.total_zero 64 true r
    rw [m.readOrStack_eq 64 hr, Machine.read_eq hr] at hvalue
    change some m = some (m.put r (m.total true 64 r 0))
    rw [hvalue, Machine.put_general]
  case isFalse => exact congrArg some (Machine.writeOrStack_eq hr m _)

theorem exists_addition {n : BitVec 32} (hn : isArithmetic n) (hlt : n.toNat < 2 ^ 31) (src : Register) :
    ∃ steps : List Instrs,
      (if n = 0 then [] else [addConstant true false .w64 (.general r) src n]) = steps.map .ok ∧
      ∀ m : Machine, m.steps steps.flatten =
        some (if n = 0 then m else m.put r (m.readOrStack 64 src.number + BitVec.ofNat 64 n.toNat)) := by
  by_cases hzero : n = 0
  · exact ⟨[], if_pos hzero, fun m => by rw [if_pos hzero]; rfl⟩
  obtain ⟨code, hcode, hsteps⟩ := exists_addConstant_put hr (isArithmeticConstant_of_lt hn hlt) src
  refine ⟨[code], by rw [if_neg hzero, hcode]; rfl, fun m => ?_⟩
  rw [if_neg hzero, List.flatten_singleton, hsteps, BitVec.toInt_eq_toNat_of_lt (by omega),
    BitVec.ofInt_natCast]

/-- A constant is added in two parts. Without either, the destination keeps what it had. -/
theorem exists_additions {low high : BitVec 32} (hlow : isArithmetic low) (hhigh : isArithmetic high)
    (hlt : low.toNat + high.toNat < 2 ^ 31) (src : Register) :
    ∃ steps : List Instrs,
      ((if low = 0 then [] else [addConstant true false .w64 (.general r) src low]) ++
        if high = 0 then [] else [addConstant true false .w64 (.general r)
          (if low = 0 then src else .general r) high]) = steps.map .ok ∧
      ∀ m : Machine, m.steps steps.flatten = some (m.put r (if low = 0 ∧ high = 0 then m.general r
        else m.readOrStack 64 src.number + BitVec.ofNat 64 (low.toNat + high.toNat))) := by
  obtain ⟨first, hfirst, hstepsFirst⟩ := exists_addition hr hlow (by omega) src
  obtain ⟨second, hsecond, hstepsSecond⟩ :=
    exists_addition hr hhigh (by omega) (if low = 0 then src else .general r)
  refine ⟨first ++ second, by rw [List.map_append, ← hfirst, ← hsecond], fun m => ?_⟩
  rw [List.flatten_append, Machine.steps_append, hstepsFirst, Option.bind_some, hstepsSecond, BitVec.ofNat_add]
  by_cases h1 : low = 0
  · by_cases h2 : high = 0
    · rw [if_pos h1, if_pos h2, if_pos ⟨h1, h2⟩, Machine.put_general]
    · rw [if_pos h1, if_neg h2, if_pos h1, if_neg fun h => h2 h.2, h1]
      simp
  · rw [if_neg h1, if_neg (c := low = 0 ∧ high = 0) fun h => h1 h.1]
    by_cases h2 : high = 0
    · rw [if_pos h2, h2]
      simp
    · rw [if_neg h2, if_neg h1, Register.number, Machine.put_put, Machine.readOrStack_eq _ _ hr,
        Machine.read_eq hr, Machine.general_put, BitVec.add_assoc]

end

/-! The code for each mode. -/

/-- The code that loads an address changes nothing but the destination, and leaves `value` there. -/
def Computes (r : BitVec 5) (a : Address) (size : BitVec 32) (value : Machine → Word) : Prop :=
  ∃ steps : List Instrs, loadAddress (.general r) a size = steps.map .ok ∧
    ∀ m : Machine, m.steps steps.flatten = some (m.put r (value m))

section

variable {r : BitVec 5} (hr : r ≠ 31) {k : Nat} (hk : k < 4) {a : Address}

include hk

theorem log2Ceil_two_pow : Numeric.log2Ceil (BitVec.ofNat 32 (2 ^ k)).toInt = k := by
  interval_cases k <;> rfl

theorem loadAddress_immediateScaled (hmode : a.mode = .immediateScaled) (dst : Register) :
    loadAddress dst a (BitVec.ofNat 32 (2 ^ k)) =
      let low := a.immediate <<< k &&& Numeric.lowBits 32 12
      let high := a.immediate <<< k &&& ~~~Numeric.lowBits 32 12
      (if low = 0 then [] else [addConstant true false .w64 dst a.base low]) ++
        if high = 0 then [] else [addConstant true false .w64 dst (if low = 0 then a.base else dst) high] := by
  have hshift : (BitVec.ofNat 32 k).toNat % 32 = k := by
    rw [BitVec.toNat_ofNat, Nat.mod_eq_of_lt (by omega), Nat.mod_eq_of_lt (by omega)]
  rw [loadAddress, hmode, log2Ceil_two_pow hk]
  simp only [hshift]

include hr

theorem computes_immediateScaled (hmode : a.mode = .immediateScaled) (ha : a.isValid) :
    Computes r a (BitVec.ofNat 32 (2 ^ k)) fun m =>
      if a.immediate = 0 then m.general r else m.readOrStack 64 a.base.number + a.distance k m := by
  have hfits : a.immediate.toNat < 2 ^ 12 := by
    refine (Numeric.fitsUnsigned_iff (n := 12) _).mp ?_
    simp_all [Address.isValid]
  have hpow : 2 ^ k ≤ 2 ^ 3 := Nat.pow_le_pow_right (by decide) (by omega)
  have hprod : a.immediate.toNat * 2 ^ k ≤ 4095 * 8 := Nat.mul_le_mul (by omega) hpow
  have hnumber : (a.immediate <<< k).toNat = a.immediate.toNat * 2 ^ k := by
    rw [BitVec.toNat_shiftLeft, Nat.shiftLeft_eq, Nat.mod_eq_of_lt (by omega)]
  obtain ⟨hlow, hlowNat⟩ := lowPart_spec (a.immediate <<< k)
  obtain ⟨hhigh, hhighNat⟩ := highPart_spec (n := a.immediate <<< k) (by omega)
  rw [Computes, loadAddress_immediateScaled hk hmode]
  generalize a.immediate <<< k &&& Numeric.lowBits 32 12 = low at *
  generalize a.immediate <<< k &&& ~~~Numeric.lowBits 32 12 = high at *
  have hsum : low.toNat + high.toNat = a.immediate.toNat * 2 ^ k := by omega
  have hzero : low = 0 ∧ high = 0 ↔ a.immediate = 0 := by
    have hsumZero : a.immediate.toNat * 2 ^ k = 0 ↔ a.immediate.toNat = 0 := by simp
    have hnone : (0 : BitVec 32).toNat = 0 := rfl
    simp only [← BitVec.toNat_inj, hnone]
    omega
  obtain ⟨steps, hsteps, hrun⟩ := exists_additions hr hlow hhigh (by omega) a.base
  refine ⟨steps, hsteps, fun m => ?_⟩
  rw [hrun, hsum, Address.distance, hmode]
  simp only [hzero]

omit hk in
theorem computes_immediateUnscaled (hmode : a.mode = .immediateUnscaled) (ha : a.isValid) :
    Computes r a (BitVec.ofNat 32 (2 ^ k)) fun m => m.readOrStack 64 a.base.number + a.distance k m := by
  have hfits : Numeric.fitsSigned 9 a.immediate := by
    simp_all [Address.isValid]
  obtain ⟨hl, hu⟩ := (Numeric.fitsSigned_iff (n := 9) (by decide) (by decide) _).mp hfits
  have hmin : a.immediate ≠ BitVec.intMin 32 := by
    intro h
    rw [h] at hl
    exact absurd hl (by decide)
  have harith : isArithmetic (if a.immediate.slt 0 then -a.immediate else a.immediate) := by
    apply isArithmetic_of_lt
    rw [toNat_magnitude hmin]
    omega
  obtain ⟨code, hcode, hsteps⟩ :=
    exists_addConstant_put hr (isArithmeticConstant_iff.mpr ⟨hmin, harith⟩) a.base
  refine ⟨[code], by rw [loadAddress, hmode]; exact congrArg ([·]) hcode, fun m => ?_⟩
  rw [List.flatten_singleton, hsteps]
  simp only [Address.distance, hmode]

theorem computes_registerOffset (hmode : a.mode = .registerOffset) :
    Computes r a (BitVec.ofNat 32 (2 ^ k)) fun m => m.read 64 a.base.number + a.distance k m := by
  obtain ⟨s, hs⟩ : ∃ s, s = if a.scaled then k else 0 := ⟨_, rfl⟩
  have hlt : s < 4 := by grind
  have hsize : (BitVec.ofNat 6 s).toNat = s := Nat.mod_eq_of_lt (by omega)
  have hamount : (if a.scaled then BitVec.ofNat 32 k else 0) &&& 63 = (BitVec.ofNat 6 s).setWidth 32 := by
    subst hs
    cases a.scaled <;> interval_cases k <;> rfl
  refine ⟨[[addSubShifted .add .w64 (.general r) a.base a.offset .lsl ((BitVec.ofNat 6 s).setWidth 32)]], ?_,
    fun m => ?_⟩
  · rw [loadAddress, hmode, log2Ceil_two_pow hk]
    simp only [hamount]
    rfl
  · have hfits : (BitVec.ofNat 6 s).toNat < 64 := by omega
    have hstep := m.step_addShifted .w64 (.general r) a.base a.offset hfits
    rw [List.flatten_singleton, Machine.steps_one, hstep, hsize]
    simp only [Address.distance, hmode, ← hs]
    exact congrArg some (Machine.write_eq hr m _)

theorem computes_extendedRegisterOffset (hmode : a.mode = .extendedRegisterOffset) (ha : a.isValid) :
    Computes r a (BitVec.ofNat 32 (2 ^ k)) fun m => m.readOrStack 64 a.base.number + a.distance k m := by
  obtain ⟨e, he⟩ : ∃ e, a.extension = some e := by
    cases h : a.extension <;> simp_all [Address.isValid]
  obtain ⟨s, hs⟩ : ∃ s, s = if a.scaled then k else 0 := ⟨_, rfl⟩
  have hlt : s < 4 := by grind
  have hsize : (BitVec.ofNat 3 s).toNat = s := Nat.mod_eq_of_lt (by omega)
  have hamount : (if a.scaled then BitVec.ofNat 32 k else 0) = (BitVec.ofNat 3 s).setWidth 32 := by
    subst hs
    cases a.scaled <;> interval_cases k <;> rfl
  refine ⟨[[addSubExtended .add .w64 (.general r) a.base a.offset e ((BitVec.ofNat 3 s).setWidth 32)]], ?_,
    fun m => ?_⟩
  · rw [loadAddress, hmode, log2Ceil_two_pow hk]
    simp only [hamount, he]
    rfl
  · have hfits : (BitVec.ofNat 3 s).toNat ≤ 4 := by omega
    have hstep := m.step_addExtended .w64 (.general r) a.base a.offset e hfits
    rw [List.flatten_singleton, Machine.steps_one, hstep, hsize]
    simp only [Address.distance, hmode, he, Option.getD_some, ← hs]
    exact congrArg some (Machine.writeOrStack_eq hr m _)

omit hk in
theorem steps_moveRegister (src : Register) (m : Machine) : m.steps (moveRegister .w64 (.general r) src) =
    some (m.put r (if src = .stackPointer then m.stackPointer else m.read 64 src.number)) := by
  rw [moveRegister]
  split
  case isTrue hsame =>
    subst hsame
    rw [if_neg Register.noConfusion, Register.number, Machine.read_eq hr, Machine.put_general, Machine.steps_nil]
  case isFalse =>
    by_cases hstack : src = .stackPointer
    · subst hstack
      have hvalue : m.readOrStack 64 31 + BitVec.ofNat 64 0 = m.stackPointer :=
        (BitVec.add_zero _).trans (BitVec.setWidth_eq _)
      rw [if_pos (by simp), if_pos rfl, Machine.steps_one, m.step_add .w64 _ _ (by decide)]
      exact congrArg some ((Machine.writeOrStack_eq hr m _).trans (congrArg (m.put r) hvalue))
    · have hvalue : m.read 64 src.number ||| m.read 64 31 <<< 0 = m.read 64 src.number := by
        rw [m.read_zero]
        exact BitVec.or_zero
      have hdecode := decode_logicalShifted .or false (.general r) src .zero .lsl 0
      rw [if_neg (by simp [hstack]), if_neg hstack, Machine.steps_one]
      refine (Machine.step_of_decode hdecode).trans (congrArg some ?_)
      exact (Machine.write_eq hr m _).trans (congrArg (m.put r) hvalue)

omit hk in
theorem computes_baseOnly (size : BitVec 32) (hmode : a.mode = .baseOnly) :
    Computes r a size fun m => if a.base = .stackPointer then m.stackPointer else m.read 64 a.base.number := by
  refine ⟨[moveRegister .w64 (.general r) a.base], by rw [loadAddress, hmode]; rfl, fun m => ?_⟩
  rw [List.flatten_singleton, steps_moveRegister hr]

end

/-! What is computed, compared to what is used. -/

/-- Whether the code for an address gives the address that a load or store uses. -/
def Address.IsLoadable (dst : Register) (a : Address) : Prop :=
  match a.mode with
  | .immediateScaled => a.immediate ≠ 0 ∨ dst = a.base
  | .registerOffset => a.base.number ≠ 31
  | .baseOnly => a.base ≠ .general 31
  | _ => True

theorem read_eq_readOrStack_iff {n : BitVec 5} : (∀ m : Machine, m.read 64 n = m.readOrStack 64 n) ↔ n ≠ 31 := by
  constructor
  · rintro h rfl
    exact absurd (h ⟨fun _ => 0, 1, ⟨false, false, false, false⟩⟩) (by decide)
  · intro hn m
    exact (m.readOrStack_eq 64 hn).symm

theorem readOrStack_put {r n : BitVec 5} (hn : n = 31 ∨ n ≠ r) (m : Machine) (x : Word) :
    (m.put r x).readOrStack 64 n = m.readOrStack 64 n := by
  by_cases hstack : n = 31
  · rw [Machine.readOrStack, Machine.readOrStack, if_pos hstack, if_pos hstack]
    rfl
  · rw [Machine.readOrStack_eq _ _ hstack, Machine.readOrStack_eq _ _ hstack, Machine.read_eq hstack,
      Machine.read_eq hstack]
    exact Function.update_of_ne (hn.resolve_left hstack) _ _

/-- A register holds the base in every state only if it is the base. -/
theorem general_eq_base_iff {r : BitVec 5} (hr : r ≠ 31) {base : Register} (hvector : base.isVector = false)
    (hzero : base ≠ .zero) :
    (∀ m : Machine, m.general r = m.readOrStack 64 base.number) ↔ .general r = base := by
  constructor
  · intro h
    by_contra hne
    have hapart : base.number = 31 ∨ base.number ≠ r := by
      cases base with
      | general n => exact .inr fun h => hne (congrArg _ h.symm)
      | zero => exact absurd rfl hzero
      | stackPointer => exact .inl rfl
      | vector n => cases hvector
    let m : Machine := ⟨fun _ => 0, 0, ⟨false, false, false, false⟩⟩
    have hone := h (m.put r 1)
    rw [Machine.general_put, readOrStack_put hapart, ← h m] at hone
    exact absurd hone (show (1 : Word) ≠ 0 by decide)
  · rintro rfl m
    exact ((m.readOrStack_eq 64 hr).trans (Machine.read_eq hr m)).symm

theorem exists_computes_iff {r : BitVec 5} (hr : r ≠ 31) {k : Nat} (hk : k < 4) {a : Address} (ha : a.isValid)
    (hmode : a.mode ∈ AddressingMode.computable) :
    ∃ value, Computes r a (BitVec.ofNat 32 (2 ^ k)) value ∧
      ((∀ m, value m = m.readOrStack 64 a.base.number + a.distance k m) ↔ a.IsLoadable (.general r)) := by
  obtain ⟨hvector, hzero⟩ := Address.base_of_isValid ha (AddressingMode.ne_pcLiteral hmode)
  cases h : a.mode with
  | immediateScaled =>
    refine ⟨_, computes_immediateScaled hr hk h ha, ?_⟩
    by_cases hnone : a.immediate = 0
    · have hdistance (m : Machine) : a.distance k m = 0#64 := by
        simp [Address.distance, h, hnone]
      simp only [Address.IsLoadable, h, hnone, if_true, ne_eq, not_true, false_or, hdistance, BitVec.add_zero]
      exact general_eq_base_iff hr hvector hzero
    · simp only [Address.IsLoadable, h, hnone, if_false, ne_eq, not_false_iff, true_or, implies_true]
  | immediateUnscaled =>
    refine ⟨_, computes_immediateUnscaled hr h ha, ?_⟩
    simp only [Address.IsLoadable, h, implies_true]
  | registerOffset =>
    refine ⟨_, computes_registerOffset hr hk h, ?_⟩
    simp only [Address.IsLoadable, h, BitVec.add_left_inj]
    exact read_eq_readOrStack_iff
  | extendedRegisterOffset =>
    refine ⟨_, computes_extendedRegisterOffset hr hk h ha, ?_⟩
    simp only [Address.IsLoadable, h, implies_true]
  | baseOnly =>
    refine ⟨_, computes_baseOnly hr _ h, ?_⟩
    simp only [Address.IsLoadable, h, Address.distance]
    cases hbase : a.base with
    | general n =>
      simp only [reduceCtorEq, if_false, BitVec.add_zero, Register.number, ne_eq, Register.general.injEq]
      exact read_eq_readOrStack_iff
    | zero => exact absurd hbase hzero
    | stackPointer =>
      have hvalue (m : Machine) : m.stackPointer = m.readOrStack 64 31 := (BitVec.setWidth_eq _).symm
      simp only [if_true, BitVec.add_zero, Register.number, ne_eq, reduceCtorEq, not_false_iff, iff_true]
      exact hvalue
    | vector n =>
      rw [hbase] at hvector
      cases hvector
  | pcLiteral | postIndexed | preIndexed | unknown =>
    rw [h] at hmode
    exact absurd hmode (by decide)

/-- The code changes the destination only. It leaves there what a load or store of the same size uses as its
address, except where nothing is added to another register, where the index is added to the stack pointer,
and where the base is only known by the number 31. -/
theorem effective_address_loaded_iff {r : BitVec 5} (hr : r ≠ 31) {k : Nat} (hk : k < 4) {a : Address}
    (ha : a.isValid) (hmode : a.mode ∈ AddressingMode.computable) (q : Motion) (hq : q.Admits (8 * 2 ^ k))
    (d : Register) :
    ∃ (steps : List Instrs) (i : Instr) (t : Transfer),
      loadAddress (.general r) a (BitVec.ofNat 32 (2 ^ k)) = steps.map .ok ∧
      sequence? q.mnemonic (q.operands (BitVec.ofNat 32 (8 * 2 ^ k)) d a) = some (.ok [i]) ∧
      i.transfer? = some t ∧
      (∀ m : Machine, ∃ x, m.steps steps.flatten = some (m.put r x)) ∧
      ((∀ (pc : Word) (m : Machine), m.steps steps.flatten = some (m.put r (t.address pc m))) ↔
        a.IsLoadable (.general r)) := by
  obtain ⟨i, t, hcode, hread, haddress⟩ := exists_transfer_address q hk hq d ha hmode
  obtain ⟨value, ⟨steps, hsteps, hrun⟩, hiff⟩ := exists_computes_iff hr hk ha hmode
  refine ⟨steps, i, t, hsteps, hcode, hread, fun m => ⟨_, hrun m⟩, ?_⟩
  rw [← hiff]
  constructor
  · intro h m
    have hsame := (hrun m).symm.trans (h 0 m)
    rw [haddress] at hsame
    have hgeneral := congrArg (·.general r) (Option.some.inj hsame)
    simpa only [Machine.general_put] using hgeneral
  · intro h pc m
    rw [hrun, h, haddress]

theorem effective_address_loaded_iff_high :
    (3 : BitVec 5) ≠ 31 ∧ 3 < 4 ∧ (Address.scaledImmediate .stackPointer 4095).isValid ∧
    (Address.scaledImmediate .stackPointer 4095).mode ∈ AddressingMode.computable ∧
    Motion.load.Admits (8 * 2 ^ 3) ∧
    ∃ (steps : List Instrs) (i : Instr) (t : Transfer),
      loadAddress (.general 3) (.scaledImmediate .stackPointer 4095) 8 = steps.map .ok ∧
      sequence? "ldr" [.int 64, .reg (.general 0), .mem (.scaledImmediate .stackPointer 4095)] =
        some (.ok [i]) ∧
      i.transfer? = some t ∧
      ∀ (pc : Word) (m : Machine), m.steps steps.flatten = some (m.put 3 (t.address pc m)) := by
  obtain ⟨steps, i, t, hsteps, hcode, hread, -, hiff⟩ :=
    @effective_address_loaded_iff 3 (by decide) 3 (by decide) (.scaledImmediate .stackPointer 4095) (by decide)
      (by decide) .load trivial (.general 0)
  exact ⟨by decide, by decide, by decide, by decide, trivial, steps, i, t, hsteps, hcode, hread,
    hiff.mpr (.inl (by decide))⟩

/-- With 16 in the stack pointer and 5 in register 1: no code for the address 5, and 5 in place of 21. -/
theorem addresses_not_loaded :
    let m : Machine := ⟨fun n => if n = 1 then 5 else 0, 16, ⟨false, false, false, false⟩⟩
    (loadAddress (.general 0) (.scaledImmediate (.general 1) 0) 8 = [] ∧
      ∃ i t, sequence? "ldr" [.int 64, .reg (.general 0),
          .mem (.scaledImmediate (.general 1) 0)] = some (.ok [i]) ∧
        i.transfer? = some t ∧ t.address 0 m = 5) ∧
    loadAddress (.general 0) (.registerOffset .stackPointer (.general 1) false) 8 = [.ok [0x8B0103E0]] ∧
      (m.steps [0x8B0103E0]).map (·.general 0) = some 5 ∧
      ∃ i t, sequence? "ldr" [.int 64, .reg (.general 0),
          .mem (.registerOffset .stackPointer (.general 1) false)] = some (.ok [i]) ∧
        i.transfer? = some t ∧ t.address 0 m = 21 := by
  refine ⟨⟨rfl, _, ⟨.load, 64, .general 0, .scaled (.general 1) 0⟩, rfl, ?_, ?_⟩, rfl, ?_, _,
    ⟨.load, 64, .general 0, .indexed .stackPointer (.general 1) .uxtx 0⟩, rfl, ?_, ?_⟩ <;> decide

end CompilerKit.Aarch64
