import CompilerKit.Aarch64.Instruction
import CompilerKit.Proofs.Aarch64.Jump
import CompilerKit.Proofs.Numeric

/-! # Loads and stores

How the processor reads a load or a store: what it does with the data, how many bits it moves, and where in
memory they are. An encoded word is an or of the fields that all loads and stores have with those of the
operand, which are read back one by one (`Holds`).

Two things are not read back. A place near the instruction is always loaded from, whatever was to be done
with it, and the stack pointer as an index is taken for the zero register.
-/

namespace CompilerKit.Aarch64

open Instr Sequence

namespace Register

/-- The register with a number, where 31 is the zero register. -/
def ofNumber (n : BitVec 5) : Register := if n = 31 then .zero else .general n

/-- The register with a number, where 31 is the stack pointer. -/
def orStack (n : BitVec 5) : Register := if n = 31 then .stackPointer else .general n

/-- What a register means as data or as an index. The one that is only known by the number 31 has no
meaning of its own. -/
def asData (r : Register) : Register := if r = .general 31 then .zero else r

def asBase (r : Register) : Register := if r = .general 31 then .stackPointer else r

end Register

/-- What is done with the data. A load fills the register with zeros, or with the sign up to a width. -/
inductive Motion where
  | store
  | load
  | loadSigned (w : Width)
  deriving DecidableEq

/-- An operand in memory. A scaled distance counts in units of the data, the others in bytes. -/
inductive Place where
  | scaled (base : Register) (units : Nat)
  | unscaled (base : Register) (bytes : Int)
  | postIndexed (base : Register) (bytes : Int)
  | preIndexed (base : Register) (bytes : Int)
  | indexed (base index : Register) (e : Extension) (shift : Nat)
  | literal (bytes : Int)
  deriving DecidableEq

/-- A load or store as the processor reads it. -/
structure Transfer where
  motion : Motion
  bits : Nat
  data : Register
  place : Place
  deriving DecidableEq

namespace Instr

variable (i : Instr)

/-- The motion, by the size of the data and two bits of the opcode. A prefetch moves nothing. -/
def motion? (size opcode : BitVec 2) : Option Motion :=
  match opcode, size with
  | 0, _ => some .store
  | 1, _ => some .load
  | _, 3 => none
  | 2, _ => some (.loadSigned .w64)
  | _, 2 => none
  | _, _ => some (.loadSigned .w32)

/-- An index is as wide as a base, or it is extended from a half. -/
def indexExtension? : BitVec 3 → Option Extension
  | 2 => some .uxtw
  | 3 => some .uxtx
  | 6 => some .sxtw
  | 7 => some .sxtx
  | _ => none

/-- The forms with a distance in bytes; the missing one is for accesses with fewer rights. -/
def distanceForm? : BitVec 2 → Option (Register → Int → Place)
  | 0 => some .unscaled
  | 1 => some .postIndexed
  | 3 => some .preIndexed
  | _ => none

/-- The operand of a load or store with a base, of data of `2 ^ size` bytes. -/
def place? (size : BitVec 2) : Option Place :=
  let base := Register.orStack (i.extractLsb' 5 5)
  match i.extractLsb' 24 2, i.extractLsb' 21 1 with
  | 1#2, _ => some (.scaled base (i.extractLsb' 10 12).toNat)
  | 0#2, 0#1 => (distanceForm? (i.extractLsb' 10 2)).map (· base (i.extractLsb' 12 9).toInt)
  | 0#2, 1#1 =>
    if i.extractLsb' 10 2 = 2#2 then
      (indexExtension? (i.extractLsb' 13 3)).map
        (.indexed base (.ofNumber (i.extractLsb' 16 5)) · (if i.extractLsb' 12 1 = 1 then size.toNat else 0))
    else none
  | _, _ => none

/-- A load from a place near the instruction itself. -/
def literal? : Option Transfer :=
  let data := Register.ofNumber (i.extractLsb' 0 5)
  let place := Place.literal (4 * (i.extractLsb' 5 19).toInt)
  match i.extractLsb' 30 2 with
  | 0 => some ⟨.load, 32, data, place⟩
  | 1 => some ⟨.load, 64, data, place⟩
  | 2 => some ⟨.loadSigned .w64, 32, data, place⟩
  | _ => none

/-- Reads a load or a store of a general register. -/
def transfer? : Option Transfer :=
  match i.extractLsb' 27 3, i.extractLsb' 26 1 with
  | 0b111#3, 0#1 => do
    let size := i.extractLsb' 30 2
    return ⟨← motion? size (i.extractLsb' 22 2), 8 * 2 ^ size.toNat, .ofNumber (i.extractLsb' 0 5), ← i.place? size⟩
  | 0b011#3, 0#1 => if i.extractLsb' 24 2 = 0 then i.literal? else none
  | _, _ => none

end Instr

/-- The operand that an address stands for, with data of the given size. -/
def Address.place? (a : Address) (bits : Nat) : Option Place :=
  let base := a.base.asBase
  let shift := if a.scaled then (bits / 8).log2 else 0
  match a.mode with
  | .immediateScaled => some (.scaled base a.immediate.toNat)
  | .immediateUnscaled => some (.unscaled base a.immediate.toInt)
  | .baseOnly => some (.scaled base 0)
  | .registerOffset => some (.indexed base a.offset.asData .uxtx shift)
  | .extendedRegisterOffset => a.extension.map (.indexed base a.offset.asData · shift)
  | .pcLiteral => some (.literal a.immediate.toInt)
  | .postIndexed => some (.postIndexed base a.immediate.toInt)
  | .preIndexed => some (.preIndexed base a.immediate.toInt)
  | .unknown => none

def Place.encoded : Place → Place
  | .indexed base .stackPointer e shift => .indexed base .zero e shift
  | p => p

namespace Motion

variable (q : Motion)

def mnemonic : Motion → String
  | store => "str"
  | load => "ldr"
  | loadSigned _ => "ldrs"

def operands (size : BitVec 32) (r : Register) (a : Address) : List Operand :=
  match q with
  | store | load => [.int size, .reg r, .mem a]
  | loadSigned w => [.int (BitVec.ofNat 32 w.bits), .int size, .reg r, .mem a]

/-- The data must fit into the register. -/
def Admits (bits : Nat) : Prop :=
  match q with
  | store | load => True
  | loadSigned w => bits ≤ w.bits

/-- Data as wide as the register has no sign to be copied. -/
def reduced (bits : Nat) : Motion :=
  match q with
  | loadSigned w => if w.bits = bits then .load else q
  | _ => q

end Motion

namespace Instr

/-- The fields that all loads and stores with a base have. -/
def shared (size opcode : BitVec 2) (r : Register) : Instr :=
  field 22 opcode ||| field 30 size ||| field 0 r.number ||| field 27 0b111#3

/-- The word has the fields of an operand, and zeros where other fields are. -/
structure Holds (x : Instr) (size : BitVec 2) (p : Place) : Prop where
  place : x.place? size = some p
  size : x.extractLsb' 30 2 = 0#2
  group : x.extractLsb' 27 3 = 0#3
  floating : x.extractLsb' 26 1 = 0#1
  opcode : x.extractLsb' 22 2 = 0#2
  data : x.extractLsb' 0 5 = 0#5

theorem place?_shared_or (size opcode : BitVec 2) (r : Register) (x : Instr) :
    (shared size opcode r ||| x).place? size = x.place? size := by
  simp (disch := omega) only [shared, place?, BitVec.extractLsb'_or, extractLsb'_field_apart, BitVec.zero_or]

theorem transfer?_shared_or {size opcode : BitVec 2} {q : Motion} {x : Instr} {p : Place} (r : Register)
    (hq : motion? size opcode = some q) (hx : x.Holds size p) :
    (shared size opcode r ||| x).transfer? = some ⟨q, 8 * 2 ^ size.toNat, .ofNumber r.number, p⟩ := by
  have hread := place?_shared_or size opcode r x
  rw [hx.place, shared] at hread
  simp (disch := omega) only [transfer?, shared, BitVec.extractLsb'_or, extractLsb'_field,
    extractLsb'_field_apart, BitVec.zero_or, BitVec.or_zero, hx.size, hx.group, hx.floating, hx.opcode, hx.data,
    hq, hread]
  rfl

theorem holds_scaled (size : BitVec 2) (n : BitVec 12) (r : Register) :
    (field 24 1#2 ||| field 10 n ||| field 5 r.number).Holds size (.scaled (.orStack r.number) n.toNat) := by
  constructor <;> simp (disch := omega) only [place?, BitVec.extractLsb'_or, extractLsb'_field,
    extractLsb'_field_apart, BitVec.zero_or, BitVec.or_zero]

theorem holds_distance (size : BitVec 2) {form : BitVec 2} {make : Register → Int → Place}
    (hform : distanceForm? form = some make) (n : BitVec 9) (r : Register) :
    (field 10 form ||| field 12 n ||| field 5 r.number).Holds size (make (.orStack r.number) n.toInt) := by
  constructor <;> simp (disch := omega) only [place?, BitVec.extractLsb'_or, extractLsb'_field,
    extractLsb'_field_apart, BitVec.zero_or, BitVec.or_zero, hform, Option.map_some]

theorem holds_indexed (size : BitVec 2) (r index : Register) {e : Extension} (scaled : Bool)
    (he : indexExtension? e.encoding = some e) :
    (field 21 1#1 ||| field 10 2#2 ||| field 16 index.number ||| field 13 e.encoding |||
      field 12 (BitVec.ofBool scaled) ||| field 5 r.number).Holds size
      (.indexed (.orStack r.number) (.ofNumber index.number) e (if scaled then size.toNat else 0)) := by
  have hscaled : (BitVec.ofBool scaled = 1) = (scaled = true) := by cases scaled <;> decide
  constructor <;> simp (disch := omega) only [place?, BitVec.extractLsb'_or, extractLsb'_field,
    extractLsb'_field_apart, BitVec.zero_or, BitVec.or_zero, he, hscaled, Option.map_some, if_true]

end Instr

/-! The words of the encoder. -/

theorem Instr.or_swap (x y z : Instr) : x ||| y ||| z = x ||| z ||| y := by
  rw [BitVec.or_assoc, BitVec.or_comm y, BitVec.or_assoc]

namespace Register

variable {r : Register} (hr : r.isVector = false)

include hr

theorem ofNumber_number (hstack : r ≠ .stackPointer) : ofNumber r.number = r.asData := by
  cases r with
  | general n =>
    rw [asData, number, ofNumber]
    simp only [general.injEq]
  | zero => rfl
  | stackPointer => exact absurd rfl hstack
  | vector n => cases hr

omit hr in
theorem asData_ne_stackPointer (hstack : r ≠ .stackPointer) : r.asData ≠ .stackPointer := by
  unfold asData
  split
  · exact Register.noConfusion
  · exact hstack

theorem orStack_number (hzero : r ≠ .zero) : orStack r.number = r.asBase := by
  cases r with
  | general n =>
    rw [asBase, number, orStack]
    simp only [general.injEq]
  | zero => exact absurd rfl hzero
  | stackPointer => rfl
  | vector n => cases hr

end Register

theorem Place.encoded_indexed {index : Register} (hindex : index.isVector = false) (base : Register)
    (e : Extension) (shift : Nat) :
    (Place.indexed base index.asData e shift).encoded = .indexed base (.ofNumber index.number) e shift := by
  by_cases hstack : index = .stackPointer
  · subst hstack
    rfl
  · rw [Register.ofNumber_number hindex hstack]
    rcases hdata : index.asData with n | _ | _ | n
    · rfl
    · rfl
    · exact absurd hdata (Register.asData_ne_stackPointer hstack)
    · rfl

namespace Address

variable {a : Address} (ha : a.isValid)

include ha

theorem base_of_isValid (hliteral : a.mode ≠ .pcLiteral) : a.base.isVector = false ∧ a.base ≠ .zero := by
  cases hmode : a.mode <;> simp_all [isValid]

theorem offset_of_isValid : a.offset.isVector = false := by
  simp_all [isValid]

end Address

namespace Instr

def Access.opcode (how : Access) : BitVec 2 := BitVec.ofBool how.signed ++ BitVec.ofBool how.load

/-- A load or store of an address is the fields that all have, with those of an operand. -/
def Access.Encodes (how : Access) (r : Register) (a : Address) (k : Nat) (p : Place) : Prop :=
  ∃ x, access how r a k = .ok (shared (BitVec.ofNat 2 k) how.opcode r ||| x) ∧ x.Holds (BitVec.ofNat 2 k) p

section

variable {how : Access} (hfloat : how.floating = false) (r : Register) {k : Nat} (hk : k < 4)

include hfloat hk

theorem word_eq (x : Instr) : how.bits ||| BitVec.ofNat 32 k <<< 30 ||| rd r ||| (field 27 0b111#3 ||| x) =
    shared (BitVec.ofNat 2 k) how.opcode r ||| x := by
  obtain ⟨signed, load, floating⟩ := how
  subst hfloat
  have hsize : BitVec.ofNat 32 k <<< 30 = field 30 (BitVec.ofNat 2 k) := by interval_cases k <;> rfl
  have hop : Access.bits ⟨signed, load, false⟩ = field 22 (Access.opcode ⟨signed, load, false⟩) := by
    cases signed <;> cases load <;> rfl
  rw [hsize, hop, rd_eq, shared, ← BitVec.or_assoc]

variable {a : Address}

theorem access_immediateScaled (hmode : a.mode = .immediateScaled) (ha : a.isValid) :
    how.Encodes r a k (.scaled (.orStack a.base.number) a.immediate.toNat) := by
  have hfits : Numeric.fitsUnsigned 12 a.immediate := by simp_all [Address.isValid]
  have hfield : a.immediate <<< 10 = field 10 (a.immediate.setWidth 12) := by
    rw [field, Numeric.setWidth_of_fitsUnsigned hfits]
  have hnumber : (a.immediate.setWidth 12).toNat = a.immediate.toNat := by
    rw [BitVec.toNat_setWidth, Nat.mod_eq_of_lt ((Numeric.fitsUnsigned_iff _).mp hfits)]
  have haccess : access how r a k = .ok (how.bits ||| BitVec.ofNat 32 k <<< 30 ||| rd r |||
      (field 27 0b111#3 ||| field 24 1#2) ||| a.immediate <<< 10 ||| field 5 a.base.number) := by
    rw [access, hmode, Address.fieldImmediate, hmode]
    rfl
  refine ⟨_, ?_, hnumber ▸ holds_scaled _ (a.immediate.setWidth 12) a.base⟩
  rw [haccess, hfield, ← word_eq hfloat r hk]
  simp only [BitVec.or_assoc]

theorem access_baseOnly (hmode : a.mode = .baseOnly) :
    how.Encodes r a k (.scaled (.orStack a.base.number) 0) := by
  have haccess : access how r a k = .ok (how.bits ||| BitVec.ofNat 32 k <<< 30 ||| rd r |||
      (field 27 0b111#3 ||| (field 24 1#2 ||| field 10 0#12)) ||| field 5 a.base.number) := by
    rw [access, hmode]
    rfl
  refine ⟨_, ?_, holds_scaled _ 0#12 a.base⟩
  rw [haccess, ← word_eq hfloat r hk]
  simp only [BitVec.or_assoc]

theorem access_distance {form : BitVec 2} {make : Register → Int → Place}
    (hform : distanceForm? form = some make) (hfits : Numeric.fitsSigned 9 a.immediate)
    (haccess : access how r a k = .ok (how.bits ||| BitVec.ofNat 32 k <<< 30 ||| rd r |||
      (field 27 0b111#3 ||| field 10 form) ||| (a.immediate &&& Numeric.lowBits 32 9) <<< 12 ||| field 5 a.base.number)) :
    how.Encodes r a k (make (.orStack a.base.number) a.immediate.toInt) := by
  have hfield : (a.immediate &&& Numeric.lowBits 32 9) <<< 12 = field 12 (a.immediate.setWidth 9) := by
    rw [field, ← Numeric.and_lowBits (by decide)]
    rfl
  have hnumber : (a.immediate.setWidth 9).toInt = a.immediate.toInt :=
    Numeric.toInt_setWidth_of_fitsSigned (by decide) (by decide) hfits
  refine ⟨_, ?_, hnumber ▸ holds_distance _ hform (a.immediate.setWidth 9) a.base⟩
  rw [haccess, hfield, ← word_eq hfloat r hk]
  simp only [BitVec.or_assoc]

theorem access_indexed {e : Extension} (he : indexExtension? e.encoding = some e)
    (haccess : access how r a k =
      access.registerOffset a k (how.bits ||| BitVec.ofNat 32 k <<< 30 ||| rd r) (some e)) :
    how.Encodes r a k
      (.indexed (.orStack a.base.number) (.ofNumber a.offset.number) e (if a.scaled then k else 0)) := by
  obtain ⟨scale, hscale⟩ : ∃ scale, scale = (a.scaled && decide (k ≠ 0)) := ⟨_, rfl⟩
  have hshift : (if a.scaled then k else 0) = if scale then (BitVec.ofNat 2 k).toNat else 0 := by
    rw [BitVec.toNat_ofNat, Nat.mod_eq_of_lt hk, hscale]
    by_cases hzero : k = 0 <;> simp [hzero]
  have hword (op : Instr) : access.registerOffset a k op (some e) = .ok (op |||
      (field 27 0b111#3 ||| (field 21 1#1 ||| field 10 2#2)) ||| field 16 a.offset.number ||| field 13 e.encoding |||
        field 12 (BitVec.ofBool scale) ||| field 5 a.base.number) := by
    rw [access.registerOffset, ← hscale]
    cases scale <;> rfl
  rw [hshift]
  refine ⟨_, ?_, holds_indexed _ a.base a.offset scale he⟩
  rw [haccess, hword, ← word_eq hfloat r hk]
  simp only [BitVec.or_assoc]

/-- Every mode with a base: the operand is read back, as far as it is encoded. -/
theorem exists_place (ha : a.isValid) (hliteral : a.mode ≠ .pcLiteral) :
    ∃ p, a.place? (8 * 2 ^ k) = some p ∧ how.Encodes r a k p.encoded := by
  obtain ⟨hvector, hzero⟩ := Address.base_of_isValid ha hliteral
  have hshift : (8 * 2 ^ k / 8).log2 = k := by
    rw [Nat.mul_div_cancel_left _ (by decide), Nat.log2_two_pow]
  unfold Address.place?
  rw [← Register.orStack_number hvector hzero, hshift]
  cases hmode : a.mode with
  | immediateScaled => exact ⟨_, rfl, access_immediateScaled hfloat r hk hmode ha⟩
  | immediateUnscaled =>
    refine ⟨_, rfl, @access_distance how hfloat r k hk a 0 _ rfl (by simp_all [Address.isValid]) ?_⟩
    rw [access, hmode, Address.fieldImmediate, hmode]
    rfl
  | baseOnly => exact ⟨_, rfl, access_baseOnly hfloat r hk hmode⟩
  | registerOffset =>
    refine ⟨_, rfl, ?_⟩
    rw [Place.encoded_indexed (Address.offset_of_isValid ha)]
    exact access_indexed hfloat r hk rfl (by rw [access, hmode])
  | extendedRegisterOffset =>
    obtain ⟨e, he, hextension⟩ : ∃ e, a.extension = some e ∧ indexExtension? e.encoding = some e := by
      have hcases : a.extension = some .sxtw ∨ a.extension = some .uxtw := by simp_all [Address.isValid]
      rcases hcases with h | h
      · exact ⟨_, h, rfl⟩
      · exact ⟨_, h, rfl⟩
    refine ⟨_, by rw [he]; rfl, ?_⟩
    rw [Place.encoded_indexed (Address.offset_of_isValid ha)]
    exact access_indexed hfloat r hk hextension (by rw [access, hmode, he])
  | pcLiteral => exact absurd hmode hliteral
  | postIndexed =>
    refine ⟨_, rfl, @access_distance how hfloat r k hk a 1 _ rfl (by simp_all [Address.isValid]) ?_⟩
    rw [access, hmode, Address.fieldImmediate, hmode]
    exact congrArg Except.ok (or_swap _ (rn a.base) _)
  | preIndexed =>
    refine ⟨_, rfl, @access_distance how hfloat r k hk a 3 _ rfl (by simp_all [Address.isValid]) ?_⟩
    rw [access, hmode, Address.fieldImmediate, hmode]
    exact congrArg Except.ok (or_swap _ (rn a.base) _)
  | unknown => simp [Address.isValid, hmode] at ha

end

/-! Loads from a place near the instruction. -/

theorem four_dvd_toInt {x : BitVec 32} (hx : x &&& 3 = 0) : 4 ∣ x.toInt := by
  have hmod := congrArg BitVec.toNat hx
  rw [BitVec.toNat_and, show (3 : BitVec 32).toNat = 2 ^ 2 - 1 from rfl, Nat.and_two_pow_sub_one_eq_mod] at hmod
  have hzero : (0 : BitVec 32).toNat = 0 := rfl
  rw [BitVec.toInt_eq_toNat_cond]
  split <;> omega

theorem sshiftRight_and_lowBits (x : BitVec 32) :
    x.sshiftRight 2 &&& Numeric.lowBits 32 19 = (x.extractLsb' 2 19).setWidth 32 := by
  have hcut : x.sshiftRight 2 &&& Numeric.lowBits 32 19 = ((x.sshiftRight 2).setWidth 19).setWidth 32 :=
    Numeric.and_lowBits (by decide) _
  rw [hcut]
  congr 1
  apply BitVec.eq_of_getLsbD_eq
  intro i hi
  have hlt : 2 + i < 32 := by omega
  rw [BitVec.getLsbD_setWidth, BitVec.getLsbD_sshiftRight, BitVec.getLsbD_extractLsb']
  simp [hi, hlt, show ¬32 ≤ i by omega]

theorem access_literal {how : Access} (hfloat : how.floating = false) (r : Register) {k : Nat}
    (hk : k = 2 ∨ k = 3) {a : Address} (hmode : a.mode = .pcLiteral) (ha : a.isValid) :
    ∃ i, access how r a k = .ok i ∧
      i.transfer? = some ⟨.load, 8 * 2 ^ k, .ofNumber r.number, .literal a.immediate.toInt⟩ := by
  have hvalid : Numeric.fitsSigned 21 a.immediate ∧ a.immediate &&& 3 = 0 := by simp_all [Address.isValid]
  obtain ⟨hl, hu⟩ := (@Numeric.fitsSigned_iff 32 21 (by decide) (by decide) a.immediate).mp hvalid.1
  have hnumber := @four_mul_toInt_extract 19 a.immediate.toInt (by decide) (by decide)
    (four_dvd_toInt hvalid.2) (by omega) (by omega)
  rw [BitVec.ofInt_toInt] at hnumber
  refine ⟨field 30 (BitVec.ofNat 2 (k - 2)) ||| field 27 0b011#3 ||| field 0 r.number |||
    field 5 (a.immediate.extractLsb' 2 19), ?_, ?_⟩
  · rw [access, hmode, Address.fieldImmediate, hmode, sshiftRight_and_lowBits, hfloat, rd_eq]
    rcases hk with rfl | rfl <;> rfl
  · simp (disch := omega) only [transfer?, literal?, BitVec.extractLsb'_or, extractLsb'_field,
      extractLsb'_field_apart, BitVec.zero_or, BitVec.or_zero, hnumber]
    rcases hk with rfl | rfl <;> rfl

end Instr

/-! Mnemonics. -/

namespace Motion

def access (q : Motion) (bits : Nat) : Access :=
  match q with
  | store => {}
  | load => { load := true }
  | loadSigned w => if w.bits = bits then { load := true } else { signed := true, load := w = .w32 }

theorem sequence?_eq (q : Motion) {k : Nat} (hk : k < 4) (r : Register) (a : Address) :
    sequence? q.mnemonic (q.operands (BitVec.ofNat 32 (8 * 2 ^ k)) r a) =
      some ((Instr.access (q.access (8 * 2 ^ k)) r a k).map fun i => [i]) := by
  have hlog : log2Bytes (BitVec.ofNat 32 (8 * 2 ^ k)) = k := by interval_cases k <;> rfl
  cases q with
  | store =>
    rw [← congrArg (Instr.access _ r a) hlog]
    rfl
  | load =>
    rw [← congrArg (Instr.access _ r a) hlog]
    rfl
  | loadSigned w =>
    have hsize : (BitVec.ofNat 32 w.bits = BitVec.ofNat 32 (8 * 2 ^ k)) = (w.bits = 8 * 2 ^ k) := by
      cases w <;> interval_cases k <;> decide
    have hwide : (BitVec.ofNat 32 w.bits = 32) = (w = .w32) := by cases w <;> decide
    rw [← congrArg (Instr.access _ r a) hlog, access]
    simp only [← hsize, ← hwide]
    rfl

theorem motion?_access {q : Motion} {k : Nat} (hk : k < 4) (hq : q.Admits (8 * 2 ^ k)) :
    motion? (BitVec.ofNat 2 k) (q.access (8 * 2 ^ k)).opcode = some (q.reduced (8 * 2 ^ k)) := by
  cases q with
  | store => interval_cases k <;> rfl
  | load => interval_cases k <;> rfl
  | loadSigned w =>
    cases w with
    | w32 =>
      have hle : 8 * 2 ^ k ≤ 32 := hq
      have hlt : k < 3 := (Nat.pow_lt_pow_iff_right (by decide)).mp (show 2 ^ k < 2 ^ 3 by omega)
      interval_cases k <;> rfl
    | w64 => interval_cases k <;> rfl

theorem floating_access (q : Motion) (bits : Nat) : (q.access bits).floating = false := by
  cases q with
  | store => rfl
  | load => rfl
  | loadSigned w =>
    rw [access]
    split <;> rfl

end Motion

/-- Only an index can be lost. -/
theorem Address.encoded_eq_iff {a : Address} (ha : a.isValid) {bits : Nat} {p : Place}
    (hplace : a.place? bits = some p) : p.encoded = p ↔ a.offset ≠ .stackPointer := by
  have hindexed (base : Register) (e : Extension) (shift : Nat) :
      (Place.indexed base a.offset.asData e shift).encoded = .indexed base a.offset.asData e shift ↔
        a.offset ≠ .stackPointer := by
    rw [Place.encoded_indexed (offset_of_isValid ha)]
    constructor
    · intro h hstack
      rw [hstack] at h
      cases h
    · intro h
      rw [Register.ofNumber_number (offset_of_isValid ha) h]
  unfold place? at hplace
  cases hmode : a.mode <;> rw [hmode] at hplace
  case registerOffset =>
    cases hplace
    exact hindexed ..
  case extendedRegisterOffset =>
    obtain ⟨e, -, rfl⟩ := Option.map_eq_some_iff.mp hplace
    exact hindexed ..
  case unknown => cases hplace
  all_goals
    have hoffset : a.offset = .zero := by simp_all [isValid]
    cases hplace
    rw [hoffset]
    exact iff_of_true rfl Register.noConfusion

/-- What the processor reads of a load or store. A place near the instruction is always loaded from. -/
theorem exists_transfer (q : Motion) {k : Nat} (hk : k < 4) (hq : q.Admits (8 * 2 ^ k)) (r : Register)
    {a : Address} (ha : a.isValid) (hliteral : a.mode = .pcLiteral → 2 ≤ k) :
    ∃ i p, sequence? q.mnemonic (q.operands (BitVec.ofNat 32 (8 * 2 ^ k)) r a) = some (.ok [i]) ∧
      a.place? (8 * 2 ^ k) = some p ∧
      i.transfer? = some ⟨if a.mode = .pcLiteral then .load else q.reduced (8 * 2 ^ k), 8 * 2 ^ k,
        .ofNumber r.number, p.encoded⟩ := by
  have hfloat := q.floating_access (8 * 2 ^ k)
  rw [q.sequence?_eq hk]
  by_cases hmode : a.mode = .pcLiteral
  · have := hliteral hmode
    obtain ⟨i, haccess, hread⟩ := access_literal hfloat r (show k = 2 ∨ k = 3 by omega) hmode ha
    refine ⟨i, .literal a.immediate.toInt, by rw [haccess]; rfl, by rw [Address.place?, hmode], ?_⟩
    rw [if_pos hmode, hread]
    rfl
  · obtain ⟨p, hplace, x, haccess, hx⟩ := exists_place hfloat r hk ha hmode
    refine ⟨_, p, by rw [haccess]; rfl, hplace, ?_⟩
    rw [if_neg hmode, transfer?_shared_or r (Motion.motion?_access hk hq) hx, BitVec.toNat_ofNat,
      Nat.mod_eq_of_lt hk]

/-- A load or store is read back with its motion, size, register and operand, except for two cases: a place
near the instruction can only be loaded from, without a sign, and the stack pointer is lost as an index. -/
theorem transfer_read_back_iff (q : Motion) {k : Nat} (hk : k < 4) (hq : q.Admits (8 * 2 ^ k))
    {r : Register} (hr : r.isVector = false) (hstack : r ≠ .stackPointer) {a : Address} (ha : a.isValid)
    (hliteral : a.mode = .pcLiteral → 2 ≤ k) :
    ∃ i p, sequence? q.mnemonic (q.operands (BitVec.ofNat 32 (8 * 2 ^ k)) r a) = some (.ok [i]) ∧
      a.place? (8 * 2 ^ k) = some p ∧
      (i.transfer? = some ⟨q.reduced (8 * 2 ^ k), 8 * 2 ^ k, r.asData, p⟩ ↔
        a.offset ≠ .stackPointer ∧ (a.mode = .pcLiteral → q.reduced (8 * 2 ^ k) = .load)) := by
  obtain ⟨i, p, hcode, hplace, hread⟩ := exists_transfer q hk hq r ha hliteral
  refine ⟨i, p, hcode, hplace, ?_⟩
  rw [hread, Register.ofNumber_number hr hstack, ← Address.encoded_eq_iff ha hplace]
  simp only [Option.some.injEq, Transfer.mk.injEq, true_and]
  constructor
  · rintro ⟨hmotion, hencoded⟩
    refine ⟨hencoded, fun hmode => ?_⟩
    rw [if_pos hmode] at hmotion
    exact hmotion.symm
  · rintro ⟨hencoded, hmotion⟩
    refine ⟨?_, hencoded⟩
    split
    · exact (hmotion ‹_›).symm
    · rfl

theorem transfer_read_back_iff_extended :
    1 < 4 ∧ (Motion.loadSigned .w32).Admits (8 * 2 ^ 1) ∧
    (Register.general 30).isVector = false ∧ Register.general 30 ≠ .stackPointer ∧
    (Address.extendedRegisterOffset .stackPointer (.general 7) true .sxtw).isValid ∧
    ((Address.extendedRegisterOffset .stackPointer (.general 7) true .sxtw).mode = .pcLiteral → 2 ≤ 1) ∧
    ∃ i p, sequence? (Motion.loadSigned .w32).mnemonic ((Motion.loadSigned .w32).operands
        (BitVec.ofNat 32 (8 * 2 ^ 1)) (.general 30)
        (.extendedRegisterOffset .stackPointer (.general 7) true .sxtw)) = some (.ok [i]) ∧
      (Address.extendedRegisterOffset .stackPointer (.general 7) true .sxtw).place? (8 * 2 ^ 1) = some p ∧
      (i.transfer? = some ⟨(Motion.loadSigned .w32).reduced (8 * 2 ^ 1), 8 * 2 ^ 1,
          (Register.general 30).asData, p⟩ ↔
        (Address.extendedRegisterOffset .stackPointer (.general 7) true .sxtw).offset ≠ .stackPointer ∧
          ((Address.extendedRegisterOffset .stackPointer (.general 7) true .sxtw).mode = .pcLiteral →
            (Motion.loadSigned .w32).reduced (8 * 2 ^ 1) = .load)) :=
  ⟨by decide, show 16 ≤ 32 by decide, by decide, by decide, by decide, by decide,
    @transfer_read_back_iff (.loadSigned .w32) 1 (by decide) (show 16 ≤ 32 by decide) _ (by decide) (by decide) _
      (by decide) (by decide)⟩

/-- A sign extending load, a store and an index that are read as something else. -/
theorem transfers_misread :
    (∃ i, sequence? "ldrs" [.int 64, .int 32, .reg (.general 0), .mem (.pcLiteral 8)] = some (.ok [i]) ∧
      i.transfer? = some ⟨.load, 32, .general 0, .literal 8⟩) ∧
    (∃ i, sequence? "str" [.int 32, .reg (.general 0), .mem (.pcLiteral 8)] = some (.ok [i]) ∧
      i.transfer? = some ⟨.load, 32, .general 0, .literal 8⟩) ∧
    ∃ i, sequence? "ldr" [.int 64, .reg (.general 0),
        .mem (.registerOffset (.general 1) .stackPointer false)] = some (.ok [i]) ∧
      i.transfer? = some ⟨.load, 64, .general 0, .indexed (.general 1) .zero .uxtx 0⟩ :=
  ⟨⟨_, rfl, by decide⟩, ⟨_, rfl, by decide⟩, ⟨_, rfl, by decide⟩⟩

end CompilerKit.Aarch64
