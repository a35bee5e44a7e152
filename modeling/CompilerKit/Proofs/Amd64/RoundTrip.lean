import CompilerKit.Proofs.Amd64.Decoder

/-! # Encoded instructions are read back

Each part of an instruction is shown to be read back by the part of the decoder that is responsible for
it: displacements, addresses, operand bytes, the extension byte and the prefixes. That the opcode maps
agree with the opcode table is a finite fact, which joins the parts.
-/

namespace CompilerKit.Amd64

open Decoder

/-! Bits of a byte. -/

theorem extractLsb'_low : ∀ (high : BitVec 2) (middle low : BitVec 3),
    (high ++ middle ++ low).extractLsb' 0 3 = low := by
  decide +kernel

theorem extractLsb'_middle : ∀ (high : BitVec 2) (middle low : BitVec 3),
    (high ++ middle ++ low).extractLsb' 3 3 = middle := by
  decide +kernel

theorem extractLsb'_high : ∀ (high : BitVec 2) (middle low : BitVec 3),
    (high ++ middle ++ low).extractLsb' 6 2 = high := by
  decide +kernel

theorem ofBool_msb_append : ∀ n : BitVec 4, BitVec.ofBool n.msb ++ n.setWidth 3 = n := by
  decide

theorem scale_log2 (s : Scale) : scale s.log2 = s := by
  cases s <;> rfl

/-! Addresses. -/

namespace Address

/-- The addresses that can be encoded: an index is not `rsp`, and the instruction pointer stands alone. -/
structure Legal (a : Address) : Prop where
  base : ∀ r, a.base = some r → r.isVector = false
  index : ∀ r, a.index = some r → r ≠ .rsp ∧ r ≠ .instructionPointer ∧ r.isVector = false
  alone : a.base = some .instructionPointer → a.index = none

/-- The address as far as it is encoded: there is no scale without an index. -/
def encoded (a : Address) : Address :=
  { a with scale := if a.index = none then .times1 else a.scale }

end Address

theorem signed?_four (d : BitVec 32) (rest : Code) :
    Code.signed? 4 (Code.littleEndian 4 d ++ rest) = some (d, rest) := by
  rw [Code.signed?_littleEndian, Code.signExtend_setWidth (by decide) (by decide) (BitVec.le_toInt d)
    BitVec.toInt_lt]

theorem exists_based (head : BitVec 2 → Chunks) (d : BitVec 32) (needed : Bool) :
    ∃ mode code, (Address.based head d needed false).bytes = (head mode).bytes ++ code ∧
      mode ≠ 3 ∧ (needed → mode ≠ 0) ∧
      ∀ rest, Code.signed? (displacementLength mode) (code ++ rest) = some (d, rest) := by
  unfold Address.based
  split
  case isTrue h =>
    obtain ⟨rfl, hneeded⟩ : d = 0 ∧ needed = false := by simpa using h
    exact ⟨0, [], by simp, by decide, by simp [hneeded], fun rest => rfl⟩
  case isFalse h =>
    split
    case isTrue hbyte =>
      obtain ⟨hl, hu⟩ : -128 ≤ d.toInt ∧ d.toInt ≤ 127 := by simpa [fitsByte] using hbyte
      refine ⟨1, Code.littleEndian 1 d, Chunks.bytes_append _ _, by decide, by simp, fun rest => ?_⟩
      rw [show displacementLength 1 = 1 from rfl, Code.signed?_littleEndian,
        Code.signExtend_setWidth (by decide) (by decide) (by omega) (by omega)]
    case isFalse hbyte =>
      exact ⟨2, Code.littleEndian 4 d, Chunks.bytes_append _ _, by decide, by simp, signed?_four d⟩

/-- The bases that take the form with an index are told by their lower bits, and so are those that need
a displacement. -/
theorem rsp_or_r12_eq : ∀ n : BitVec 4,
    (Register.general n = .rsp || Register.general n = .r12) = decide (n.setWidth 3 = 4) := by
  decide

theorem rbp_or_r13_eq : ∀ n : BitVec 4,
    (Register.general n = .rbp || Register.general n = .r13) = decide (n.setWidth 3 = 5) := by
  decide

theorem setWidth_ne_five {n : BitVec 4} {mode : BitVec 2}
    (h : (Register.general n = .rbp || Register.general n = .r13) → mode ≠ 0) (hmode : mode = 0) :
    n.setWidth 3 ≠ 5 := by
  intro hfive
  rw [rbp_or_r13_eq, decide_eq_true hfive] at h
  exact h rfl hmode

section Address

variable {a : Address} {x : Extension}

theorem address?_indexed {m n : BitVec 4} (hindex : x.index = m.msb) (hm : m ≠ 4) (hbase : x.base = n.msb)
    (s : Scale) {mode : BitVec 2} (hmode : mode = 0 → n.setWidth 3 ≠ 5) (code : Code) :
    address? x mode 4 (scaleIndexBase s.log2 (m.setWidth 3) (n.setWidth 3) :: code) =
      (Code.signed? (displacementLength mode) code).map fun (d, code) =>
        (⟨some (.general n), some (.general m), s, d⟩, code) := by
  have hplain : ¬(mode = 0 ∧ n.setWidth 3 = 5) := fun h => hmode h.1 h.2
  simp only [address?, scaleIndexBase, extractLsb'_low, extractLsb'_middle, extractLsb'_high, hindex,
    hbase, ofBool_msb_append, scale_log2, if_true, if_neg hm, if_neg hplain]

/-- An index of four stands for none. -/
theorem address?_unindexed {n : BitVec 4} (hindex : x.index = false) (hbase : x.base = n.msb)
    (hn : n.setWidth 3 = 4) {mode : BitVec 2} (code : Code) :
    address? x mode 4 (scaleIndexBase 0 4 4 :: code) =
      (Code.signed? (displacementLength mode) code).map fun (d, code) =>
        (⟨some (.general n), none, .times1, d⟩, code) := by
  have hregister : BitVec.ofBool n.msb ++ (4 : BitVec 3) = n := by
    rw [← hn, ofBool_msb_append]
  simp only [address?, scaleIndexBase, extractLsb'_low, extractLsb'_middle, hindex, hbase,
    hregister, if_true]
  rw [if_neg (by simp)]
  rfl

theorem address?_alone {n : BitVec 4} (hbase : x.base = n.msb) (hn : n.setWidth 3 ≠ 4)
    {mode : BitVec 2} (hmode : mode = 0 → n.setWidth 3 ≠ 5) (code : Code) :
    address? x mode (n.setWidth 3) code =
      (Code.signed? (displacementLength mode) code).map fun (d, code) =>
        (⟨some (.general n), none, .times1, d⟩, code) := by
  have hplain : ¬(mode = 0 ∧ n.setWidth 3 = 5) := fun h => hmode h.1 h.2
  simp only [address?, if_neg hn, if_neg hplain, hbase, ofBool_msb_append]

theorem address?_operand (h : a.Legal) (hindex : x.index = a.index.any Register.fourthBit)
    (hbase : x.base = a.base.any Register.fourthBit) (reg : BitVec 3) (rest : Code) :
    ∃ mode rm code, (a.operand reg false).bytes ++ rest = modRm mode reg rm :: code ∧ mode ≠ 3 ∧
      address? x mode rm code = some (a.encoded, rest) := by
  obtain ⟨base, index, s, d⟩ := a
  match base, index with
  | some .instructionPointer, index =>
    obtain rfl : index = none := h.alone rfl
    refine ⟨0, 5, Code.littleEndian 4 d ++ rest, rfl, by decide, ?_⟩
    simp [address?, signed?_four, Address.encoded]
  | some (.vector n), _ => cases h.base _ rfl
  | some (.general n), some (.general m) =>
    have hm : m ≠ 4 := fun heq => (h.index _ rfl).1 (congrArg _ heq)
    obtain ⟨mode, code, hbytes, hmode, hneeded, hread⟩ := exists_based
      (fun mode => [modRm mode reg 4, scaleIndexBase s.log2 (m.setWidth 3) (n.setWidth 3)]) d
      (Register.general n = .rbp || Register.general n = .r13)
    refine ⟨mode, 4, scaleIndexBase s.log2 (m.setWidth 3) (n.setWidth 3) :: (code ++ rest), ?_, hmode, ?_⟩
    · exact congrArg (· ++ rest) hbytes
    · rw [address?_indexed hindex hm hbase s (setWidth_ne_five hneeded), hread]
      rfl
  | some (.general n), none =>
    by_cases hfour : n.setWidth 3 = 4
    · obtain ⟨mode, code, hbytes, hmode, -, hread⟩ := exists_based
        (fun mode => [modRm mode reg 4, scaleIndexBase 0 4 4]) d false
      refine ⟨mode, 4, scaleIndexBase 0 4 4 :: (code ++ rest), ?_, hmode, ?_⟩
      · simp only [Address.operand]
        rw [if_pos (by rw [rsp_or_r12_eq, decide_eq_true hfour])]
        exact congrArg (· ++ rest) hbytes
      · rw [address?_unindexed hindex hbase hfour, hread]
        rfl
    · obtain ⟨mode, code, hbytes, hmode, hneeded, hread⟩ := exists_based
        (fun mode => [modRm mode reg (n.setWidth 3)]) d
        (Register.general n = .rbp || Register.general n = .r13)
      refine ⟨mode, n.setWidth 3, code ++ rest, ?_, hmode, ?_⟩
      · simp only [Address.operand]
        rw [if_neg (by rw [rsp_or_r12_eq, decide_eq_false hfour]; decide)]
        exact congrArg (· ++ rest) hbytes
      · rw [address?_alone hbase hfour (setWidth_ne_five hneeded), hread]
        rfl
  | none, some (.general m) =>
    have hm : m ≠ 4 := fun heq => (h.index _ rfl).1 (congrArg _ heq)
    refine ⟨0, 4, scaleIndexBase s.log2 (m.setWidth 3) 5 :: (Code.littleEndian 4 d ++ rest), rfl,
      by decide, ?_⟩
    simp only [Option.any_some, Register.fourthBit] at hindex
    simp only [address?, scaleIndexBase, extractLsb'_low, extractLsb'_middle, extractLsb'_high, hindex,
      ofBool_msb_append, scale_log2, if_true, if_neg hm, and_self, signed?_four]
    rfl
  | none, none =>
    refine ⟨0, 4, scaleIndexBase 0 4 5 :: (Code.littleEndian 4 d ++ rest), rfl, by decide, ?_⟩
    simp only [Option.any_none] at hindex
    simp only [address?, scaleIndexBase, extractLsb'_low, extractLsb'_middle, hindex, if_true, and_self,
      signed?_four]
    rfl
  | _, some (.vector m) => cases (h.index _ rfl).2.2
  | _, some .instructionPointer => exact absurd rfl (h.index _ rfl).2.1

end Address

/-! Registers. -/

/-- Whether a register can stand where a vector register or another one is expected. -/
def Register.Suits (r : Register) (isVector : Bool) : Prop :=
  r ≠ .instructionPointer ∧ r.isVector = isVector

theorem name_register {x : Extension} {r : Register} {isByte isVector : Bool} (hr : r.Suits isVector)
    (hmark : isByte → r.needsByteMark → x.present) :
    name x isByte isVector r.fourthBit r.low = .whole r := by
  obtain ⟨hr, rfl⟩ := hr
  cases r with
  | general n =>
    have hhigh : ∀ n : BitVec 4, (n.setWidth 3).getLsbD 2 = true → 4 ≤ n.toNat := by decide
    have hnot : (isByte && !x.present && (n.setWidth 3).getLsbD 2) = false := by
      rw [Bool.eq_false_iff]
      intro h
      simp only [Bool.and_eq_true, Bool.not_eq_true'] at h
      have hpresent := hmark h.1.1 (decide_eq_true (hhigh n h.2))
      exact Bool.false_ne_true (h.1.2.symm.trans hpresent)
    simp only [name, Register.isVector, Register.low, Register.fourthBit, hnot, ofBool_msb_append]
    rfl
  | vector n => simp [name, Register.isVector, Register.low, Register.fourthBit, ofBool_msb_append]
  | instructionPointer => exact absurd rfl hr

/-! What stands in front of the operands. -/

theorem prefixes_append {p : Prefixes} {leads : Code} (h : (prefixes p leads).2 = []) (code : Code) :
    prefixes p (leads ++ code) = prefixes (prefixes p leads).1 code := by
  induction leads generalizing p with
  | nil => rfl
  | cons b leads ih =>
    simp only [List.cons_append, prefixes] at h ⊢
    cases hadd : p.add? b with
    | some q =>
      rw [hadd] at h
      exact ih h
    | none =>
      rw [hadd] at h
      cases h

/-- No extension byte is taken for a prefix. -/
theorem add?_extension (p : Prefixes) : ∀ bits : BitVec 4, p.add? (4#4 ++ bits) = none := by
  have hnot : ∀ bits : BitVec 4, (4#4 ++ bits : Byte) ≠ 0x66 ∧ (4#4 ++ bits : Byte) ≠ 0xF2 ∧
      (4#4 ++ bits : Byte) ≠ 0xF3 := by decide
  intro bits
  obtain ⟨h1, h2, h3⟩ := hnot bits
  rw [Prefixes.add?, if_neg h1, if_neg (not_or.mpr ⟨h2, h3⟩)]

section Front

variable (wide reg index base needed : Bool) {b : Byte}

theorem prefixes_extensionByte {p : Prefixes} (hb : p.add? b = none) (code : Code) :
    prefixes p ((extensionByte wide reg index base needed).bytes ++ b :: code) =
      (p, (extensionByte wide reg index base needed).bytes ++ b :: code) := by
  simp only [extensionByte]
  split
  · simp [Chunks.bytes, Chunk.byte, prefixes, add?_extension]
  · simp [Chunks.bytes, prefixes, hb]

theorem extension_extensionByte (hb : b.extractLsb' 4 4 ≠ 4) (code : Code) :
    ∃ x : Extension, extension ((extensionByte wide reg index base needed).bytes ++ b :: code) =
        (x, b :: code) ∧
      x.wide = wide ∧ x.reg = reg ∧ x.index = index ∧ x.base = base ∧ (needed → x.present) := by
  simp only [extensionByte]
  split
  case isTrue h =>
    refine ⟨⟨true, wide, reg, index, base⟩, ?_, rfl, rfl, rfl, rfl, fun _ => rfl⟩
    cases wide <;> cases reg <;> cases index <;> cases base <;> rfl
  case isFalse h =>
    obtain ⟨rfl, rfl, rfl, rfl, rfl⟩ : wide = false ∧ reg = false ∧ index = false ∧ base = false ∧
        needed = false := by
      revert h
      cases wide <;> cases reg <;> cases index <;> cases base <;> cases needed <;> decide
    exact ⟨{}, if_neg hb, rfl, rfl, rfl, rfl, by simp⟩

end Front

/-! Opcodes with their operands. -/

def RegMem.read : RegMem → Place
  | reg r => .register (.whole r)
  | mem a => .memory a.encoded

def RegField.read : RegField → Field
  | reg r => .register (.whole r)
  | extension e => .extension e

def RegField.isExtension : RegField → Bool
  | reg _ => false
  | extension _ => true

theorem Decoder.Sizing.size_wide (s : Sizing) (p : Prefixes) (x : Extension) :
    s.size p { wide := x.wide } = s.size p x := by
  cases s <;> rfl

/-- How the sizes of an admission are told apart. -/
def Admission.sizing : Admission → Sizing
  | byte => .byte
  | integer | no16Bit | no32Bit | qwordOnly => .integer
  | intToFloating | floatingToInt => .wideOnly
  | floating | packedFloating | single | double => .vector

namespace Opcode

variable {o : Opcode} {size : OperandSize} {field : BitVec 3} {group : Bool} {tail : Tail}

def meaning (o : Opcode) (group : Bool) (tail : Tail) : Meaning where
  lead := o.lead.bytes
  sizing := o.admits.sizing
  byteReg := o.byteReg
  byteRm := o.byteRm
  vectorReg := o.admits.regIsVector
  vectorRm := o.admits.rmIsVector
  group := group
  tail := tail

def prefixes (o : Opcode) (size : OperandSize) : Prefixes × Code :=
  Decoder.prefixes {} (o.lead ++ size.lead).bytes

/-- The opcode maps agree on what the opcode stands for, and its bytes are not taken for others. -/
@[mk_iff] structure Reads (o : Opcode) (size : OperandSize) (field : BitVec 3) (group : Bool)
    (tail : Tail) : Prop where
  leads : (o.prefixes size).2 = []
  meaning : meaning? (o.prefixes size).1 o.escaped o.code field = some (o.meaning group tail)
  sizing : o.admits.sizing.size (o.prefixes size).1 { wide := decide (size = .qword) } = size
  apart : o.escaped = false →
    (o.prefixes size).1.add? o.code = none ∧ o.code.extractLsb' 4 4 ≠ 4 ∧ o.code ≠ 0x0F
  sized : tail = .sized → size.immediateBytes ≠ 0

instance : Decidable (Reads o size field group tail) := decidable_of_iff _ (reads_iff ..).symm

theorem Reads.exists_head (h : o.Reads size field group tail) (code : Code) :
    ∃ b rest, (if o.escaped then [0x0F] else [] : Chunks).bytes ++ o.code :: code = b :: rest ∧
      (o.prefixes size).1.add? b = none ∧ b.extractLsb' 4 4 ≠ 4 ∧
      escape (b :: rest) = (o.escaped, o.code :: code) := by
  cases hescaped : o.escaped with
  | true => exact ⟨0x0F, o.code :: code, rfl, by simp [Prefixes.add?], by decide, rfl⟩
  | false =>
    obtain ⟨hadd, hextension, hescape⟩ := h.apart hescaped
    exact ⟨o.code, code, rfl, hadd, hextension, if_neg hescape⟩

/-- Both operands are read back if the extension byte has their fourth bits, and is there for the byte
registers that need it. -/
theorem exists_operands (tail : Tail) {field : RegField} {rm : RegMem} {x : Extension}
    (hbits : (x.reg, x.index, x.base) = fourthBits field rm)
    (hmark : o.needsByteMark field rm → x.present)
    (hfield : ∀ r, field = .reg r → r.Suits o.admits.regIsVector)
    (hregister : ∀ r, rm = .reg r → r.Suits o.admits.rmIsVector)
    (haddress : ∀ a, rm = .mem a → a.Legal) (rest : Code) :
    ∃ b code, (operands field rm false).bytes ++ rest = b :: code ∧ b.extractLsb' 3 3 = field.low ∧
      (o.meaning field.isExtension tail).field x b = field.read ∧
      (o.meaning field.isExtension tail).place? x b code = some (rm.read, rest) := by
  have hread {b : Byte} (hb : b.extractLsb' 3 3 = field.low) :
      (o.meaning field.isExtension tail).field x b = field.read := by
    cases field with
    | extension e => exact congrArg Field.extension hb
    | reg r =>
      have hreg : x.reg = r.fourthBit := by
        have := congrArg Prod.fst hbits
        cases rm <;> exact this
      simp only [Meaning.field, meaning, RegField.isExtension, hb, RegField.low, hreg]
      rw [name_register (hfield r rfl) fun hbyte hneeds => hmark (by simp [needsByteMark, hbyte, hneeds])]
      rfl
  cases rm with
  | reg r =>
    have hbase : x.base = r.fourthBit := congrArg (Prod.snd ∘ Prod.snd) hbits
    refine ⟨modRm 3 field.low r.low, rest, rfl, extractLsb'_middle .., hread (extractLsb'_middle ..), ?_⟩
    simp only [Meaning.place?, modRm, extractLsb'_high, extractLsb'_low, meaning, hbase, if_true]
    rw [name_register (hregister r rfl) fun hbyte hneeds => hmark (by simp [needsByteMark, hbyte, hneeds])]
    rfl
  | mem a =>
    obtain ⟨mode, low, code, hbytes, hmode, haddr⟩ := address?_operand (haddress a rfl)
      (congrArg (Prod.fst ∘ Prod.snd) hbits) (congrArg (Prod.snd ∘ Prod.snd) hbits) field.low rest
    refine ⟨modRm mode field.low low, code, hbytes, extractLsb'_middle .., hread (extractLsb'_middle ..), ?_⟩
    simp only [Meaning.place?, modRm, extractLsb'_high, extractLsb'_low, if_neg hmode, haddr]
    rfl

theorem Reads.decode_append {field : RegField} {rm : RegMem} {value : Option (BitVec 32)} {last : Code}
    (h : o.Reads size field.low field.isExtension tail)
    (hfield : ∀ r, field = .reg r → r.Suits o.admits.regIsVector)
    (hregister : ∀ r, rm = .reg r → r.Suits o.admits.rmIsVector)
    (haddress : ∀ a, rm = .mem a → a.Legal) (rest : Code)
    (hvalue : immediate? (tail.length size) (last ++ rest) = some (value, rest)) :
    decode ((o.encode size field rm).bytes ++ (last ++ rest)) =
      some (⟨o.lead.bytes, o.escaped, o.code, size, field.read, rm.read, value⟩, rest) := by
  obtain ⟨c, code, hhead, hadd, hextension, hescape⟩ :=
    h.exists_head ((operands field rm false).bytes ++ (last ++ rest))
  cases hfourth : fourthBits field rm with
  | mk reg indexBase =>
    obtain ⟨index, base⟩ := indexBase
    obtain ⟨x, hx, hwide, hreg, hindex, hbase, hpresent⟩ :=
      extension_extensionByte (size = .qword) reg index base (o.needsByteMark field rm) hextension code
    obtain ⟨b, code', hoperands, hlow, hfieldRead, hplace⟩ := exists_operands tail
      (by rw [hreg, hindex, hbase, hfourth]) hpresent hfield hregister haddress (last ++ rest)
    have hbytes : (o.encode size field rm).bytes ++ (last ++ rest) = (o.lead ++ size.lead).bytes ++
        ((extensionByte (size = .qword) reg index base (o.needsByteMark field rm)).bytes ++ c :: code) := by
      rw [← hhead]
      simp only [encode, hfourth, Chunks.bytes_append, List.append_assoc]
      rfl
    have hfront : Decoder.prefixes {} ((o.encode size field rm).bytes ++ (last ++ rest)) =
        ((o.prefixes size).1,
          (extensionByte (size = .qword) reg index base (o.needsByteMark field rm)).bytes ++ c :: code) := by
      rw [hbytes, prefixes_append h.leads]
      exact prefixes_extensionByte _ _ _ _ _ hadd code
    have hsizeRead : (o.meaning field.isExtension tail).sizing.size (o.prefixes size).1 x = size := by
      rw [← Sizing.size_wide, hwide]
      exact h.sizing
    have htail : (o.meaning field.isExtension tail).tail = tail := rfl
    simp only [decode, hfront, hx, hescape, hoperands, hlow, h.meaning, Option.bind_eq_bind,
      Option.bind_some, hsizeRead, hplace, htail, hvalue, hfieldRead]
    rfl

end Opcode

/-! Immediates. -/

/-- The immediates that come back when their bytes are sign extended. -/
def ImmediateFits (isByte : Bool) (size : OperandSize) (v : BitVec 32) : Prop :=
  let n := if isByte then 1 else size.immediateBytes
  v.toInt < 2 ^ (8 * n - 1) ∧ -2 ^ (8 * n - 1) ≤ v.toInt

/-- The immediate of an opcode: a byte, or as long as the operands. -/
def Decoder.Tail.ofByte (isByte : Bool) : Tail := if isByte then .byte else .sized

theorem immediate?_immediate {isByte : Bool} {size : OperandSize} {v : BitVec 32}
    (hsize : Tail.ofByte isByte = .sized → size.immediateBytes ≠ 0) (hfits : ImmediateFits isByte size v)
    (rest : Code) :
    immediate? ((Tail.ofByte isByte).length size) ((immediate isByte size v).bytes ++ rest) =
      some (some v, rest) := by
  obtain ⟨n, hpos, hle, hlength, hbytes, hu, hl⟩ : ∃ n, 0 < n ∧ n ≤ 4 ∧
      (Tail.ofByte isByte).length size = n ∧
      (immediate isByte size v).bytes = Code.littleEndian n v ∧
      v.toInt < 2 ^ (8 * n - 1) ∧ -2 ^ (8 * n - 1) ≤ v.toInt := by
    cases isByte with
    | true => exact ⟨1, by decide, by decide, rfl, rfl, hfits⟩
    | false =>
      have hne := hsize rfl
      cases size with
      | byte => exact ⟨1, by decide, by decide, rfl, rfl, hfits⟩
      | word => exact ⟨2, by decide, by decide, rfl, rfl, hfits⟩
      | dword | qword => exact ⟨4, by decide, by decide, rfl, rfl, hfits⟩
      | ss | sd | ps | pd => exact absurd rfl hne
  rw [hlength, hbytes, immediate?, if_neg (by omega), Code.signed?_littleEndian,
    Code.signExtend_setWidth (by omega) (by omega) hl hu]
  rfl

/-! The opcode table. -/

namespace RmOp

def listed : List RmOp :=
  (general ++ vector).map Prod.snd ++
    Arithmetic.all.flatMap fun (_, a) => OperandSize.all.map a.rm

theorem reads : ∀ o ∈ listed, ∀ size ∈ o.opcode.admits.sizes, ∀ field,
    o.opcode.Reads size field false .nothing := by
  decide +kernel

end RmOp

namespace MrOp

def listed : List MrOp :=
  all.map Prod.snd ++ Arithmetic.all.flatMap fun (_, a) => OperandSize.all.map a.mr

theorem reads : ∀ o ∈ listed, ∀ size ∈ o.opcode.admits.sizes, ∀ field,
    o.opcode.Reads size field false .nothing := by
  decide +kernel

end MrOp

namespace MOp

def listed : List MOp :=
  all.map Prod.snd ++ Shift.all.flatMap fun (_, s) => [s.byOne, s.byCounter]

theorem reads : ∀ o ∈ listed, ∀ size ∈ o.opcode.admits.sizes,
    o.opcode.Reads size o.extension true .nothing := by
  decide +kernel

end MOp

namespace MiOp

def listed : List MiOp :=
  all.map Prod.snd ++
    Arithmetic.all.flatMap (fun (_, a) => OperandSize.all.flatMap fun s => [a.mi s false, a.mi s true]) ++
    Shift.all.map fun (_, s) => s.byImmediate

theorem reads : ∀ o ∈ listed, ∀ size ∈ o.opcode.admits.sizes,
    o.opcode.Reads size o.extension true (.ofByte o.byteImmediate) := by
  decide +kernel

end MiOp

namespace RmiOp

def listed : List RmiOp := all.map Prod.snd

theorem reads : ∀ o ∈ listed, ∀ size ∈ o.opcode.admits.sizes, ∀ field,
    o.opcode.Reads size field false (.ofByte o.byteImmediate) := by
  decide +kernel

end RmiOp

/-! Instructions. -/

/-- An instruction of the opcode table with its operands. -/
inductive Operation where
  | rm (o : RmOp) (dst : Register) (src : RegMem)
  | mr (o : MrOp) (dst : RegMem) (src : Register)
  | m (o : MOp) (dst : RegMem)
  | mi (o : MiOp) (dst : RegMem) (value : BitVec 32)
  | rmi (o : RmiOp) (dst : Register) (src : RegMem) (value : BitVec 32)

namespace Operation

def encode (size : OperandSize) : Operation → Chunks
  | rm o dst src => o.encode size dst src
  | mr o dst src => o.encode size dst src
  | m o dst => o.encode size dst
  | mi o dst value => o.encode size dst value
  | rmi o dst src value => o.encode size dst src value

def Listed : Operation → Prop
  | rm o _ _ => o ∈ RmOp.listed
  | mr o _ _ => o ∈ MrOp.listed
  | m o _ => o ∈ MOp.listed
  | mi o _ _ => o ∈ MiOp.listed
  | rmi o _ _ _ => o ∈ RmiOp.listed

def opcode : Operation → Opcode
  | rm o _ _ => o.opcode
  | mr o _ _ => o.opcode
  | m o _ => o.opcode
  | mi o _ _ => o.opcode
  | rmi o _ _ _ => o.opcode

def field : Operation → RegField
  | rm _ r _ | mr _ _ r | rmi _ r _ _ => .reg r
  | m o _ => .extension o.extension
  | mi o _ _ => .extension o.extension

def place : Operation → RegMem
  | rm _ _ p | mr _ p _ | m _ p | mi _ p _ | rmi _ _ p _ => p

def immediate? : Operation → Option (Bool × BitVec 32)
  | mi o _ v => some (o.byteImmediate, v)
  | rmi o _ _ v => some (o.byteImmediate, v)
  | _ => none

theorem encode_eq (i : Operation) (size : OperandSize) :
    i.encode size = i.opcode.encode size i.field i.place ++
      match i.immediate? with
      | some (isByte, v) => immediate isByte size v
      | none => [] := by
  cases i <;> first | rfl | exact (List.append_nil _).symm

/-- The immediate as the opcode maps have it. -/
def tail (i : Operation) : Tail :=
  match i.immediate? with
  | some (isByte, _) => .ofByte isByte
  | none => .nothing

theorem reads {i : Operation} {size : OperandSize} (h : i.Listed)
    (hsize : size ∈ i.opcode.admits.sizes) :
    i.opcode.Reads size i.field.low i.field.isExtension i.tail := by
  cases i with
  | rm o => exact RmOp.reads o h size hsize _
  | mr o => exact MrOp.reads o h size hsize _
  | m o => exact MOp.reads o h size hsize
  | mi o => exact MiOp.reads o h size hsize
  | rmi o => exact RmiOp.reads o h size hsize _

/-- Operands that the opcode can have: registers of the right kind, addresses that can be encoded and
immediates that are kept by sign extension. -/
structure Legal (i : Operation) (size : OperandSize) : Prop where
  admitted : size ∈ i.opcode.admits.sizes
  field : ∀ r, i.field = .reg r → r.Suits i.opcode.admits.regIsVector
  register : ∀ r, i.place = .reg r → r.Suits i.opcode.admits.rmIsVector
  address : ∀ a, i.place = .mem a → a.Legal
  immediate : ∀ isByte v, i.immediate? = some (isByte, v) → ImmediateFits isByte size v

def instruction (i : Operation) (size : OperandSize) : Instruction where
  lead := i.opcode.lead.bytes
  escaped := i.opcode.escaped
  code := i.opcode.code
  size := size
  field := i.field.read
  place := i.place.read
  immediate := i.immediate?.map Prod.snd

/-- An instruction is read back, and nothing behind it. -/
theorem decode_encode (i : Operation) (size : OperandSize) (hlisted : i.Listed) (hlegal : i.Legal size)
    (rest : Code) : decode ((i.encode size).bytes ++ rest) = some (i.instruction size, rest) := by
  have hreads := reads hlisted hlegal.admitted
  rw [encode_eq, Chunks.bytes_append, List.append_assoc]
  apply hreads.decode_append hlegal.field hlegal.register hlegal.address
  have hsized := hreads.sized
  rw [tail] at hsized ⊢
  cases himmediate : i.immediate? with
  | none => rfl
  | some isByteValue =>
    obtain ⟨isByte, v⟩ := isByteValue
    rw [himmediate] at hsized
    exact immediate?_immediate hsized (hlegal.immediate isByte v himmediate) rest

def compareByte : Operation :=
  .mi (Arithmetic.cmp.mi .byte false)
    (.mem { base := some .r13, index := some .r12, scale := .times8 }) (-2)

theorem decode_encode_compareByte : compareByte.Listed ∧ compareByte.Legal .byte ∧
    decode ((compareByte.encode .byte).bytes ++ [0xC3]) = some (compareByte.instruction .byte, [0xC3]) := by
  have hlisted : compareByte.Listed := by
    rw [compareByte, Listed]
    decide
  have hlegal : compareByte.Legal .byte := by
    refine ⟨by decide, ?_, ?_, ?_, ?_⟩
    · rintro r ⟨⟩
    · rintro r ⟨⟩
    · rintro a ⟨⟩
      refine ⟨?_, ?_, ?_⟩
      · rintro r ⟨⟩
        rfl
      · rintro r ⟨⟩
        decide
      · rintro ⟨⟩
    · rintro isByte v ⟨⟩
      exact ⟨by decide, by decide⟩
  exact ⟨hlisted, hlegal, decode_encode compareByte .byte hlisted hlegal [0xC3]⟩

/-- An address that has a scale but no index. -/
def loadScaled : Operation := .rm RmOp.mov .rax (.mem { base := some .rsp, scale := .times4 })

/-- Without an index the scale is not written, so it cannot be read back. -/
theorem scale_without_index_lost : loadScaled.Listed ∧ loadScaled.Legal .dword ∧
    loadScaled.place = .mem { base := some .rsp, scale := .times4 } ∧
    ∃ i, decode (loadScaled.encode .dword).bytes = some (i, []) ∧
      i.place = .memory { base := some .rsp, scale := .times1 } := by
  refine ⟨?_, ?_, rfl, ?_⟩
  · rw [loadScaled, Listed]
    decide
  · refine ⟨by decide, ?_, ?_, ?_, ?_⟩
    · rintro r ⟨⟩
      exact ⟨by decide, by decide⟩
    · rintro r ⟨⟩
    · rintro a ⟨⟩
      refine ⟨?_, ?_, ?_⟩
      · rintro r ⟨⟩
        rfl
      · rintro r ⟨⟩
      · rintro ⟨⟩
    · rintro isByte v ⟨⟩
  · exact ⟨loadScaled.instruction .dword, by decide +kernel, rfl⟩

end Operation

end CompilerKit.Amd64
