import CompilerKit.Amd64.Instruction
import CompilerKit.Proofs.Amd64.RoundTrip

/-! # The instructions that are encoded twice

Some instructions have a mnemonic of their own and also an entry in the opcode table. The two ways choose
the extension byte by different means: one goes through the cases of which registers are among the upper
eight, the other puts the fourth bits of the register numbers together. They agree wherever the
instruction pointer is not named, which the one counts among the upper registers and the other does not.
-/

namespace CompilerKit.Amd64

theorem Direct.extension_eq (wide reg index base needed : Bool) :
    Direct.extension wide reg index base needed = extensionByte wide reg index base needed := by
  cases wide <;> cases reg <;> cases index <;> cases base <;> cases needed <;> rfl

namespace Register

variable {r : Register}

theorem isUpper_eq (h : r ≠ .instructionPointer) : r.isUpper = r.fourthBit := by
  cases r with
  | instructionPointer => exact absurd rfl h
  | general n => rfl
  | vector n => rfl

theorem any_isUpper_eq {r : Option Register} (h : r ≠ some .instructionPointer) :
    r.any isUpper = r.any fourthBit := by
  cases r with
  | none => rfl
  | some r => exact isUpper_eq fun hr => h (congrArg some hr)

theorem modRm_or_setWidth : ∀ (reg : BitVec 3) (n : BitVec 4),
    modRm 3 reg 0 ||| (n.setWidth 3).setWidth 8 = modRm 3 reg (n.setWidth 3) := by
  decide +kernel

theorem modRm_or_inByte (h : r ≠ .instructionPointer) (reg : BitVec 3) :
    modRm 3 reg 0 ||| r.inByte = modRm 3 reg r.low := by
  cases r with
  | instructionPointer => exact absurd rfl h
  | general n => exact modRm_or_setWidth reg n
  | vector n => exact modRm_or_setWidth reg n

end Register

/-- The operand does not name the instruction pointer. -/
def RegMem.Plain : RegMem → Prop
  | .reg r => r ≠ .instructionPointer
  | .mem a => a.base ≠ some .instructionPointer ∧ a.index ≠ some .instructionPointer

/-- The register field does not name the instruction pointer. -/
def RegField.Plain : RegField → Prop
  | .reg r => r ≠ .instructionPointer
  | .extension _ => True

section Agreement

variable {o : Opcode} {size : OperandSize} {field : RegField} {rm : RegMem}

theorem Direct.upperBits_eq (hfield : field.Plain) (hrm : rm.Plain) :
    Direct.upperBits field rm = Opcode.fourthBits field rm := by
  cases rm with
  | reg r =>
    cases field with
    | reg d => rw [Direct.upperBits, Opcode.fourthBits, Register.isUpper_eq hfield, Register.isUpper_eq hrm]
    | extension e => rw [Direct.upperBits, Opcode.fourthBits, Register.isUpper_eq hrm]
  | mem a =>
    have hbase := Register.any_isUpper_eq hrm.1
    have hindex := Register.any_isUpper_eq hrm.2
    cases field with
    | reg d => rw [Direct.upperBits, Opcode.fourthBits, Register.isUpper_eq hfield, hbase, hindex]
    | extension e => rw [Direct.upperBits, Opcode.fourthBits, hbase, hindex]

theorem Direct.named_eq (hrm : rm.Plain) (wide : Bool) :
    Direct.named field rm wide = operands field rm wide := by
  cases rm with
  | reg r => rw [Direct.named, operands, Register.modRm_or_inByte hrm]
  | mem a => rfl

/-- Both encoders write the same instruction if they are given the same opcode and agree on whether a byte
register needs the extension byte. -/
theorem Direct.encode_eq (hfield : field.Plain) (hrm : rm.Plain) (ho : o.lead = []) (hsize : size.lead = [])
    {needed : Bool} (hneeded : o.needsByteMark field rm = needed) :
    Direct.encode [] (size = .qword) ((if o.escaped then [0x0F] else []) ++ [.byte o.code]) field rm
      needed false = o.encode size field rm := by
  simp only [Direct.encode, Opcode.encode, Direct.upperBits_eq hfield hrm, Direct.named_eq hrm,
    Direct.extension_eq, ho, hsize, hneeded, List.nil_append, List.append_assoc]

end Agreement

/-! The instructions that have a mnemonic and an entry in the opcode table. -/

/-- What operands an instruction takes. -/
inductive Shape where
  | regReg | regMem | memReg | memInt | reg | mem

/-- The operands of a shape: general registers, addresses that can be encoded and are not relative to the
instruction pointer, and any immediate. -/
inductive Shape.Takes : Shape → List Operand → Prop
  | regReg (d s : BitVec 4) : Takes .regReg [.reg (.general d), .reg (.general s)]
  | regMem (d : BitVec 4) (a : Address) (legal : a.Legal) (base : a.base ≠ some .instructionPointer) :
    Takes .regMem [.reg (.general d), .mem a]
  | memReg (s : BitVec 4) (a : Address) (legal : a.Legal) (base : a.base ≠ some .instructionPointer) :
    Takes .memReg [.mem a, .reg (.general s)]
  | memInt (n : BitVec 32) (a : Address) (legal : a.Legal) (base : a.base ≠ some .instructionPointer) :
    Takes .memInt [.mem a, .int n]
  | reg (d : BitVec 4) : Takes .reg [.reg (.general d)]
  | mem (a : Address) (legal : a.Legal) (base : a.base ≠ some .instructionPointer) : Takes .mem [.mem a]

/-- A mnemonic, and the form, the name and the operand size of the opcode that stands for the same
instruction. -/
structure Shared where
  mnemonic : String
  form : OpcodeForm
  name : String
  size : OperandSize

/-- The instructions with both a mnemonic and an opcode, by the operands they take. -/
def shared : Shape → List Shared
  | .regReg => [⟨"movl", .general, "MOV", .dword⟩, ⟨"movq", .general, "MOV", .qword⟩,
      ⟨"movslq", .general, "MOVSXD", .qword⟩, ⟨"movsbl", .general, "MOVSXB", .dword⟩,
      ⟨"testl", .general, "TEST", .dword⟩]
  | .regMem => [⟨"movl", .general, "MOV", .dword⟩, ⟨"movq", .general, "MOV", .qword⟩,
      ⟨"movslq", .general, "MOVSXD", .qword⟩, ⟨"movsbl", .general, "MOVSXB", .dword⟩,
      ⟨"testl", .general, "TEST", .dword⟩]
  | .memReg => [⟨"movl", .mr, "MOV", .dword⟩, ⟨"movq", .mr, "MOV", .qword⟩, ⟨"movb", .mr, "MOVB", .byte⟩]
  | .memInt => [⟨"movl", .mi, "MOV", .dword⟩, ⟨"movslq", .mi, "MOV", .qword⟩]
  | .reg => [⟨"incl", .m, "INC", .dword⟩, ⟨"decl", .m, "DEC", .dword⟩, ⟨"incq", .m, "INC", .qword⟩,
      ⟨"decq", .m, "DEC", .qword⟩, ⟨"negq", .m, "NEG", .qword⟩]
  | .mem => [⟨"incl", .m, "INC", .dword⟩, ⟨"decl", .m, "DEC", .dword⟩]

theorem RegField.plain_general (n : BitVec 4) : (RegField.reg (.general n)).Plain := nofun

theorem RegField.plain_extension (e : BitVec 3) : (RegField.extension e).Plain := trivial

theorem RegMem.plain_general (n : BitVec 4) : (RegMem.reg (.general n)).Plain := nofun

theorem RegMem.plain_mem {a : Address} (h : a.Legal) (hbase : a.base ≠ some .instructionPointer) :
    (RegMem.mem a).Plain :=
  ⟨hbase, fun hindex => (h.index _ hindex).2.1 rfl⟩

theorem exists_shared_code {shape : Shape} {e : Shared} (he : e ∈ shared shape) {os : List Operand}
    (hos : shape.Takes os) :
    ∃ code, bytes? e.mnemonic os = some code ∧ opcode? e.form e.name e.size os = some code := by
  cases hos with
  | regReg d s =>
    simp only [shared, List.mem_cons, List.not_mem_nil, or_false] at he
    rcases he with rfl | rfl | rfl | rfl | rfl
    all_goals exact ⟨_, rfl, congrArg some
      (Direct.encode_eq (RegField.plain_general d) (RegMem.plain_general s) rfl rfl rfl).symm⟩
  | regMem d a legal base =>
    simp only [shared, List.mem_cons, List.not_mem_nil, or_false] at he
    rcases he with rfl | rfl | rfl | rfl | rfl
    all_goals exact ⟨_, rfl, congrArg some
      (Direct.encode_eq (RegField.plain_general d) (RegMem.plain_mem legal base) rfl rfl rfl).symm⟩
  | memReg s a legal base =>
    simp only [shared, List.mem_cons, List.not_mem_nil, or_false] at he
    have hplain := RegMem.plain_mem legal base
    rcases he with rfl | rfl | rfl
    · exact ⟨_, rfl, congrArg some (Direct.encode_eq (RegField.plain_general s) hplain rfl rfl rfl).symm⟩
    · exact ⟨_, rfl, congrArg some (Direct.encode_eq (RegField.plain_general s) hplain rfl rfl rfl).symm⟩
    · -- Only the register is a byte register here.
      have hneeded : MrOp.movb.opcode.needsByteMark (.reg (.general s)) (.mem a) = _ := Bool.or_false _
      exact ⟨_, rfl, congrArg some (Direct.encode_eq (RegField.plain_general s) hplain rfl rfl hneeded).symm⟩
  | memInt n a legal base =>
    simp only [shared, List.mem_cons, List.not_mem_nil, or_false] at he
    have hcode (size : OperandSize) (hsize : size.lead = []) :=
      Direct.encode_eq (o := MiOp.mov.opcode) (RegField.plain_extension 0) (RegMem.plain_mem legal base) rfl
        hsize rfl
    rcases he with rfl | rfl
    · exact ⟨_, rfl, congrArg (fun code : Chunks => some (code ++ [Chunk.number 4 n])) (hcode .dword rfl).symm⟩
    · exact ⟨_, rfl, congrArg (fun code : Chunks => some (code ++ [Chunk.number 4 n])) (hcode .qword rfl).symm⟩
  | reg d =>
    simp only [shared, List.mem_cons, List.not_mem_nil, or_false] at he
    rcases he with rfl | rfl | rfl | rfl | rfl
    all_goals exact ⟨_, rfl, congrArg some
      (Direct.encode_eq (RegField.plain_extension _) (RegMem.plain_general d) rfl rfl rfl).symm⟩
  | mem a legal base =>
    simp only [shared, List.mem_cons, List.not_mem_nil, or_false] at he
    rcases he with rfl | rfl
    all_goals exact ⟨_, rfl, congrArg some
      (Direct.encode_eq (RegField.plain_extension _) (RegMem.plain_mem legal base) rfl rfl rfl).symm⟩

open Assembler in
/-- The two encoders agree: for each instruction that both have and all operands that it takes, the mnemonic
and the opcode do the same, which is to write one and the same code. -/
theorem mnemonic_writes_opcode (shape : Shape) (e : Shared) (he : e ∈ shared shape) (os : List Operand)
    (hos : shape.Takes os) :
    ∃ code, instruction? e.mnemonic os = some (quiet (emit code)) ∧
      opcodeStep? (opcode? e.form e.name e.size) os = some (quiet (emit code)) := by
  obtain ⟨code, hbytes, hopcode⟩ := exists_shared_code he hos
  refine ⟨code, ?_, ?_⟩
  · rw [instruction?, hbytes]
  · rw [opcodeStep?, hopcode]
    rfl

open Assembler in
/-- A byte register that needs the extension byte, stored where the upper half of the registers is named. -/
theorem mnemonic_writes_opcode_movb :
    ∃ code, instruction? "movb" [.mem ⟨some .rbp, some .r12, .times4, 0⟩, .reg (.general 6)] =
        some (quiet (emit code)) ∧
      opcodeStep? (opcode? .mr "MOVB" .byte)
        [.mem ⟨some .rbp, some .r12, .times4, 0⟩, .reg (.general 6)] = some (quiet (emit code)) :=
  mnemonic_writes_opcode .memReg ⟨"movb", .mr, "MOVB", .byte⟩ (by simp [shared]) _
    (.memReg 6 ⟨some .rbp, some .r12, .times4, 0⟩
      ⟨by simp [Register.rbp, Register.isVector], by simp [Register.r12, Register.rsp, Register.isVector],
        by simp [Register.rbp]⟩
      (by simp [Register.rbp]))

end CompilerKit.Amd64
