import CompilerKit.Amd64.Table
import CompilerKit.Proofs.Assembly.Code

/-! # How the processor reads an instruction

An instruction is read from left to right: prefixes, an extension byte, the opcode, the bytes that name
its operands with their displacement, and an immediate. What the opcode stands for is told by two maps,
of which only the instructions with operand bytes that the opcode table needs are given.
-/

namespace CompilerKit.Amd64.Decoder

/-! The bytes in front of the opcode. -/

/-- The prefixes that an instruction has; of the two that ask for a repetition the last one counts. -/
structure Prefixes where
  operandSize : Bool := false
  repetition : Option Byte := none
  deriving DecidableEq

def Prefixes.add? (p : Prefixes) (b : Byte) : Option Prefixes :=
  if b = 0x66 then some { p with operandSize := true }
  else if b = 0xF2 ∨ b = 0xF3 then some { p with repetition := some b }
  else none

/-- Reads prefixes as long as there are any. -/
def prefixes (p : Prefixes) : Code → Prefixes × Code
  | [] => (p, [])
  | b :: code =>
    match p.add? b with
    | some p => prefixes p code
    | none => (p, b :: code)

/-- The extension byte: whether it is there, and its bits. -/
structure Extension where
  present : Bool := false
  wide : Bool := false
  reg : Bool := false
  index : Bool := false
  base : Bool := false
  deriving DecidableEq

def extension : Code → Extension × Code
  | [] => ({}, [])
  | b :: code =>
    if b.extractLsb' 4 4 = 4 then
      ({ present := true, wide := b.getLsbD 3, reg := b.getLsbD 2, index := b.getLsbD 1,
          base := b.getLsbD 0 }, code)
    else ({}, b :: code)

def escape : Code → Bool × Code
  | [] => (false, [])
  | b :: code => if b = 0x0F then (true, code) else (false, b :: code)

/-! The opcode maps. -/

/-- How the size of the operands follows from what stands in front of the opcode. -/
inductive Sizing where
  | byte | integer | wideOnly | vector
  deriving DecidableEq

def Sizing.size (s : Sizing) (p : Prefixes) (x : Extension) : OperandSize :=
  match s with
  | byte => .byte
  | integer => if x.wide then .qword else if p.operandSize then .word else .dword
  | wideOnly => if x.wide then .qword else .dword
  | vector =>
    if p.repetition = some 0xF3 then .ss
    else if p.repetition = some 0xF2 then .sd
    else if p.operandSize then .pd
    else .ps

/-- Whether an immediate follows, and whether it is a byte or as long as the operands. -/
inductive Tail where
  | nothing | byte | sized
  deriving DecidableEq

/-- How many bytes the immediate has; that of a 64-bit operation is a sign extended half. -/
def Tail.length (t : Tail) (size : OperandSize) : Nat :=
  match t, size with
  | nothing, _ => 0
  | byte, _ => 1
  | sized, .byte => 1
  | sized, .word => 2
  | sized, _ => 4

/-- What an opcode stands for. -/
structure Meaning where
  /-- The prefix that is part of the opcode. -/
  lead : Code := []
  sizing : Sizing := .integer
  byteReg : Bool := sizing = .byte
  byteRm : Bool := sizing = .byte
  vectorReg : Bool := sizing = .vector
  vectorRm : Bool := sizing = .vector
  /-- Whether the register field is a part of the opcode. -/
  group : Bool := false
  tail : Tail := .nothing
  deriving DecidableEq

/-- The first map. Its lower quarter has eight operations, each in the forms from and to a register. -/
def first? (code : Byte) (field : BitVec 3) : Option Meaning :=
  if code.extractLsb' 6 2 = 0 ∧ code.getLsbD 2 = false then
    some (if code.getLsbD 0 then {} else { sizing := .byte })
  else
    match code.toNat, field.toNat with
    | 0x63, _ => some {}
    | 0x69, _ => some { tail := .sized }
    | 0x6B, _ => some { tail := .byte }
    | 0x80, _ => some { sizing := .byte, group := true, tail := .byte }
    | 0x81, _ => some { group := true, tail := .sized }
    | 0x83, _ => some { group := true, tail := .byte }
    | 0x84, _ | 0x88, _ | 0x8A, _ => some { sizing := .byte }
    | 0x85, _ | 0x89, _ | 0x8B, _ => some {}
    | 0x8F, 0 => some { group := true }
    | 0xC1, _ => some { group := true, tail := .byte }
    | 0xC6, 0 => some { sizing := .byte, group := true, tail := .byte }
    | 0xC7, 0 => some { group := true, tail := .sized }
    | 0xD1, _ | 0xD3, _ => some { group := true }
    | 0xF7, 0 | 0xF7, 1 => some { group := true, tail := .sized }
    | 0xF7, _ => some { group := true }
    | 0xFF, 0 | 0xFF, 1 | 0xFF, 6 => some { group := true }
    | _, _ => none

/-- The second map, where a prefix can make a different instruction. -/
def second? (p : Prefixes) (code : Byte) : Option Meaning :=
  match code.toNat, p.repetition with
  | 0x10, _ | 0x11, _ | 0x51, _ | 0x58, _ | 0x59, _ | 0x5A, _ | 0x5C, _ | 0x5D, _ | 0x5E, _ | 0x5F, _ =>
    some { sizing := .vector }
  | 0x2E, none | 0x54, none | 0x55, none | 0x56, none | 0x57, none => some { sizing := .vector }
  | 0x2A, some b => some { lead := [b], sizing := .wideOnly, vectorReg := true }
  | 0x2C, some b => some { lead := [b], sizing := .wideOnly, vectorRm := true }
  | 0x6E, none | 0x7E, none =>
    if p.operandSize then some { lead := [0x66], sizing := .wideOnly, vectorReg := true } else none
  | 0xAF, none | 0xB7, none | 0xBF, none | 0xBC, none | 0xBD, none => some {}
  | 0xB6, none | 0xBE, none => some { byteRm := true }
  | 0xB8, some b | 0xBC, some b | 0xBD, some b => if b = 0xF3 then some { lead := [b] } else none
  | _, _ => none

def meaning? (p : Prefixes) (escaped : Bool) (code : Byte) (field : BitVec 3) : Option Meaning :=
  if escaped then second? p code else first? code field

/-! Operands. -/

/-- A register operand. Without an extension byte the byte registers with the numbers four to seven are
the high halves of the first four. -/
inductive Name where
  | whole (r : Register)
  | highByte (n : BitVec 2)
  deriving DecidableEq

def name (x : Extension) (isByte isVector fourth : Bool) (low : BitVec 3) : Name :=
  if isVector then .whole (.vector (BitVec.ofBool fourth ++ low))
  else if isByte && !x.present && low.getLsbD 2 then .highByte (low.setWidth 2)
  else .whole (.general (BitVec.ofBool fourth ++ low))

def displacementLength (mode : BitVec 2) : Nat :=
  if mode = 0 then 0 else if mode = 1 then 1 else 4

def scale (bits : BitVec 2) : Scale :=
  if bits = 0 then .times1 else if bits = 1 then .times2 else if bits = 2 then .times4 else .times8

/-- An address, from the mode and the last three bits of the operand byte. -/
def address? (x : Extension) (mode : BitVec 2) (rm : BitVec 3) (code : Code) :
    Option (Address × Code) :=
  let register (fourth : Bool) (low : BitVec 3) : Register := .general (BitVec.ofBool fourth ++ low)
  if rm = 4 then
    match code with
    | [] => none
    | b :: code =>
      let low := b.extractLsb' 0 3
      let number : BitVec 4 := BitVec.ofBool x.index ++ b.extractLsb' 3 3
      let index := if number = 4 then none else some (Register.general number)
      let scale := if number = 4 then Scale.times1 else scale (b.extractLsb' 6 2)
      if mode = 0 ∧ low = 5 then
        (Code.signed? 4 code).map fun (d, code) => (⟨none, index, scale, d⟩, code)
      else
        (Code.signed? (displacementLength mode) code).map fun (d, code) =>
          (⟨some (register x.base low), index, scale, d⟩, code)
  else if mode = 0 ∧ rm = 5 then
    (Code.signed? 4 code).map fun (d, code) => (⟨some .instructionPointer, none, .times1, d⟩, code)
  else
    (Code.signed? (displacementLength mode) code).map fun (d, code) =>
      (⟨some (register x.base rm), none, .times1, d⟩, code)

/-- The operand that is a register or in memory. -/
inductive Place where
  | register (n : Name)
  | memory (a : Address)
  deriving DecidableEq

/-- The register field, which may extend the opcode. -/
inductive Field where
  | register (n : Name)
  | extension (e : BitVec 3)
  deriving DecidableEq

def Meaning.field (m : Meaning) (x : Extension) (b : Byte) : Field :=
  if m.group then .extension (b.extractLsb' 3 3)
  else .register (name x m.byteReg m.vectorReg x.reg (b.extractLsb' 3 3))

def Meaning.place? (m : Meaning) (x : Extension) (b : Byte) (code : Code) : Option (Place × Code) :=
  if b.extractLsb' 6 2 = 3 then
    some (.register (name x m.byteRm m.vectorRm x.base (b.extractLsb' 0 3)), code)
  else
    (address? x (b.extractLsb' 6 2) (b.extractLsb' 0 3) code).map fun (a, code) => (.memory a, code)

/-! Instructions. -/

/-- An instruction as it is read. -/
structure Instruction where
  /-- The prefix that is part of the opcode. -/
  lead : Code
  escaped : Bool
  code : Byte
  size : OperandSize
  field : Field
  place : Place
  immediate : Option (BitVec 32)
  deriving DecidableEq

def immediate? (n : Nat) (code : Code) : Option (Option (BitVec 32) × Code) :=
  if n = 0 then some (none, code) else (Code.signed? n code).map fun (v, code) => (some v, code)

def decode (code : Code) : Option (Instruction × Code) :=
  let (p, code) := prefixes {} code
  let (x, code) := extension code
  let (escaped, code) := escape code
  match code with
  | opcode :: b :: code => do
    let meaning ← meaning? p escaped opcode (b.extractLsb' 3 3)
    let size := meaning.sizing.size p x
    let (place, code) ← meaning.place? x b code
    let (immediate, code) ← immediate? (meaning.tail.length size) code
    return (⟨meaning.lead, escaped, opcode, size, meaning.field x b, place, immediate⟩, code)
  | _ => none

end CompilerKit.Amd64.Decoder
