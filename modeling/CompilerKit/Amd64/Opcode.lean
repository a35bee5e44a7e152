import CompilerKit.Amd64.Address

/-! # Opcodes and their operand forms

An opcode with an operand size gives an instruction once its operands are known. The forms differ in
which operand goes into which field: register from register or memory (`RmOp`), the reverse
(`MrOp`), one operand (`MOp`), and those with an immediate (`MiOp`, `RmiOp`).
-/
namespace CompilerKit.Amd64

inductive OperandSize where
  | byte | word | dword | qword | ss | sd | ps | pd
  deriving DecidableEq

namespace OperandSize

def all : List OperandSize := [byte, word, dword, qword, ss, sd, ps, pd]

def name : OperandSize → String
  | byte => "BYTE"
  | word => "WORD"
  | dword => "DWORD"
  | qword => "QWORD"
  | ss => "SS"
  | sd => "SD"
  | ps => "PS"
  | pd => "PD"

def ofName? (s : String) : Option OperandSize := all.find? (·.name = s)

def lead : OperandSize → Chunks
  | word | pd => [0x66]
  | ss => [0xF3]
  | sd => [0xF2]
  | byte | dword | qword | ps => []

/-- How many bytes an immediate of this size takes; there is none for vectors. -/
def immediateBytes : OperandSize → Nat
  | byte => 1
  | word => 2
  | dword | qword => 4
  | ss | sd | ps | pd => 0

end OperandSize

/-- Which operand sizes and register kinds an opcode is meant for. -/
inductive Admission where
  | byte | integer | no16Bit | no32Bit | qwordOnly
  | floating | packedFloating | single | double | intToFloating | floatingToInt
  deriving DecidableEq

namespace Admission

def sizes : Admission → List OperandSize
  | byte => [.byte]
  | integer => [.word, .dword, .qword]
  | no16Bit | intToFloating | floatingToInt => [.dword, .qword]
  | no32Bit => [.word, .qword]
  | qwordOnly => [.qword]
  | floating => [.ss, .sd, .ps, .pd]
  | packedFloating => [.ps, .pd]
  | single => [.ss]
  | double => [.sd]

def regIsVector : Admission → Bool
  | floating | packedFloating | single | double | intToFloating => true
  | _ => false

def rmIsVector : Admission → Bool
  | floating | packedFloating | single | double | floatingToInt => true
  | _ => false

end Admission

/-- The operand that is a register or in memory. -/
inductive RegMem where
  | reg (r : Register)
  | mem (a : Address)
  deriving DecidableEq

/-- What stands in the register field: a register, or three more bits of the opcode. -/
inductive RegField where
  | reg (r : Register)
  | extension (e : BitVec 3)
  deriving DecidableEq

namespace RegField

def low : RegField → BitVec 3
  | reg r => r.low
  | extension e => e

end RegField

def operands (field : RegField) (rm : RegMem) (wide : Bool) : Chunks :=
  match rm with
  | .reg r => [modRm 3 field.low r.low]
  | .mem a => a.operand field.low wide

/-- The extension byte: a 64-bit operation and the fourth bits of the register field, the index and
the base. Left out when it would say nothing, unless byte registers need it. -/
def extensionByte (wide reg index base needed : Bool) : Chunks :=
  let bits : BitVec 4 := BitVec.ofBool wide ++ BitVec.ofBool reg ++ BitVec.ofBool index ++
    BitVec.ofBool base
  if bits ≠ 0 || needed then [.byte (4#4 ++ bits)] else []

structure Opcode where
  /-- A byte in front of all others. -/
  lead : Chunks := []
  /-- Whether the opcode is in the second opcode table. -/
  escaped : Bool := false
  code : Byte
  admits : Admission := .integer
  byteReg : Bool := admits = .byte
  byteRm : Bool := admits = .byte
  deriving DecidableEq

namespace Opcode

def fourthBits (field : RegField) (rm : RegMem) : Bool × Bool × Bool :=
  let reg := match field with
    | .reg r => r.fourthBit
    | .extension _ => false
  match rm with
  | .reg r => (reg, false, r.fourthBit)
  | .mem a => (reg, a.index.any Register.fourthBit, a.base.any Register.fourthBit)

def needsByteMark (o : Opcode) (field : RegField) (rm : RegMem) : Bool :=
  (o.byteReg && match field with
    | .reg r => r.needsByteMark
    | .extension _ => false) ||
  (o.byteRm && match rm with
    | .reg r => r.needsByteMark
    | .mem _ => false)

/-- An instruction without its immediate. -/
def encode (o : Opcode) (size : OperandSize) (field : RegField) (rm : RegMem) : Chunks :=
  let (reg, index, base) := fourthBits field rm
  o.lead ++ size.lead ++
    extensionByte (size = .qword) reg index base (o.needsByteMark field rm) ++
    (if o.escaped then [0x0F] else []) ++ [.byte o.code] ++ operands field rm false

end Opcode

def immediate (isByte : Bool) (size : OperandSize) (imm : BitVec 32) : Chunks :=
  match if isByte then 1 else size.immediateBytes with
  | 0 => []
  | n => [.number n imm]

structure RmOp where
  opcode : Opcode
  deriving DecidableEq

structure MrOp where
  opcode : Opcode
  deriving DecidableEq

structure MOp where
  opcode : Opcode
  extension : BitVec 3
  deriving DecidableEq

structure MiOp where
  opcode : Opcode
  extension : BitVec 3
  byteImmediate : Bool := false
  deriving DecidableEq

structure RmiOp where
  opcode : Opcode
  byteImmediate : Bool := false
  deriving DecidableEq

def RmOp.encode (o : RmOp) (size : OperandSize) (dst : Register) (src : RegMem) : Chunks :=
  o.opcode.encode size (.reg dst) src

def MrOp.encode (o : MrOp) (size : OperandSize) (dst : RegMem) (src : Register) : Chunks :=
  o.opcode.encode size (.reg src) dst

def MOp.encode (o : MOp) (size : OperandSize) (dst : RegMem) : Chunks :=
  o.opcode.encode size (.extension o.extension) dst

def MiOp.encode (o : MiOp) (size : OperandSize) (dst : RegMem) (imm : BitVec 32) : Chunks :=
  o.opcode.encode size (.extension o.extension) dst ++ immediate o.byteImmediate size imm

def RmiOp.encode (o : RmiOp) (size : OperandSize) (dst : Register) (src : RegMem)
    (imm : BitVec 32) : Chunks :=
  o.opcode.encode size (.reg dst) src ++ immediate o.byteImmediate size imm

end CompilerKit.Amd64
