import CompilerKit.Amd64.Opcode

/-! # The opcode table

The opcodes that are used by name, each in its operand form. `Arithmetic` and `Shift` are families
whose members differ in one number only.
-/
namespace CompilerKit.Amd64

def Opcode.second (code : Byte) (admits : Admission) : Opcode :=
  { escaped := true, code, admits }

def Opcode.led (lead code : Byte) (admits : Admission) : Opcode :=
  { lead := [lead], escaped := true, code, admits }

namespace RmOp

def movzxb : RmOp := ⟨{ escaped := true, code := 0xB6, byteReg := false, byteRm := true }⟩
def movsxb : RmOp := ⟨{ escaped := true, code := 0xBE, byteReg := false, byteRm := true }⟩
def movsxd : RmOp := ⟨{ code := 0x63, admits := .qwordOnly }⟩
def mov : RmOp := ⟨{ code := 0x8B }⟩

def general : List (String × RmOp) :=
  [("IMUL", ⟨.second 0xAF .integer⟩),
    ("BSF", ⟨.second 0xBC .integer⟩),
    ("BSR", ⟨.second 0xBD .integer⟩),
    ("POPCNT", ⟨.led 0xF3 0xB8 .integer⟩),
    ("TZCNT", ⟨.led 0xF3 0xBC .integer⟩),
    ("LZCNT", ⟨.led 0xF3 0xBD .integer⟩),
    ("MOVZXB", movzxb),
    ("MOVZX", ⟨.second 0xB7 .no16Bit⟩),
    ("MOVSXB", movsxb),
    ("MOVSX", ⟨.second 0xBF .no16Bit⟩),
    ("MOVSXD", movsxd),
    ("MOVB", ⟨{ code := 0x8A, admits := .byte }⟩),
    ("MOV", mov),
    ("MOVD", ⟨.led 0x66 0x6E .intToFloating⟩),
    ("MOVQ", ⟨.led 0x66 0x6E .intToFloating⟩),
    ("MOVSS", ⟨.second 0x10 .floating⟩),
    ("MOVSD", ⟨.second 0x10 .floating⟩),
    ("TESTB", ⟨{ code := 0x84, admits := .byte }⟩),
    ("TEST", ⟨{ code := 0x85 }⟩)]

def vector : List (String × RmOp) :=
  [("CVTSI2SS", ⟨.led 0xF3 0x2A .intToFloating⟩),
    ("CVTSI2SD", ⟨.led 0xF2 0x2A .intToFloating⟩),
    ("CVTTSS2SI", ⟨.led 0xF3 0x2C .floatingToInt⟩),
    ("CVTTSD2SI", ⟨.led 0xF2 0x2C .floatingToInt⟩),
    ("UCOMIS", ⟨.second 0x2E .packedFloating⟩),
    ("SQRT", ⟨.second 0x51 .floating⟩),
    ("AND", ⟨.second 0x54 .packedFloating⟩),
    ("ANDN", ⟨.second 0x55 .packedFloating⟩),
    ("OR", ⟨.second 0x56 .packedFloating⟩),
    ("XOR", ⟨.second 0x57 .packedFloating⟩),
    ("ADD", ⟨.second 0x58 .floating⟩),
    ("MUL", ⟨.second 0x59 .floating⟩),
    ("CVTSS2SD", ⟨.second 0x5A .single⟩),
    ("CVTSD2SS", ⟨.second 0x5A .double⟩),
    ("SUB", ⟨.second 0x5C .floating⟩),
    ("MIN", ⟨.second 0x5D .floating⟩),
    ("DIV", ⟨.second 0x5E .floating⟩),
    ("MAX", ⟨.second 0x5F .floating⟩)]

end RmOp

namespace MrOp

def movb : MrOp := ⟨{ code := 0x88, admits := .byte }⟩
def mov : MrOp := ⟨{ code := 0x89 }⟩

def all : List (String × MrOp) :=
  [("MOVB", movb),
    ("MOV", mov),
    ("MOVD", ⟨.led 0x66 0x7E .intToFloating⟩),
    ("MOVQ", ⟨.led 0x66 0x7E .intToFloating⟩),
    ("MOVSS", ⟨.second 0x11 .floating⟩),
    ("MOVSD", ⟨.second 0x11 .floating⟩)]

end MrOp

namespace MOp

def inc : MOp := ⟨{ code := 0xFF }, 0⟩
def dec : MOp := ⟨{ code := 0xFF }, 1⟩

def all : List (String × MOp) :=
  [("NOT", ⟨{ code := 0xF7 }, 2⟩),
    ("NEG", ⟨{ code := 0xF7 }, 3⟩),
    ("MUL", ⟨{ code := 0xF7 }, 4⟩),
    ("IMUL", ⟨{ code := 0xF7 }, 5⟩),
    ("DIV", ⟨{ code := 0xF7 }, 6⟩),
    ("IDIV", ⟨{ code := 0xF7 }, 7⟩),
    ("INC", inc),
    ("DEC", dec),
    ("PUSH", ⟨{ code := 0xFF }, 6⟩),
    ("POP", ⟨{ code := 0x8F, admits := .no32Bit }, 0⟩)]

end MOp

namespace MiOp

def movb : MiOp := ⟨{ code := 0xC6, admits := .byte }, 0, true⟩
def mov : MiOp := ⟨{ code := 0xC7 }, 0, false⟩

def all : List (String × MiOp) :=
  [("MOVB", movb),
    ("MOV", mov),
    ("TEST", ⟨{ code := 0xF7 }, 0, false⟩)]

end MiOp

namespace RmiOp

def imul : RmiOp := ⟨{ code := 0x69 }, false⟩
def imulShort : RmiOp := ⟨{ code := 0x6B }, true⟩

def all : List (String × RmiOp) := [("IMUL", imul), ("IMUL_SX", imulShort)]

end RmiOp

/-- The eight operations that share one encoding scheme. -/
inductive Arithmetic where
  | add | or | adc | sbb | and | sub | xor | cmp
  deriving DecidableEq

namespace Arithmetic

def all : List (String × Arithmetic) :=
  [("ADD", add), ("OR", or), ("ADC", adc), ("SBB", sbb), ("AND", and), ("SUB", sub),
    ("XOR", xor), ("CMP", cmp)]

def number : Arithmetic → BitVec 3
  | add => 0
  | or => 1
  | adc => 2
  | sbb => 3
  | and => 4
  | sub => 5
  | xor => 6
  | cmp => 7

/-- The operation's number above the three bits that tell its forms apart. -/
def code (a : Arithmetic) (form : BitVec 3) : Byte := 0#2 ++ a.number ++ form

def rm (a : Arithmetic) (size : OperandSize) : RmOp :=
  if size = .byte then ⟨{ code := a.code 2, admits := .byte }⟩ else ⟨{ code := a.code 3 }⟩

def mr (a : Arithmetic) (size : OperandSize) : MrOp :=
  if size = .byte then ⟨{ code := a.code 0, admits := .byte }⟩ else ⟨{ code := a.code 1 }⟩

/-- With an immediate; `short` asks for the form with a sign extended byte. -/
def mi (a : Arithmetic) (size : OperandSize) (short : Bool) : MiOp :=
  if size = .byte then ⟨{ code := 0x80, admits := .byte }, a.number, true⟩
  else if short then ⟨{ code := 0x83 }, a.number, true⟩
  else ⟨{ code := 0x81 }, a.number, false⟩

def withImmediate (a : Arithmetic) (size : OperandSize) (dst : RegMem) (imm : BitVec 32) :
    Chunks :=
  (a.mi size (fitsByte imm.toInt)).encode size dst imm

end Arithmetic

inductive Shift where
  | rol | ror | rcl | rcr | shl | shr | sar
  deriving DecidableEq

namespace Shift

def all : List (String × Shift) :=
  [("ROL", rol), ("ROR", ror), ("RCL", rcl), ("RCR", rcr), ("SHL", shl), ("SHR", shr),
    ("SAR", sar)]

def number : Shift → BitVec 3
  | rol => 0
  | ror => 1
  | rcl => 2
  | rcr => 3
  | shl => 4
  | shr => 5
  | sar => 7

def byOne (s : Shift) : MOp := ⟨{ code := 0xD1 }, s.number⟩

def byCounter (s : Shift) : MOp := ⟨{ code := 0xD3 }, s.number⟩

def byImmediate (s : Shift) : MiOp := ⟨{ code := 0xC1 }, s.number, true⟩

end Shift

end CompilerKit.Amd64
