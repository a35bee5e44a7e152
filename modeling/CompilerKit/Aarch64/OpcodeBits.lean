import CompilerKit.Aarch64.Encoding

/-! # Opcode bits by name

The bits that tell an instruction from the others of its group, and the bits that tell the operand
classes apart. A logical immediate can be put together with any of them.
-/
namespace CompilerKit.Aarch64

/-- What the operands of an instruction are. -/
inductive OperandClass where
  | general32 | general64 | float32 | float64
  deriving DecidableEq

namespace OperandClass

def all : List (String × OperandClass) :=
  [("General32", general32), ("General64", general64), ("FP32", float32), ("FP64", float64)]

def bits : OperandClass → Instr
  | general32 | float32 => 0
  | general64 => 0x80000000
  | float64 => 0x400000

end OperandClass

def opcodeBits : List (String × Instr) :=
  [("BCOND", 0x54000000), ("CBNZ", 0x1000000), ("CBZ", 0), ("B", 0), ("BL", 0x80000000),
    ("BR", 0x1F0000), ("BLR", 0x3F0000), ("RET", 0x5F0000), ("LDR", 0), ("LDRS", 0x800000),
    ("LDXR", 0x81F7C00), ("LDAR", 0x8DFFC00), ("LDAXR", 0x85FFC00), ("STR", 0),
    ("STXR", 0x8007C00), ("STLR", 0x89FFC00), ("STLXR", 0x800FC00), ("ADR", 0),
    ("ADRP", 0x80000000), ("ADD", 0), ("ADDS", 0x20000000), ("SUB", 0x40000000),
    ("SUBS", 0x60000000), ("NOT", 0x200000), ("AND", 0), ("BIC", 0x200000), ("ORR", 0x20000000),
    ("ORN", 0x20200000), ("EOR", 0x40000000), ("EON", 0x40200000), ("ANDS", 0x60000000),
    ("BICS", 0x60200000), ("ASRV", 0x2800), ("RORV", 0x2C00), ("LSRV", 0x2400), ("LSLV", 0x2000),
    ("CLS", 0x1400), ("CLZ", 0x1000), ("RBIT", 0), ("REVX", 0xC00), ("REVW", 0x800), ("MOVN", 0),
    ("MOVZ", 0x40000000), ("MOVK", 0x60000000), ("CSEL", 0), ("CSNEG", 0x40000400),
    ("CSINC", 0x400), ("BFM", 0x20000000), ("SBFM", 0), ("UBFM", 0x40000000),
    ("EXTR", 0x13800000), ("MADD", 0), ("MSUB", 0x8000), ("SDIV", 0xC00), ("UDIV", 0x800),
    ("FMOV", 0), ("FMOVCPU2FPU", 0x70000), ("FMOVFPU2CPU", 0x60000), ("FCVTDS", 0x28000),
    ("FCVTSD", 0x20000), ("FCVTZS", 0x180000), ("SCVTF", 0x20000), ("FABS", 0x8000),
    ("FSQRT", 0x18000), ("FNEG", 0x10000), ("FRINTZ", 0x58000), ("FADD", 0x2000),
    ("FSUB", 0x3000), ("FMUL", 0), ("FDIV", 0x1000), ("FMAX", 0x4000), ("FMIN", 0x5000),
    ("FMADD", 0), ("FMSUB", 0x8000), ("FCMP", 0), ("FCMPZERO", 0x8), ("FCCMP", 0x1E200400),
    ("FCSEL", 0x1E200C00), ("INS", 0x4E081C00), ("UMOV", 0x4E083C00), ("CNT", 0xE205800),
    ("USRA", 0x6F001400), ("HLT", 0x400000), ("BRK", 0x200000), ("CLREX", 0xD5033F5F),
    ("HINT", 0xD503201F), ("DMB", 0xA0), ("BLR_NATIVE", 0xC0000000)]

/-- An instruction with a logical immediate, from its operand class and its opcode bits. Only a word
of general registers can hold a wide immediate, and only for their halves the upper part of the value
does not count. -/
def logicalInstr (c : OperandClass) (opcode : Instr) (dst src : Register) (value : Word) :
    Result Instr := do
  let value := if c = .general32 then value &&& Numeric.lowBits 64 32 else value
  return c.bits ||| opcode ||| 0x12000000 ||| (← Instr.logicalField (c = .general64) value) |||
    Instr.rd dst ||| Instr.rn src

end CompilerKit.Aarch64
