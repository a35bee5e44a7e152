import CompilerKit.Amd64.Table

/-! # Instructions written out

Instructions that do not go through the opcode table. Where they overlap with it they give the same
bytes, except for addresses relative to the instruction pointer, which get no extension byte here.
`wide` selects 64-bit operands.
-/
namespace CompilerKit.Amd64.Direct

/-- The extension byte, case by case: for a 64-bit operation, and for a register operand, an index and a
base among the upper eight registers. If there is none of these, only byte registers can need it. -/
def extension : (wide reg index base needed : Bool) → Chunks
  | false, false, false, false, needed => if needed then [0x40] else []
  | false, false, false, true, _ => [0x41]
  | false, false, true, false, _ => [0x42]
  | false, false, true, true, _ => [0x43]
  | false, true, false, false, _ => [0x44]
  | false, true, false, true, _ => [0x45]
  | false, true, true, false, _ => [0x46]
  | false, true, true, true, _ => [0x47]
  | true, false, false, false, _ => [0x48]
  | true, false, false, true, _ => [0x49]
  | true, false, true, false, _ => [0x4A]
  | true, false, true, true, _ => [0x4B]
  | true, true, false, false, _ => [0x4C]
  | true, true, false, true, _ => [0x4D]
  | true, true, true, false, _ => [0x4E]
  | true, true, true, true, _ => [0x4F]

/-- Whether the register field, the index and the base name one of the upper eight registers. -/
def upperBits (field : RegField) (rm : RegMem) : Bool × Bool × Bool :=
  let reg := match field with
    | .reg r => r.isUpper
    | .extension _ => false
  match rm with
  | .reg r => (reg, false, r.isUpper)
  | .mem a => (reg, a.index.any Register.isUpper, a.base.any Register.isUpper)

/-- The bytes that name both operands; a register is joined to the finished byte. -/
def named (field : RegField) (rm : RegMem) (longDisplacement : Bool) : Chunks :=
  match rm with
  | .reg r => [.byte (modRm 3 field.low 0 ||| r.inByte)]
  | .mem a => a.operand field.low longDisplacement

def encode (lead : Chunks) (wide : Bool) (opcode : Chunks) (field : RegField) (rm : RegMem)
    (needed longDisplacement : Bool) : Chunks :=
  let (reg, index, base) := upperBits field rm
  lead ++ extension wide reg index base needed ++ opcode ++ named field rm longDisplacement

/-- The common case: no leading bytes and nothing forced. -/
def plain (wide : Bool) (opcode : Chunks) (field : RegField) (rm : RegMem) : Chunks :=
  encode [] wide opcode field rm false false

def inOpcode (wide : Bool) (escape : Chunks) (opcode : Byte) (r : Register) : Chunks :=
  extension wide false false r.isUpper false ++ escape ++ [.byte (opcode ||| r.inByte)]

/-! Moves between general registers and memory. -/

def load (wide : Bool) (dst : Register) (src : RegMem) : Chunks := plain wide [0x8B] (.reg dst) src

def store (wide : Bool) (dst : Address) (src : Register) : Chunks :=
  plain wide [0x89] (.reg src) (.mem dst)

def storeImmediate (wide : Bool) (dst : Address) (imm : BitVec 32) : Chunks :=
  plain wide [0xC7] (.extension 0) (.mem dst) ++ [.number 4 imm]

def storeByte (dst : Address) (src : Register) : Chunks :=
  encode [] false [0x88] (.reg src) (.mem dst) src.needsByteMark false

def storeByteImmediate (dst : Address) (imm : BitVec 32) : Chunks :=
  plain false [0xC6] (.extension 0) (.mem dst) ++ [.number 1 imm]

def storeWord (dst : Address) (src : Register) : Chunks :=
  encode [0x66] false [0x89] (.reg src) (.mem dst) false false

def storeWordImmediate (dst : Address) (imm : BitVec 32) : Chunks :=
  encode [0x66] false [0xC7] (.extension 0) (.mem dst) false false ++ [.number 2 imm]

def moveImmediate (dst : Register) (imm : BitVec 32) : Chunks :=
  inOpcode false [] 0xB8 dst ++ [.number 4 imm]

def moveLongImmediate (dst : Register) (imm : Word) : Chunks :=
  inOpcode true [] 0xB8 dst ++ [.number 8 imm]

def moveExtendedImmediate (dst : Register) (imm : BitVec 32) : Chunks :=
  plain true [0xC7] (.extension 0) (.reg dst) ++ [.number 4 imm]

def signExtendByte (wide : Bool) (dst : Register) (src : RegMem) : Chunks :=
  let needed := match src with
    | .reg r => r.needsByteMark
    | .mem _ => false
  encode [] wide [0x0F, 0xBE] (.reg dst) src needed false

def signExtendWord (dst : Register) (src : Address) : Chunks :=
  plain false [0x0F, 0xBF] (.reg dst) (.mem src)

def signExtendHalf (dst : Register) (src : RegMem) : Chunks := plain true [0x63] (.reg dst) src

def zeroExtendByte (dst : Register) (src : Address) : Chunks :=
  plain false [0x0F, 0xB6] (.reg dst) (.mem src)

def zeroExtendWord (dst : Register) (src : Address) : Chunks :=
  plain false [0x0F, 0xB7] (.reg dst) (.mem src)

def loadAddress (dst : Register) (src : Address) : Chunks := plain true [0x8D] (.reg dst) (.mem src)

def moveIf (wide : Bool) (c : FlagTest) (dst : Register) (src : RegMem) : Chunks :=
  plain wide [0x0F, 4#4 ++ c.encoding] (.reg dst) src

/-- What is written of a conditional move before its condition. -/
def beforeCondition (wide : Bool) (dst : Register) (src : RegMem) : Chunks :=
  let (reg, index, base) := upperBits (.reg dst) src
  extension wide reg index base false ++ [0x0F]

def swapBytes (wide : Bool) (r : Register) : Chunks := inOpcode wide [0x0F] 0xC8 r

def push (r : Register) : Chunks := inOpcode false [] 0x50 r

def pop (r : Register) : Chunks := inOpcode false [] 0x58 r

/-! Arithmetic and atomic updates. -/

def increment (wide : Bool) (dst : RegMem) : Chunks := plain wide [0xFF] (.extension 0) dst

def decrement (wide : Bool) (dst : RegMem) : Chunks := plain wide [0xFF] (.extension 1) dst

def negate (dst : Register) : Chunks := plain true [0xF7] (.extension 3) (.reg dst)

/-- A shift by a constant; one place has a form of its own. -/
def shift (s : Shift) (dst : Register) (places : BitVec 32) : Chunks :=
  if places = 1 then plain true [0xD1] (.extension s.number) (.reg dst)
  else plain true [0xC1] (.extension s.number) (.reg dst) ++ [.number 1 places]

def test (wide : Bool) (dst : Register) (src : RegMem) : Chunks := plain wide [0x85] (.reg dst) src

/-- Register number 0 has a form of its own. -/
def testImmediate (dst : Register) (imm : BitVec 32) : Chunks :=
  (if !dst.fourthBit && dst.low = 0 then [0xA9]
    else plain false [0xF7] (.extension 0) (.reg dst)) ++ [.number 4 imm]

def compareExchange (wide : Bool) (reg : Register) (a : Address) : Chunks :=
  plain wide [0x0F, 0xB1] (.reg reg) (.mem a)

def exchangeAdd (wide : Bool) (dst : Address) (src : Register) : Chunks :=
  plain wide [0x0F, 0xC1] (.reg src) (.mem dst)

def exchange (wide : Bool) (dst : Register) (src : Address) : Chunks :=
  plain wide [0x87] (.reg dst) (.mem src)

/-! Vector registers. -/

def vector (lead : Chunks) (wide : Bool) (opcode : Chunks) (reg : Register) (rm : RegMem) : Chunks :=
  encode lead wide (0x0F :: opcode) (.reg reg) rm false false

def moveAlignedSingles (dst src : Register) : Chunks := vector [] false [0x28] dst (.reg src)

def moveAlignedDoubles (dst src : Register) : Chunks := vector [0x66] false [0x28] dst (.reg src)

def loadDouble (dst : Register) (src : RegMem) : Chunks := vector [0xF2] false [0x10] dst src

def storeDouble (dst : Address) (src : Register) : Chunks :=
  vector [0xF2] false [0x11] src (.mem dst)

def loadSingle (dst : Register) (src : RegMem) : Chunks := vector [0xF3] false [0x10] dst src

def storeSingle (dst : Address) (src : Register) : Chunks :=
  vector [0xF3] false [0x11] src (.mem dst)

def loadQuad (dst : Register) (src : Address) (longDisplacement : Bool) : Chunks :=
  if dst.isVector then encode [0xF3] true [0x0F, 0x7E] (.reg dst) (.mem src) false longDisplacement
  else encode [] true [0x8B] (.reg dst) (.mem src) false longDisplacement

def storeQuad (dst : Address) (src : Register) : Chunks :=
  if src.isVector then vector [0x66] true [0xD6] src (.mem dst) else store true dst src

def moveBetween? (dst src : Register) : Option Chunks :=
  if dst.isVector then some (vector [0x66] true [0x6E] dst (.reg src))
  else if src.isVector then some (vector [0x66] true [0x7E] src (.reg dst))
  else none

/-! The floating point stack. -/

def stackOp (opcode : Byte) (extension : BitVec 3) (a : Address) : Chunks :=
  opcode :: a.operand extension false

def stackSlot (opcode first : Byte) (i : BitVec 32) : Chunks := [opcode, first + i.setWidth 8]

def pushDouble (a : Address) : Chunks := stackOp 0xDD 0 a

def popDouble (a : Address) : Chunks := stackOp 0xDD 3 a

end CompilerKit.Amd64.Direct
