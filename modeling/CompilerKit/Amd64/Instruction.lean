import CompilerKit.Amd64.Branch
import CompilerKit.Amd64.Direct

/-! # Instructions by name

`instruction?` finds what a mnemonic does with a list of operands. Most mnemonics stand for fixed
bytes (`bytes?`); branches and labels need the assembler, and a few only answer a question.
-/
namespace CompilerKit.Amd64

inductive Operand where
  | reg (r : Register)
  | mem (a : Address)
  | int (n : BitVec 32)
  | long (n : Word)
  | flag (b : Bool)
  | label (l : Nat)
  | test (c : FlagTest)
  /-- An operand that is not there: a condition, or a register that is asked for its extension bits. Other
  operands are always there. -/
  | absent

/-- A register or a condition by its name. -/
def Operand.ofWord? (s : String) : Option Operand :=
  (Register.ofName? s).map .reg <|> (FlagTest.ofName? s).map .test

/-- Operands to bytes, for the operand lists that a mnemonic takes. -/
abbrev Form := List Operand → Option Chunks

namespace Form

def fixed (code : Chunks) : Form
  | [] => some code
  | _ => none

def oneReg (f : Register → Chunks) : Form
  | [.reg r] => some (f r)
  | _ => none

def oneMem (f : Address → Chunks) : Form
  | [.mem a] => some (f a)
  | _ => none

def oneInt (f : BitVec 32 → Chunks) : Form
  | [.int n] => some (f n)
  | _ => none

def oneRegMem (f : RegMem → Chunks) : Form
  | [.reg r] => some (f (.reg r))
  | [.mem a] => some (f (.mem a))
  | _ => none

def regReg (f : Register → Register → Chunks) : Form
  | [.reg d, .reg s] => some (f d s)
  | _ => none

def regMem (f : Register → Address → Chunks) : Form
  | [.reg d, .mem s] => some (f d s)
  | _ => none

def memReg (f : Address → Register → Chunks) : Form
  | [.mem d, .reg s] => some (f d s)
  | _ => none

def regInt (f : Register → BitVec 32 → Chunks) : Form
  | [.reg d, .int n] => some (f d n)
  | _ => none

def memInt (f : Address → BitVec 32 → Chunks) : Form
  | [.mem d, .int n] => some (f d n)
  | _ => none

def regAny (f : Register → RegMem → Chunks) : Form
  | [.reg d, .reg s] => some (f d (.reg s))
  | [.reg d, .mem s] => some (f d (.mem s))
  | _ => none

def anyInt (f : RegMem → BitVec 32 → Chunks) : Form
  | [.reg d, .int n] => some (f (.reg d) n)
  | [.mem d, .int n] => some (f (.mem d) n)
  | _ => none

def testRegAny (f : FlagTest → Register → RegMem → Chunks) : Form
  | [.test c, .reg d, .reg s] => some (f c d (.reg s))
  | [.test c, .reg d, .mem s] => some (f c d (.mem s))
  | _ => none

def or (f g : Form) : Form := fun os => (f os).or (g os)

end Form

/-! Instructions made of others. -/

/-- Adds a constant, or subtracts it if `up` is false; one has a form of its own. The least constant
has no opposite and is used as it is. -/
def adjust (wide up : Bool) (dst : RegMem) (value : BitVec 32) : Chunks :=
  let size : OperandSize := if wide then .qword else .dword
  let arithmetic (up : Bool) : Arithmetic := if up then .add else .sub
  let step (up : Bool) : Chunks := match dst with
    | .mem _ => if wide then (if up then MOp.inc else MOp.dec).encode .qword dst
        else if up then Direct.increment wide dst else Direct.decrement wide dst
    | .reg _ => if up then Direct.increment wide dst else Direct.decrement wide dst
  if value = BitVec.intMin 32 then (arithmetic up).withImmediate size dst value
  else
    let (up, value) := if value.slt 0 then (!up, -value) else (up, value)
    if value = 0 then [] else if value = 1 then step up
    else (arithmetic up).withImmediate size dst value

/-- Stores a long constant, in two halves if it is no sign extended half. -/
def storeLong (dst : Address) (value : Word) : Chunks :=
  if fitsInt value.toInt then MiOp.mov.encode .qword (.mem dst) (value.setWidth 32)
  else
    Direct.storeImmediate false dst (value.setWidth 32) ++
      Direct.storeImmediate false { dst with displacement := dst.displacement + 4 }
        ((value >>> 32).setWidth 32)

def multiply (dst : Register) (src : Register) (value : BitVec 32) : Chunks :=
  (if fitsByte value.toInt then RmiOp.imulShort else RmiOp.imul).encode .dword dst (.reg src) value

/-- Computes on the floating point stack: a vector register goes there through memory and the result
comes back the same way. -/
def throughStack (before after : Chunks) (dst value : Register) : Chunks :=
  let slot : Address := { base := some .rsp }
  before ++ Arithmetic.sub.withImmediate .qword (.reg .rsp) 8 ++ Direct.storeDouble slot value ++
    Direct.pushDouble slot ++ after ++ Direct.popDouble slot ++
    Direct.loadDouble dst (.mem slot) ++ Arithmetic.add.withImmediate .qword (.reg .rsp) 8

/-- A barrier that orders a store before a later load, asked for by bit 2; it is a locked addition of
nothing. Other orders hold without one. -/
def barrier (orders : BitVec 32) : Chunks :=
  if orders &&& 4 = 0 then []
  else 0xF0 :: Arithmetic.add.withImmediate .dword (.mem { base := some .rsp }) 0

def ret (bytes : BitVec 32) : Chunks := if bytes = 0 then [0xC3] else [0xC2, .number 2 bytes]

/-- A hint to load a cache line. -/
def prefetch (opcode : Byte) (extension : BitVec 3) (a : Address) : Chunks :=
  Direct.plain false [0x0F, opcode] (.extension extension) (.mem a)

/-- Code that leaves `n` bytes of padding; nothing for a negative number. -/
def pad (n : BitVec 32) : Chunks := Padding.fill n.toInt.toNat

/-! The mnemonics. -/

open Form

def arithmeticForms : List (String × Form) :=
  let imm (a : Arithmetic) (size : OperandSize) := anyInt (a.withImmediate size)
  let regImm (a : Arithmetic) (size : OperandSize) := regInt fun d => a.withImmediate size (.reg d)
  let rm (a : Arithmetic) (size : OperandSize) := regAny ((a.rm size).encode size)
  let rr (a : Arithmetic) (size : OperandSize) :=
    regReg fun d s => (a.rm size).encode size d (.reg s)
  [("addl", imm .add .dword),
    ("addq", (imm .add .qword).or ((rr .add .qword).or
      (memReg fun d => (Arithmetic.add.mr .qword).encode .qword (.mem d)))),
    ("andl", regImm .and .dword),
    ("andq", regImm .and .qword),
    ("cmpl", (imm .cmp .dword).or (rm .cmp .dword)),
    ("cmpq", (regImm .cmp .qword).or (rm .cmp .qword)),
    ("cmpptr", rm .cmp .qword),
    ("subl", imm .sub .dword),
    ("subq", (imm .sub .qword).or (rr .sub .qword)),
    ("subqWide", regInt fun d => (Arithmetic.sub.mi .qword false).encode .qword (.reg d)),
    ("xorl", rr .xor .dword),
    ("imull", fun
      | [.reg d, .reg s, .int n] => some (multiply d s n)
      | _ => none),
    ("incl", oneRegMem (Direct.increment false)),
    ("decl", oneRegMem (Direct.decrement false)),
    ("incq", (oneReg fun r => Direct.increment true (.reg r)).or
      (oneMem fun a => MOp.inc.encode .qword (.mem a))),
    ("decq", (oneReg fun r => Direct.decrement true (.reg r)).or
      (oneMem fun a => MOp.dec.encode .qword (.mem a))),
    ("incrementl", anyInt (adjust false true)),
    ("incrementq", anyInt (adjust true true)),
    ("decrementl", anyInt (adjust false false)),
    ("decrementq", anyInt (adjust true false)),
    ("negq", oneReg Direct.negate),
    ("shlq", regInt (Direct.shift .shl)),
    ("shrq", regInt (Direct.shift .shr)),
    ("testl", (regInt Direct.testImmediate).or (regAny (Direct.test false))),
    ("testq", regReg fun d s => Direct.test true d (.reg s)),
    ("nullCheck", oneMem fun a => Direct.test false .rax (.mem a))]

def moveForms : List (String × Form) :=
  [("movl", (regInt Direct.moveImmediate).or ((regAny (Direct.load false)).or
      ((memInt (Direct.storeImmediate false)).or (memReg (Direct.store false))))),
    ("movq", fun
      | [.reg d, .mem s] => some (Direct.loadQuad d s false)
      | [.reg d, .mem s, .flag b] => some (Direct.loadQuad d s b)
      | [.reg d, .reg s] => some (Direct.load true d (.reg s))
      | [.mem d, .reg s] => some (Direct.storeQuad d s)
      | [.reg d, .long n] => some (Direct.moveLongImmediate d n)
      | _ => none),
    ("movptr", fun
      | [.reg d, .mem s] => some (Direct.loadQuad d s false)
      | [.mem d, .reg s] => some (Direct.storeQuad d s)
      | [.mem d, .int n] => some (Direct.storeImmediate true d n)
      | _ => none),
    ("movb", (memInt Direct.storeByteImmediate).or (memReg Direct.storeByte)),
    ("movw", (memInt Direct.storeWordImmediate).or (memReg Direct.storeWord)),
    ("movslq", (regInt Direct.moveExtendedImmediate).or ((memInt (Direct.storeImmediate true)).or
      (regAny Direct.signExtendHalf))),
    ("movsbl", regAny (Direct.signExtendByte false)),
    ("movsbq", regAny (Direct.signExtendByte true)),
    ("movswl", regMem Direct.signExtendWord),
    ("movzbl", regMem Direct.zeroExtendByte),
    ("movzwl", regMem Direct.zeroExtendWord),
    ("movlong", fun
      | [.mem d, .long n] => some (storeLong d n)
      | _ => none),
    ("leaq", regMem Direct.loadAddress),
    ("cmovl", testRegAny (Direct.moveIf false)),
    ("cmovq", testRegAny (Direct.moveIf true)),
    ("bswapl", oneReg (Direct.swapBytes false)),
    ("bswapq", oneReg (Direct.swapBytes true)),
    ("push", oneReg Direct.push),
    ("pop", oneReg Direct.pop),
    ("cmpxchgl", regMem (Direct.compareExchange false)),
    ("cmpxchgq", regMem (Direct.compareExchange true)),
    ("xaddl", memReg (Direct.exchangeAdd false)),
    ("xaddq", memReg (Direct.exchangeAdd true)),
    ("xchgl", regMem (Direct.exchange false)),
    ("xchgq", regMem (Direct.exchange true))]

def vectorForms : List (String × Form) :=
  let between (lead : Chunks) (opcode : Chunks) :=
    regReg fun d s => Direct.vector lead false opcode d (.reg s)
  [("movapd", regReg Direct.moveAlignedDoubles),
    ("movaps", regReg Direct.moveAlignedSingles),
    ("movsd", (regAny Direct.loadDouble).or (memReg Direct.storeDouble)),
    ("movss", (regAny Direct.loadSingle).or (memReg Direct.storeSingle)),
    ("movdbl", (regReg Direct.moveAlignedDoubles).or
      ((regMem fun d s => Direct.loadDouble d (.mem s)).or (memReg Direct.storeDouble))),
    ("movflt", (regReg Direct.moveAlignedSingles).or
      ((regMem fun d s => Direct.loadSingle d (.mem s)).or (memReg Direct.storeSingle))),
    ("movlpd", regMem fun d s => Direct.vector [0x66] false [0x12] d (.mem s)),
    ("movdqu", regMem fun d s => Direct.vector [0xF3] false [0x6F] d (.mem s)),
    ("ptest", between [0x66] [0x38, 0x17]),
    ("pxor", between [0x66] [0xEF]),
    ("xorpd", between [0x66] [0x57]),
    ("xorps", between [] [0x57])]

def stackForms : List (String × Form) :=
  [("fldd", oneMem Direct.pushDouble),
    ("flds", oneMem (Direct.stackOp 0xD9 0)),
    ("fstpd", oneMem Direct.popDouble),
    ("fstps", oneMem (Direct.stackOp 0xD9 3)),
    ("fldln2", fixed [0xD9, 0xED]),
    ("fldlg2", fixed [0xD9, 0xEC]),
    ("fyl2x", fixed [0xD9, 0xF1]),
    ("ffree", oneInt (Direct.stackSlot 0xDD 0xC0)),
    ("fstp", oneInt (Direct.stackSlot 0xDD 0xD8)),
    ("fxch", oneInt (Direct.stackSlot 0xD9 0xC8)),
    ("fincstp", fixed [0xD9, 0xF7]),
    ("fnstswAX", fixed [0xDF, 0xE0]),
    ("fwait", fixed [0x9B]),
    ("fprem", fixed [0xD9, 0xF8]),
    ("fptan", fixed [0xD9, 0xF2]),
    ("fpop", fixed [0xDD, 0xC0, 0xD9, 0xF7]),
    ("fsin", (fixed [0xD9, 0xFE]).or (regReg (throughStack [] [0xD9, 0xFE]))),
    ("fcos", (fixed [0xD9, 0xFF]).or (regReg (throughStack [] [0xD9, 0xFF]))),
    ("ftan", regReg (throughStack [] [0xD9, 0xF2, 0xDD, 0xD8])),
    ("flog", fun
      | [.reg d, .reg v, .flag decimal] =>
        some (throughStack [0xD9, if decimal then 0xEC else 0xED] [0xD9, 0xF1] d v)
      | _ => none)]

def controlForms : List (String × Form) :=
  [("call", (fixed [0xE8, .number 4 0#32]).or
      (oneReg fun r => Direct.plain false [0xFF] (.extension 2) (.reg r))),
    ("jmp", oneReg fun r => Direct.plain false [0xFF] (.extension 4) (.reg r)),
    ("ret", oneInt ret),
    ("nop", (fixed (Padding.fill 1)).or (oneInt pad)),
    ("ensureUniquePC", fixed (Padding.fill 1)),
    ("membar", oneInt barrier),
    ("cdql", fixed [0x99]),
    ("cdqq", fixed [0x48, 0x99]),
    ("hlt", fixed [0xF4]),
    ("illegal", fixed [0x0F, 0x0B]),
    ("int3", fixed [0xCC]),
    ("leave", fixed [0xC9]),
    ("lock", fixed [0xF0]),
    ("pause", fixed [0xF3, 0x90]),
    ("popfq", fixed [0x9D]),
    ("pushfq", fixed [0x9C]),
    ("prefetchnta", oneMem (prefetch 0x18 0)),
    ("prefetcht0", oneMem (prefetch 0x18 1)),
    ("prefetcht1", oneMem (prefetch 0x18 2)),
    ("prefetcht2", oneMem (prefetch 0x18 3)),
    ("prefetchr", oneMem (prefetch 0x0D 0)),
    ("prefetchw", oneMem (prefetch 0x0D 1))]

/-- The operand bytes of an address beside a number. The number is not cut to the three bits that are
its place: two more of them go into the first byte. -/
def operandBeside (n : BitVec 32) (a : Address) (wide : Bool) : Chunks :=
  match a.operand 0 wide with
  | ⟨head⟩ :: rest => ⟨head.map (· ||| (n <<< 3).setWidth 8)⟩ :: rest
  | [] => []

def operandForms : List (String × Form) :=
  [("emitModRM", fun
      | [.int e, .reg r] => some [modRm 3 (e.setWidth 3) r.low]
      | [.reg r, .reg s] => some [modRm 3 r.low s.low]
      | _ => none),
    ("emitOperandHelper", fun
      | [.int n, .mem a] => some (operandBeside n a false)
      | [.int n, .mem a, .flag b] => some (operandBeside n a b)
      | [.reg r, .mem a] => some (a.operand r.low false)
      | [.reg r, .mem a, .flag b] => some (a.operand r.low b)
      | _ => none)]

def forms : List (String × Form) :=
  arithmeticForms ++ moveForms ++ vectorForms ++ stackForms ++ controlForms ++ operandForms

def bytes? (mnemonic : String) (os : List Operand) : Option Chunks :=
  (forms.lookup mnemonic).bind (· os)

open Assembler

def action? (mnemonic : String) (os : List Operand) : Option (Assembler Unit) :=
  match mnemonic, os with
  | "jmp", [.label l] => some (Branch.always.toLabel l)
  | "jmp", [.int n, .flag b] => some (Branch.always.toPosition n.toInt b)
  | "jmpb", [.label l] => some (Branch.always.toLabelShort l)
  | "jcc", [.test c, .label l] => some ((Branch.onFlag c).toLabel l)
  | "jcc", [.test c, .int n, .flag b] => some ((Branch.onFlag c).toPosition n.toInt b)
  | "jccb", [.test c, .label l] => some ((Branch.onFlag c).toLabelShort l)
  | "jcc", [.absent, .label l] => some (Branch.unfinishedToLabel l)
  | "jcc", [.absent, .int n, .flag b] => some (Branch.unfinishedToPosition n.toInt b)
  | "jccb", [.absent, .label l] => some (Branch.unfinishedToLabelShort l)
  | "cmovl", .absent :: os => (regAny (Direct.beforeCondition false) os).map Branch.breakOff
  | "cmovq", .absent :: os => (regAny (Direct.beforeCondition true) os).map Branch.breakOff
  | "bind", [.label l] => some (bindLabel l)
  | "align", [.int n] => some (align n.toInt)
  | "movdq", [.reg d, .reg s] => some (match Direct.moveBetween? d s with
      | some code => emit code
      | none => do
        emit [0x66]
        throw .noEncoding)
  | _, _ => none

/-- What the remaining mnemonics tell. The extension bits of two operands are those of the register
field, the index and the base, from the highest down; a register that is not there has none. -/
def reply? : String → List Operand → Option (Reply Address)
  | "getRXB", [r, s] => do
    match ← register? r, s with
    | r, .mem a => return bits (.reg r) (.mem a)
    | r, s => return bits (.reg r) (.reg (← register? s))
  | "getPlaceholder", [] => some (.address { base := some .instructionPointer })
  | "makeAddress", [.reg r, .int d] => some (.address { base := some r, displacement := d })
  | _, _ => none
where
  register? : Operand → Option Register
    | .reg r => some r
    | .absent => some .rax
    | _ => none
  /-- The extension bits as a number. -/
  bits (field : RegField) (rm : RegMem) : Reply Address :=
    let (reg, index, base) := Opcode.fourthBits field rm
    .number (BitVec.ofBool reg ++ BitVec.ofBool index ++ BitVec.ofBool base).toNat

def instruction? (mnemonic : String) (os : List Operand) : Option (Assembler (Reply Address)) :=
  match bytes? mnemonic os, action? mnemonic os with
  | some code, _ => some (quiet (emit code))
  | none, some step => some (quiet step)
  | none, none => (reply? mnemonic os).map pure

/-! Opcodes by name. -/

def opcodeStep? (encode? : List Operand → Option Chunks) (os : List Operand) :
    Option (Assembler (Reply Address)) :=
  (encode? os).map fun code => quiet (emit code)

/-- The forms of the opcode table that a name can be looked up in. The vector forms include the
general ones. -/
inductive OpcodeForm where
  | general | vector | mr | m | mi | rmi
  deriving DecidableEq

def opcode? (form : OpcodeForm) (name : String) (size : OperandSize) (os : List Operand) :
    Option Chunks :=
  match form with
  | .general => do regAny ((← RmOp.general.lookup name).encode size) os
  | .vector => do
    regAny ((← (RmOp.vector.lookup name).or (RmOp.general.lookup name)).encode size) os
  | .mr => do
    let o ← MrOp.all.lookup name
    match os with
    | [.reg d, .reg s] => some (o.encode size (.reg d) s)
    | [.mem d, .reg s] => some (o.encode size (.mem d) s)
    | _ => none
  | .m => do oneRegMem ((← MOp.all.lookup name).encode size) os
  | .mi => do anyInt ((← MiOp.all.lookup name).encode size) os
  | .rmi => do
    let o ← RmiOp.all.lookup name
    match os with
    | [.reg d, .reg s, .int n] => some (o.encode size d (.reg s) n)
    | [.reg d, .mem s, .int n] => some (o.encode size d (.mem s) n)
    | _ => none

/-- The ways to use an arithmetic operation: to a register, from a register, with an immediate, with
a sign extended byte. -/
def arithmetic? (name way : String) (size : OperandSize) (os : List Operand) : Option Chunks := do
  let a ← Arithmetic.all.lookup name
  match way, os with
  | "rm", os => regAny ((a.rm size).encode size) os
  | "mr", [.reg d, .reg s] => some ((a.mr size).encode size (.reg d) s)
  | "mr", [.mem d, .reg s] => some ((a.mr size).encode size (.mem d) s)
  | "mi", os => anyInt ((a.mi size false).encode size) os
  | "misx", os => anyInt ((a.mi size true).encode size) os
  | _, _ => none

/-- The ways to use a shift: by one, by the counter register, by an immediate. -/
def shift? (name way : String) (size : OperandSize) (os : List Operand) : Option Chunks := do
  let s ← Shift.all.lookup name
  match way with
  | "m1" => oneRegMem (s.byOne.encode size) os
  | "mc" => oneRegMem (s.byCounter.encode size) os
  | "mi" => anyInt (s.byImmediate.encode size) os
  | _ => none

end CompilerKit.Amd64
