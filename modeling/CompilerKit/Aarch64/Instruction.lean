import CompilerKit.Aarch64.Branch
import CompilerKit.Aarch64.OpcodeBits
import CompilerKit.Aarch64.Plan
import CompilerKit.Kind

/-! # Instructions by name

`instruction?` finds what a mnemonic does with a list of operands. Most mnemonics stand for a fixed
sequence (`sequence?`); branches to labels need the assembler, and some only answer a question.
-/
namespace CompilerKit.Aarch64

open FloatingPoint (Double)

inductive Operand where
  | reg (r : Register)
  | mem (a : Address)
  | int (n : BitVec 32)
  | long (n : Word)
  | double (x : Double)
  | flag (b : Bool)
  | label (l : Nat)
  | test (c : FlagTest)
  | shift (s : ShiftKind)
  | extension (e : Extension)
  /-- A name that only some mnemonics know. -/
  | name (s : String)

/-- A register, a condition or a kind of shift or extension by its name. -/
def Operand.ofWord? (s : String) : Option Operand :=
  (Register.ofName? s).map .reg <|> (FlagTest.ofName? s).map .test <|>
    (ShiftKind.all.lookup s).map .shift <|> (Extension.ofName? s).map .extension

/-- Operands to instructions, for the operand lists that a mnemonic takes. -/
abbrev Form := List Operand → Option (Result (List Instr))

namespace Form

open Instr Sequence

def fixed (i : Instr) : Form
  | [] => some (.ok [i])
  | _ => none

def one (i : Instr) : Option (Result (List Instr)) := some (.ok [i])

def oneReg (f : Register → Instr) : Form
  | [.reg r] => one (f r)
  | _ => none

def sized2 (f : Width → Register → Register → Instr) : Form
  | [.int size, .reg d, .reg s] => one (f (.ofSize size) d s)
  | _ => none

def sized3 (f : Width → Register → Register → Register → Instr) : Form
  | [.int size, .reg d, .reg s, .reg t] => one (f (.ofSize size) d s t)
  | _ => none

def sized4 (f : Width → Register → Register → Register → Register → Instr) : Form
  | [.int size, .reg d, .reg s, .reg t, .reg u] => one (f (.ofSize size) d s t u)
  | _ => none

def sized3Test (f : Width → Register → Register → Register → FlagTest → Instr) : Form
  | [.int size, .reg d, .reg s, .reg t, .test c] => one (f (.ofSize size) d s t c)
  | _ => none

/-- Additions and subtractions: with a constant, a register, and a shifted or extended register. Only
those that leave the flags alone clamp the shift. -/
def addSub (op : AddSub) : Form
  | [.int size, .reg d, .reg s, .int n] => match op with
    | .add => some (addConstant true false (.ofSize size) d s n)
    | .adds => some (addConstant true true (.ofSize size) d s n)
    | .sub => some (addConstant false false (.ofSize size) d s n)
    | .subs => some (addConstant false true (.ofSize size) d s n)
  | [.int size, .reg d, .reg s, .reg t] => match op with
    | .add | .sub => one (addSubRegister op (.ofSize size) d s t)
    | .adds | .subs => some (do return [← addSubFlags op size d s t])
  | [.int size, .reg d, .reg s, .reg t, .shift k, .int n] =>
    let amount := match op with
      | .add | .sub => clampShift size (n.signExtend 64)
      | .adds | .subs => n
    one (addSubShifted op (.ofSize size) d s t k amount)
  | [.int size, .reg d, .reg s, .reg t, .extension e, .int n] =>
    one (addSubExtended op (.ofSize size) d s t e n)
  | _ => none

def logicalShift (op : Logical) (inverted : Bool) : Form
  | [.int size, .reg d, .reg s, .reg t, .shift k, .int n] =>
    one (logicalShifted op inverted (.ofSize size) d s t k n)
  | _ => none

def logicalConstant (op : Logical) : Form
  | [.int size, .reg d, .reg s, .long n] =>
    some (do return [← logicalImmediate op (.ofSize size) d s n])
  | _ => none

def logicalPlain (op : Logical) : Form := sized3 (logicalRegister op)

def shift (constant : BitVec 32 → Register → Register → Word → Instr) (opcode : Instr) : Form
  | [.int size, .reg d, .reg s, .long n] => one (constant size d s n)
  | [.int size, .reg d, .reg s, .reg t] => one (twoSource opcode (.ofSize size) d s t)
  | _ => none

def bitfieldMove (op : Bitfield) : Form
  | [.int size, .reg d, .reg s, .int n, .int m] => one (bitfield op (.ofSize size) d s n m)
  | _ => none

def moveChunk (op : MoveWide) : Form
  | [.int size, .reg d, .int n, .int s] => one (moveWide op (.ofSize size) d n s)
  | _ => none

def memory (how : Access) : Form
  | [.int size, .reg r, .mem a] => some (do return [← access how r a (log2Bytes size)])
  | _ => none

def loadExclusive (opcode : Instr) : Form
  | [.int size, .reg r, .mem a] => one (exclusiveLoad opcode r a (log2Bytes size))
  | _ => none

def storeExclusive (opcode : Instr) : Form
  | [.int size, .reg s, .reg r, .mem a] => one (exclusiveStore opcode s r a (log2Bytes size))
  | _ => none

def namedNumber (f : BitVec 32 → Instr) (names : List (String × BitVec 32)) : Form
  | [.name s] => (names.lookup s).bind fun n => one (f n)
  | _ => none

def oneInt (f : BitVec 32 → Instr) : Form
  | [.int n] => one (f n)
  | _ => none

def or (f g : Form) : Form := fun os => (f os).or (g os)

end Form

open Instr Sequence Form

def hints : List (String × BitVec 32) :=
  [("NOP", 0), ("YIELD", 1), ("WFE", 2), ("WFI", 3), ("SEV", 4), ("SEVL", 5)]

def barriers : List (String × BitVec 32) :=
  [("LOAD_LOAD", 0x9), ("LOAD_STORE", 0x9), ("STORE_STORE", 0xA), ("ANY_ANY", 0xB)]

def exceptions : List (String × BitVec 32) := [("NO_SWITCH_TARGET", 0), ("BREAKPOINT", 1)]

/-- How a call out of simulated code names the kind of its result. -/
def resultCode : Kind → BitVec 32
  | .boolean | .byte | .short | .char | .int | .long | .object => 1
  | .float => 2
  | .double => 3
  | .void | .illegal => 0

def arithmeticForms : List (String × Form) :=
  [("add", addSub .add),
    ("adds", addSub .adds),
    ("sub", addSub .sub),
    ("subs", addSub .subs),
    ("neg", sized2 fun w d s => addSubRegister .sub w d .zero s),
    ("and", (logicalConstant .and).or ((logicalPlain .and).or (logicalShift .and false))),
    ("ands", (logicalConstant .ands).or ((logicalPlain .ands).or (logicalShift .ands false))),
    ("eor", (logicalConstant .eor).or ((logicalPlain .eor).or (logicalShift .eor false))),
    ("or", (logicalConstant .or).or (logicalPlain .or)),
    ("orr", (logicalConstant .or).or (logicalShift .or false)),
    ("logicalImmInstruction", fun
      | [.reg d, .reg s, .long n, .name c, .name o] => do
        let c ← OperandClass.all.lookup c
        let o ← opcodeBits.lookup o
        some (do return [← logicalInstr c o d s n])
      | _ => none),
    ("bic", logicalShift .and true),
    ("bics", logicalShift .ands true),
    ("eon", logicalShift .eor true),
    ("orn", logicalShift .or true),
    ("not", sized2 fun w d s => logicalShifted .or true w d .zero s .lsl 0),
    ("asr", sized3 (twoSource 0x2800)),
    ("lsl", sized3 (twoSource 0x2000)),
    ("lsr", sized3 (twoSource 0x2400)),
    ("ror", sized3 (twoSource 0x2C00)),
    ("shl", Form.shift shiftLeft 0x2000),
    ("lshr", Form.shift (shiftRight .unsigned) 0x2400),
    ("ashr", Form.shift (shiftRight .signed) 0x2800),
    ("cls", sized2 (oneSource 0x1400)),
    ("clz", sized2 (oneSource 0x1000)),
    ("rbit", sized2 (oneSource 0)),
    ("rev", fun
      | [.int size, .reg d, .reg s] =>
        one (oneSource (if size = 64 then 0xC00 else 0x800) (.ofSize size) d s)
      | _ => none),
    ("csel", sized3Test (conditionalSelect 0)),
    ("cmov", sized3Test (conditionalSelect 0)),
    ("csinc", sized3Test (conditionalSelect 0x400)),
    ("csneg", (sized3Test (conditionalSelect 0x40000400)).or fun
      | [.int size, .reg d, .reg s, .test c] =>
        some (do return [← negateIf (.ofSize size) d s c])
      | _ => none),
    ("cset", fun
      | [.reg d, .test c] => some (do return [← setIf d c])
      | _ => none),
    ("madd", sized4 (multiply false)),
    ("msub", sized4 (multiply true)),
    ("mul", sized3 fun w d s t => multiply false w d s t .zero),
    ("smulh", fun
      | [.reg d, .reg s, .reg t] => one (multiplyLong 0b10011011010 d s t 31)
      | [.int size, .reg d, .reg s, .reg t] => some (.ok (multiplyHigh true size d s t))
      | _ => none),
    ("umulh", fun
      | [.reg d, .reg s, .reg t] => one (multiplyLong 0b10011011110 d s t 31)
      | [.int size, .reg d, .reg s, .reg t] => some (.ok (multiplyHigh false size d s t))
      | _ => none),
    ("umaddl", fun
      | [.reg d, .reg s, .reg t, .reg _] => one (multiplyLong 0b10011011101 d s t 31)
      | _ => none),
    ("smaddl", fun
      | [.reg d, .reg s, .reg t, .reg u] =>
        one (multiplyLong 0b10011011001 d s t (u.number.setWidth 6))
      | _ => none),
    ("sdiv", sized3 (twoSource 0xC00)),
    ("udiv", sized3 (twoSource 0x800)),
    ("rem", fun
      | [.int size, .reg d, .reg n, .reg m] => some (.ok (remainder true (.ofSize size) d n m))
      | _ => none),
    ("urem", fun
      | [.int size, .reg d, .reg n, .reg m] => some (.ok (remainder false (.ofSize size) d n m))
      | _ => none),
    ("cmp", fun
      | [.int size, .reg x, .reg y] => one (addSubRegister .subs (.ofSize size) .zero x y)
      | [.int size, .reg x, .int n] => one (compareConstant (.ofSize size) x n)
      | _ => none),
    ("bfm", bitfieldMove .insert),
    ("sbfm", bitfieldMove .signed),
    ("ubfm", bitfieldMove .unsigned),
    ("extr", fun
      | [.int size, .reg d, .reg s, .reg t, .int n] => one (extract (.ofSize size) d s t n)
      | _ => none),
    ("sxt", fun
      | [.int size, .int srcSize, .reg d, .reg s] =>
        some (do return [← signExtend size srcSize d s])
      | _ => none)]

def moveForms : List (String × Form) :=
  [("mov", fun
      | [.int size, .reg d, .reg s] => some (.ok (moveRegister (.ofSize size) d s))
      | [.reg d, .long n] => some (moveConstant d n)
      | [.reg d, .int n] => some (moveConstant d (n.setWidth 64))
      | _ => none),
    ("movx", fun
      | [.reg d, .reg s] => some (.ok (moveRegister .w64 d s))
      | _ => none),
    ("forceMov", fun
      | [.reg d, .long n] => some (.ok (moveChunks d n false))
      | [.reg d, .long n, .flag b] => some (.ok (moveChunks d n b))
      | _ => none),
    ("movz", moveChunk .zeroing),
    ("movn", moveChunk .negated),
    ("movk", moveChunk .keeping),
    ("adr", fun
      | [.reg d, .int n] => one (pcRelative d n)
      | _ => none),
    ("ldr", memory { load := true }),
    ("str", memory {}),
    ("ldrs", fun
      | [.int size, .int srcSize, .reg r, .mem a] =>
        let how : Access := if size = srcSize then { load := true }
          else { signed := true, load := size = 32 }
        some (do return [← access how r a (log2Bytes srcSize)])
      | _ => none),
    ("fldr", memory { load := true, floating := true }),
    ("fstr", memory { floating := true }),
    ("ldxr", loadExclusive 0x081F7C00),
    ("ldar", loadExclusive 0x08DFFC00),
    ("ldaxr", loadExclusive 0x085FFC00),
    ("stxr", storeExclusive 0x08007C00),
    ("stlxr", storeExclusive 0x0800FC00),
    ("stlr", fun
      | [.int size, .reg r, .mem a] =>
        one (exclusiveStore 0x089FFC00 (.general 0) r a (log2Bytes size))
      | _ => none)]

def floatForms : List (String × Form) :=
  [("fmov", fun
      | [.int size, .reg d, .reg s] => some (.ok (floatMove size d s))
      | [.int size, .reg d, .double x] => one (floatMoveConstant size d x)
      | _ => none),
    ("fmovFpu2Cpu", fun
      | [.int size, .reg d, .reg s] => one (floatMoveGeneral 0x00060000 (size = 64) d s)
      | _ => none),
    ("fmovCpu2Fpu", fun
      | [.int size, .reg d, .reg s] => one (floatMoveGeneral 0x00070000 (size = 64) d s)
      | _ => none),
    ("fcvt", fun
      | [.int size, .reg d, .reg s] =>
        one (floatOneSource (if size = 32 then 0x00028000 else 0x00020000) (.ofSize size) d s)
      | _ => none),
    ("fcvtzs", fun
      | [.int size, .int srcSize, .reg d, .reg s] =>
        one (floatConvert 0x00180000 (.ofSize size) (.ofSize srcSize) d s)
      | _ => none),
    ("scvtf", fun
      | [.int size, .int srcSize, .reg d, .reg s] =>
        one (floatConvert 0x00020000 (.ofSize srcSize) (.ofSize size) d s)
      | _ => none),
    ("frintz", sized2 (floatOneSource 0x00058000)),
    ("fabs", sized2 (floatOneSource 0x00008000)),
    ("fneg", sized2 (floatOneSource 0x00010000)),
    ("fsqrt", sized2 (floatOneSource 0x00018000)),
    ("fadd", sized3 (floatTwoSource 0x00002000)),
    ("fsub", sized3 (floatTwoSource 0x00003000)),
    ("fmul", sized3 (floatTwoSource 0)),
    ("fdiv", sized3 (floatTwoSource 0x00001000)),
    ("fmadd", sized4 (floatThreeSource 0)),
    ("fmsub", sized4 (floatThreeSource 0x00008000)),
    ("frem", fun
      | [.int size, .reg d, .reg n, .reg m] => some (.ok (floatRemainder (.ofSize size) d n m))
      | _ => none),
    ("fcmp", sized2 floatCompare),
    ("fcmpZero", fun
      | [.int size, .reg s] => one (floatCompareZero (.ofSize size) s)
      | _ => none),
    ("fccmp", fun
      | [.int size, .reg s, .reg t, .int n, .test c] =>
        one (floatConditionalCompare (.ofSize size) s t n c)
      | _ => none),
    ("fcsel", sized3Test floatConditionalSelect),
    ("fcmov", sized3Test floatConditionalSelect)]

def controlForms : List (String × Form) :=
  [("bl", oneInt (branch true)),
    ("blr", oneReg (branchRegister 0x003F0000)),
    ("br", oneReg (branchRegister 0x001F0000)),
    ("ret", oneReg (branchRegister 0x005F0000)),
    ("jmp", (fixed (branch false 0)).or (oneReg (branchRegister 0x001F0000))),
    ("branchConditionally", fun
      | [.test c] => one (branchIf c 0)
      | _ => none),
    ("hlt", (oneInt (exception 0x00400000)).or (namedNumber (exception 0x00400000) exceptions)),
    ("brk", (oneInt (exception 0x00200000)).or (namedNumber (exception 0x00200000) exceptions)),
    ("hint", namedNumber hint hints),
    ("nop", fixed nop),
    ("pause", fun
      | [] => some (.error .unimplemented)
      | _ => none),
    ("ensureUniquePC", fixed nop),
    ("clrex", fixed 0xD5033F5F),
    ("dmb", namedNumber Instr.barrier barriers),
    ("blrNative", fun
      | [.reg r, .int g, .int f, .name k] =>
        (Kind.ofName? k).bind fun k => one (nativeCall r g f (resultCode k))
      | _ => none)]

def forms : List (String × Form) := arithmeticForms ++ moveForms ++ floatForms ++ controlForms

def sequence? (mnemonic : String) (os : List Operand) : Option (Result (List Instr)) :=
  (forms.lookup mnemonic).bind (· os)

open Assembler

def action? (mnemonic : String) (os : List Operand) : Option (Assembler Unit) :=
  match mnemonic, os with
  | "b", [.test c, .int n] => some (emitInstr (branchIf c n))
  | "b", [.test c, .int n, .int p] => some (placeInstr p.toInt (branchIf c n))
  | "b", [.int n] => some (emitInstr (branch false n))
  | "b", [.int n, .int p] => some (placeInstr p.toInt (branch false n))
  | "cbnz", [.int s, .reg r, .int n] => some (emitInstr ((Branch.onRegister true s r).instr n))
  | "cbnz", [.int s, .reg r, .int n, .int p] =>
    some (placeInstr p.toInt ((Branch.onRegister true s r).instr n))
  | "cbz", [.int s, .reg r, .int n] => some (emitInstr ((Branch.onRegister false s r).instr n))
  | "cbz", [.int s, .reg r, .int n, .int p] =>
    some (placeInstr p.toInt ((Branch.onRegister false s r).instr n))
  | "cbnz", [.int s, .reg r, .label l] => some ((Branch.onRegister true s r).toLabel l)
  | "cbz", [.int s, .reg r, .label l] => some ((Branch.onRegister false s r).toLabel l)
  | "branchConditionally", [.test c, .label l] => some ((Branch.onFlag c).toLabel l)
  | "jmp", [.label l] => some (Branch.always.toLabel l)
  | "bind", [.label l] => some (bindLabel l)
  | "align", [.int n] => some (align n.toInt)
  | "loadAddress", [.reg d, .mem a, .int size] =>
    some ((loadAddress d a size).forM fun step => do emitInstrs (← step))
  | _, _ => none

def addressRequest? : List Operand → Option AddressRequest
  | [.reg b, .long d, .reg i, .flag e, .int s, .reg t, .flag o] => some ⟨b, d, i, e, s, t, o⟩
  | [.reg b, .long d, .reg t, .int s, .flag o] => some ⟨b, d, .zero, false, s, t, o⟩
  | [.reg b, .long d, .int s] => some { base := b, displacement := d, size := s }
  | [.reg b, .int d] => some { base := b, displacement := d.signExtend 64, size := 0 }
  | _ => none

/-- What questions about constants tell. -/
def reply? : String → List Operand → Option (Reply Address)
  | "isAimm", [.int n] => some (.truth (isArithmetic n))
  | "isArithmeticImmediate", [.long n] => some (.truth (isArithmeticConstant n))
  | "isComparisonImmediate", [.long n] => some (.truth (isArithmeticConstant n))
  | "isMovableImmediate", [.long n] => some (.truth (isMovableConstant n))
  | "isLogicalImmediate", [.long n] => some (.truth (isLogical n))
  | "isLogicalImmediate", [.int n] => some (.truth (isNarrowLogical n))
  | "isDoubleImmediate", [.double x] => some (.truth (isDoubleConstant x.bits))
  | "isBranchImmediateOffset", [.long n] => some (.truth (isBranchDistance n))
  | "nrInstructionsToMoveImmediate", [.long n] => some (.number (moveCost n))
  | "getPlaceholder", [] => some (.address .placeholder)
  | _, _ => none

def prepare (q : AddressRequest) : Assembler (Reply Address) := do
  let (code, a) ← (q.realize : Result _)
  emitInstrs code
  return .address a

def instruction? (mnemonic : String) (os : List Operand) : Option (Assembler (Reply Address)) :=
  match sequence? mnemonic os, action? mnemonic os with
  | some (.ok code), _ => some (quiet (emitInstrs code))
  | some (.error f), _ => some (throw f)
  | none, some step => some (quiet step)
  | none, none =>
    if mnemonic = "makeAddress" then (addressRequest? os).map prepare
    else (reply? mnemonic os).map pure

end CompilerKit.Aarch64
