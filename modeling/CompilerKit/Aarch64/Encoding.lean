import CompilerKit.Aarch64.Address
import CompilerKit.Aarch64.LogicalImmediate
import CompilerKit.FloatingPoint.Double

/-! # Instruction words

Every instruction is one 32-bit word. The functions here are the instruction classes of the
architecture, each with the opcode bits that tell its members apart; numbers go into their fields as
they are.
-/
namespace CompilerKit.Aarch64

open FloatingPoint (Double)

abbrev Instr := BitVec 32

/-- The width of a general register operand. -/
inductive Width where
  | w32 | w64
  deriving DecidableEq

namespace Width

/-- Every size but 32 counts as 64. -/
def ofSize (size : BitVec 32) : Width := if size = 32 then w32 else w64

def bits : Width → Nat
  | w32 => 32
  | w64 => 64

def general : Width → Instr
  | w32 => 0
  | w64 => 0x80000000

/-- The bit that selects the precision of floating point registers. -/
def floating : Width → Instr
  | w32 => 0
  | w64 => 0x00400000

end Width

namespace Instr

/-! Register fields. -/

def rd (r : Register) : Instr := r.number.setWidth 32

def rn (r : Register) : Instr := rd r <<< 5

def rm (r : Register) : Instr := rd r <<< 16

def ra (r : Register) : Instr := rd r <<< 10

/-- Bits 10 and up hold most immediates. -/
def imm (n : BitVec 32) : Instr := n <<< 10

def cond (c : FlagTest) : Instr := c.encoding.setWidth 32 <<< 12

/-! Branches. -/

def branchDistance (distance : BitVec 32) : Instr :=
  ((distance &&& Numeric.lowBits 32 21) >>> 2) <<< 5

def branchIf (c : FlagTest) (distance : BitVec 32) : Instr :=
  0x54000000 ||| branchDistance distance ||| c.encoding.setWidth 32

def compareBranch (nonZero : Bool) (w : Width) (r : Register) (distance : BitVec 32) : Instr :=
  w.general ||| (if nonZero then 0x35000000 else 0x34000000) ||| branchDistance distance ||| rd r

/-- Branches always, and keeps the return address if `link`. -/
def branch (link : Bool) (distance : BitVec 32) : Instr :=
  (if link then 0x94000000 else 0x14000000) ||| (distance &&& Numeric.lowBits 32 28) >>> 2

def branchRegister (opcode : Instr) (r : Register) : Instr := opcode ||| 0xD6000000 ||| rn r

/-! Memory. -/

/-- How an access moves data: the opcode bit of a sign extending load, the bit of a load (of a load
to 32 bits if it sign extends), and the bit of a floating point register. -/
structure Access where
  signed : Bool := false
  load : Bool := false
  floating : Bool := false
  deriving DecidableEq

def Access.bits (a : Access) : Instr :=
  (if a.signed then 0x00800000 else 0) ||| (if a.load then 0x00400000 else 0) |||
    if a.floating then 0x04000000 else 0

def access (how : Access) (r : Register) (a : Address) (log2Size : Nat) : Result Instr := do
  let size : Instr := BitVec.ofNat 32 log2Size <<< 30
  let op := how.bits ||| size ||| rd r
  match a.mode with
  | .immediateScaled => return op ||| 0x39000000 ||| (← a.fieldImmediate) <<< 10 ||| rn a.base
  | .immediateUnscaled => return op ||| 0x38000000 ||| (← a.fieldImmediate) <<< 12 ||| rn a.base
  | .baseOnly => return op ||| 0x39000000 ||| rn a.base
  | .registerOffset => registerOffset op (some .uxtx)
  | .extendedRegisterOffset => registerOffset op a.extension
  | .pcLiteral =>
    let size : Instr := BitVec.ofInt 32 (log2Size - 2 : Int) <<< 30
    let float : Instr := if how.floating then 0x04000000 else 0
    return size ||| float ||| 0x18000000 ||| rd r ||| (← a.fieldImmediate) <<< 5
  | .postIndexed => return op ||| 0x38000400 ||| rn a.base ||| (← a.fieldImmediate) <<< 12
  | .preIndexed => return op ||| 0x38000C00 ||| rn a.base ||| (← a.fieldImmediate) <<< 12
  | .unknown => throw .unreachable
where
  /-- An offset in a register, scaled only if that changes it. -/
  registerOffset (op : Instr) (extension : Option Extension) : Result Instr :=
    match extension with
    | none => .error .absent
    | some e =>
      let scale : Instr := if a.scaled && log2Size ≠ 0 then 1 <<< 12 else 0
      .ok (op ||| 0x38200800 ||| rm a.offset ||| e.encoding.setWidth 32 <<< 13 ||| scale |||
        rn a.base)

/-- Exclusive, acquiring and releasing loads take their address from a base register. -/
def exclusiveLoad (opcode : Instr) (r : Register) (a : Address) (log2Size : Nat) : Instr :=
  BitVec.ofNat 32 log2Size <<< 30 ||| opcode ||| 1 <<< 22 ||| rd r ||| rn a.base

def exclusiveStore (opcode : Instr) (status r : Register) (a : Address) (log2Size : Nat) : Instr :=
  BitVec.ofNat 32 log2Size <<< 30 ||| opcode ||| rm status ||| rd r ||| rn a.base

def pcRelative (dst : Register) (distance : BitVec 32) : Instr :=
  let n := distance &&& Numeric.lowBits 32 21
  0x10000000 ||| rd dst ||| (n >>> 2) <<< 5 ||| (n &&& 3) <<< 29

/-! Arithmetic with immediates. -/

/-- Addition and subtraction, with or without setting the flags. -/
inductive AddSub where
  | add | adds | sub | subs
  deriving DecidableEq

def AddSub.bits : AddSub → Instr
  | .add => 0
  | .adds => 0x20000000
  | .sub => 0x40000000
  | .subs => 0x60000000

/-- Whether an immediate has twelve bits, or twelve bits above twelve zeros. -/
def isArithmetic (n : BitVec 32) : Bool :=
  Numeric.fitsUnsigned 12 n || (Numeric.fitsUnsigned 12 (n >>> 12) && n &&& 0xFFF = 0)

def arithmeticField (n : BitVec 32) : Instr :=
  if Numeric.fitsUnsigned 12 n then n <<< 10 else ((n >>> 12) <<< 10) ||| 1 <<< 22

def addSubImmediate (op : AddSub) (w : Width) (dst src : Register) (n : BitVec 32) : Instr :=
  w.general ||| op.bits ||| 0x11000000 ||| arithmeticField n ||| rd dst ||| rn src

inductive Logical where
  | and | or | eor | ands
  deriving DecidableEq

def Logical.bits : Logical → Instr
  | .and => 0
  | .or => 0x20000000
  | .eor => 0x40000000
  | .ands => 0x60000000

def logicalField (wide : Bool) (value : Word) : Result Instr :=
  match LogicalImmediate.find? wide value with
  | none => .error .outOfRange
  | some p => .ok p.fields

/-- For 32-bit instructions only the low half of the value counts. -/
def logicalImmediate (op : Logical) (w : Width) (dst src : Register) (value : Word) :
    Result Instr := do
  let wide := w = .w64
  let value := if wide then value else value &&& Numeric.lowBits 64 32
  return w.general ||| op.bits ||| 0x12000000 ||| (← logicalField wide value) ||| rd dst ||| rn src

/-- Moves sixteen bits: negated, with zeros around them, or keeping the other bits. -/
inductive MoveWide where
  | negated | zeroing | keeping
  deriving DecidableEq

def MoveWide.bits : MoveWide → Instr
  | .negated => 0
  | .zeroing => 0x40000000
  | .keeping => 0x60000000

def moveWide (op : MoveWide) (w : Width) (dst : Register) (chunk shift : BitVec 32) : Instr :=
  w.general ||| op.bits ||| 0x12800000 ||| rd dst ||| chunk <<< 5 |||
    shift.sshiftRight 4 <<< 21

/-- Moves of bit fields: inserting, sign extending, zero extending. -/
inductive Bitfield where
  | insert | signed | unsigned
  deriving DecidableEq

def Bitfield.bits : Bitfield → Instr
  | .insert => 0x20000000
  | .signed => 0
  | .unsigned => 0x40000000

/-- The bit that 64-bit bit field instructions repeat the width in. -/
def widthAgain (w : Width) : Instr := if w = .w64 then 1 <<< 22 else 0

def bitfield (op : Bitfield) (w : Width) (dst src : Register) (r s : BitVec 32) : Instr :=
  w.general ||| op.bits ||| 0x13000000 ||| widthAgain w ||| r <<< 16 ||| s <<< 10 ||| rd dst |||
    rn src

def extract (w : Width) (dst src1 src2 : Register) (lsb : BitVec 32) : Instr :=
  w.general ||| 0x13800000 ||| widthAgain w ||| imm lsb ||| rd dst ||| rn src1 ||| rm src2

/-! Arithmetic with registers. -/

def addSubShifted (op : AddSub) (w : Width) (dst src1 src2 : Register) (kind : ShiftKind)
    (amount : BitVec 32) : Instr :=
  w.general ||| op.bits ||| 0x0B000000 ||| imm amount ||| kind.encoding.setWidth 32 <<< 22 |||
    rd dst ||| rn src1 ||| rm src2

def addSubExtended (op : AddSub) (w : Width) (dst src1 src2 : Register) (e : Extension)
    (amount : BitVec 32) : Instr :=
  w.general ||| op.bits ||| 0x0B200000 ||| imm amount ||| e.encoding.setWidth 32 <<< 13 |||
    rd dst ||| rn src1 ||| rm src2

/-- A logical operation; `inverted` complements the second operand. -/
def logicalShifted (op : Logical) (inverted : Bool) (w : Width) (dst src1 src2 : Register)
    (kind : ShiftKind) (amount : BitVec 32) : Instr :=
  w.general ||| op.bits ||| (if inverted then 0x00200000 else 0) ||| 0x0A000000 ||| imm amount |||
    kind.encoding.setWidth 32 <<< 22 ||| rd dst ||| rn src1 ||| rm src2

def oneSource (opcode : Instr) (w : Width) (dst src : Register) : Instr :=
  w.general ||| opcode ||| 0x5AC00000 ||| rd dst ||| rn src

def twoSource (opcode : Instr) (w : Width) (dst src1 src2 : Register) : Instr :=
  w.general ||| opcode ||| 0x1AC00000 ||| rd dst ||| rn src1 ||| rm src2

def multiply (subtract : Bool) (w : Width) (dst src1 src2 src3 : Register) : Instr :=
  w.general ||| (if subtract then 0x00008000 else 0) ||| 0x1B000000 ||| rd dst ||| rn src1 |||
    rm src2 ||| ra src3

def multiplyLong (opcode : BitVec 11) (dst src1 src2 : Register) (high : BitVec 6) : Instr :=
  opcode.setWidth 32 <<< 21 ||| rd dst ||| rn src1 ||| rm src2 ||| high.setWidth 32 <<< 10

def conditionalSelect (opcode : Instr) (w : Width) (dst src1 src2 : Register) (c : FlagTest) :
    Instr :=
  w.general ||| opcode ||| 0x1A800000 ||| rd dst ||| rn src1 ||| rm src2 ||| cond c

/-! Floating point. -/

def floatOneSource (opcode : Instr) (w : Width) (dst src : Register) : Instr :=
  w.floating ||| opcode ||| 0x1E204000 ||| rd dst ||| rn src

def floatTwoSource (opcode : Instr) (w : Width) (dst src1 src2 : Register) : Instr :=
  w.floating ||| opcode ||| 0x1E200800 ||| rd dst ||| rn src1 ||| rm src2

def floatThreeSource (opcode : Instr) (w : Width) (dst src1 src2 src3 : Register) : Instr :=
  w.floating ||| opcode ||| 0x1F000000 ||| rd dst ||| rn src1 ||| rm src2 ||| ra src3

def floatMoveGeneral (opcode : Instr) (wide : Bool) (dst src : Register) : Instr :=
  (if wide then Width.w64.floating ||| Width.w64.general else 0) ||| opcode ||| 0x1E200000 |||
    rd dst ||| rn src

def floatConvert (opcode : Instr) (general floating : Width) (dst src : Register) : Instr :=
  general.general ||| floating.floating ||| opcode ||| 0x1E200000 ||| rd dst ||| rn src

/-- Whether a double can be an immediate: a sign, three bits of exponent and four of fraction. -/
def isDoubleImmediate (bits : Word) : Bool :=
  let exponent := bits.sshiftRight 54 &&& Numeric.lowBits 64 7
  bits &&& Numeric.lowBits 64 48 = 0 &&
    (exponent = 0 || exponent = Numeric.lowBits 64 7) &&
    (bits ^^^ bits <<< 1) &&& 1 <<< 62 ≠ 0

def doubleField (bits : Word) : Instr :=
  let a : Instr := (bits >>> 63).setWidth 32 <<< 7
  let b : Instr := ((bits >>> 61) &&& 1).setWidth 32 <<< 6
  (a ||| b ||| (bits >>> 48).setWidth 32 &&& 0x3F) <<< 13

/-- Whether a float can be an immediate, in the same form as a double. -/
def isFloatImmediate (bits : BitVec 32) : Bool :=
  let exponent := bits.sshiftRight 25 &&& Numeric.lowBits 32 5
  bits &&& Numeric.lowBits 32 19 = 0 &&
    (exponent = 0 || exponent = Numeric.lowBits 32 5) &&
    (bits ^^^ bits <<< 1) &&& 1 <<< 30 ≠ 0

def floatField (bits : BitVec 32) : Instr :=
  let a : Instr := (bits >>> 31) <<< 7
  let b : Instr := ((bits >>> 29) &&& 1) <<< 6
  (a ||| b ||| (bits >>> 19) &&& 0x3F) <<< 13

def floatMoveImmediate (w : Width) (dst : Register) (x : Double) : Instr :=
  let field := match w with
    | .w64 => doubleField x.bits
    | .w32 => floatField (BitVec.ofNat 32 x.toSingle)
  w.floating ||| 0x1E201000 ||| field ||| rd dst

def floatCompare (w : Width) (src1 src2 : Register) : Instr :=
  w.floating ||| 0x1E202000 ||| rn src1 ||| rm src2

def floatCompareZero (w : Width) (src : Register) : Instr :=
  w.floating ||| 0x1E202008 ||| rn src

def floatConditionalCompare (w : Width) (src1 src2 : Register) (flags : BitVec 32) (c : FlagTest) :
    Instr :=
  w.floating ||| 0x1E200400 ||| flags ||| cond c ||| rn src1 ||| rm src2

def floatConditionalSelect (w : Width) (dst src1 src2 : Register) (c : FlagTest) : Instr :=
  w.floating ||| 0x1E200C00 ||| rd dst ||| rn src1 ||| rm src2 ||| cond c

/-! System. -/

def exception (opcode : Instr) (n : BitVec 32) : Instr := opcode ||| 0xD4000000 ||| n <<< 5

def hint (n : BitVec 32) : Instr := 0xD503201F ||| n <<< 5

def nop : Instr := hint 0

def barrier (kind : BitVec 32) : Instr := 0xD50330BF ||| kind <<< 8

/-- A call out of simulated code: the kind of the result, and how many arguments of each kind. -/
def nativeCall (r : Register) (generalArgs floatArgs result : BitVec 32) : Instr :=
  0xC0000000 ||| rd r ||| result <<< 5 ||| floatArgs <<< 7 ||| generalArgs <<< 11

end Instr

end CompilerKit.Aarch64
