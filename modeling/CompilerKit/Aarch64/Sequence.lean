import CompilerKit.Aarch64.Encoding

/-! # Instruction sequences

Operations that take one or more instructions: moves of constants and registers, arithmetic with
constants, shifts, remainders. `size` is the operand size in bits, as a number.
-/
namespace CompilerKit.Aarch64.Sequence

open FloatingPoint (Double)
open Instr

abbrev Instrs := List Instr

/-- Adds or subtracts a constant; a negative one swaps the two. Nothing is done to leave a register
as it is. Only additions set the flags. -/
def addConstant (up flags : Bool) (w : Width) (dst src : Register) (n : BitVec 32) :
    Result Instrs :=
  if n = BitVec.intMin 32 then .error .endless
  else
    let (up, n) := if n.slt 0 then (!up, -n) else (up, n)
    let op : AddSub := if up then if flags then .adds else .add else .sub
    if dst = src && n = 0 then .ok [] else .ok [addSubImmediate op w dst src n]

/-- Moves a register; the stack pointer can only be moved by an addition. -/
def moveRegister (w : Width) (dst src : Register) : Instrs :=
  if dst = src then []
  else if dst = .stackPointer || src = .stackPointer then [addSubImmediate .add w dst src 0]
  else [logicalShifted .or false w dst src .zero .lsl 0]

/-- The sixteen bits of a constant from bit `16 * i` on. -/
def chunk (n : Word) (i : Nat) : BitVec 32 :=
  (n.sshiftRight (16 * i)).setWidth 32 &&& Numeric.lowBits 32 16

/-- Moves the low three chunks of a constant one by one; `skip` leaves out those that are zero. -/
def moveChunks (dst : Register) (n : Word) (skip : Bool) : Instrs :=
  let wanted := (List.range 3).filter fun i => !(skip && chunk n i = 0)
  let move (op : MoveWide) (i : Nat) := moveWide op .w64 dst (chunk n i) (BitVec.ofNat 32 (16 * i))
  match wanted with
  | [] => []
  | i :: rest => move .zeroing i :: rest.map (move .keeping)

/-- Whether a constant is the sign extension of a negative half that logical instructions can
hold. -/
def isExtendedHalf (n : Word) : Bool :=
  n.sshiftRight 32 = BitVec.allOnes 64 && (n.setWidth 32 : BitVec 32).slt 0 &&
    LogicalImmediate.representableNarrow (n.setWidth 32) ≠ .no

def isLogical (n : Word) : Bool := LogicalImmediate.representable true n ≠ .no

/-- Moves a constant that is no sign extended half. -/
def moveUnextended (dst : Register) (n : Word) : Result Instrs :=
  if n = 0 then .ok (moveRegister .w64 dst .zero)
  else if isLogical n then return [← logicalImmediate .or .w64 dst .zero n]
  else .ok (moveChunks dst n true)

def moveHalf (dst : Register) (n : BitVec 32) : Result Instrs := moveUnextended dst (n.setWidth 64)

/-- Moves a constant: from the zero register, as a logical immediate, as a sign extended half, or in
chunks. -/
def moveConstant (dst : Register) (n : Word) : Result Instrs :=
  if n ≠ 0 && !isLogical n && isExtendedHalf n then do
    return (← moveHalf dst (n.setWidth 32)) ++ [bitfield .signed .w64 dst dst 0 31]
  else moveUnextended dst n

/-- How many instructions a move of a constant is counted for. -/
def moveCost (n : Word) : Nat :=
  if n = 0 || isLogical n then 1
  else if isExtendedHalf n then 2
  else (List.range 4).countP fun i => chunk n i ≠ 0

/-- Whether a constant can be added or subtracted in one instruction. -/
def isArithmeticConstant (n : Word) : Bool :=
  let n := n.abs
  n = (n.setWidth 32 : BitVec 32).signExtend 64 && isArithmetic (n.setWidth 32)

/-- Whether one move of sixteen bits can give a constant. -/
def isMovableConstant (n : Word) : Bool :=
  let start : Nat := if n = 0 then 64 else (List.range 64).findIdx fun i => n.getLsbD i
  let length : Int := Numeric.bitLength n - start
  let tolerance := 16 - length
  length ≤ 16 && ((start % 16 : Nat) ≤ tolerance || ((16 - start % 16) % 16 : Nat) ≤ tolerance)

/-- Whether a half is a logical immediate in instructions on halves. -/
def isNarrowLogical (n : BitVec 32) : Bool := LogicalImmediate.representableNarrow n = .yes

/-- Whether the bits of a double can be moved as an immediate; zero always can. -/
def isDoubleConstant (bits : Word) : Bool := bits = 0 || isDoubleImmediate bits

/-- Whether the bits of a single precision number can be moved as an immediate. -/
def isFloatConstant (bits : BitVec 32) : Bool := bits = 0 || isFloatImmediate bits

def isBranchDistance (n : Word) : Bool := Numeric.fitsSigned 28 n

def clampShift (size : BitVec 32) (amount : Word) : BitVec 32 :=
  (amount &&& (size - 1).signExtend 64).setWidth 32

def shiftLeft (size : BitVec 32) (dst src : Register) (amount : Word) : Instr :=
  let n := clampShift size amount
  bitfield .unsigned (.ofSize size) dst src ((size - n) &&& (size - 1)) (size - 1 - n)

def shiftRight (op : Bitfield) (size : BitVec 32) (dst src : Register) (amount : Word) : Instr :=
  bitfield op (.ofSize size) dst src (clampShift size amount) (size - 1)

def log2Bytes (size : BitVec 32) : Nat := Numeric.log2Ceil (size.toInt.tdiv 8)

def signExtend (size srcSize : BitVec 32) (dst src : Register) : Result Instr :=
  match [7, 15, 31][log2Bytes srcSize]? with
  | some top => .ok (bitfield .signed (.ofSize size) dst src 0 top)
  | none => .error .outOfRange

/-- An addition or subtraction that sets the flags; its operand takes the extension that changes
nothing. -/
def addSubFlags (op : AddSub) (size : BitVec 32) (dst src1 src2 : Register) : Result Instr :=
  if size = 64 then .ok (addSubExtended op .w64 dst src1 src2 .uxtx 0)
  else if size = 32 then .ok (addSubExtended op .w32 dst src1 src2 .uxtw 0)
  else .error (.unreachableBecause "No-op ")

def addSubRegister (op : AddSub) (w : Width) (dst src1 src2 : Register) : Instr :=
  addSubShifted op w dst src1 src2 .lsl 0

def logicalRegister (op : Logical) (w : Width) (dst src1 src2 : Register) : Instr :=
  logicalShifted op false w dst src1 src2 .lsl 0

/-- The high half of a product; for 32 bits the whole product is shifted down. -/
def multiplyHigh (signed : Bool) (size : BitVec 32) (dst src1 src2 : Register) : Instrs :=
  if size = 64 then [multiplyLong (if signed then 0b10011011010 else 0b10011011110) dst src1 src2 31]
  else
    [multiplyLong (if signed then 0b10011011001 else 0b10011011101) dst src1 src2 31,
      shiftRight .unsigned 64 dst dst 32]

def remainder (signed : Bool) (w : Width) (dst n d : Register) : Instrs :=
  [twoSource (if signed then 0x00000C00 else 0x00000800) w dst n d, multiply true w dst dst d n]

def floatRemainder (w : Width) (dst n d : Register) : Instrs :=
  [floatTwoSource 0x00001000 w dst n d, floatOneSource 0x00058000 w dst dst,
    floatThreeSource 0x00008000 w dst dst d n]

def floatMove (size : BitVec 32) (dst src : Register) : Instrs :=
  if dst = src then []
  else if !dst.isVector then [floatMoveGeneral 0x00060000 (size = 64) dst src]
  else if !src.isVector then [floatMoveGeneral 0x00070000 (size = 64) dst src]
  else [floatOneSource 0 (.ofSize size) dst src]

/-- Zero comes from the zero register. -/
def floatMoveConstant (size : BitVec 32) (dst : Register) (x : Double) : Instr :=
  if x.beq .zero then floatMoveGeneral 0x00070000 (size = 64) dst .zero
  else floatMoveImmediate (.ofSize size) dst x

def compareConstant (w : Width) (x : Register) (n : BitVec 32) : Instr :=
  if n.slt 0 then addSubImmediate .adds w .zero x (-n) else addSubImmediate .subs w .zero x n

def setIf (dst : Register) (c : FlagTest) : Result Instr := do
  return conditionalSelect 0x00000400 .w32 dst .zero .zero (← c.negate)

def negateIf (w : Width) (dst src : Register) (c : FlagTest) : Result Instr := do
  return conditionalSelect 0x40000400 w dst src src (← c.negate)

end CompilerKit.Aarch64.Sequence
