import CompilerKit.Assembly.Code
import CompilerKit.Bytecode.Opcode

/-! # Streams of instructions

A cursor stands on an instruction and knows where the next one begins. `wide` in front of an
instruction widens its operands and counts as part of it.
-/
namespace CompilerKit.Bytecode

/-! Big endian numbers in a byte sequence. -/

/-- The number as a signed 32-bit number. -/
def wrap (n : Int) : Int := (BitVec.ofInt 32 n).toInt

def byteAt (code : Code) (i : Int) : Result Byte :=
  match i with
  | .ofNat n => match code[n]? with
    | some b => .ok b
    | none => .error .outOfRange
  | .negSucc _ => .error .outOfRange

def bytesAt (code : Code) (i : Int) : Nat → Result Code
  | 0 => .ok []
  | n + 1 => do
    let b ← byteAt code i
    return b :: (← bytesAt code (i + 1) n)

/-- The number that bytes hold, the highest first. -/
def unsignedOf (bytes : Code) : Nat := bytes.foldl (fun n b => 256 * n + b.toNat) 0

/-- The same number in two's complement. -/
def signedOf (bytes : Code) : Int := (BitVec.ofNat (8 * bytes.length) (unsignedOf bytes)).toInt

def unsignedAt (code : Code) (i : Int) (n : Nat) : Result Int := do
  return unsignedOf (← bytesAt code i n)

def signedAt (code : Code) (i : Int) (n : Nat) : Result Int := do
  return signedOf (← bytesAt code i n)

/-! Switches. -/

/-- The tables of the two switch instructions start at the next multiple of four. -/
structure Switch where
  code : Code
  bci : Int
  isTable : Bool

namespace Switch

def aligned (s : Switch) : Int := (s.bci + 4) / 4 * 4

def word (s : Switch) (distance : Int) : Result Int := signedAt s.code (s.aligned + distance) 4

def defaultOffset (s : Switch) : Result Int := s.word 0

def defaultTarget (s : Switch) : Result Int := return wrap (s.bci + (← s.defaultOffset))

/-- The least and the greatest key of a table switch. -/
def range (s : Switch) : Result (Int × Int) := return (← s.word 4, ← s.word 8)

def numberOfCases (s : Switch) : Result Int :=
  if s.isTable then do
    let (low, high) ← s.range
    return wrap (high - low + 1)
  else s.word 4

def keyAt (s : Switch) (i : Nat) : Result Int :=
  if s.isTable then return wrap ((← s.range).1 + i) else s.word (8 + 8 * i)

def offsetAt (s : Switch) (i : Nat) : Result Int :=
  if s.isTable then s.word (12 + 4 * i) else s.word (12 + 8 * i)

def targetAt (s : Switch) (i : Nat) : Result Int := return wrap (s.bci + (← s.offsetAt i))

/-- The key range of a table switch; a lookup switch has none. -/
def range? (s : Switch) : Result (Option (Int × Int)) :=
  if s.isTable then return some (← s.range) else return none

/-- Key, offset and target of the first cases, up to one that cannot be read. -/
def cases (s : Switch) (limit : Nat) : Result (List (Result (List Int))) := do
  let case (i : Nat) : Result (List Int) := do return [← s.keyAt i, ← s.offsetAt i, ← s.targetAt i]
  let all := (List.range (min (← s.numberOfCases).toNat limit)).map case
  let (good, rest) := all.span (·.isOk)
  return good ++ rest.take 1

/-- The length of the whole instruction. -/
def size (s : Switch) : Result Int := do
  let cases ← s.numberOfCases
  return wrap (s.aligned + (if s.isTable then 12 + 4 * cases else 8 + 8 * cases) - s.bci)

end Switch

structure Cursor where
  code : Code
  bci : Int
  /-- The instruction as it is written, `wide` included. -/
  opcode : Nat
  next : Int

namespace Cursor

/-- The length of the instruction at a position. -/
def sizeAt (code : Code) (bci : Int) (opcode : Nat) : Result Int :=
  match lengthOf opcode with
  | 0 =>
    if opcode = tableSwitch then Switch.size ⟨code, bci, true⟩
    else if opcode = lookupSwitch then Switch.size ⟨code, bci, false⟩
    else if opcode = wide then do
      let widened ← unsignedAt code (bci + 1) 1
      return if widened = iinc then 6 else 4
    else .error (.unknownLength opcode)
  | n => .ok n

/-- Goes to a position. If the length of the instruction there cannot be told, the cursor stands on it
all the same and keeps its old end. -/
def seek (c : Cursor) (bci : Int) : Cursor × Result Unit :=
  if bci < c.code.length then
    match unsignedAt c.code bci 1 with
    | .error f => ({ c with bci }, .error f)
    | .ok opcode =>
      let opcode := opcode.toNat
      match sizeAt c.code bci opcode with
      | .ok size => ({ c with bci, opcode, next := wrap (bci + size) }, .ok ())
      | .error f => ({ c with bci, opcode }, .error f)
  else ({ c with bci, opcode := endOfStream, next := bci }, .ok ())

/-- Goes to the next instruction. -/
def advance (c : Cursor) : Cursor × Result Unit := c.seek c.next

def start (code : Code) : Result Cursor :=
  match seek ⟨code, 0, 0, 0⟩ 0 with
  | (c, .ok ()) => .ok c
  | (_, .error f) => .error f

/-- The instruction, looking through `wide`. -/
def current (c : Cursor) : Result Int :=
  if c.opcode = wide then unsignedAt c.code (c.bci + 1) 1 else .ok c.opcode

def localIndex (c : Cursor) : Result Int :=
  if c.opcode = wide then unsignedAt c.code (c.bci + 2) 2 else unsignedAt c.code (c.bci + 1) 1

def increment (c : Cursor) : Result Int :=
  if c.opcode = wide then signedAt c.code (c.bci + 4) 2 else signedAt c.code (c.bci + 2) 1

def branchTarget (c : Cursor) : Result Int := do
  let size := if c.opcode = gotoWide ∨ c.opcode = jsrWide then 4 else 2
  return wrap (c.bci + (← signedAt c.code (c.bci + 1) size))

def poolIndex (c : Cursor) : Result Int :=
  unsignedAt c.code (c.bci + 1) (if c.opcode = ldc then 1 else 2)

def word (c : Cursor) : Result Int := signedAt c.code (c.bci + 1) 4

def byte (c : Cursor) : Result Int := signedAt c.code (c.bci + 1) 1

/-- The byte behind the opcode, without sign. -/
def elementType (c : Cursor) : Result Int := unsignedAt c.code (c.bci + 1) 1

def short (c : Cursor) : Result Int := signedAt c.code (c.bci + 1) 2

end Cursor

/-- The operand of an instruction. -/
inductive Operand where
  | number (n : Int)
  | pair (n m : Int)
  | switch (s : Switch)

def Cursor.operand? (c : Cursor) (opcode : Int) : Option (Result Operand) :=
  let number (r : Result Int) : Option (Result Operand) := some (Operand.number <$> r)
  if hasTrait opcode .branch then number c.branchTarget
  else if opcode = tableSwitch then some (.ok (.switch ⟨c.code, c.bci, true⟩))
  else if opcode = lookupSwitch then some (.ok (.switch ⟨c.code, c.bci, false⟩))
  else if opcode = iinc then some (do return .pair (← c.localIndex) (← c.increment))
  else match nameOf opcode with
    | "bipush" => number c.byte
    | "newarray" => number c.elementType
    | "sipush" => number c.short
    | "iload" | "lload" | "fload" | "dload" | "aload" | "istore" | "lstore" | "fstore" | "dstore"
    | "astore" | "ret" => number c.localIndex
    | "invokedynamic" => number c.word
    | "ldc" | "ldc_w" | "ldc2_w" | "getstatic" | "putstatic" | "getfield" | "putfield"
    | "invokevirtual" | "invokespecial" | "invokestatic" | "invokeinterface" | "new" | "anewarray"
    | "checkcast" | "instanceof" | "multianewarray" => number c.poolIndex
    | _ => none

/-- One instruction of a stream. -/
structure Visit where
  bci : Int
  opcode : Int
  next : Int
  operand? : Option (Result Operand)

def Visit.name (v : Visit) : String := nameOf v.opcode

/-- The instructions of a stream from a cursor on, then what ended it: the fault of a step that
failed, and the cursor at last. The positions only grow, so their number is bounded by the
length. -/
def Cursor.visits (fuel : Nat) (c : Cursor) : Result (List Visit × Option Fault × Cursor) :=
  match fuel with
  | 0 => .ok ([], none, c)
  | fuel + 1 =>
    if c.opcode = endOfStream then .ok ([], none, c)
    else do
      let opcode ← c.current
      let visit : Visit := ⟨c.bci, opcode, c.next, c.operand? opcode⟩
      if c.next ≤ c.bci then return ([visit], none, c)
      match c.advance with
      | (d, .error f) => return ([visit], some f, d)
      | (d, .ok ()) =>
        let (visits, ending) ← d.visits fuel
        return (visit :: visits, ending)

def visits (code : Code) : Result (List Visit × Option Fault × Cursor) := do
  (← Cursor.start code).visits (code.length + 1)

end CompilerKit.Bytecode
