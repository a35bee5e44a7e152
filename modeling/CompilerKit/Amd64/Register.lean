import CompilerKit.Assembly.Code

/-! # Registers and flag tests

The sixteen general purpose registers, the sixteen vector registers and the instruction pointer,
which can only be the base of an address.
-/
namespace CompilerKit.Amd64

inductive Register where
  | general (n : BitVec 4)
  | vector (n : BitVec 4)
  | instructionPointer
  deriving DecidableEq

namespace Register

def generalNames : List String :=
  ["rax", "rcx", "rdx", "rbx", "rsp", "rbp", "rsi", "rdi",
    "r8", "r9", "r10", "r11", "r12", "r13", "r14", "r15"]

def all : List Register :=
  (List.range 16).map (fun n => general (BitVec.ofNat 4 n)) ++
    (List.range 16).map (fun n => vector (BitVec.ofNat 4 n)) ++ [instructionPointer]

def name : Register → String
  | general n => generalNames.getD n.toNat ""
  | vector n => s!"xmm{n.toNat}"
  | instructionPointer => "rip"

def ofName? (s : String) : Option Register := all.find? (·.name = s)

def rax : Register := general 0
def rsp : Register := general 4
def rbp : Register := general 5
def r12 : Register := general 12
def r13 : Register := general 13

def isVector : Register → Bool
  | vector _ => true
  | _ => false

/-- The part of the register number that the operand bytes hold. -/
def low : Register → BitVec 3
  | general n | vector n => n.setWidth 3
  | instructionPointer => 7

/-- The same part as it is combined with the other bits of a byte. The instruction pointer, which no
such byte can name, sets all of them. -/
def inByte : Register → Byte
  | general n | vector n => (n.setWidth 3).setWidth 8
  | instructionPointer => 0xFF

/-- Whether the register number has its fourth bit set. The instruction pointer counts as number -1,
so it has. -/
def fourthBit : Register → Bool
  | general n | vector n => n.msb
  | instructionPointer => true

def isUpper : Register → Bool
  | general n | vector n => n.msb
  | instructionPointer => false

/-- Whether the register number is four or more: as a byte register it then needs an extension byte
to be told from the high halves of the first four. -/
def needsByteMark : Register → Bool
  | general n | vector n => 4 ≤ n.toNat
  | instructionPointer => false

end Register

/-- What a conditional instruction asks of the flags. Several tests are the same instruction under
different names. -/
inductive FlagTest where
  | zero | notZero | equal | notEqual | less | lessEqual | greater | greaterEqual
  | below | belowEqual | above | aboveEqual | overflow | noOverflow | carrySet | carryClear
  | negative | positive | parity | noParity
  deriving DecidableEq

namespace FlagTest

def all : List FlagTest :=
  [zero, notZero, equal, notEqual, less, lessEqual, greater, greaterEqual,
    below, belowEqual, above, aboveEqual, overflow, noOverflow, carrySet, carryClear,
    negative, positive, parity, noParity]

def name : FlagTest → String
  | zero => "Zero"
  | notZero => "NotZero"
  | equal => "Equal"
  | notEqual => "NotEqual"
  | less => "Less"
  | lessEqual => "LessEqual"
  | greater => "Greater"
  | greaterEqual => "GreaterEqual"
  | below => "Below"
  | belowEqual => "BelowEqual"
  | above => "Above"
  | aboveEqual => "AboveEqual"
  | overflow => "Overflow"
  | noOverflow => "NoOverflow"
  | carrySet => "CarrySet"
  | carryClear => "CarryClear"
  | negative => "Negative"
  | positive => "Positive"
  | parity => "Parity"
  | noParity => "NoParity"

def ofName? (s : String) : Option FlagTest := all.find? (·.name = s)

def encoding : FlagTest → BitVec 4
  | zero | equal => 0x4
  | notZero | notEqual => 0x5
  | less => 0xC
  | lessEqual => 0xE
  | greater => 0xF
  | greaterEqual => 0xD
  | below | carrySet => 0x2
  | belowEqual => 0x6
  | above => 0x7
  | aboveEqual | carryClear => 0x3
  | overflow => 0x0
  | noOverflow => 0x1
  | negative => 0x8
  | positive => 0x9
  | parity => 0xA
  | noParity => 0xB

def symbol : FlagTest → String
  | zero => "|zero|"
  | notZero => "|nzero|"
  | equal => "="
  | notEqual => "!="
  | less => "<"
  | lessEqual => "<="
  | greater => ">"
  | greaterEqual => ">="
  | below => "|<|"
  | belowEqual => "|<=|"
  | above => "|>|"
  | aboveEqual => "|>=|"
  | overflow => "|of|"
  | noOverflow => "|nof|"
  | carrySet => "|carry|"
  | carryClear => "|ncarry|"
  | negative => "|neg|"
  | positive => "|pos|"
  | parity => "|par|"
  | noParity => "|npar|"

def negate : FlagTest → FlagTest
  | zero => notZero
  | notZero => zero
  | equal => notEqual
  | notEqual => equal
  | less => greaterEqual
  | lessEqual => greater
  | greater => lessEqual
  | greaterEqual => less
  | below => aboveEqual
  | belowEqual => above
  | above => belowEqual
  | aboveEqual => below
  | overflow => noOverflow
  | noOverflow => overflow
  | carrySet => carryClear
  | carryClear => carrySet
  | negative => positive
  | positive => negative
  | parity => noParity
  | noParity => parity

/-- The opposite test differs in the lowest bit of its number. -/
theorem encoding_negate (c : FlagTest) : c.negate.encoding = c.encoding ^^^ 1 := by
  cases c <;> rfl

end FlagTest

end CompilerKit.Amd64
