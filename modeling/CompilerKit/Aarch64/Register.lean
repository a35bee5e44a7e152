import CompilerKit.Fault

/-! # Registers and operand modifiers

The general purpose registers, the zero register and the stack pointer, which share number 31, and
the vector registers; the flag tests of conditional instructions, and the ways in which a register
operand can be shifted or extended.
-/
namespace CompilerKit.Aarch64

inductive Register where
  | general (n : BitVec 5)
  | zero
  | stackPointer
  | vector (n : BitVec 5)
  deriving DecidableEq

namespace Register

def all : List Register :=
  (List.range 32).map (fun n => general (BitVec.ofNat 5 n)) ++ [zero, stackPointer] ++
    (List.range 32).map (fun n => vector (BitVec.ofNat 5 n))

def name : Register → String
  | general n => s!"r{n.toNat}"
  | zero => "zr"
  | stackPointer => "sp"
  | vector n => s!"v{n.toNat}"

def ofName? (s : String) : Option Register := all.find? (·.name = s)

def number : Register → BitVec 5
  | general n | vector n => n
  | zero | stackPointer => 31

def isVector : Register → Bool
  | vector _ => true
  | _ => false

end Register

inductive FlagTest where
  | eq | ne | hs | lo | mi | pl | vs | vc | hi | ls | ge | lt | gt | le | al | nv
  deriving DecidableEq

namespace FlagTest

def all : List FlagTest := [eq, ne, hs, lo, mi, pl, vs, vc, hi, ls, ge, lt, gt, le, al, nv]

def name : FlagTest → String
  | eq => "EQ"
  | ne => "NE"
  | hs => "HS"
  | lo => "LO"
  | mi => "MI"
  | pl => "PL"
  | vs => "VS"
  | vc => "VC"
  | hi => "HI"
  | ls => "LS"
  | ge => "GE"
  | lt => "LT"
  | gt => "GT"
  | le => "LE"
  | al => "AL"
  | nv => "NV"

def ofName? (s : String) : Option FlagTest := all.find? (·.name = s)

def encoding : FlagTest → BitVec 4
  | eq => 0x0
  | ne => 0x1
  | hs => 0x2
  | lo => 0x3
  | mi => 0x4
  | pl => 0x5
  | vs => 0x6
  | vc => 0x7
  | hi => 0x8
  | ls => 0x9
  | ge => 0xA
  | lt => 0xB
  | gt => 0xC
  | le => 0xD
  | al => 0xE
  | nv => 0xF

/-- The test with the given number, which is its place in the list of all. -/
def ofEncoding? (n : Nat) : Option FlagTest := all[n]?

/-- The opposite test; those that always hold have none. -/
def negate : FlagTest → Result FlagTest
  | eq => .ok ne
  | ne => .ok eq
  | hs => .ok lo
  | lo => .ok hs
  | mi => .ok pl
  | pl => .ok mi
  | vs => .ok vc
  | vc => .ok vs
  | hi => .ok ls
  | ls => .ok hi
  | ge => .ok lt
  | lt => .ok ge
  | gt => .ok le
  | le => .ok gt
  | al | nv => .error .unreachable

end FlagTest

inductive ShiftKind where
  | lsl | lsr | asr | ror
  deriving DecidableEq

namespace ShiftKind

def all : List (String × ShiftKind) := [("LSL", lsl), ("LSR", lsr), ("ASR", asr), ("ROR", ror)]

def encoding : ShiftKind → BitVec 2
  | lsl => 0
  | lsr => 1
  | asr => 2
  | ror => 3

end ShiftKind

/-- Zero or sign extension of the low part of a register. -/
inductive Extension where
  | uxtb | uxth | uxtw | uxtx | sxtb | sxth | sxtw | sxtx
  deriving DecidableEq

namespace Extension

def all : List Extension := [uxtb, uxth, uxtw, uxtx, sxtb, sxth, sxtw, sxtx]

def name : Extension → String
  | uxtb => "UXTB"
  | uxth => "UXTH"
  | uxtw => "UXTW"
  | uxtx => "UXTX"
  | sxtb => "SXTB"
  | sxth => "SXTH"
  | sxtw => "SXTW"
  | sxtx => "SXTX"

def ofName? (s : String) : Option Extension := all.find? (·.name = s)

def encoding : Extension → BitVec 3
  | uxtb => 0
  | uxth => 1
  | uxtw => 2
  | uxtx => 3
  | sxtb => 4
  | sxth => 5
  | sxtw => 6
  | sxtx => 7

end Extension

end CompilerKit.Aarch64
