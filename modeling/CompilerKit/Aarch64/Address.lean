import CompilerKit.Aarch64.Register
import CompilerKit.Word

/-! # Addresses

The addressing modes of loads and stores. Fields that a mode does not use hold the zero register or
nothing; `isValid` says which combinations are addresses.
-/
namespace CompilerKit.Aarch64

inductive AddressingMode where
  | immediateScaled | immediateUnscaled | baseOnly | registerOffset | extendedRegisterOffset
  | pcLiteral | postIndexed | preIndexed
  /-- No mode: an address of this kind has a base, but neither value nor text. -/
  | unknown
  deriving DecidableEq

namespace AddressingMode

def all : List AddressingMode :=
  [immediateScaled, immediateUnscaled, baseOnly, registerOffset, extendedRegisterOffset,
    pcLiteral, postIndexed, preIndexed, unknown]

def name : AddressingMode → String
  | immediateScaled => "IMMEDIATE_SCALED"
  | immediateUnscaled => "IMMEDIATE_UNSCALED"
  | baseOnly => "BASE_REGISTER_ONLY"
  | registerOffset => "REGISTER_OFFSET"
  | extendedRegisterOffset => "EXTENDED_REGISTER_OFFSET"
  | pcLiteral => "PC_LITERAL"
  | postIndexed => "IMMEDIATE_POST_INDEXED"
  | preIndexed => "IMMEDIATE_PRE_INDEXED"
  | unknown => "AddressingMode"

def ofName? (s : String) : Option AddressingMode := all.find? (·.name = s)

end AddressingMode

structure Address where
  mode : AddressingMode
  base : Register
  offset : Register
  immediate : BitVec 32
  scaled : Bool
  extension : Option Extension
  deriving DecidableEq

namespace Address

/-- An offset in the zero register is no offset. -/
def make (mode : AddressingMode) (base offset : Register) (immediate : BitVec 32) (scaled : Bool)
    (extension : Option Extension) : Address :=
  let mode := match mode with
    | .registerOffset | .extendedRegisterOffset => if offset = .zero then .baseOnly else mode
    | _ => mode
  { mode, base, offset, immediate, scaled, extension }

def postIndexed (base : Register) (immediate : BitVec 32) : Address :=
  make .postIndexed base .zero immediate false none

def preIndexed (base : Register) (immediate : BitVec 32) : Address :=
  make .preIndexed base .zero immediate false none

def scaledImmediate (base : Register) (immediate : BitVec 32) : Address :=
  make .immediateScaled base .zero immediate true none

def unscaledImmediate (base : Register) (immediate : BitVec 32) : Address :=
  make .immediateUnscaled base .zero immediate false none

def registerOffset (base offset : Register) (scaled : Bool) : Address :=
  make .registerOffset base offset 0 scaled none

def baseOnly (base : Register) : Address := registerOffset base .zero false

def extendedRegisterOffset (base offset : Register) (scaled : Bool) (extension : Extension) :
    Address :=
  make .extendedRegisterOffset base offset 0 scaled (some extension)

def pcLiteral (immediate : BitVec 32) : Address :=
  make .pcLiteral .zero .zero immediate false none

/-- An address that is filled in later. -/
def placeholder : Address := pcLiteral 0

/-- Whether the fields fit the mode. -/
def isValid (a : Address) : Bool :=
  !a.base.isVector && !a.offset.isVector &&
  match a.mode with
  | .immediateScaled =>
    a.base ≠ .zero && a.offset = .zero && a.extension.isNone && Numeric.fitsUnsigned 12 a.immediate
  | .immediateUnscaled | .postIndexed | .preIndexed =>
    a.base ≠ .zero && a.offset = .zero && a.extension.isNone && Numeric.fitsSigned 9 a.immediate
  | .baseOnly =>
    a.base ≠ .zero && a.offset = .zero && a.extension.isNone && a.immediate = 0
  | .registerOffset => a.base ≠ .zero && a.extension.isNone && a.immediate = 0
  | .extendedRegisterOffset =>
    a.base ≠ .zero && (a.extension = some .sxtw || a.extension = some .uxtw) && a.immediate = 0
  | .pcLiteral =>
    a.base = .zero && a.offset = .zero && a.extension.isNone &&
      Numeric.fitsSigned 21 a.immediate && a.immediate &&& 3 = 0
  | .unknown => false

def noImmediate : Fault :=
  .unreachableBecause "Should only be called for addressing modes that use immediate values."

def rawImmediate (a : Address) : Result (BitVec 32) :=
  match a.mode with
  | .immediateUnscaled | .immediateScaled | .postIndexed | .preIndexed | .pcLiteral =>
    .ok a.immediate
  | .baseOnly | .registerOffset | .extendedRegisterOffset | .unknown => .error noImmediate

/-- The immediate as instructions hold it: nine bits of a byte distance, or nineteen bits of a
distance in words. -/
def fieldImmediate (a : Address) : Result (BitVec 32) :=
  match a.mode with
  | .immediateUnscaled | .postIndexed | .preIndexed =>
    .ok (a.immediate &&& Numeric.lowBits 32 9)
  | .immediateScaled => .ok a.immediate
  | .pcLiteral => .ok (a.immediate.sshiftRight 2 &&& Numeric.lowBits 32 19)
  | .baseOnly | .registerOffset | .extendedRegisterOffset | .unknown => .error noImmediate

def render (a : Address) (log2Size : BitVec 32) : Result String :=
  let base := a.base.number.toNat
  let offset := a.offset.number.toNat
  let n := a.immediate.toInt
  let shift := if a.scaled then log2Size.toInt else 0
  match a.mode with
  | .immediateScaled =>
    let bytes := (a.immediate <<< (log2Size.toNat % 32)).toInt
    .ok s!"[X{base}, {bytes}]"
  | .immediateUnscaled => .ok s!"[X{base}, {n}]"
  | .baseOnly => .ok s!"[X{base}]"
  | .extendedRegisterOffset =>
    match a.extension with
    | none => .error .absent
    | some e =>
      let extension := e.name
      if shift = 0 then .ok s!"[X{base}, W{offset}, {extension}]"
      else .ok s!"[X{base}, W{offset}, {extension} {shift}]"
  | .registerOffset =>
    if shift = 0 then .ok s!"[X{base}, X{offset}]" else .ok s!"[X{base}, X{offset}, LSL {shift}]"
  | .pcLiteral => if 0 ≤ n then .ok s!".+{n}" else .ok s!".{n}"
  | .postIndexed => .ok s!"[X{base}],{n}"
  | .preIndexed => .ok s!"[X{base},{n}]!"
  | .unknown => .error .unreachable

end Address

end CompilerKit.Aarch64
