import CompilerKit.Amd64.Register

/-! # Addresses and operand bytes

An address is a base, a scaled index and a displacement, each of which may be missing. `operand` gives
the bytes that name an address, `modRm` the one that names two registers.
-/
namespace CompilerKit.Amd64

inductive Scale where
  | times1 | times2 | times4 | times8
  deriving DecidableEq

namespace Scale

def factor : Scale → Nat
  | times1 => 1
  | times2 => 2
  | times4 => 4
  | times8 => 8

def ofFactor? (n : Nat) : Option Scale := [times1, times2, times4, times8].find? (·.factor = n)

def log2 : Scale → BitVec 2
  | times1 => 0
  | times2 => 1
  | times4 => 2
  | times8 => 3

end Scale

structure Address where
  base : Option Register := none
  index : Option Register := none
  scale : Scale := .times1
  displacement : BitVec 32 := 0
  deriving DecidableEq

/-- A mode, a register or opcode extension and a register or base, from the highest bits down. -/
def modRm (mode : BitVec 2) (reg rm : BitVec 3) : Byte := mode ++ reg ++ rm

def scaleIndexBase (scale : BitVec 2) (index base : BitVec 3) : Byte := scale ++ index ++ base

namespace Address

/-- The displacement after a base, in its shortest form: nothing for zero unless `needed`, one byte
if it fits and `wide` does not forbid it, else four. The head gets the mode that says which. -/
def based (head : BitVec 2 → Chunks) (displacement : BitVec 32) (needed wide : Bool) : Chunks :=
  if displacement = 0 && !needed then head 0
  else if fitsByte displacement.toInt && !wide then head 1 ++ [.number 1 displacement]
  else head 2 ++ [.number 4 displacement]

/-- The operand bytes of an address beside the three bits of a register or an opcode extension. Index
`rsp` stands for no index, mode 0 with base `rbp` for no base; so `rsp` and `r12` as a base take
the form with an index, and `rbp` and `r13` always have a displacement. -/
def operand (a : Address) (reg : BitVec 3) (wide : Bool) : Chunks :=
  match a.base with
  | some .instructionPointer => [modRm 0 reg 5, .number 4 a.displacement]
  | some base =>
    match a.index with
    | some index =>
      based (fun mode => [modRm mode reg 4, scaleIndexBase a.scale.log2 index.low base.low])
        a.displacement (base = .rbp || base = .r13) wide
    | none =>
      if base = .rsp || base = .r12 then
        based (fun mode => [modRm mode reg 4, scaleIndexBase 0 4 4]) a.displacement false wide
      else
        based (fun mode => [modRm mode reg base.low]) a.displacement
          (base = .rbp || base = .r13) wide
  | none =>
    match a.index with
    | some index =>
      [modRm 0 reg 4, scaleIndexBase a.scale.log2 index.low 5, .number 4 a.displacement]
    | none => [modRm 0 reg 4, scaleIndexBase 0 4 5, .number 4 a.displacement]

def render (a : Address) : String :=
  let indexed (r : Register) := r.name ++ " * " ++ toString a.scale.factor
  let d := a.displacement.toInt
  let parts := (a.base.map Register.name).toList ++ (a.index.map indexed).toList ++
    if d > 0 then [toString d] else []
  let less := if d < 0 then " - " ++ toString (-a.displacement).toInt else ""
  "[" ++ " + ".intercalate parts ++ less ++ "]"

end Address

end CompilerKit.Amd64
