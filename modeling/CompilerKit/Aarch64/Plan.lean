import CompilerKit.Aarch64.Sequence

/-! # Address plans

A base, an optional index and a displacement become an address that one instruction can use, after an
addition to the base or the index where none can hold the displacement.
-/
namespace CompilerKit.Aarch64

open Instr Sequence

/-- What has to be done before the address can be used. -/
inductive Work where
  | nothing | addToIndex | addToBase
  deriving DecidableEq

def Work.name : Work → String
  | .nothing => "NO_WORK"
  | .addToIndex => "ADD_TO_INDEX"
  | .addToBase => "ADD_TO_BASE"

structure Plan where
  work : Work
  mode : AddressingMode
  /-- Whether the displacement has to go through a register. -/
  needsScratch : Bool
  deriving DecidableEq

namespace Plan

/-- The plan for accesses of `size` bytes; size 0 stands for an unscaled address. -/
def make (displacement : Word) (hasIndex : Bool) (size : BitVec 32) : Plan :=
  let scaledDown := displacement.sar (Numeric.log2Ceil size.toInt)
  let scalable := size ≠ 0 && displacement &&& (size - 1).signExtend 64 = 0
  if displacement = 0 then ⟨.nothing, .registerOffset, false⟩
  else if hasIndex then
    if scalable then ⟨.addToIndex, .registerOffset, !isArithmeticConstant scaledDown⟩
    else ⟨.addToBase, .registerOffset, !isArithmeticConstant displacement⟩
  else if Numeric.fitsSigned 9 displacement then ⟨.nothing, .immediateUnscaled, false⟩
  else if scalable && Numeric.fitsUnsigned 12 scaledDown then ⟨.nothing, .immediateScaled, false⟩
  else ⟨.addToBase, .registerOffset, !isArithmeticConstant displacement⟩

end Plan

/-- How an address is to be made: the zero register stands for no index and for no scratch
register. -/
structure AddressRequest where
  base : Register
  displacement : Word
  index : Register := .zero
  signExtendIndex : Bool := false
  size : BitVec 32
  scratch : Register := .zero
  /-- Whether base and index may be changed. -/
  overwrite : Bool := false

namespace AddressRequest

def addTo (q : AddressRequest) (w : Width) (dst src : Register) (n : Word) (scratch : Bool) :
    Result Instrs :=
  if scratch then do return (← moveConstant q.scratch n) ++ [addSubRegister .add w dst src q.scratch]
  else addConstant true false w dst src (n.setWidth 32)

def realize (q : AddressRequest) : Result (Instrs × Address) := do
  let plan := Plan.make q.displacement (q.index ≠ .zero) q.size
  let scaledDown := q.displacement.sar (Numeric.log2Ceil q.size.toInt)
  let target (r : Register) := if q.overwrite then r else q.scratch
  let (code, base, index, immediate) ← match plan.work with
    | .nothing =>
      let n := if plan.mode = .immediateScaled then scaledDown else q.displacement
      pure ([], q.base, q.index, n.setWidth 32)
    | .addToIndex => do
      let w : Width := if q.signExtendIndex then .w32 else .w64
      let code ← q.addTo w (target q.index) q.index scaledDown plan.needsScratch
      pure (code, q.base, target q.index, 0)
    | .addToBase => do
      let code ← q.addTo .w64 (target q.base) q.base q.displacement plan.needsScratch
      pure (code, target q.base, q.index, 0)
  let (mode, extension) :=
    if plan.mode = .registerOffset then
      if index = .zero then (.baseOnly, none)
      else if q.signExtendIndex then (.extendedRegisterOffset, some .sxtw)
      else (plan.mode, none)
    else (plan.mode, none)
  return (code, .make mode base index immediate (q.size ≠ 0) extension)

end AddressRequest

/-- Puts the value of an address for accesses of `size` bytes into a register, one step after the
other. -/
def loadAddress (dst : Register) (a : Address) (size : BitVec 32) : List (Result Instrs) :=
  let shift := BitVec.ofNat 32 (Numeric.log2Ceil size.toInt)
  let amount := if a.scaled then shift else 0
  match a.mode with
  | .immediateScaled =>
    let n := a.immediate <<< (shift.toNat % 32)
    let low := n &&& Numeric.lowBits 32 12
    let high := n &&& ~~~(Numeric.lowBits 32 12)
    let first := if low = 0 then [] else [addConstant true false .w64 dst a.base low]
    let src := if low = 0 then a.base else dst
    let second := if high = 0 then [] else [addConstant true false .w64 dst src high]
    first ++ second
  | .immediateUnscaled => [addConstant true false .w64 dst a.base a.immediate]
  | .registerOffset => [.ok [addSubShifted .add .w64 dst a.base a.offset .lsl (amount &&& 63)]]
  | .extendedRegisterOffset =>
    match a.extension with
    | some e => [.ok [addSubExtended .add .w64 dst a.base a.offset e amount]]
    | none => [.error .absent]
  | .pcLiteral => [.ok [pcRelative dst a.immediate]]
  | .baseOnly => [.ok (moveRegister .w64 dst a.base)]
  | .postIndexed | .preIndexed | .unknown => [.error .unreachable]

end CompilerKit.Aarch64
