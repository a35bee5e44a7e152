import CompilerKit.Stamp.Integer

/-! # Arithmetic on integer stamps

Transfer functions of integer stamps: each gives a stamp for the results of an operation on values of
its operands' stamps.
-/
namespace CompilerKit.IntStamp

def neg (s : IntStamp) : IntStamp :=
  if s.lo ≠ Word.minValue s.bits then ofBounds s.bits (-s.hi) (-s.lo) else full s.bits

/-- A bit of the sum is known if both summands' bits and the carry into it are. -/
def add (a b : IntStamp) : IntStamp :=
  if a.isUnrestricted then a
  else if b.isUnrestricted then b
  else
    let bits := a.bits
    let all := Word.mask bits
    let open_ := (a.down ^^^ a.up) ||| (b.down ^^^ b.up)
    let unknown := open_ ||| (carryBits a.down b.down ^^^ carryBits a.up b.up)
    let down := (a.down + b.down) &&& ~~~unknown &&& all
    let up := ((a.down + b.down) ||| unknown) &&& all
    let wraps :=
      addOverflowsNegatively a.lo b.lo bits && !addOverflowsNegatively a.hi b.hi bits ||
        !addOverflowsPositively a.lo b.lo bits && addOverflowsPositively a.hi b.hi bits
    let lo := if wraps then Word.minValue bits else Word.signExtend ((a.lo + b.lo) &&& all) bits
    let hi := if wraps then Word.maxValue bits else Word.signExtend ((a.hi + b.hi) &&& all) bits
    let limit := ofBounds bits lo hi
    let up := up &&& limit.up
    let down := down ||| limit.down
    ⟨bits, lo ||| down, Word.signExtend (hi &&& up) bits, down, up⟩

def sub (a b : IntStamp) : IntStamp := add a (neg b)

def mul (a b : IntStamp) : IntStamp :=
  if a.up = 0 then a else if b.up = 0 then b else full a.bits

def div (a b : IntStamp) : IntStamp :=
  if b.isStrictlyPositive then ofBounds a.bits (a.lo.sdiv b.lo) (a.hi.sdiv b.lo) else full a.bits

/-- A remainder lies between zero and the dividend, and is smaller than the divisor. -/
def rem (a b : IntStamp) : IntStamp :=
  let magnitude :=
    if b.lo = Word.minValue b.bits then Word.maxValue b.bits
    else Word.smax (Word.abs b.lo) (Word.abs b.hi) - 1
  ofBounds a.bits (Word.smax (Word.smin a.lo 0) (-magnitude))
    (Word.smin (Word.smax a.hi 0) magnitude)

def not (s : IntStamp) : IntStamp :=
  let all := Word.mask s.bits
  ⟨s.bits, ~~~s.hi, ~~~s.lo, ~~~s.up &&& all, ~~~s.down &&& all⟩

def and (a b : IntStamp) : IntStamp := ofMasks a.bits (a.down &&& b.down) (a.up &&& b.up)

def or (a b : IntStamp) : IntStamp := ofMasks a.bits (a.down ||| b.down) (a.up ||| b.up)

def xor (a b : IntStamp) : IntStamp :=
  let unknown := (a.down ^^^ a.up) ||| (b.down ^^^ b.up)
  ofMasks a.bits ((a.down ^^^ b.down) &&& ~~~unknown) ((a.down ^^^ b.down) ||| unknown)

/-- The bits of a shift amount that count. -/
def shiftMask (s : IntStamp) : Nat := s.bits - 1

def shiftAmount (s shift : IntStamp) : Nat := (shift.lo &&& BitVec.ofNat 64 s.shiftMask).toNat

def amounts (shift : IntStamp) : List Word :=
  ((List.range (shift.hi.toInt - shift.lo.toInt + 1).toNat).map
    fun (i : Nat) => shift.lo + BitVec.ofNat 64 i).filter shift.contains

def shl (s shift : IntStamp) : IntStamp :=
  let bits := s.bits
  let amountBits := Word.bitCount (BitVec.ofNat 64 s.shiftMask)
  if s.up = 0 then s
  else
    let n := s.shiftAmount shift
    let lost := Word.shl (BitVec.allOnes 64) (bits - n - 1)
    if shift.lo = shift.hi && n = 0 then s
    else if shift.lo = shift.hi && s.lo &&& lost = 0 && s.hi &&& lost = 0 then
      ⟨bits, Word.shl s.lo n, Word.shl s.hi n, Word.shl s.down n, Word.shl s.up n⟩
    else if Word.ushr shift.lo amountBits = Word.ushr shift.hi amountBits then
      let masks := shift.amounts.foldl
        (fun (masks : Word × Word) i =>
          let n := (i &&& BitVec.ofNat 64 s.shiftMask).toNat
          (masks.1 &&& Word.shl s.down n, masks.2 ||| Word.shl s.up n))
        (Word.mask bits, 0)
      ofMasks bits masks.1 (masks.2 &&& Word.mask bits)
    else full bits

def shiftsNothing (s shift : IntStamp) : Bool := shift.lo = shift.hi && s.shiftAmount shift = 0

def shr (s shift : IntStamp) : IntStamp :=
  let bits := s.bits
  if shift.lo = shift.hi then
    let n := s.shiftAmount shift
    if n = 0 then s
    else
      let extra := 64 - bits
      let spread (m : Word) := Word.sar (Word.shl m extra) (n + extra) &&& Word.mask bits
      ⟨bits, Word.sar s.lo n, Word.sar s.hi n, spread s.down, spread s.up⟩
  else ofMasks bits 0 (upMaskFor bits s.lo s.hi)

def ushr (s shift : IntStamp) : IntStamp :=
  let bits := s.bits
  if shift.lo = shift.hi then
    let n := s.shiftAmount shift
    if n = 0 then s
    else
      let down := Word.ushr s.down n
      let up := Word.ushr s.up n
      if s.lo.slt 0 then ⟨bits, down, up, down, up⟩
      else ⟨bits, Word.ushr s.lo n, Word.ushr s.hi n, down, up⟩
  else ofMasks bits 0 (upMaskFor bits s.lo s.hi)

def abs (s : IntStamp) : IntStamp :=
  if s.lo = Word.minValue s.bits then full s.bits
  else ofBounds s.bits 0 (Word.smax (-s.lo) s.hi)

def zeroExtend (inputBits resultBits : Nat) (s : IntStamp) : IntStamp :=
  let down := Word.zeroExtend s.down inputBits
  let up := Word.zeroExtend s.up inputBits
  if s.lo.slt 0 && (0 : Word).sle s.hi then ofMasks resultBits down up
  else ⟨resultBits, Word.zeroExtend s.lo inputBits, Word.zeroExtend s.hi inputBits, down, up⟩

def signExtend (inputBits resultBits : Nat) (s : IntStamp) : IntStamp :=
  let all := Word.mask resultBits
  ⟨resultBits, s.lo, s.hi, Word.signExtend s.down inputBits &&& all,
    Word.signExtend s.up inputBits &&& all⟩

def narrow (inputBits resultBits : Nat) (s : IntStamp) : IntStamp :=
  if resultBits = inputBits then s
  else
    let hi :=
      if s.lo.slt (Word.minValue resultBits) then Word.maxValue resultBits
      else saturate s.hi resultBits
    let lo :=
      if (Word.maxValue resultBits).slt s.hi then Word.minValue resultBits
      else saturate s.lo resultBits
    let down := s.down &&& Word.mask resultBits
    let up := s.up &&& Word.mask resultBits
    ⟨resultBits, Word.signExtend ((lo ||| down) &&& up) resultBits,
      Word.signExtend ((hi ||| down) &&& up) resultBits, down, up⟩

end CompilerKit.IntStamp
