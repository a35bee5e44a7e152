import CompilerKit.Constant

/-! # Integer stamps

Integer stamps: what is known about an integer of a given width. A stamp bounds the signed value and
names the bits that are set in every value (`down`) and in some value (`up`).

A stamp is plain data: bounds and masks may contradict each other or be wider than their values need.
-/
namespace CompilerKit

structure IntStamp where
  bits : Nat
  lo : Word
  hi : Word
  down : Word
  up : Word
  deriving DecidableEq

namespace IntStamp

/-- Membership of a sign extended value. -/
def contains (s : IntStamp) (v : Word) : Bool :=
  s.lo.sle v && v.sle s.hi && v &&& s.down == s.down && v &&& s.up == v &&& Word.mask s.bits

def hasValues (s : IntStamp) : Bool := s.lo.sle s.hi

def full (bits : Nat) : IntStamp :=
  ⟨bits, Word.minValue bits, Word.maxValue bits, 0, Word.mask bits⟩

def empty (bits : Nat) : IntStamp :=
  ⟨bits, Word.maxValue bits, Word.minValue bits, Word.mask bits, 0⟩

def isUnrestricted (s : IntStamp) : Bool :=
  s.lo == Word.minValue s.bits && s.hi == Word.maxValue s.bits && s.down == 0 &&
    s.up == Word.mask s.bits

/-- No value is negative. -/
def isPositive (s : IntStamp) : Bool := (0 : Word).sle s.lo

/-- No value is above zero. -/
def isNegative (s : IntStamp) : Bool := s.hi.sle 0

def isStrictlyPositive (s : IntStamp) : Bool := (0 : Word).slt s.lo

def isStrictlyNegative (s : IntStamp) : Bool := s.hi.slt 0

def canBePositive (s : IntStamp) : Bool := (0 : Word).slt s.hi

def canBeNegative (s : IntStamp) : Bool := s.lo.slt 0

/-- Both are free of negative values, or both hold nothing else. -/
def sameSign (s t : IntStamp) : Bool :=
  s.isPositive && t.isPositive || s.isStrictlyNegative && t.isStrictlyNegative

/-- The masks of an interval: below the highest bit in which its ends differ every bit is open. -/
def boundMasks (bits : Nat) (lo hi : Word) : Word × Word :=
  let ones : Word := BitVec.allOnes 64
  if (0 : Word).sle lo then
    let zeros := Word.leadingZeros hi
    let same := Word.leadingZeros (Word.shl (lo ^^^ hi) zeros)
    let free := Word.ushr ones (zeros + same)
    (hi &&& ~~~free, hi ||| free)
  else if (0 : Word).sle hi then (0, Word.mask bits)
  else
    let leading := Word.leadingZeros (~~~lo)
    let same := Word.leadingZeros (Word.shl (lo ^^^ hi) leading)
    let free := Word.ushr ones (leading + same)
    let signs := ~~~(Word.ushr ones leading)
    (lo &&& ~~~free ||| signs, lo ||| free ||| signs)

def ofBounds (bits : Nat) (lo hi : Word) : IntStamp :=
  let all := Word.mask bits
  if lo = hi then ⟨bits, lo, lo, lo &&& all, lo &&& all⟩
  else
    let (down, up) := boundMasks bits lo hi
    ⟨bits, lo, hi, down &&& all, up &&& all⟩

/-- The stamp of an interval that also obeys the masks of another stamp. -/
def ofBoundsWithin (bits : Nat) (lo hi : Word) (within : IntStamp) : IntStamp :=
  let limit := ofBounds bits lo hi
  ⟨bits, lo, hi, limit.down ||| within.down, limit.up &&& within.up⟩

def ofMasks (bits : Nat) (down up : Word) : IntStamp :=
  let (lo, hi) :=
    if Word.ushr up (bits - 1) &&& 1 = 0 then (down, up)
    else if Word.ushr down (bits - 1) &&& 1 = 1 then (down, up)
    else (down ||| Word.shl (BitVec.allOnes 64) (bits - 1), Word.maxValue bits &&& up)
  ⟨bits, Word.signExtend lo bits, Word.signExtend hi bits, down, up⟩

def single (bits : Nat) (v : Word) : IntStamp := ofBounds bits v v

/-- The given bounds and masks, or the empty stamp if they plainly contradict each other. -/
def combine (bits : Nat) (lo hi down up : Word) : IntStamp :=
  if hi.slt lo || down &&& ~~~up != 0 || up == 0 && ((0 : Word).slt lo || hi.slt 0) then empty bits
  else ⟨bits, lo, hi, down, up⟩

/-- The least stamp above both. -/
def meet (s t : IntStamp) : IntStamp :=
  combine s.bits (Word.smin s.lo t.lo) (Word.smax s.hi t.hi) (s.down &&& t.down) (s.up ||| t.up)

/-- The values that both stamps allow. Stamps have no identity: one that is joined with itself is not given
back as it is. -/
def join (s t : IntStamp) : IntStamp :=
  let down := s.down ||| t.down
  let lo := Word.smax s.lo t.lo ||| down
  let hi := Word.smin s.hi t.hi
  let limit := ofBounds s.bits lo hi
  combine s.bits lo hi (limit.down ||| down) (limit.up &&& (s.up &&& t.up))

def constant? (s : IntStamp) : Option Constant :=
  if s.lo = s.hi then
    (Kind.ofBits? s.bits).map fun k => .primitive k (k.clip s.lo)
  else none

/-- A mask of all bits up to the highest one in which the bounds are not both zero. -/
def upMaskFor (bits : Nat) (lo hi : Word) : Word :=
  let m := lo ||| hi
  if m = 0 then 0 else Word.ushr (BitVec.allOnes 64) (Word.leadingZeros m) &&& Word.mask bits

/-- Whether a sum exceeds the greatest value of the width. -/
def addOverflowsPositively (x y : Word) (bits : Nat) : Bool :=
  let sum := x + y
  if bits = 64 then (~~~x &&& ~~~y &&& sum).slt 0 else (Word.maxValue bits).slt sum

/-- Whether a sum lies below the least value of the width. -/
def addOverflowsNegatively (x y : Word) (bits : Nat) : Bool :=
  let sum := x + y
  if bits = 64 then (x &&& y &&& ~~~sum).slt 0 else sum.slt (Word.minValue bits)

/-- The carries into each bit of a sum. -/
def carryBits (x y : Word) : Word := (x + y) ^^^ x ^^^ y

/-- A value held inside the signed range of a width. -/
def saturate (v : Word) (bits : Nat) : Word :=
  if bits < 64 then
    if (Word.maxValue bits).slt v then Word.maxValue bits
    else if v.slt (Word.minValue bits) then Word.minValue bits
    else v
  else v

end IntStamp

end CompilerKit
