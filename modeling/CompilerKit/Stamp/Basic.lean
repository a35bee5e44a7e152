import CompilerKit.Stamp.Float
import CompilerKit.Stamp.Integer

/-! # Stamps

Stamps: what is known about the value of an expression. Stamps of one family form a lattice under
`meet` (either value) and `join` (both known); operations on stamps of different families fail.
-/
namespace CompilerKit

/-- What is known of a reference. -/
inductive Nullness where
  | unknown | nonNull | alwaysNull
  /-- No reference at all. -/
  | impossible
  deriving DecidableEq

namespace Nullness

def meet : Nullness → Nullness → Nullness
  | impossible, t => t
  | s, impossible => s
  | alwaysNull, alwaysNull => alwaysNull
  | nonNull, nonNull => nonNull
  | _, _ => unknown

def join : Nullness → Nullness → Nullness
  | impossible, _ | _, impossible => impossible
  | unknown, t => t
  | s, unknown => s
  | nonNull, nonNull => nonNull
  | alwaysNull, alwaysNull => alwaysNull
  | _, _ => impossible

def isNonNull : Nullness → Bool
  | nonNull | impossible => true
  | _ => false

def render : Nullness → String
  | unknown => "a -"
  | nonNull => "a! -"
  | alwaysNull => "a - NULL"
  | impossible => "a empty"

end Nullness

inductive Stamp where
  | int (s : IntStamp)
  | float (s : FloatStamp)
  | object (n : Nullness)
  | pointer
  | void
  | illegal
  deriving DecidableEq

namespace Stamp

def ofKeyword? : String → Option Stamp
  | "obj" => some (.object .unknown)
  | "nonnull" => some (.object .nonNull)
  | "null" => some (.object .alwaysNull)
  | "ptr" => some .pointer
  | "void" => some .void
  | "illegal" => some .illegal
  | _ => none

/-- The stamp of all values of a kind, as they are computed with. -/
def ofKind : Kind → Stamp
  | .object => .object .unknown
  | .void => .void
  | .illegal => .illegal
  | .float => .float (.full 32)
  | .double => .float (.full 64)
  | k =>
    let width := k.stack.bits
    let up := if k.isUnsigned then Word.mask k.bits else Word.mask width
    .int ⟨width, k.minValue, k.maxValue, 0, up⟩

def hasValues : Stamp → Bool
  | int s => s.hasValues
  | float s => s.hasValues
  | object n => n ≠ .impossible
  | pointer | illegal => true
  | void => false

def isEmpty (s : Stamp) : Bool := !s.hasValues

def stackKind : Stamp → Kind
  | int s => if 32 < s.bits then .long else .int
  | float s => if 32 < s.bits then .double else .float
  | object _ => .object
  | pointer | illegal => .illegal
  | void => .void

/-- The width of a primitive value, zero for others. -/
def bits : Stamp → Nat
  | int s => s.bits
  | float s => s.bits
  | _ => 0

def unrestricted : Stamp → Stamp
  | int s => int (.full s.bits)
  | float s => float (.full s.bits)
  | object _ => object .unknown
  | s => s

/-- No value of the same family; families without an empty stamp keep theirs. -/
def empty : Stamp → Stamp
  | int s => int (.empty s.bits)
  | float s => float (.empty s.bits)
  | object _ => object .impossible
  | s => s

/-- The only value of a stamp that has just one. -/
def constant? : Stamp → Option Constant
  | int s => s.constant?
  | float s => s.constant?
  | object .alwaysNull => some .null
  | _ => none

def meet : Stamp → Stamp → Result Stamp
  | int s, int t => .ok (int (s.meet t))
  | float s, float t => .ok (float (s.meet t))
  | object s, object t => .ok (object (s.meet t))
  | pointer, _ => .ok pointer
  | void, _ => .ok void
  | illegal, _ => .ok illegal
  | _, _ => .error .familyMismatch

def join : Stamp → Stamp → Result Stamp
  | int s, int t => .ok (int (s.join t))
  | float s, float t => .ok (float (s.join t))
  | object s, object t => .ok (object (s.join t))
  | pointer, _ => .ok pointer
  | void, _ => .ok void
  | illegal, _ => .ok illegal
  | _, _ => .error .familyMismatch

/-- The first stamp tightened by the second. -/
def improveWith (s t : Stamp) : Result Stamp := s.join t

/-- The tightened stamp, if it says more. -/
def tryImproveWith (s t : Stamp) : Result (Option Stamp) := do
  let improved ← s.improveWith t
  return if improved = s then none else some improved

def isCompatible : Stamp → Stamp → Bool
  | int s, int t => s.bits = t.bits
  | float s, float t => s.bits = t.bits
  | object _, object _ => true
  | pointer, pointer | void, void | illegal, illegal => true
  | _, _ => false

def admits : Stamp → Constant → Bool
  | int _, .primitive k _ => k.isInteger
  | float _, .primitive k _ => k.isFloat
  | object _, .null => true
  | pointer, .primitive k _ => k.isInteger
  | illegal, .primitive k _ => k = .illegal
  | _, _ => false

/-- No value belongs to both. -/
def alwaysDistinct (s t : Stamp) : Result Bool :=
  match s with
  | void => .ok (t ≠ void)
  | s => return (← s.join t).isEmpty

/-- Both are the same single value. -/
def neverDistinct (s t : Stamp) : Bool :=
  match s.constant? with
  | some c => t.constant? = some c
  | none => false

def ofConstant : Constant → Result Stamp
  | .null => .ok (.object .alwaysNull)
  | .primitive k x =>
    match k with
    | .float => .ok (.float (.single 32 (.ofSingle (Constant.rawBits .float x))))
    | .double => .ok (.float (.single 64 (.ofBits x)))
    | .illegal => .ok .illegal
    | .object | .void => .error (.unexpected s!"unexpected kind: {k.name}")
    | k =>
      let m := x &&& Word.mask k.bits
      .ok (.int ⟨k.stack.bits, x, x, m, m⟩)

def constant : Stamp → Constant → Result Stamp
  | int s, .primitive _ x => .ok (.int (.single s.bits x))
  | int s, .null => .ok (int s)
  | float _, c => ofConstant c
  | object _, .null => .ok (.object .alwaysNull)
  | object _, .primitive _ _ => .error .absent
  | pointer, _ => .ok pointer
  | illegal, _ => .ok illegal
  | void, _ => .error (.unreachableBecause "void stamp has no value")

end Stamp

end CompilerKit
