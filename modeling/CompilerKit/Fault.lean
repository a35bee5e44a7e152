/-! # Faults

What can go wrong while code is being analysed or transformed. The causes are shared by the stamp
algebra, the reduction rules and the encoders.
-/
namespace CompilerKit

inductive Fault where
  /-- A case that callers promise not to reach. -/
  | unreachable
  | unreachableBecause (why : String)
  | unimplemented
  /-- An operand outside the supported cases, with its own wording. -/
  | unexpected (text : String)
  /-- An operand of another family than the operation works on. -/
  | familyMismatch
  /-- An operation or operand that is not there. -/
  | absent
  | divisionByZero
  /-- Fewer bytes than are to be read. -/
  | truncated
  | invalidArgument (text : String)
  /-- A position outside a table. -/
  | outOfRange
  /-- A position outside a code buffer or a list. -/
  | outside
  /-- A position behind the end of a buffer. -/
  | misplaced
  /-- A position outside a list of the given size. -/
  | badIndex (index size : Int)
  /-- A store that is to hold fewer than no elements. -/
  | negativeSize
  /-- A store that is to hold more elements than there is room for. -/
  | exhausted
  /-- A text that is not a number of the kind asked for. -/
  | malformedNumber
  /-- An option setting without a value. -/
  | malformedSetting (text : String)
  /-- A short branch whose target is too far away. -/
  | branchTooFar (displacement : Int)
  /-- An operand combination that no instruction has. -/
  | noEncoding
  /-- Two rules that hand the same case to each other for ever. -/
  | endless
  /-- A search that goes on without end. -/
  | neverEnds
  /-- An instruction whose length is not known. -/
  | unknownLength (opcode : Nat)
  deriving DecidableEq

/-- The wording of a fault, for those that have one. -/
def Fault.message : Fault → Option String
  | .unreachable => some "should not reach here"
  | .unreachableBecause why => some s!"should not reach here: {why}"
  | .unimplemented => some "unimplemented"
  | .unexpected text => some text
  | .invalidArgument text => some text
  | .badIndex index size => some s!"Index: {index}, Size: {size}"
  | .malformedSetting text =>
    some ("Option setting has does not match the pattern <name>=<value>: " ++ text)
  | .branchTooFar displacement => some s!"branch displacement out of range: {displacement}"
  | .noEncoding => some "should not reach here"
  | .unknownLength opcode => some s!"unknown variable-length bytecode: {opcode}"
  | .familyMismatch | .absent | .divisionByZero | .truncated | .outOfRange | .outside
  | .misplaced | .negativeSize | .exhausted | .malformedNumber | .endless | .neverEnds => none

abbrev Result := Except Fault

/-- The most elements that there is room for, unless it is said otherwise. -/
def storeLimit : Nat := Nat.pow 2 27

/-- The number of elements of a new store, where there is room for some. -/
def storeSize (room : Nat) (n : Int) : Result Nat :=
  if n < 0 then .error .negativeSize
  else if (room : Int) < n then .error .exhausted
  else .ok n.toNat

end CompilerKit
