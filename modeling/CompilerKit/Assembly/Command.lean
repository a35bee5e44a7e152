import CompilerKit.Assembly.Assembler

/-! # Commands of every assembler

Commands on the buffer and its labels, by name. They are the same for all instruction sets, except
for how a branch is patched.
-/
namespace CompilerKit

/-- What a command tells beside the code that it writes. -/
inductive Reply (α : Type) where
  | none
  | number (n : Int)
  | truth (b : Bool)
  | text (s : String)
  | address (a : α)
  deriving DecidableEq

namespace Assembler

def quiet {α : Type} (step : Assembler Unit) : Assembler (Reply α) := do
  step
  return .none

namespace Command

inductive Argument where
  | int (n : BitVec 32)
  | long (n : Word)
  | text (s : String)
  | label (l : Nat)
  /-- A text or a label that is not there. -/
  | missing

def names : List String :=
  ["emitByte", "emitShort", "emitInt", "emitLong", "emitString0", "emitString", "getByte",
    "getShort", "getInt", "patchJumpTarget", "position", "nameOf", "createLabelName", "reset"]

def writer? : String → List Argument → Option (Chunk × Option Int)
  | "emitByte", .int n :: at? => place? (.number 1 n) at?
  | "emitShort", .int n :: at? => place? (.number 2 n) at?
  | "emitInt", .int n :: at? => place? (.number 4 n) at?
  | "emitLong", .long n :: at? => place? (.number 8 n) at?
  | _, _ => none
where
  /-- The chunk with the position that may follow. -/
  place? (c : Chunk) : List Argument → Option (Chunk × Option Int)
    | [] => some (c, none)
    | [.int p] => some (c, some p.toInt)
    | _ => none

def action? {α : Type} (patch : Int → Int → Assembler Unit) :
    String → List Argument → Option (Assembler (Reply α))
  | "emitString0", [.text s] => some (quiet (emit [textChunk s]))
  | "emitString", [.text s] => some (quiet (emit (listingLine s)))
  | "emitString", [.text s, .int p] => some (quiet (overwriteOr .outOfRange p.toInt (utf8 s)))
  | "emitString0", [.missing] | "emitString", [.missing, .int _] => some (throw .absent)
  | "emitString", [.missing] => some do
    emit [9]
    throw .absent
  | "getByte", [.int p] => some (return .number (← read p.toInt 1))
  | "getShort", [.int p] => some (return .number (← read p.toInt 2))
  | "getInt", [.int p] => some (return .number (BitVec.ofNat 32 (← read p.toInt 4)).toInt)
  | "patchJumpTarget", [.int b, .int t] => some (quiet (patch b.toInt t.toInt))
  | "position", [] => some (return .number (← position))
  | "nameOf", [.label l] => some (return .text (← nameOf l))
  | "nameOf", [.missing] => some (return .text (← nameOf none))
  | "createLabelName", [.label _, .int n] | "createLabelName", [.missing, .int n] =>
    some (return .text (labelName n.toInt))
  | "reset", [] => some (quiet restart)
  | _, _ => none

end Command

def command? {α : Type} (patch : Int → Int → Assembler Unit) (name : String)
    (args : List Command.Argument) : Option (Assembler (Reply α)) :=
  match Command.writer? name args with
  | some (c, none) => some (quiet (emit [c]))
  | some (c, some p) => some (quiet (overwrite p c))
  | none => Command.action? patch name args

end Assembler

end CompilerKit
