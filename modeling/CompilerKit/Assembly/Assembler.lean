import CompilerKit.Assembly.Code
import CompilerKit.Fault
import CompilerKit.Text

/-! # Assembling with labels

An assembler appends to the code it has written so far. A branch to a label that has no position yet
leaves a site behind, which is patched when the label is bound. What was written before a fault
stays written.

The code stands at the front of a buffer. Bytes behind the code can be written and read too, as far
as the buffer goes, and it grows when it gets full.
-/
namespace CompilerKit

/-- A place in the code that branches refer to. -/
structure CodeLabel where
  position? : Option Nat := none
  /-- The branches that wait for the position, the oldest first. -/
  sites : List Nat := []

structure Assembly where
  code : Code := []
  labels : Nat → CodeLabel := fun _ => {}
  /-- The labels that have been given a name, the first one first. A missing label gets one too. -/
  named : List (Option Nat) := []
  /-- The bytes at the positions behind the code. -/
  beyond : Nat → Byte := fun _ => 0
  /-- The size of the buffer. -/
  capacity : Nat := 232

namespace Assembly

def byteAt (a : Assembly) (position : Nat) : Byte := a.code.getD position (a.beyond position)

/-- The size of a buffer after room was asked for: a full buffer gets four times the size that is
needed. Sizes from 2^31 on, which code of 2^29 bytes would ask for, are not refused here. -/
def grown (capacity length : Nat) : Nat := if length < capacity then capacity else 4 * length

/-- The size of the buffer after chunks have been written from a position on. Each chunk asks for
its own room. -/
def grownBy (capacity position : Nat) : Chunks → Nat
  | [] => capacity
  | c :: cs =>
    let position := position + c.bytes.length
    grownBy (grown capacity position) position cs

def overwrite (a : Assembly) (position : Nat) (bytes : Code) : Assembly :=
  { a with
    code := a.code.overwrite position bytes
    beyond := fun i => if i < position then a.beyond i else bytes.getD (i - position) (a.beyond i) }

/-- Starts again at the front of the buffer, which keeps its bytes. -/
def restart (a : Assembly) : Assembly := { a with code := [], beyond := a.byteAt }

end Assembly

abbrev Assembler := ExceptT Fault (StateM Assembly)

namespace Assembler

def emit (chunks : Chunks) : Assembler Unit :=
  modify fun a => { a with
    code := a.code ++ chunks.bytes
    capacity := Assembly.grownBy a.capacity a.code.length chunks }

def position : Assembler Nat := return (← get).code.length

/-- Replaces bytes of the buffer, which grows if it has to. Lengths and sizes are signed 32-bit
numbers. A place outside the buffer is the given fault. -/
def overwriteOr (missed : Fault) (position : Int) (bytes : Code) : Assembler Unit := do
  let a ← get
  let length := (BitVec.ofInt 32 (position + bytes.length)).toInt
  let capacity := if length < a.capacity then (a.capacity : Int)
    else (BitVec.ofInt 32 (4 * length)).toInt
  if capacity < 0 then throw .negativeSize
  if capacity < a.code.length then throw .misplaced
  match position.toNat? with
  | some p =>
    if p + bytes.length ≤ capacity then
      set ({ a with capacity := capacity.toNat }.overwrite p bytes)
    else throw missed
  | none => throw missed

def overwrite (position : Int) (chunk : Chunk) : Assembler Unit :=
  overwriteOr .outside position chunk.bytes

/-- The unsigned number that `n` bytes of the buffer hold. -/
def read (position : Int) (n : Nat) : Assembler Nat := do
  let a ← get
  match position.toNat? with
  | some p =>
    if p + n ≤ a.capacity then return Code.toNat ((List.range n).map fun i => a.byteAt (p + i))
    else throw .outside
  | none => throw .outside

def restart : Assembler Unit := modify Assembly.restart

def setLabel (l : Nat) (label : CodeLabel) : Assembler Unit :=
  modify fun a => { a with labels := fun k => if k = l then label else a.labels k }

def label (l : Nat) : Assembler CodeLabel := return (← get).labels l

/-- Remembers the current position as a branch to a label that is not bound yet. -/
def await (l : Nat) : Assembler Unit := do
  let known ← label l
  setLabel l { known with sites := known.sites ++ [← position] }

/-- Binds a label to the current position and patches the branches that wait for it. -/
def bindWith (patch : Int → Int → Assembler Unit) (l : Nat) : Assembler Unit := do
  let known ← label l
  let target ← position
  setLabel l { known with position? := some target }
  known.sites.forM fun site => patch site target

def labelName (number : Int) : String := s!"L{number}"

/-- Labels are named by the order in which their names are first asked for. -/
def nameOf (l : Option Nat) : Assembler String := do
  let named := (← get).named
  match named.idxOf? l with
  | some i => return labelName i
  | none =>
    modify fun a => { a with named := named ++ [l] }
    return labelName named.length

/-- The UTF-8 form of a text, with a question mark for half of a pair. -/
def utf8 (s : String) : Code :=
  let whole := s.map fun c => if c.toNat < 0x10F800 then c else '?'
  whole.toUTF8.toList.map fun b => BitVec.ofNat 8 b.toNat

/-- A text contributes as many bytes of its UTF-8 form as it has UTF-16 units. -/
def textChunk (s : String) : Chunk := ⟨(utf8 s).take (Text.units s).length⟩

def listingLine (s : String) : Chunks := [9, textChunk s, 10]

end Assembler

end CompilerKit
