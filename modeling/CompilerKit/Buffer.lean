import CompilerKit.Assembly.Code

/-! # Byte buffers

Numbers are stored in one, two, four or eight bytes, the lowest first, or in as many groups of seven
bits as they need. A field of fixed size can be accessed as a whole or byte by byte.

Bytes are collected in chunks. A number never crosses the end of a chunk: if it might not fit, a new
chunk of twice the capacity is begun. A reader has a position in its data, and reads nothing outside.
-/
namespace CompilerKit.Buffer

inductive Field where
  | s1 | u1 | s2 | u2 | s4 | u4 | s8
  /-- Groups of seven bits, for signed and for unsigned numbers. -/
  | sv | uv
  deriving DecidableEq

inductive Access where
  | whole
  | bytewise
  deriving DecidableEq

namespace Field

def named : List (String × Field) :=
  [("S1", .s1), ("U1", .u1), ("S2", .s2), ("U2", .u2), ("S4", .s4), ("U4", .u4), ("S8", .s8),
    ("SV", .sv), ("UV", .uv)]

def ofName? (s : String) : Option Field := named.lookup s

def size? : Field → Option Nat
  | .s1 | .u1 => some 1
  | .s2 | .u2 => some 2
  | .s4 | .u4 => some 4
  | .s8 => some 8
  | .sv | .uv => none

def isSigned : Field → Bool
  | .s1 | .s2 | .s4 | .s8 | .sv => true
  | .u1 | .u2 | .u4 | .uv => false

end Field

/-- Whether a number can be stored in a field so that it reads back. -/
def Field.admits (f : Field) (x : Word) : Bool :=
  match f.size? with
  | some n =>
    let limit : Int := Nat.pow 2 (8 * n - 1)
    if f.isSigned then -limit ≤ x.toInt && x.toInt < limit
    else x.toNat < Nat.pow 2 (8 * n)
  | none => f.isSigned || 0 ≤ x.toInt

def Access.store : Access → Nat → Word → Code
  | .whole, n, x => Code.littleEndian n (x.setWidth (8 * n))
  | .bytewise, n, x => (List.range n).map fun i => (x.sshiftRight (8 * i)).setWidth 8

def Access.load : Access → Code → Word
  | .whole, bytes => (BitVec.ofNat (8 * bytes.length) bytes.toNat).signExtend 64
  | .bytewise, bytes => ofBytes bytes
where
  /-- Puts the number together from its bytes. -/
  ofBytes : Code → Word
    | [] => 0
    | [b] => b.signExtend 64
    | b :: bs => b.setWidth 64 ||| ofBytes bs <<< 8

def Field.load (f : Field) (a : Access) (bytes : Code) : Word :=
  let x := a.load bytes
  if f.isSigned then x else (x.setWidth (8 * bytes.length)).setWidth 64

/-! Groups of seven bits: all but the last one have the highest bit of their byte set. -/

def lowGroup (x : Word) : Byte := x.setWidth 8 &&& 0x7f

def groups (isLast : Word → Bool) : Nat → Word → Code
  | 0, _ => []
  | n + 1, x =>
    if isLast x then [lowGroup x] else (0x80 ||| lowGroup x) :: groups isLast n (x.sshiftRight 7)

/-- A 64 bit number has at most ten groups. The last group of a signed number also holds its sign. -/
def signedGroups (x : Word) : Code := groups (fun x => -64 ≤ x.toInt && x.toInt < 64) 10 x

def unsignedGroups (x : Word) : Code := groups (fun x => x.toInt < 128) 10 x

/-- The number that groups hold, from a position on; positions count modulo 64. -/
def ofGroups : Nat → Code → Word
  | _, [] => 0
  | i, b :: bs => (b &&& 0x7f).setWidth 64 <<< (7 * i % 64) ||| ofGroups (i + 1) bs

/-- The sign that the last group adds above all groups. -/
def groupSign (bytes : Code) : Word :=
  if (bytes.getLast?.any fun b => b.getLsbD 6) && 7 * bytes.length < 64 then
    BitVec.allOnes 64 <<< (7 * bytes.length)
  else 0

/-- Divides bytes behind the first that ends a number. -/
def takeGroups? : Code → Option (Code × Code)
  | [] => none
  | b :: bs =>
    if b.getLsbD 7 then (takeGroups? bs).map fun (taken, rest) => (b :: taken, rest)
    else some ([b], bs)

/-! ## Writing -/

structure Chunk where
  capacity : Nat
  bytes : Code := []
  deriving DecidableEq

structure Writer where
  /-- The chunks before the current one. -/
  closed : List Chunk := []
  current : Chunk := ⟨200, []⟩
  /-- The number of bytes written, which is kept in 32 bits. -/
  total : BitVec 32 := 0
  deriving DecidableEq

/-- No chunk has more room than this. -/
def maxCapacity : Nat := 16000

namespace Writer

variable (w : Writer)

/-- Makes room for some bytes in the current chunk. -/
def reserve (n : Nat) : Writer :=
  if w.current.capacity ≤ w.current.bytes.length + n then
    { w with
      closed := w.closed ++ [w.current]
      current := ⟨min (2 * w.current.capacity) maxCapacity, []⟩ }
  else w

def append (bytes : Code) : Writer :=
  let w := w.reserve bytes.length
  { w with
    current := { w.current with bytes := w.current.bytes ++ bytes }
    total := w.total + BitVec.ofNat 32 bytes.length }

/-- Writes a number; groups of seven bits are written one by one. -/
def put (a : Access) (f : Field) (x : Word) : Writer :=
  match f.size? with
  | some n => w.append (a.store n x)
  | none =>
    let bytes := if f.isSigned then signedGroups x else unsignedGroups x
    bytes.foldl (fun w b => w.append [b]) w

/-- All bytes written. -/
def toCode : Code := w.closed.flatMap Chunk.bytes ++ w.current.bytes

def size : Int := w.total.toInt

def putTimes (a : Access) (f : Field) (x : Word) : Nat → Writer → Writer
  | 0, w => w
  | n + 1, w => putTimes a f x n (w.put a f x)

end Writer

/-! ## Reading -/

structure Reader where
  data : Code
  position : Int := 0
  deriving DecidableEq

namespace Reader

variable (r : Reader)

def seek (position : Int) : Reader := { r with position }

/-- The data from the position on. -/
def rest? : Option Code :=
  if 0 ≤ r.position ∧ r.position ≤ r.data.length then some (r.data.drop r.position.toNat) else none

def take? (n : Nat) : Option Code := do
  let bytes := (← r.rest?).take n
  if bytes.length = n then some bytes else none

def get? (a : Access) (f : Field) : Option (Word × Reader) := do
  match f.size? with
  | some n => return (f.load a (← r.take? n), r.seek (r.position + n))
  | none =>
    let (bytes, _) ← takeGroups? (← r.rest?)
    let x := ofGroups 0 bytes
    return (if f.isSigned then x ||| groupSign bytes else x, r.seek (r.position + bytes.length))

end Reader

end CompilerKit.Buffer
