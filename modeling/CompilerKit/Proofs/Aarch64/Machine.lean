import CompilerKit.Proofs.Aarch64.LogicalImmediate

/-! # A machine for instructions

The processor reads an instruction field by field, as the architecture lays them out, and changes its
registers. The encoders put each operand where it is read from: a word is an or of fields that do not
overlap, so that each of them can be read as if the others were not there.
-/

namespace CompilerKit.Aarch64

/-- The condition flags. -/
structure Flags where
  negative : Bool
  zero : Bool
  carry : Bool
  overflow : Bool
  deriving DecidableEq

structure Machine where
  /-- The registers 0 to 30. What stands at 31 is never looked at. -/
  general : BitVec 5 → Word
  stackPointer : Word
  flags : Flags

namespace Machine

def put (m : Machine) (n : BitVec 5) (x : Word) : Machine :=
  { m with general := Function.update m.general n x }

variable (m : Machine) (w : Nat) (n : BitVec 5)

/-- The low bits of a register; number 31 is the zero register. -/
def read : BitVec w := if n = 31 then 0 else (m.general n).setWidth w

/-- Writes a register, with zeros above the value; what is written to number 31 is lost. -/
def write (x : BitVec w) : Machine :=
  if n = 31 then m else m.put n (x.setWidth 64)

/-- Writes a register, where number 31 is the stack pointer. -/
def writeOrStack (x : BitVec w) : Machine :=
  if n = 31 then { m with stackPointer := x.setWidth 64 } else m.write w n x

def logicalFlags (x : BitVec w) : Machine := { m with flags := ⟨x.msb, x = 0, false, false⟩ }

end Machine

/-! Operations. -/

namespace Instr

def Logical.ofBits : BitVec 2 → Logical
  | 0 => .and
  | 1 => .or
  | 2 => .eor
  | _ => .ands

def Logical.onWords {w : Nat} : Logical → BitVec w → BitVec w → BitVec w
  | .and, x, y | .ands, x, y => x &&& y
  | .or, x, y => x ||| y
  | .eor, x, y => x ^^^ y

def MoveWide.ofBits? : BitVec 2 → Option MoveWide
  | 0 => some .negated
  | 2 => some .zeroing
  | 3 => some .keeping
  | _ => none

/-- The result of a move of sixteen bits to a register that holds `old`. -/
def MoveWide.onWord {w : Nat} (op : MoveWide) (old : BitVec w) (chunk : BitVec 16) (shift : Nat) :
    BitVec w :=
  match op with
  | .negated => ~~~(chunk.setWidth w <<< shift)
  | .zeroing => chunk.setWidth w <<< shift
  | .keeping => old &&& ~~~((BitVec.allOnes 16).setWidth w <<< shift) ||| chunk.setWidth w <<< shift

def Bitfield.ofBits? : BitVec 2 → Option Bitfield
  | 0 => some .signed
  | 1 => some .insert
  | 2 => some .unsigned
  | _ => none

/-- The result of a move of a bit field: the source is rotated right by `r`, and the bits up to `s` in it
are kept. The bits above the field are copies of the field's highest bit, zeros or those of `old`. -/
def Bitfield.onWord {w : Nat} (op : Bitfield) (old src : BitVec w) (r s : Nat) : BitVec w :=
  let around := if op = .insert then old else 0
  let field := rotatedRuns w w (s + 1) r
  let below := rotatedRuns w w (((s : Int) - r) % w + 1).toNat 0
  let bottom := around &&& ~~~field ||| src.rotateRight r &&& field
  let top := if op = .signed then BitVec.fill w (src.getLsbD s) else around
  top &&& ~~~below ||| bottom &&& below

end Instr

def ShiftKind.ofBits : BitVec 2 → ShiftKind
  | 0 => .lsl
  | 1 => .lsr
  | 2 => .asr
  | _ => .ror

def ShiftKind.onWord {w : Nat} (kind : ShiftKind) (x : BitVec w) (n : Nat) : BitVec w :=
  match kind with
  | .lsl => x <<< n
  | .lsr => x >>> n
  | .asr => x.sshiftRight n
  | .ror => x.rotateRight n

open Instr (Logical MoveWide Bitfield)

/-- An instruction as the processor reads it, with registers by their numbers. -/
inductive Operation where
  | logicalImmediate (op : Logical) (w : Nat) (dst src : BitVec 5) (value : BitVec w)
  | logicalShifted (op : Logical) (inverted : Bool) (w : Nat) (dst src1 src2 : BitVec 5)
    (kind : ShiftKind) (amount : Nat)
  | moveWide (op : MoveWide) (w : Nat) (dst : BitVec 5) (chunk : BitVec 16) (shift : Nat)
  | bitfield (op : Bitfield) (w : Nat) (dst src : BitVec 5) (r s : Nat)

namespace Instr

/-! Reading instructions, group by group. -/

variable (i : Instr)

/-- The number of bits that the instruction works on. -/
def width : Nat := if i.extractLsb' 31 1 = 1 then 64 else 32

def logicalImmediate? : Option Operation :=
  (decodeFields i.width i).map
    (.logicalImmediate (.ofBits (i.extractLsb' 29 2)) i.width (i.extractLsb' 0 5) (i.extractLsb' 5 5))

def moveWide? : Option Operation :=
  let shift := 16 * (i.extractLsb' 21 2).toNat
  if shift < i.width then
    (MoveWide.ofBits? (i.extractLsb' 29 2)).map
      (.moveWide · i.width (i.extractLsb' 0 5) (i.extractLsb' 5 16) shift)
  else none

/-- The width is told twice, and must be the same. -/
def bitfield? : Option Operation :=
  let r := (i.extractLsb' 16 6).toNat
  let s := (i.extractLsb' 10 6).toNat
  if i.extractLsb' 22 1 = i.extractLsb' 31 1 ∧ r < i.width ∧ s < i.width then
    (Bitfield.ofBits? (i.extractLsb' 29 2)).map
      (.bitfield · i.width (i.extractLsb' 0 5) (i.extractLsb' 5 5) r s)
  else none

def logicalShifted? : Option Operation :=
  let amount := (i.extractLsb' 10 6).toNat
  if amount < i.width then
    some (.logicalShifted (.ofBits (i.extractLsb' 29 2)) (i.extractLsb' 21 1 = 1) i.width
      (i.extractLsb' 0 5) (i.extractLsb' 5 5) (i.extractLsb' 16 5) (.ofBits (i.extractLsb' 22 2)) amount)
  else none

/-- Reads an instruction by its group; the groups that are not listed are not known here. -/
def decode : Option Operation :=
  match i.extractLsb' 24 5, i.extractLsb' 23 1 with
  | 0b01010#5, _ => i.logicalShifted?
  | 0b10010#5, 0#1 => i.logicalImmediate?
  | 0b10010#5, 1#1 => i.moveWide?
  | 0b10011#5, 0#1 => i.bitfield?
  | _, _ => none

end Instr

/-- Only `ands` sets the flags, and with an immediate only the others can write the stack pointer. -/
def Operation.execute (m : Machine) : Operation → Machine
  | logicalImmediate op w dst src value =>
    let x := op.onWords (m.read w src) value
    if op = .ands then (m.write w dst x).logicalFlags w x else m.writeOrStack w dst x
  | logicalShifted op inverted w dst src1 src2 kind amount =>
    let y := kind.onWord (m.read w src2) amount
    let x := op.onWords (m.read w src1) (if inverted then ~~~y else y)
    if op = .ands then (m.write w dst x).logicalFlags w x else m.write w dst x
  | moveWide op w dst chunk shift => m.write w dst (op.onWord (m.read w dst) chunk shift)
  | bitfield op w dst src r s => m.write w dst (op.onWord (m.read w dst) (m.read w src) r s)

def Machine.run (m : Machine) : List Instr → Option Machine
  | [] => some m
  | i :: is => i.decode.bind fun op => (op.execute m).run is

theorem Machine.run_cons {m : Machine} {i : Instr} {op : Operation} (h : i.decode = some op) (is : List Instr) :
    m.run (i :: is) = (op.execute m).run is := by
  rw [run, h, Option.bind_some]

/-! The encoders. -/

namespace Width

variable (w : Width)

theorem bits_pos : 0 < w.bits := by
  cases w <;> decide

theorem bits_le : w.bits ≤ 64 := by
  cases w <;> decide

theorem ofSize_bits : ofSize (BitVec.ofNat 32 w.bits) = w := by
  cases w <;> rfl

end Width

namespace Instr

theorem width_eq (w : Width) : (if BitVec.ofBool (decide (w = .w64)) = 1 then 64 else 32) = w.bits := by
  cases w <;> rfl

/-- An operand in the bits from `k` on. -/
def field {w : Nat} (k : Nat) (x : BitVec w) : Instr := x.setWidth 32 <<< k

theorem extractLsb'_field {w k : Nat} (x : BitVec w) (h : k + w ≤ 32) : (field k x).extractLsb' k w = x := by
  apply BitVec.eq_of_getLsbD_eq
  intro i hi
  simp [field, show k + i < 32 by omega, hi]

theorem extractLsb'_field_apart {w k : Nat} (x : BitVec w) {lo len : Nat}
    (h : k + w ≤ lo ∨ lo + len ≤ k) : (field k x).extractLsb' lo len = BitVec.ofNat len 0 := by
  apply BitVec.eq_of_getLsbD_eq
  intro i hi
  by_cases hk : lo + i < k
  · simp [field, hk]
  · simp [field, hk, BitVec.getLsbD_of_ge x (lo + i - k) (by omega)]

theorem rd_eq (r : Register) : rd r = field 0 r.number := by simp [rd, field]

def Logical.opcode : Logical → BitVec 2
  | .and => 0
  | .or => 1
  | .eor => 2
  | .ands => 3

theorem Logical.ofBits_opcode (op : Logical) : ofBits op.opcode = op := by
  cases op <;> rfl

def MoveWide.opcode : MoveWide → BitVec 2
  | .negated => 0
  | .zeroing => 2
  | .keeping => 3

theorem MoveWide.ofBits?_opcode (op : MoveWide) : ofBits? op.opcode = some op := by
  cases op <;> rfl

def Bitfield.opcode : Bitfield → BitVec 2
  | .signed => 0
  | .insert => 1
  | .unsigned => 2

theorem Bitfield.ofBits?_opcode (op : Bitfield) : ofBits? op.opcode = some op := by
  cases op <;> rfl

theorem logicalShifted_eq (op : Logical) (inverted : Bool) (dst src1 src2 : Register) (kind : ShiftKind)
    (amount : BitVec 6) :
    logicalShifted op inverted .w64 dst src1 src2 kind (amount.setWidth 32) =
      field 31 1#1 ||| field 29 op.opcode ||| field 21 (BitVec.ofBool inverted) ||| field 24 0b01010#5 |||
        field 10 amount ||| field 22 kind.encoding ||| field 0 dst.number ||| field 5 src1.number |||
        field 16 src2.number := by
  rw [← rd_eq]
  cases op <;> cases inverted <;> rfl

theorem decode_logicalShifted (op : Logical) (inverted : Bool) (dst src1 src2 : Register) (kind : ShiftKind)
    (amount : BitVec 6) :
    decode (logicalShifted op inverted .w64 dst src1 src2 kind (amount.setWidth 32)) =
      some (.logicalShifted op inverted 64 dst.number src1.number src2.number kind amount.toNat) := by
  have hkind : ShiftKind.ofBits kind.encoding = kind := by cases kind <;> rfl
  have hinverted : decide (BitVec.ofBool inverted = 1) = inverted := by cases inverted <;> rfl
  rw [logicalShifted_eq]
  simp (disch := omega) only [decode, logicalShifted?, width, BitVec.extractLsb'_or, extractLsb'_field,
    extractLsb'_field_apart, BitVec.zero_or, BitVec.or_zero, op.ofBits_opcode, hkind, hinverted]
  exact if_pos amount.isLt

theorem moveWide_eq (op : MoveWide) (dst : Register) (chunk : BitVec 16) {i : Nat} (hi : i < 4) :
    moveWide op .w64 dst (chunk.setWidth 32) (BitVec.ofNat 32 (16 * i)) =
      field 31 1#1 ||| field 29 op.opcode ||| (field 24 0b10010#5 ||| field 23 1#1) |||
        field 0 dst.number ||| field 5 chunk ||| field 21 (BitVec.ofNat 2 i) := by
  have hshift : (BitVec.ofNat 32 (16 * i)).sshiftRight 4 <<< 21 = field 21 (BitVec.ofNat 2 i) := by
    interval_cases i <;> rfl
  rw [moveWide, hshift, ← rd_eq]
  cases op <;> rfl

theorem decode_moveWide (op : MoveWide) (dst : Register) (chunk : BitVec 16) {i : Nat} (hi : i < 4) :
    decode (moveWide op .w64 dst (chunk.setWidth 32) (BitVec.ofNat 32 (16 * i))) =
      some (.moveWide op 64 dst.number chunk (16 * i)) := by
  have hamount : (BitVec.ofNat 2 i).toNat = i := by
    rw [BitVec.toNat_ofNat, Nat.mod_eq_of_lt hi]
  rw [moveWide_eq op dst chunk hi]
  simp (disch := omega) only [decode, moveWide?, width, BitVec.extractLsb'_or, extractLsb'_field,
    extractLsb'_field_apart, BitVec.zero_or, BitVec.or_zero, op.ofBits?_opcode, hamount]
  exact if_pos (show 16 * i < 64 by omega)

theorem fields_eq {p : Repetition} (hp : p.Valid) :
    p.fields = field 22 (BitVec.ofBool p.isWide) ||| field 16 (BitVec.ofNat 6 p.rotation) |||
      field 10 p.sizeAndOnes := by
  have hrotation : (BitVec.ofNat 6 p.rotation).setWidth 32 = BitVec.ofNat 32 p.rotation := by
    have := hp.rotation_lt.trans_le hp.size_le
    apply BitVec.eq_of_toNat_eq
    simp
    omega
  rw [Repetition.fields, field, field, field, hrotation]

theorem decodeFields_eq (m : Nat) (i : Instr) :
    decodeFields m i =
      decodeBitmask m (i.extractLsb' 22 1 = 1) (i.extractLsb' 16 6) (i.extractLsb' 10 6) := by
  have hwide : i.getLsbD 22 = decide (i.extractLsb' 22 1 = 1) := by
    rw [Bool.eq_iff_iff, decide_eq_true_iff]
    constructor
    · intro h
      apply BitVec.eq_of_getLsbD_eq
      intro j hj
      obtain rfl : j = 0 := by omega
      simp [h]
    · intro h
      have := congrArg (·.getLsbD 0) h
      simpa using this
  rw [decodeFields, hwide]

theorem decode_logicalImmediate (op : Logical) (dst src : Register) {p : Repetition} (hp : p.Valid) :
    ∃ i, logicalImmediate op .w64 dst src p.value = .ok i ∧
      decode i = some (.logicalImmediate op 64 dst.number src.number p.value) := by
  have hfield : logicalField true p.value = .ok p.fields := by
    rw [logicalField, LogicalImmediate.find?, if_pos rfl, Repetition.find?_eq_some_iff.mpr ⟨hp, rfl⟩]
  have hvalue := Repetition.decodeFields_fields hp hp.size_le
  rw [← hp.value_eq, decodeFields_eq, fields_eq hp] at hvalue
  obtain ⟨i, hi⟩ : ∃ i, i = field 31 1#1 ||| field 29 op.opcode ||| field 24 0b10010#5 |||
      (field 22 (BitVec.ofBool p.isWide) ||| field 16 (BitVec.ofNat 6 p.rotation) |||
        field 10 p.sizeAndOnes) ||| field 0 dst.number ||| field 5 src.number := ⟨_, rfl⟩
  have hwidth : i.width = 64 := by
    rw [hi]
    simp (disch := omega) only [width, BitVec.extractLsb'_or, extractLsb'_field, extractLsb'_field_apart,
      BitVec.or_zero]
    rfl
  refine ⟨i, ?_, ?_⟩
  · rw [hi, ← rd_eq, ← fields_eq hp]
    simp only [logicalImmediate, decide_true, if_true, hfield]
    cases op <;> rfl
  · have hgroup : i.decode = i.logicalImmediate? := by
      rw [hi]
      simp (disch := omega) only [decode, BitVec.extractLsb'_or, extractLsb'_field,
        extractLsb'_field_apart, BitVec.zero_or, BitVec.or_zero]
    rw [hgroup, logicalImmediate?, hwidth, decodeFields_eq, hi]
    simp (disch := omega) only [BitVec.extractLsb'_or, extractLsb'_field, extractLsb'_field_apart,
      BitVec.zero_or, BitVec.or_zero, op.ofBits_opcode] at hvalue ⊢
    exact congrArg _ hvalue

end Instr

end CompilerKit.Aarch64
