import CompilerKit.Bytecode.Stream
import CompilerKit.Proofs.Assembly.Code

/-! # How instructions are laid out

An instruction is its opcode and its operands; numbers have their highest byte first. `wide` in front
of an instruction doubles the size of its operands. The tables of the two switches start at a multiple
of four, so that the bytes in front of them depend on the place of the instruction. What a cursor has
to tell of an instruction under it is said for each kind of operands.
-/

namespace CompilerKit.Bytecode

/-- The `n` lowest bytes of a number, the highest first. -/
def bigEndian {w : Nat} (n : Nat) (x : BitVec w) : Code := (Code.littleEndian n x).reverse

/-- What stands behind the opcode, for the instructions that have a length of their own. -/
inductive Operands where
  | bare
  | byte (x : BitVec 8)
  | short (x : BitVec 16)
  | nearPool (index : BitVec 8)
  | pool (index : BitVec 16)
  | slot (index : BitVec 8)
  | increment (index amount : BitVec 8)
  | branch (offset : BitVec 16)
  | farBranch (offset : BitVec 32)
  /-- The second number is the count of arguments, the third one is not used. -/
  | interface (index : BitVec 16) (count unused : BitVec 8)
  /-- The index takes four bytes; the class file leaves the lower two of them zero. -/
  | dynamic (index unused : BitVec 16)
  | elementType (type : BitVec 8)
  | dimensions (index : BitVec 16) (count : BitVec 8)

/-- The loads, the stores and `ret`. -/
def slotOpcodes : List Nat := List.range' 21 5 ++ List.range' 54 5 ++ [ret]

namespace Operands

def opcodes : Operands → List Nat
  | bare => List.range' 0 16 ++ List.range' 26 28 ++ List.range' 59 73 ++ List.range' 133 20 ++
    List.range' 172 6 ++ [190, 191, 194, 195]
  | byte _ => [16]
  | short _ => [17]
  | nearPool _ => [ldc]
  | pool _ => [19, 20] ++ List.range' 178 7 ++ [187, 189, 192, 193]
  | slot _ => slotOpcodes
  | increment _ _ => [iinc]
  | branch _ => List.range' 153 16 ++ [198, 199]
  | farBranch _ => [gotoWide, jsrWide]
  | interface _ _ _ => [185]
  | dynamic _ _ => [186]
  | elementType _ => [188]
  | dimensions _ _ => [197]

def bytes : Operands → Code
  | bare => []
  | byte x | nearPool x | slot x | elementType x => [x]
  | short x | pool x | branch x => bigEndian 2 x
  | farBranch x => bigEndian 4 x
  | increment i d => [i, d]
  | interface i n u => bigEndian 2 i ++ [n, u]
  | dynamic i u => bigEndian 2 i ++ bigEndian 2 u
  | dimensions i n => bigEndian 2 i ++ [n]

/-- The cursor tells the operands. Positions are numbers of 32 bits, and the sum of two wraps. -/
def AreReadBy (c : Cursor) : Operands → Prop
  | bare => True
  | byte x => c.byte = .ok x.toInt
  | short x => c.short = .ok x.toInt
  | nearPool i => c.poolIndex = .ok i.toNat
  | pool i => c.poolIndex = .ok i.toNat
  | slot i => c.localIndex = .ok i.toNat
  | increment i d => c.localIndex = .ok i.toNat ∧ c.increment = .ok d.toInt
  | branch d => c.branchTarget = .ok (wrap (c.bci + d.toInt))
  | farBranch d => c.branchTarget = .ok (wrap (c.bci + d.toInt))
  | interface i n _ => c.poolIndex = .ok i.toNat ∧ unsignedAt c.code (c.bci + 3) 1 = .ok n.toNat
  | dynamic i u => c.poolIndex = .ok i.toNat ∧ c.word = .ok (i ++ u).toInt
  | elementType t => c.elementType = .ok t.toNat
  | dimensions i n => c.poolIndex = .ok i.toNat ∧ unsignedAt c.code (c.bci + 3) 1 = .ok n.toNat

end Operands

/-- The switch has a default and a list of cases, each of them a key and an offset. -/
structure Switch.Lists (s : Switch) (fallback : BitVec 32) (cases : List (Int × BitVec 32))
    (length : Nat) : Prop where
  numberOfCases : s.numberOfCases = .ok cases.length
  key : ∀ i (h : i < cases.length), s.keyAt i = .ok cases[i].1
  offset : ∀ i (h : i < cases.length), s.offsetAt i = .ok cases[i].2.toInt
  target : ∀ i (h : i < cases.length), s.targetAt i = .ok (wrap (s.bci + cases[i].2.toInt))
  defaultOffset : s.defaultOffset = .ok fallback.toInt
  defaultTarget : s.defaultTarget = .ok (wrap (s.bci + fallback.toInt))
  size : s.size = .ok length

inductive Instruction where
  | simple (opcode : Nat) (operands : Operands) (fits : opcode ∈ operands.opcodes)
  | wideSlot (opcode : Nat) (index : BitVec 16) (fits : opcode ∈ slotOpcodes)
  | wideIncrement (index amount : BitVec 16)
  /-- Of the padding only as many bytes are used as the place of the instruction asks for. -/
  | tableSwitch (padding : Vector Byte 3) (fallback low high : BitVec 32)
      (offsets : List (BitVec 32)) (ordered : low.toInt ≤ high.toInt)
      (filled : (offsets.length : Int) = high.toInt - low.toInt + 1)
  | lookupSwitch (padding : Vector Byte 3) (fallback : BitVec 32)
      (pairs : List (BitVec 32 × BitVec 32))

namespace Instruction

def opcode : Instruction → Nat
  | simple opcode _ _ | wideSlot opcode _ _ => opcode
  | wideIncrement _ _ => iinc
  | tableSwitch .. => Bytecode.tableSwitch
  | lookupSwitch .. => Bytecode.lookupSwitch

def leading : Instruction → Nat
  | wideSlot .. | wideIncrement .. => wide
  | i => i.opcode

/-- The bytes between the opcode of a switch and its table. -/
def pad (padding : Vector Byte 3) (position : Nat) : Code :=
  padding.toList.take (3 - position % 4)

def rest (position : Nat) : Instruction → Code
  | simple _ operands _ => operands.bytes
  | wideSlot opcode i _ => BitVec.ofNat 8 opcode :: bigEndian 2 i
  | wideIncrement i d => BitVec.ofNat 8 iinc :: bigEndian 2 i ++ bigEndian 2 d
  | tableSwitch padding fallback low high offsets _ _ =>
    pad padding position ++ bigEndian 4 fallback ++ bigEndian 4 low ++ bigEndian 4 high ++
      offsets.flatMap (bigEndian 4)
  | lookupSwitch padding fallback pairs =>
    pad padding position ++ bigEndian 4 fallback ++ bigEndian 4 (BitVec.ofNat 32 pairs.length) ++
      pairs.flatMap fun p => bigEndian 4 p.1 ++ bigEndian 4 p.2

def bytes (position : Nat) (i : Instruction) : Code := BitVec.ofNat 8 i.leading :: i.rest position

/-- The cursor tells the opcode and the operands. -/
def IsReadBy (c : Cursor) (i : Instruction) : Prop :=
  c.current = .ok i.opcode ∧
  match i with
  | simple _ operands _ => operands.AreReadBy c
  | wideSlot _ i _ => c.localIndex = .ok i.toNat
  | wideIncrement i d => c.localIndex = .ok i.toNat ∧ c.increment = .ok d.toInt
  | tableSwitch padding fallback low high offsets h h' =>
    Switch.range ⟨c.code, c.bci, true⟩ = .ok (low.toInt, high.toInt) ∧
    Switch.Lists ⟨c.code, c.bci, true⟩ fallback (offsets.mapIdx fun i d => (low.toInt + i, d))
      ((tableSwitch padding fallback low high offsets h h').bytes c.bci.toNat).length
  | lookupSwitch padding fallback pairs =>
    Switch.Lists ⟨c.code, c.bci, false⟩ fallback (pairs.map fun p => (p.1.toInt, p.2))
      ((lookupSwitch padding fallback pairs).bytes c.bci.toNat).length

end Instruction

def layout (position : Nat) : List Instruction → Code
  | [] => []
  | i :: is => i.bytes position ++ layout (position + (i.bytes position).length) is

def starts (position : Nat) : List Instruction → List Nat
  | [] => []
  | i :: is => position :: starts (position + (i.bytes position).length) is

theorem exists_operands {opcode : Nat} (h : opcode < 202) :
    opcode ∈ [tableSwitch, lookupSwitch, wide] ∨ ∃ o : Operands, opcode ∈ o.opcodes := by
  have hall : ∀ n < 202, n ∈ [tableSwitch, lookupSwitch, wide] ∨
      ∃ o ∈ [Operands.bare, .byte 0, .short 0, .nearPool 0, .pool 0, .slot 0, .increment 0 0, .branch 0,
        .farBranch 0, .interface 0 0 0, .dynamic 0 0, .elementType 0, .dimensions 0 0], n ∈ o.opcodes := by
    decide +kernel
  rcases hall opcode h with hswitch | ⟨o, _, ho⟩
  · exact .inl hswitch
  · exact .inr ⟨o, ho⟩

/-! Sizes. -/

@[simp] theorem length_bigEndian {w : Nat} (n : Nat) (x : BitVec w) : (bigEndian n x).length = n := by
  rw [bigEndian, List.length_reverse, Code.length_littleEndian]

theorem lengthOf_eq {o : Operands} {opcode : Nat} (h : opcode ∈ o.opcodes) :
    lengthOf opcode = o.bytes.length + 1 := by
  revert opcode
  cases o
  all_goals
    simp only [Operands.bytes, List.length_append, length_bigEndian, List.length_cons, List.length_nil]
    simp only [Operands.opcodes]
    decide +kernel

theorem Operands.opcode_lt {o : Operands} {opcode : Nat} (h : opcode ∈ o.opcodes) :
    opcode < 202 ∧ opcode ∉ [tableSwitch, lookupSwitch, wide] := by
  revert opcode
  cases o
  all_goals
    simp only [Operands.opcodes]
    decide +kernel

namespace Instruction

theorem leading_lt (i : Instruction) : i.leading < 202 := by
  cases i with
  | simple opcode o fits => exact (Operands.opcode_lt fits).1
  | wideSlot | wideIncrement => exact (by decide : wide < 202)
  | tableSwitch => exact (by decide : Bytecode.tableSwitch < 202)
  | lookupSwitch => exact (by decide : Bytecode.lookupSwitch < 202)

theorem length_pad (padding : Vector Byte 3) (position : Nat) :
    (pad padding position).length = 3 - position % 4 := by
  rw [pad, List.length_take, Vector.length_toList]
  omega

theorem length_bytes (position : Nat) (i : Instruction) :
    (i.bytes position).length = (i.rest position).length + 1 := rfl

end Instruction

theorem length_le_layout (position : Nat) (is : List Instruction) :
    is.length ≤ (layout position is).length := by
  induction is generalizing position with
  | nil => exact Nat.le_refl 0
  | cons i is ih =>
    have hrest := ih (position + (i.bytes position).length)
    rw [layout, List.length_append, List.length_cons, Instruction.length_bytes]
    rw [Instruction.length_bytes] at hrest
    omega

/-! Reading numbers. -/

theorem unsignedOf_reverse (bytes : Code) : unsignedOf bytes.reverse = Code.toNat bytes := by
  rw [unsignedOf, List.foldl_reverse]
  induction bytes with
  | nil => rfl
  | cons b bs ih => rw [List.foldr_cons, ih, Code.toNat, Nat.add_comm]

theorem unsignedOf_bigEndian {w n : Nat} (hw : w = 8 * n) (x : BitVec w) :
    unsignedOf (bigEndian n x) = x.toNat := by
  subst hw
  rw [bigEndian, unsignedOf_reverse, Code.toNat_littleEndian, Nat.mod_eq_of_lt x.isLt]

theorem signedOf_bigEndian {w n : Nat} (hw : w = 8 * n) (x : BitVec w) :
    signedOf (bigEndian n x) = x.toInt := by
  rw [signedOf, unsignedOf_bigEndian hw, length_bigEndian]
  subst hw
  rw [BitVec.ofNat_toNat, BitVec.setWidth_eq]

theorem bytesAt_of_holds {code bytes : Code} {p : Nat} (h : code.Holds p bytes) :
    bytesAt code p bytes.length = .ok bytes := by
  induction bytes generalizing p with
  | nil => rfl
  | cons b bs ih =>
    obtain ⟨hfirst, hrest⟩ := Code.holds_append_iff.mp (show code.Holds p ([b] ++ bs) from h)
    have hbyte : byteAt code p = .ok b := by
      have hget := hfirst 0 Nat.one_pos
      simp only [Nat.add_zero, List.getElem?_cons_zero] at hget
      simp only [byteAt, hget]
    have hbytes : bytesAt code (p + 1) bs.length = .ok bs := ih hrest
    rw [List.length_cons, bytesAt, hbyte]
    simp only [bind, Except.bind, hbytes]
    rfl

section Fields

variable {code : Code} {p w n : Nat} {x : BitVec w} {i : Int}
  (h : code.Holds p (bigEndian n x)) (hi : i = p) (hw : w = 8 * n)

include h hi hw

theorem unsignedAt_of_holds : unsignedAt code i n = .ok (x.toNat : Int) := by
  have hbytes := bytesAt_of_holds h
  rw [length_bigEndian] at hbytes
  rw [unsignedAt, hi, hbytes, ← unsignedOf_bigEndian hw x]
  rfl

theorem signedAt_of_holds : signedAt code i n = .ok x.toInt := by
  have hbytes := bytesAt_of_holds h
  rw [length_bigEndian] at hbytes
  rw [signedAt, hi, hbytes, ← signedOf_bigEndian hw x]
  rfl

end Fields

theorem bigEndian_one (x : BitVec 8) : bigEndian 1 x = [x] := by
  rw [bigEndian, Code.littleEndian, Code.littleEndian, BitVec.setWidth_eq]
  rfl

theorem bigEndian_append (x y : BitVec 16) :
    bigEndian 4 (x ++ y) = bigEndian 2 x ++ bigEndian 2 y := by
  simp only [bigEndian, Code.littleEndian, List.reverse_cons, List.reverse_nil, List.nil_append,
    List.cons_append, List.cons.injEq, and_true]
  refine ⟨?_, ?_, ?_, ?_⟩
  all_goals
    apply BitVec.eq_of_getLsbD_eq
    intro i hi
    simp only [BitVec.getLsbD_setWidth, BitVec.getLsbD_ushiftRight, BitVec.getLsbD_append]
    grind

end CompilerKit.Bytecode
