import CompilerKit.Aarch64.Instruction
import CompilerKit.Proofs.Aarch64.MoveConstant
import CompilerKit.Proofs.Numeric

/-! # Additions and subtractions -/

namespace CompilerKit.Aarch64

open Instr Sequence

/-- The sum of two numbers and a carry, and the flags that it sets. -/
def addWithCarry {w : Nat} (x y : BitVec w) (carry : Bool) : BitVec w × Flags :=
  let z := x + y + BitVec.ofNat w carry.toNat
  (z, { negative := z.msb
        zero := z = 0
        carry := x.toNat + y.toNat + carry.toNat ≠ z.toNat
        overflow := x.toInt + y.toInt + carry.toNat ≠ z.toInt })

def Extension.ofBits : BitVec 3 → Extension
  | 0 => .uxtb
  | 1 => .uxth
  | 2 => .uxtw
  | 3 => .uxtx
  | 4 => .sxtb
  | 5 => .sxth
  | 6 => .sxtw
  | _ => .sxtx

theorem Extension.ofBits_encoding (e : Extension) : ofBits e.encoding = e := by
  cases e <;> rfl

/-- The low part of a register, extended to the width of the operation. -/
def Extension.onWord {w : Nat} (e : Extension) (x : BitVec w) : BitVec w :=
  match e with
  | .uxtb => (x.setWidth 8).setWidth w
  | .uxth => (x.setWidth 16).setWidth w
  | .uxtw => (x.setWidth 32).setWidth w
  | .uxtx => (x.setWidth 64).setWidth w
  | .sxtb => (x.setWidth 8).signExtend w
  | .sxth => (x.setWidth 16).signExtend w
  | .sxtw => (x.setWidth 32).signExtend w
  | .sxtx => (x.setWidth 64).signExtend w

namespace Instr.AddSub

def opcode : AddSub → BitVec 2
  | .add => 0
  | .adds => 1
  | .sub => 2
  | .subs => 3

def ofBits : BitVec 2 → AddSub
  | 0 => .add
  | 1 => .adds
  | 2 => .sub
  | _ => .subs

theorem ofBits_opcode (op : AddSub) : ofBits op.opcode = op := by
  cases op <;> rfl

def onWords {w : Nat} (op : AddSub) (x y : BitVec w) : BitVec w × Flags :=
  match op with
  | .add | .adds => addWithCarry x y false
  | .sub | .subs => addWithCarry x (~~~y) true

end Instr.AddSub

/-- What is added or subtracted. -/
inductive Addend where
  | immediate (n : Nat)
  | shifted (r : BitVec 5) (kind : ShiftKind) (amount : Nat)
  | extended (r : BitVec 5) (e : Extension) (amount : Nat)

/-- An addition or subtraction as the processor reads it. -/
structure Addition where
  op : AddSub
  width : Nat
  dst : BitVec 5
  src : BitVec 5
  addend : Addend

/-- Reads a register, where number 31 is the stack pointer. -/
def Machine.readOrStack (m : Machine) (w : Nat) (n : BitVec 5) : BitVec w :=
  if n = 31 then m.stackPointer.setWidth w else m.read w n

def Addend.value (m : Machine) (w : Nat) : Addend → BitVec w
  | immediate n => BitVec.ofNat w n
  | shifted r kind amount => kind.onWord (m.read w r) amount
  | extended r e amount => e.onWord (m.read w r) <<< amount

/-- Only the forms without a shift know the stack pointer, and only those that leave the flags alone can
write it. -/
def Addition.execute (m : Machine) : Addition → Machine
  | ⟨op, w, dst, src, .shifted r kind amount⟩ =>
    let z := op.onWords (m.read w src) (Addend.value m w (.shifted r kind amount))
    match op with
    | .add | .sub => m.write w dst z.1
    | .adds | .subs => { m.write w dst z.1 with flags := z.2 }
  | ⟨op, w, dst, src, addend⟩ =>
    let z := op.onWords (m.readOrStack w src) (addend.value m w)
    match op with
    | .add | .sub => m.writeOrStack w dst z.1
    | .adds | .subs => { m.write w dst z.1 with flags := z.2 }

namespace Instr

variable (i : Instr)

/-- Twelve bits, at the end or above twelve zeros. -/
def immediateAddend? : Option Addend :=
  match i.extractLsb' 22 2 with
  | 0#2 => some (.immediate (i.extractLsb' 10 12).toNat)
  | 1#2 => some (.immediate (4096 * (i.extractLsb' 10 12).toNat))
  | _ => none

def shiftedAddend? : Option Addend :=
  let amount := (i.extractLsb' 10 6).toNat
  if i.extractLsb' 22 2 ≠ 3#2 ∧ amount < i.width then
    some (.shifted (i.extractLsb' 16 5) (.ofBits (i.extractLsb' 22 2)) amount)
  else none

def extendedAddend? : Option Addend :=
  let amount := (i.extractLsb' 10 3).toNat
  if i.extractLsb' 22 2 = 0#2 ∧ amount ≤ 4 then
    some (.extended (i.extractLsb' 16 5) (.ofBits (i.extractLsb' 13 3)) amount)
  else none

def addition? : Option Addition :=
  let make := Addition.mk (.ofBits (i.extractLsb' 29 2)) i.width (i.extractLsb' 0 5) (i.extractLsb' 5 5)
  match i.extractLsb' 24 5 with
  | 0b10001#5 => i.immediateAddend?.map make
  | 0b01011#5 => (if i.extractLsb' 21 1 = 0#1 then i.shiftedAddend? else i.extendedAddend?).map make
  | _ => none

end Instr

namespace Machine

def step (m : Machine) (i : Instr) : Option Machine :=
  match i.decode with
  | some op => some (op.execute m)
  | none => i.addition?.map (·.execute m)

def steps (m : Machine) (is : List Instr) : Option Machine := is.foldlM step m

variable {m : Machine} {i : Instr}

theorem step_of_decode {op : Operation} (h : i.decode = some op) : m.step i = some (op.execute m) := by
  rw [step, h]

/-- No instruction is in both groups. -/
theorem step_of_addition {s : Addition} (h : i.addition? = some s) : m.step i = some (s.execute m) := by
  have hnone : i.decode = none := by
    unfold addition? at h
    dsimp only at h
    split at h
    case h_1 hgroup =>
      rw [decode, hgroup]
      rfl
    case h_2 hgroup =>
      rw [decode, hgroup]
      rfl
    case h_3 => cases h
  rw [step, hnone, h]
  rfl

@[simp] theorem steps_nil (m : Machine) : m.steps [] = some m := rfl

theorem steps_one (m : Machine) (i : Instr) : m.steps [i] = m.step i := by
  simp [steps]

theorem steps_append (m : Machine) (is js : List Instr) : m.steps (is ++ js) = (m.steps is).bind (·.steps js) :=
  List.foldlM_append

end Machine

/-! The encoders. -/

namespace Instr

theorem general_eq (w : Width) : w.general = field 31 (BitVec.ofBool (w = .w64)) := by
  cases w <;> rfl

theorem bits_eq (op : AddSub) : op.bits = field 29 op.opcode := by
  cases op <;> rfl

theorem exists_arithmeticField {n : BitVec 32} (hn : isArithmetic n) :
    ∃ (high : Bool) (c : BitVec 12), arithmeticField n = field 10 c ||| field 22 (if high then 1#2 else 0#2) ∧
      n.toNat = if high then 4096 * c.toNat else c.toNat := by
  rw [arithmeticField]
  split
  case isTrue hlow =>
    refine ⟨false, n.setWidth 12, ?_, ?_⟩
    · rw [field, Numeric.setWidth_of_fitsUnsigned hlow]
      exact BitVec.or_zero.symm
    · rw [if_neg (by decide), BitVec.toNat_setWidth, Nat.mod_eq_of_lt ((Numeric.fitsUnsigned_iff n).mp hlow)]
  case isFalse hlow =>
    have hhigh : Numeric.fitsUnsigned 12 (n >>> 12) ∧ n &&& 0xFFF = 0 := by
      simpa [isArithmetic, hlow] using hn
    refine ⟨true, (n >>> 12).setWidth 12, ?_, ?_⟩
    · rw [field, Numeric.setWidth_of_fitsUnsigned hhigh.1]
      rfl
    · have hlt := (Numeric.fitsUnsigned_iff (n >>> 12)).mp hhigh.1
      have hmod := congrArg BitVec.toNat hhigh.2
      rw [BitVec.toNat_and, show (0xFFF : BitVec 32).toNat = 2 ^ 12 - 1 from rfl,
        Nat.and_two_pow_sub_one_eq_mod, show (0 : BitVec 32).toNat = 0 from rfl] at hmod
      rw [if_pos rfl, BitVec.toNat_setWidth, Nat.mod_eq_of_lt hlt, BitVec.toNat_ushiftRight,
        Nat.shiftRight_eq_div_pow]
      omega

section

variable (op : AddSub) (w : Width) (dst src : Register)

theorem addition?_addSubImmediate {n : BitVec 32} (hn : isArithmetic n) :
    (addSubImmediate op w dst src n).addition? =
      some ⟨op, w.bits, dst.number, src.number, .immediate n.toNat⟩ := by
  obtain ⟨high, c, hfield, hnumber⟩ := exists_arithmeticField hn
  have hword : addSubImmediate op w dst src n = field 31 (BitVec.ofBool (w = .w64)) ||| field 29 op.opcode |||
      field 24 0b10001#5 ||| (field 10 c ||| field 22 (if high then 1#2 else 0#2)) ||| field 0 dst.number |||
        field 5 src.number := by
    rw [addSubImmediate, hfield, general_eq, bits_eq, rd_eq]
    rfl
  rw [hword]
  simp (disch := omega) only [addition?, immediateAddend?, width, BitVec.extractLsb'_or, extractLsb'_field,
    extractLsb'_field_apart, BitVec.zero_or, BitVec.or_zero, op.ofBits_opcode, width_eq]
  rw [hnumber]
  cases high <;> rfl

theorem addition?_addSubShifted (src' : Register) {kind : ShiftKind} (hkind : kind ≠ .ror) {amount : BitVec 6}
    (hamount : amount.toNat < w.bits) :
    (addSubShifted op w dst src src' kind (amount.setWidth 32)).addition? =
      some ⟨op, w.bits, dst.number, src.number, .shifted src'.number kind amount.toNat⟩ := by
  have hword : addSubShifted op w dst src src' kind (amount.setWidth 32) =
      field 31 (BitVec.ofBool (w = .w64)) ||| field 29 op.opcode ||| field 24 0b01011#5 ||| field 10 amount |||
        field 22 kind.encoding ||| field 0 dst.number ||| field 5 src.number ||| field 16 src'.number := by
    rw [addSubShifted, general_eq, bits_eq, rd_eq]
    rfl
  have hring : kind.encoding ≠ 3#2 := by
    cases kind
    case ror => exact absurd rfl hkind
    all_goals decide
  have hread : ShiftKind.ofBits kind.encoding = kind := by cases kind <;> rfl
  rw [hword]
  simp (disch := omega) only [addition?, shiftedAddend?, width, BitVec.extractLsb'_or, extractLsb'_field,
    extractLsb'_field_apart, BitVec.zero_or, BitVec.or_zero, op.ofBits_opcode, width_eq, hread, if_true]
  rw [if_pos ⟨hring, hamount⟩]
  rfl

theorem addition?_addSubExtended (src' : Register) (e : Extension) {amount : BitVec 3} (hamount : amount.toNat ≤ 4) :
    (addSubExtended op w dst src src' e (amount.setWidth 32)).addition? =
      some ⟨op, w.bits, dst.number, src.number, .extended src'.number e amount.toNat⟩ := by
  have hword : addSubExtended op w dst src src' e (amount.setWidth 32) =
      field 31 (BitVec.ofBool (w = .w64)) ||| field 29 op.opcode ||| (field 24 0b01011#5 ||| field 21 1#1) |||
        field 10 amount ||| field 13 e.encoding ||| field 0 dst.number ||| field 5 src.number |||
          field 16 src'.number := by
    rw [addSubExtended, general_eq, bits_eq, rd_eq]
    rfl
  rw [hword]
  simp (disch := omega) only [addition?, extendedAddend?, width, BitVec.extractLsb'_or, extractLsb'_field,
    extractLsb'_field_apart, BitVec.zero_or, BitVec.or_zero, op.ofBits_opcode, width_eq, e.ofBits_encoding]
  rw [if_neg (by decide), if_pos ⟨trivial, hamount⟩]
  rfl

end
end Instr

/-! Execution. -/

theorem addWithCarry_false {w : Nat} (x y : BitVec w) : (addWithCarry x y false).1 = x + y :=
  BitVec.add_zero _

theorem addWithCarry_not {w : Nat} (x y : BitVec w) : (addWithCarry x (~~~y) true).1 = x - y := by
  have hneg : -y = ~~~y + 1#w := BitVec.neg_eq_not_add y
  rw [BitVec.sub_eq_add_neg, hneg, ← BitVec.add_assoc]
  rfl

namespace Machine

variable (m : Machine) (w : Width) (dst src : Register)

theorem step_addShifted (src' : Register) {amount : BitVec 6} (hamount : amount.toNat < w.bits) :
    m.step (addSubShifted .add w dst src src' .lsl (amount.setWidth 32)) = some (m.write w.bits dst.number
      (m.read w.bits src.number + m.read w.bits src'.number <<< amount.toNat)) := by
  have hread := addition?_addSubShifted .add w dst src src' (show ShiftKind.lsl ≠ .ror by decide) hamount
  rw [step_of_addition hread, ← addWithCarry_false]
  rfl

theorem step_addExtended (src' : Register) (e : Extension) {amount : BitVec 3} (hamount : amount.toNat ≤ 4) :
    m.step (addSubExtended .add w dst src src' e (amount.setWidth 32)) = some (m.writeOrStack w.bits dst.number
      (m.readOrStack w.bits src.number + e.onWord (m.read w.bits src'.number) <<< amount.toNat)) := by
  rw [step_of_addition (addition?_addSubExtended .add w dst src src' e hamount), ← addWithCarry_false]
  rfl

variable {n : BitVec 32} (hn : isArithmetic n)

include hn

theorem step_add : m.step (addSubImmediate .add w dst src n) = some (m.writeOrStack w.bits dst.number
    (m.readOrStack w.bits src.number + BitVec.ofNat w.bits n.toNat)) := by
  rw [step_of_addition (addition?_addSubImmediate .add w dst src hn), ← addWithCarry_false]
  rfl

theorem step_sub : m.step (addSubImmediate .sub w dst src n) = some (m.writeOrStack w.bits dst.number
    (m.readOrStack w.bits src.number - BitVec.ofNat w.bits n.toNat)) := by
  rw [step_of_addition (addition?_addSubImmediate .sub w dst src hn), ← addWithCarry_not]
  rfl

theorem step_adds : m.step (addSubImmediate .adds w dst src n) = some { m.write w.bits dst.number
    (m.readOrStack w.bits src.number + BitVec.ofNat w.bits n.toNat) with
      flags := (addWithCarry (m.readOrStack w.bits src.number) (BitVec.ofNat w.bits n.toNat) false).2 } := by
  rw [step_of_addition (addition?_addSubImmediate .adds w dst src hn), ← addWithCarry_false]
  rfl

end Machine

/-! Constants. -/

theorem toInt_magnitude {n : BitVec 32} (hn : n ≠ BitVec.intMin 32) :
    (if n.slt 0 then -n else n).toInt = n.toInt.natAbs := by
  split
  case isTrue hneg =>
    have hlt : n.toInt < 0 := BitVec.slt_iff_toInt_lt.mp hneg
    rw [BitVec.toInt_neg_of_ne_intMin hn]
    omega
  case isFalse hpos =>
    have hge : ¬n.toInt < 0 := fun h => hpos (BitVec.slt_iff_toInt_lt.mpr h)
    omega

theorem toNat_magnitude {n : BitVec 32} (hn : n ≠ BitVec.intMin 32) :
    (if n.slt 0 then -n else n).toNat = n.toInt.natAbs := by
  have hint := toInt_magnitude hn
  generalize (if n.slt 0 then -n else n) = k at hint ⊢
  have hnat := BitVec.toInt_eq_toNat_cond k
  split at hnat <;> omega

/-- A constant can be added if its size fits; the smallest number has no size. -/
theorem isArithmeticConstant_iff {n : BitVec 32} : isArithmeticConstant (n.signExtend 64) ↔
    n ≠ BitVec.intMin 32 ∧ isArithmetic (if n.slt 0 then -n else n) := by
  by_cases hn : n = BitVec.intMin 32
  · subst hn
    decide
  have hextend : (n.signExtend 64).toInt = n.toInt := BitVec.toInt_signExtend_of_le (by decide)
  have hsize : Word.abs (n.signExtend 64) = (if n.slt 0 then -n else n).signExtend 64 := by
    have hbound := BitVec.le_toInt n
    apply BitVec.eq_of_toInt_eq
    rw [Word.toInt_abs (by omega), hextend, BitVec.toInt_signExtend_of_le (by decide), toInt_magnitude hn]
  rw [isArithmeticConstant, hsize]
  generalize (if n.slt 0 then -n else n) = k
  have hback : (k.signExtend 64).setWidth 32 = k := Word.low_ofLow (by decide) k
  simp [hback, hn]

theorem isArithmeticConstant_of_lt {n : BitVec 32} (hn : isArithmetic n) (hlt : n.toNat < 2 ^ 31) :
    isArithmeticConstant (n.signExtend 64) := by
  have hint : n.toInt = n.toNat := BitVec.toInt_eq_toNat_of_lt (by omega)
  have hpos : ¬n.slt 0 := by
    rw [BitVec.slt_iff_toInt_lt, hint]
    exact Int.not_lt.mpr (Int.natCast_nonneg _)
  refine isArithmeticConstant_iff.mpr ⟨?_, ?_⟩
  · rintro rfl
    exact absurd hlt (by decide)
  · rwa [if_neg hpos]

theorem isArithmetic_of_lt {n : BitVec 32} (hn : n.toNat < 2 ^ 12) : isArithmetic n := by
  have hfits : Numeric.fitsUnsigned 12 n := (Numeric.fitsUnsigned_iff n).mpr hn
  rw [isArithmetic, hfits, Bool.true_or]

theorem addConstant_eq {n : BitVec 32} (hn : isArithmeticConstant (n.signExtend 64)) (up flags : Bool)
    (w : Width) (dst src : Register) :
    addConstant up flags w dst src n = .ok (if dst = src ∧ n = 0 then []
      else [addSubImmediate (if up = !n.slt 0 then if flags then .adds else .add else .sub) w dst src
        (if n.slt 0 then -n else n)]) := by
  rw [addConstant, if_neg (isArithmeticConstant_iff.mp hn).1, apply_ite Except.ok]
  cases hneg : n.slt 0 <;> cases up <;> simp

/-- The sum of a register and a constant, or their difference. -/
def Machine.total (m : Machine) (up : Bool) (w : Nat) (src : BitVec 5) (n : BitVec 32) : BitVec w :=
  if up then m.readOrStack w src + BitVec.ofInt w n.toInt else m.readOrStack w src - BitVec.ofInt w n.toInt

section

variable {n : BitVec 32} (hn : isArithmeticConstant (n.signExtend 64)) (up : Bool)

include hn

theorem total_eq (m : Machine) (w : Nat) (src : BitVec 5) : m.total up w src n =
    if up = !n.slt 0 then m.readOrStack w src + BitVec.ofNat w (if n.slt 0 then -n else n).toNat
    else m.readOrStack w src - BitVec.ofNat w (if n.slt 0 then -n else n).toNat := by
  rw [toNat_magnitude (isArithmeticConstant_iff.mp hn).1, Machine.total]
  cases hneg : n.slt 0
  case false =>
    have hpos : ¬n.toInt < 0 := fun h => by
      rw [BitVec.slt_iff_toInt_lt.mpr h] at hneg
      cases hneg
    rw [show n.toInt = n.toInt.natAbs by omega, BitVec.ofInt_natCast, Int.natAbs_natCast]
    cases up <;> rfl
  case true =>
    have hminus : n.toInt < 0 := BitVec.slt_iff_toInt_lt.mp hneg
    rw [show n.toInt = -(n.toInt.natAbs : Int) by omega, BitVec.ofInt_neg, BitVec.ofInt_natCast,
      Int.natAbs_neg, Int.natAbs_natCast]
    cases up
    · exact sub_neg_eq_add _ _
    · exact (sub_eq_add_neg _ _).symm

/-- Nothing is done where nothing is added to a register in its place. The flags are set by sums only. -/
theorem exists_addConstant (flags : Bool) (w : Width) (dst src : Register) :
    ∃ code, addConstant up flags w dst src n = .ok code ∧ ∀ m : Machine, m.steps code = some (
      if dst = src ∧ n = 0 then m
      else if flags ∧ up = !n.slt 0 then
        { m.write w.bits dst.number (m.total up w.bits src.number n) with
          flags := (addWithCarry (m.readOrStack w.bits src.number)
            (BitVec.ofNat w.bits (if n.slt 0 then -n else n).toNat) false).2 }
      else m.writeOrStack w.bits dst.number (m.total up w.bits src.number n)) := by
  obtain ⟨-, harith⟩ := isArithmeticConstant_iff.mp hn
  refine ⟨_, addConstant_eq hn up flags w dst src, fun m => ?_⟩
  by_cases hidle : dst = src ∧ n = 0
  · rw [if_pos hidle, if_pos hidle, Machine.steps_nil]
  rw [if_neg hidle, if_neg hidle, total_eq hn, Machine.steps_one]
  generalize (if n.slt 0 then -n else n) = k at harith ⊢
  by_cases hup : up = !n.slt 0
  · rw [if_pos hup, if_pos hup]
    cases flags
    · rw [if_neg Bool.false_ne_true, if_neg fun h => Bool.false_ne_true h.1]
      exact m.step_add w dst src harith
    · rw [if_pos rfl, if_pos ⟨rfl, hup⟩]
      exact m.step_adds w dst src harith
  · rw [if_neg hup, if_neg hup, if_neg fun h => hup h.2]
    exact m.step_sub w dst src harith

end

/-! Sums and differences that are to set the flags. -/

theorem sequence?_addConstant (up : Bool) (w : Width) (dst src : Register) (n : BitVec 32) :
    sequence? (if up then "adds" else "subs") [.int (BitVec.ofNat 32 w.bits), .reg dst, .reg src, .int n] =
      some (addConstant up true w dst src n) := by
  cases up <;> cases w <;> rfl

namespace Machine

section

variable (m : Machine) (w : Nat) {r : BitVec 5}

theorem readOrStack_eq (hr : r ≠ 31) : m.readOrStack w r = m.read w r := if_neg hr

theorem total_zero (up : Bool) (r : BitVec 5) : m.total up w r 0 = m.readOrStack w r := by
  cases up
  · exact BitVec.sub_zero _
  · exact BitVec.add_zero _

theorem read_write (hr : r ≠ 31) (hw : w ≤ 64) (x : BitVec w) : (m.write w r x).read w r = x := by
  rw [write, if_neg hr, read, if_neg hr, general_put, BitVec.setWidth_setWidth_of_le x hw, BitVec.setWidth_eq]

theorem general_write {s : BitVec 5} (h : s ≠ r) (x : BitVec w) : (m.write w r x).general s = m.general s := by
  rw [write]
  split
  · rfl
  · exact Function.update_of_ne h _ _

theorem stackPointer_write (r : BitVec 5) (x : BitVec w) : (m.write w r x).stackPointer = m.stackPointer := by
  rw [write]
  split <;> rfl

theorem flags_write (r : BitVec 5) (x : BitVec w) : (m.write w r x).flags = m.flags := by
  rw [write]
  split <;> rfl

end

/-- A register got a value, and no other register changed. -/
structure Receives (m : Machine) (w : Nat) (dst : BitVec 5) (x : BitVec w) (m' : Machine) : Prop where
  value : dst ≠ 31 → m'.read w dst = x
  others : ∀ r, r ≠ dst → m'.general r = m.general r

theorem receives_write {w : Nat} (hw : w ≤ 64) (m : Machine) (dst : BitVec 5) (x : BitVec w) :
    m.Receives w dst x (m.write w dst x) where
  value hdst := m.read_write w hdst hw x
  others _ hr := m.general_write w hr x

theorem receives_writeOrStack {w : Nat} (hw : w ≤ 64) (m : Machine) (dst : BitVec 5) (x : BitVec w) :
    m.Receives w dst x (m.writeOrStack w dst x) := by
  rw [writeOrStack]
  split
  case isTrue hdst => exact ⟨fun h => absurd hdst h, fun _ _ => rfl⟩
  case isFalse => exact m.receives_write hw dst x

theorem writeOrStack_eq {r : BitVec 5} (hr : r ≠ 31) (m : Machine) (x : Word) :
    m.writeOrStack 64 r x = m.put r x := by
  rw [writeOrStack, if_neg hr, write_eq hr]

theorem stackPointer_writeOrStack {w : Nat} (m : Machine) (dst : BitVec 5) (x : BitVec w) :
    (m.writeOrStack w dst x).stackPointer = if dst = 31 then x.setWidth 64 else m.stackPointer := by
  rw [writeOrStack]
  split
  · rfl
  · exact m.stackPointer_write w dst x

theorem flags_writeOrStack {w : Nat} (m : Machine) (dst : BitVec 5) (x : BitVec w) :
    (m.writeOrStack w dst x).flags = m.flags := by
  rw [writeOrStack]
  split
  · rfl
  · exact m.flags_write w dst x

end Machine

/-- Whether a sum or difference with a constant sets the flags. -/
def SetsFlags (up : Bool) (dst src : Register) (n : BitVec 32) : Prop :=
  up = !n.slt 0 ∧ ¬(dst = src ∧ n = 0)

instance (up : Bool) (dst src : Register) (n : BitVec 32) : Decidable (SetsFlags up dst src n) :=
  inferInstanceAs (Decidable (_ ∧ _))

section

variable {n : BitVec 32} (hn : isArithmeticConstant (n.signExtend 64)) (up : Bool) (w : Width)
  {dst src : Register}

include hn

theorem exists_addConstant_flags : ∃ code, addConstant up true w dst src n = .ok code ∧
    ∀ m : Machine, ∃ m', m.steps code = some m' ∧
      m.Receives w.bits dst.number (m.total up w.bits src.number n) m' ∧
      (m'.stackPointer = if dst.number = 31 ∧ up = n.slt 0 ∧ ¬(dst = src ∧ n = 0) then
        (m.total up w.bits src.number n).setWidth 64 else m.stackPointer) ∧
      if SetsFlags up dst src n then m'.flags.negative = (m.total up w.bits src.number n).msb ∧
        m'.flags.zero = decide (m.total up w.bits src.number n = 0) else m'.flags = m.flags := by
  obtain ⟨code, hcode, hsteps⟩ := exists_addConstant hn up true w dst src
  refine ⟨code, hcode, fun m => ⟨_, hsteps m, ?_⟩⟩
  by_cases hidle : dst = src ∧ n = 0
  · obtain ⟨rfl, rfl⟩ := hidle
    simp only [if_pos, SetsFlags, and_self, not_true, and_false, if_false]
    refine ⟨⟨fun h => ?_, fun _ _ => rfl⟩, trivial⟩
    rw [m.total_zero, m.readOrStack_eq _ h]
  simp only [hidle, if_false, not_false_iff, and_true, SetsFlags, true_and]
  by_cases hup : up = !n.slt 0
  · have hdown : up ≠ n.slt 0 := by
      rw [hup]
      exact Bool.not_ne_self _
    simp only [if_pos hup, hdown, and_false, if_false]
    obtain ⟨hvalue, hothers⟩ := m.receives_write w.bits_le dst.number (m.total up w.bits src.number n)
    refine ⟨⟨hvalue, hothers⟩, m.stackPointer_write _ _ _, ?_⟩
    rw [total_eq hn, if_pos hup, ← addWithCarry_false]
    exact ⟨rfl, rfl⟩
  · have hdown : up = n.slt 0 := by
      simpa using hup
    simp only [hup, eq_true hdown, if_false, and_true]
    exact ⟨m.receives_writeOrStack w.bits_le _ _, m.stackPointer_writeOrStack _ _, m.flags_writeOrStack _ _⟩

end

/-- The flags are the result's in every state exactly where the constant makes the operation a sum and not
everything is left as it is; elsewhere they stay. A difference goes to the stack pointer where the
destination has its number. -/
theorem constant_sets_flags_iff (up : Bool) (w : Width) (dst src : Register) {n : BitVec 32}
    (hn : isArithmeticConstant (n.signExtend 64)) :
    ∃ code, sequence? (if up then "adds" else "subs")
        [.int (BitVec.ofNat 32 w.bits), .reg dst, .reg src, .int n] = some (.ok code) ∧
      (∀ m : Machine, ∃ m', m.steps code = some m' ∧
        m.Receives w.bits dst.number (m.total up w.bits src.number n) m' ∧
        (m'.stackPointer = if dst.number = 31 ∧ up = n.slt 0 ∧ ¬(dst = src ∧ n = 0) then
          (m.total up w.bits src.number n).setWidth 64 else m.stackPointer) ∧
        (¬SetsFlags up dst src n → m'.flags = m.flags)) ∧
      ((∀ m : Machine, ∃ m', m.steps code = some m' ∧
        m'.flags.negative = (m.total up w.bits src.number n).msb ∧
        m'.flags.zero = decide (m.total up w.bits src.number n = 0)) ↔ SetsFlags up dst src n) := by
  obtain ⟨code, hcode, hsteps⟩ := exists_addConstant_flags hn up w
  refine ⟨code, by rw [sequence?_addConstant, hcode], fun m => ?_, fun h => ?_, fun hsets m => ?_⟩
  · obtain ⟨m', hm', hreceives, hstack, hflags⟩ := hsteps m
    exact ⟨m', hm', hreceives, hstack, fun h => by rwa [if_neg h] at hflags⟩
  · by_contra hsets
    -- in a state whose flag says the opposite, the flag stays wrong
    let m : Machine := ⟨fun _ => 0, 0, ⟨false, false, false, false⟩⟩
    let other : Machine := { m with flags := ⟨false, !decide (m.total up w.bits src.number n = 0), false, false⟩ }
    obtain ⟨m', hm', -, hzero⟩ := h other
    obtain ⟨m'', hm'', -, -, hflags⟩ := hsteps other
    rw [hm'] at hm''
    obtain rfl := Option.some.inj hm''
    rw [if_neg hsets] at hflags
    rw [hflags] at hzero
    exact Bool.not_ne_self _ hzero
  · obtain ⟨m', hm', -, -, hflags⟩ := hsteps m
    rw [if_pos hsets] at hflags
    exact ⟨m', hm', hflags⟩

theorem constant_sets_flags_iff_minus : isArithmeticConstant ((-5 : BitVec 32).signExtend 64) ∧
    ∃ code, sequence? "subs" [.int 64, .reg .zero, .reg .stackPointer, .int (-5)] = some (.ok code) ∧
      ∀ m : Machine, ∃ m', m.steps code = some m' ∧ m'.flags.negative = (m.total false 64 31 (-5)).msb ∧
        m'.flags.zero = decide (m.total false 64 31 (-5) = 0) := by
  obtain ⟨code, hcode, -, hflags⟩ := @constant_sets_flags_iff false .w64 .zero .stackPointer (-5) (by decide)
  exact ⟨by decide, code, hcode, hflags.mpr (by decide)⟩

/-- From 5 and 5, the difference is 0 and the flags do not say so; without a register to go to, it is the
new stack pointer. -/
theorem difference_leaves_flags :
    let m : Machine := ⟨fun _ => 5, 16, ⟨true, false, false, false⟩⟩
    (sequence? "subs" [.int 64, .reg (.general 0), .reg (.general 1), .int 5] = some (.ok [0xD1001420]) ∧
      (m.steps [0xD1001420]).map (fun m' => (m'.read 64 0, m'.flags)) = some (0, m.flags)) ∧
    (sequence? "subs" [.int 64, .reg .zero, .reg (.general 1), .int 5] = some (.ok [0xD100143F]) ∧
      (m.steps [0xD100143F]).map (·.stackPointer) = some 0) ∧
    sequence? "adds" [.int 64, .reg (.general 0), .reg (.general 0), .int 0] = some (.ok []) := by
  refine ⟨⟨rfl, ?_⟩, ⟨rfl, ?_⟩, rfl⟩ <;> decide

end CompilerKit.Aarch64
