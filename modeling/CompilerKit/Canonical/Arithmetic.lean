import CompilerKit.Canonical.Reassociate

/-! # Rules for arithmetic -/

namespace CompilerKit.Canonical

open Reduction

/-- Whether the operator may be regrouped for operands like this one. -/
def isAssociativeAt (op : BinaryOp) (g : Graph Label) (x : NodeId) : Bool :=
  (g.stamp x).family?.any op.isAssociative

def isNeutralAt (op : BinaryOp) (s : Stamp) (c : Constant) : Result Bool :=
  match s.family? with
  | some f => op.isNeutral f c
  | none => .error .absent

/-! Rules shared by several operators. -/

def foldConstants (op : BinaryOp) : BinaryRule := fun g s x y =>
  match g.constant? x, g.constant? y with
  | some a, some b => build do Term.primitive s (← op.onConstants a b)
  | _, _ => pass

/-- A constant goes to the right of a commutative operator. -/
def constantRight (op : BinaryOp) : BinaryRule := fun g _ x y =>
  if g.isConstant x && !g.isConstant y then build (Term.arith g op (.node y) (.node x)) else pass

def dropNeutral (op : BinaryOp) : BinaryRule := fun g s x y =>
  onConstantRight (fun g _ x c => do
    if ← isNeutralAt op (g.stamp x) c then keep x else pass) g s x y

def regroupConstants (op : BinaryOp) : BinaryRule := fun g _ x y =>
  if g.isConstant y && isAssociativeAt op g x then reassociate g.isConstant op g x y else pass

/-- An operation of a value with itself that gives the value. -/
def idempotent : BinaryRule := fun g _ x y => if g.sameValue x y then keep x else pass

def onIntegerRight (rule : Graph Label → Stamp → NodeId → Word → Reduction) : BinaryRule :=
  fun g s x y =>
    match g.integer? y with
    | some c => rule g s x c
    | none => pass

/-! Sums and differences. -/

/-- `(a - b) + b` and `b + (a - b)` are `a`. -/
def cancelDifference : BinaryRule := fun g _ x y =>
  if isAssociativeAt .add g x then
    match g.binary? (.arith .sub) x, g.binary? (.arith .sub) y with
    | some (a, b), some (c, d) => if b = y then keep a else if d = x then keep c else pass
    | some (a, b), none => if b = y then keep a else pass
    | none, some (c, d) => if d = x then keep c else pass
    | none, none => pass
  else pass

def addNegated : BinaryRule := fun g _ x y =>
  match g.unary? (.arith .neg) x, g.unary? (.arith .neg) y with
  | some v, _ => build (Term.arith g .sub (.node y) (.node v))
  | none, some v => build (Term.arith g .sub (.node x) (.node v))
  | none, none => pass

def add : BinaryRule := firstBinary
  [foldConstants .add, constantRight .add, cancelDifference, dropNeutral .add,
    regroupConstants .add, addNegated]

/-- A value less itself is zero. -/
def subSelf : BinaryRule := fun g s x y =>
  if g.sameValue x y then do
    match ← BinaryOp.zero? .sub (g.stamp x) with
    | some zero => build (Term.primitive s zero)
    | none => pass
  else pass

/-- `(a + b) - b`, `(a + b) - a` and `(a - b) - a`. -/
def cancelLeft : BinaryRule := fun g _ x y =>
  if isAssociativeAt .sub g x then
    match g.shape? x with
    | some (.binary (.arith .add) a b) =>
      if b = y then keep a else if a = y then keep b else pass
    | some (.binary (.arith .sub) a b) =>
      if a = y then build (Term.arith1 g .neg (.node b)) else pass
    | _ => pass
  else pass

/-- `a - (a + b)`, `b - (a + b)` and `a - (a - b)`. -/
def cancelRight : BinaryRule := fun g _ x y =>
  if isAssociativeAt .sub g x then
    match g.shape? y with
    | some (.binary (.arith .add) a b) =>
      if a = x then build (Term.arith1 g .neg (.node b))
      else if b = x then build (Term.arith1 g .neg (.node a))
      else pass
    | some (.binary (.arith .sub) a b) => if a = x then keep b else pass
    | _ => pass
  else pass

/-- Subtracting a constant is adding its negation, if that is a value of the kind. -/
def subConstant : BinaryRule := fun g s x y =>
  onIntegerRight (fun g s x c =>
    match Stamp.ofKind (g.stamp y).stackKind with
    | .int range =>
      if c.slt 0 || range.contains (-c) then build do
        Term.arith g .add (.node x) (← Term.integer s (-c))
      else pass
    | _ => .error .familyMismatch) g s x y

/-- The neutral element of addition less a value is the negated value. -/
def subFromNeutral : BinaryRule := fun g s x y =>
  match g.constant? x, g.isConstant y with
  | some c, false => do
    if ← isNeutralAt .add s c then build (Term.arith1 g .neg (.node y)) else pass
  | _, _ => pass

def regroupFromConstant : BinaryRule := fun g _ x y =>
  if g.isConstant x && !g.isConstant y && isAssociativeAt .sub g x then
    reassociate g.isConstant .sub g x y
  else pass

/-- Subtracting a negated value is adding it. A regroupable difference from a constant is kept. -/
def subNegated : BinaryRule := fun g _ x y =>
  if g.isConstant x && isAssociativeAt .sub g x then pass
  else
    match g.unary? (.arith .neg) y with
    | some v => build (Term.arith g .add (.node x) (.node v))
    | none => pass

def sub : BinaryRule := firstBinary
  [foldConstants .sub, subSelf, cancelLeft, cancelRight, dropNeutral .sub, regroupConstants .sub,
    subConstant, subFromNeutral, regroupFromConstant, subNegated]

/-! Products and quotients. -/

def mulPowerOfTwo : BinaryRule :=
  onIntegerRight fun g _ x c =>
    if Word.isPowerOfTwo c then build (Term.shift g .shl (.node x) (.ofInt (Word.log2 c)))
    else pass

def mul : BinaryRule := firstBinary
  [foldConstants .mul, constantRight .mul, dropNeutral .mul, mulPowerOfTwo, regroupConstants .mul]

/-- A quotient by a power of two, up to sign, is a shift. -/
def divPowerOfTwo : BinaryRule :=
  onIntegerRight fun g _ x c =>
    let magnitude := Word.abs c
    if Word.isPowerOfTwo magnitude then build do
      let quotient ← Term.shift g .shr (.node x) (.ofInt (Word.log2 magnitude))
      if c.slt 0 then Term.arith1 g .neg quotient else return quotient
    else pass

def div : BinaryRule := firstBinary [foldConstants .div, dropNeutral .div, divPowerOfTwo]

def rem : BinaryRule := foldConstants .rem

/-! Bitwise operators. -/

/-- A constant without any bit of the width masks everything out. -/
def andNothing : BinaryRule :=
  onIntegerRight fun _ s _ c =>
    if c &&& Word.mask s.bits = 0 then build (Term.integer s 0) else pass

/-- Masking the added bits of a sign extension makes it a zero extension. -/
def andExtended : BinaryRule :=
  onIntegerRight fun g _ x c =>
    match g.shape? x with
    | some (.unary (.resize .signExtend inputBits resultBits) v) =>
      if c = Word.shl 1 inputBits - 1 then
        build (Term.resize g .zeroExtend (g.stamp v).bits resultBits (.node v))
      else pass
    | _ => pass

/-- A mask that covers every bit the value can have does nothing. -/
def andCovering : BinaryRule :=
  onIntegerRight fun g _ x c =>
    match g.stamp x with
    | .int t => if (t.up ||| t.down) &&& ~~~c = 0 then keep x else pass
    | _ => .error .familyMismatch

def and : BinaryRule := firstBinary
  [foldConstants .and, idempotent, constantRight .and, dropNeutral .and, andNothing, andExtended,
    andCovering, regroupConstants .and]

/-- A constant with every bit of the width sets everything. -/
def orEverything : BinaryRule :=
  onIntegerRight fun _ s _ c =>
    let all := Word.mask s.bits
    if c &&& all = all then build (Term.integer s all) else pass

def or : BinaryRule := firstBinary
  [foldConstants .or, idempotent, constantRight .or, dropNeutral .or, orEverything,
    regroupConstants .or]

def xorSelf : BinaryRule := fun g s x y =>
  if g.sameValue x y then do
    match ← BinaryOp.zero? .xor (g.stamp x) with
    | some zero => build (Term.primitive s zero)
    | none => .error .absent
  else pass

def xorEverything : BinaryRule :=
  onIntegerRight fun g s x c =>
    let all := Word.mask s.bits
    if c &&& all = all then build (Term.arith1 g .not (.node x)) else pass

def xor : BinaryRule := firstBinary
  [foldConstants .xor, xorSelf, constantRight .xor, dropNeutral .xor, xorEverything,
    regroupConstants .xor]

def binaryArith : BinaryOp → BinaryRule
  | .add => add
  | .sub => sub
  | .mul => mul
  | .div => div
  | .rem => rem
  | .and => and
  | .or => or
  | .xor => xor

/-! Operators with one operand. -/

def foldConstant (op : UnaryOp) : UnaryRule := fun g _ x =>
  match g.constant? x with
  | some c => build do Term.primitive (← op.onStamp (g.stamp x)) (← op.onConstant c)
  | none => pass

/-- An operator applied twice that gives the value back. -/
def involution (op : UnaryOp) : UnaryRule := fun g _ x =>
  match g.unary? (.arith op) x with
  | some v => keep v
  | none => pass

def negDifference : UnaryRule := fun g _ x =>
  match g.binary? (.arith .sub) x with
  | some (a, b) => build (Term.arith g .sub (.node b) (.node a))
  | none => pass

def absTwice : UnaryRule := fun g _ x =>
  match g.unary? (.arith .abs) x with
  | some _ => keep x
  | none => pass

def unaryArith : UnaryOp → UnaryRule
  | .neg => firstUnary [foldConstant .neg, involution .neg, negDifference]
  | .not => firstUnary [foldConstant .not, involution .not]
  | .abs => firstUnary [foldConstant .abs, absTwice]
  | .sqrt => foldConstant .sqrt

end CompilerKit.Canonical
