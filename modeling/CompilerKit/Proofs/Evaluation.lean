import CompilerKit.Expression.Term
import CompilerKit.Proofs.Stamp.Membership

/-! # Values of expressions

What an expression computes from the values of its operands, as far as integers and truth values go. A
valuation gives every node of a graph a word; it fits the graph if each node has the value that its
operator computes from the words of its inputs. Nodes whose operator has no meaning here, parameters
among them, may have any word.
-/

namespace CompilerKit

/-! Operators on values of a width. -/

def UnaryOp.onValue {w : Nat} : UnaryOp → BitVec w → Option (BitVec w)
  | neg, x => some (-x)
  | not, x => some (~~~x)
  | abs, x => some x.abs
  | sqrt, _ => none

def BinaryOp.onValues {w : Nat} : BinaryOp → BitVec w → BitVec w → Option (BitVec w)
  | add, x, y => some (x + y)
  | sub, x, y => some (x - y)
  | mul, x, y => some (x * y)
  | div, x, y => if y = 0 then none else some (x.sdiv y)
  | rem, x, y => if y = 0 then none else some (x.srem y)
  | and, x, y => some (x &&& y)
  | or, x, y => some (x ||| y)
  | xor, x, y => some (x ^^^ y)

def ShiftOp.onValue {w : Nat} : ShiftOp → BitVec w → Nat → BitVec w
  | shl, x, n => x <<< n
  | shr, x, n => x.sshiftRight n
  | ushr, x, n => x >>> n

/-- The result of a division by something other than zero; quotients are rounded towards zero. -/
def Division.onNonzero {w : Nat} : Division → BitVec w → BitVec w → BitVec w
  | quotient => BitVec.sdiv
  | remainder => BitVec.srem
  | unsignedQuotient => BitVec.udiv
  | unsignedRemainder => BitVec.umod

/-- A division by zero has no result. -/
def Division.onValues {w : Nat} (d : Division) (x y : BitVec w) : Option (BitVec w) :=
  if y = 0 then none else some (d.onNonzero x y)

def ResizeOp.onValue {m : Nat} (n : Nat) : ResizeOp → BitVec m → BitVec n
  | zeroExtend, x => x.setWidth n
  | signExtend, x => x.signExtend n
  | narrow, x => x.setWidth n

def Comparison.onValues : Comparison → Word → Word → Option Bool
  | intEquals, x, y => some (x == y)
  | intLess, x, y => some (x.slt y)
  | intBelow, x, y => some (x.ult y)
  | _, _, _ => none

namespace Word

def ofTruth (b : Bool) : Word := if b then 1 else 0

def isTrue (x : Word) : Bool := x ≠ 0

end Word

/-! Operators on the words that hold the values. The stamp of the result tells the width. -/

def Leaf.eval : Leaf → Option Word
  | parameter _ => none
  | constant (.primitive _ x) => some x
  | constant .null => none
  | truth b => some (Word.ofTruth b)

def Unary.eval : Unary → Stamp → Word → Option Word
  | arith op, .int s, x => (op.onValue (Word.low s.bits x)).map Word.ofLow
  | resize op m n, _, x => some (Word.ofLow (op.onValue n (Word.low m x)))
  | refine _, _, x => some x
  | negation, _, x => some (Word.ofTruth (!x.isTrue))
  | _, _, _ => none

def Binary.eval : Binary → Stamp → Word → Word → Option Word
  | arith op, .int s, x, y =>
    (op.onValues (Word.low s.bits x) (Word.low s.bits y)).map Word.ofLow
  | shift op, .int s, x, k =>
    some (Word.ofLow (op.onValue (Word.low s.bits x) (Word.distance s.bits k)))
  | divide d, .int s, x, y =>
    (d.onValues (Word.low s.bits x) (Word.low s.bits y)).map Word.ofLow
  | compare c, _, x, y => (c.onValues x y).map Word.ofTruth
  | test, _, x, y => some (Word.ofTruth (x &&& y = 0))
  | either a b _, _, x, y => some (Word.ofTruth ((x.isTrue ^^ a) || (y.isTrue ^^ b)))
  | _, _, _, _ => none

theorem Unary.eval_arith {w : Nat} (op : UnaryOp) {s : IntStamp} (hs : s.bits = w) (x : Word) :
    (arith op).eval (.int s) x = (op.onValue (Word.low w x)).map Word.ofLow := by
  subst hs
  rfl

section Widths

variable {w : Nat} {s : IntStamp} (hs : s.bits = w) (x y : Word)

include hs

theorem Binary.eval_arith (op : BinaryOp) :
    (arith op).eval (.int s) x y =
      (op.onValues (Word.low w x) (Word.low w y)).map Word.ofLow := by
  subst hs
  rfl

theorem Binary.eval_shift (op : ShiftOp) :
    (shift op).eval (.int s) x y =
      some (Word.ofLow (op.onValue (Word.low w x) (Word.distance w y))) := by
  subst hs
  rfl

theorem Binary.eval_divide (d : Division) :
    (divide d).eval (.int s) x y =
      (d.onValues (Word.low w x) (Word.low w y)).map Word.ofLow := by
  subst hs
  rfl

end Widths

/-- The operands are of the width of the result. -/
def Binary.keepsWidth : Binary → Bool
  | arith _ | divide _ => true
  | _ => false

def Term.eval (ρ : NodeId → Word) : Term → Option Word
  | node i => some (ρ i)
  | leaf l _ => l.eval
  | unary op s x => do op.eval s (← x.eval ρ)
  | binary op s x y => do op.eval s (← x.eval ρ) (← y.eval ρ)
  | select _ c t f => do if (← c.eval ρ).isTrue then t.eval ρ else f.eval ρ

theorem Term.eval_unary {ρ : NodeId → Word} {op : Unary} {s : Stamp} {x : Term} {a : Word}
    (hx : x.eval ρ = some a) : (unary op s x).eval ρ = op.eval s a := by
  rw [eval, hx]
  rfl

theorem Term.eval_binary {ρ : NodeId → Word} {op : Binary} {s : Stamp} {x y : Term} {a b : Word}
    (hx : x.eval ρ = some a) (hy : y.eval ρ = some b) :
    (binary op s x y).eval ρ = op.eval s a b := by
  rw [eval, hx, hy]
  rfl

def Stamp.IsInteger (w : Nat) : Stamp → Prop
  | .int s => s.bits = w ∧ s.WellFormed
  | _ => False

instance (w : Nat) : (s : Stamp) → Decidable (s.IsInteger w)
  | .int s => inferInstanceAs (Decidable (s.bits = w ∧ s.WellFormed))
  | .float _ | .object _ | .pointer | .void | .illegal => inferInstanceAs (Decidable False)

theorem Stamp.IsInteger.exists_int {w : Nat} {s : Stamp} (h : s.IsInteger w) :
    ∃ t : IntStamp, s = .int t ∧ t.bits = w ∧ t.WellFormed := by
  cases s with
  | int t => exact ⟨t, rfl, h⟩
  | _ => exact h.elim

theorem Stamp.IsInteger.le {w : Nat} {s : Stamp} (h : s.IsInteger w) : w ≤ 64 := by
  obtain ⟨t, _, rfl, ht⟩ := h.exists_int
  exact ht.bits_le

theorem Stamp.IsInteger.pos {w : Nat} {s : Stamp} (h : s.IsInteger w) : 0 < w := by
  obtain ⟨t, _, rfl, ht⟩ := h.exists_int
  exact ht.bits_pos

namespace Graph

/-- The value that a node's operator computes from those of its inputs. -/
def computed (g : Graph Label) (ρ : NodeId → Word) (i : NodeId) : Option Word :=
  match g.shape? i with
  | some (.leaf l) => l.eval
  | some (.unary op x) => op.eval (g.stamp i) (ρ x)
  | some (.binary op x y) => op.eval (g.stamp i) (ρ x) (ρ y)
  | some (.select c t f) => some (if (ρ c).isTrue then ρ t else ρ f)
  | _ => none

/-- Integers are words of their width. -/
def fitsAt (g : Graph Label) (ρ : NodeId → Word) (i : NodeId) : Bool :=
  match g.stamp i with
  | .int s => Word.ofLow (Word.low s.bits (ρ i)) = ρ i
  | _ => true

/-- The valuation gives every node a word of its width, the one that it computes. -/
structure Models (g : Graph Label) (ρ : NodeId → Word) : Prop where
  fits : ∀ i < g.nodes.size, g.fitsAt ρ i = true
  computes : ∀ i < g.nodes.size, (g.computed ρ i).getD (ρ i) = ρ i

instance (g : Graph Label) (ρ : NodeId → Word) : Decidable (g.Models ρ) :=
  decidable_of_iff
    ((∀ i < g.nodes.size, g.fitsAt ρ i = true) ∧
      ∀ i < g.nodes.size, (g.computed ρ i).getD (ρ i) = ρ i)
    ⟨fun h => ⟨h.1, h.2⟩, fun h => ⟨h.1, h.2⟩⟩

/-- Leaves have no inputs, and arithmetic on integers has operands of the width of its result. -/
def typedAt (g : Graph Label) (i : NodeId) : Bool :=
  match g.op? i, g.stamp i with
  | some (.leaf _), _ => g.inputs i = []
  | some (.binary op), .int s =>
    !op.keepsWidth || (g.operands i).all fun x => (g.stamp x).IsInteger s.bits
  | _, _ => true

def WellTyped (g : Graph Label) : Prop := ∀ i < g.nodes.size, g.typedAt i = true

instance (g : Graph Label) : Decidable g.WellTyped :=
  inferInstanceAs (Decidable (∀ i < g.nodes.size, g.typedAt i = true))

variable {g : Graph Label} {ρ : NodeId → Word} {i x y : NodeId} {w : Nat}

theorem lt_size_of_label? {l : Label} (h : g.label? i = some l) : i < g.nodes.size := by
  rcases Nat.lt_or_ge i g.nodes.size with hi | hi
  · exact hi
  · rw [label?, Array.getElem?_eq_none hi] at h
    cases h

theorem lt_size_of_op? {op : Op} (h : g.op? i = some op) : i < g.nodes.size := by
  obtain ⟨l, hl, _⟩ := Option.map_eq_some_iff.mp h
  exact lt_size_of_label? hl

theorem lt_size_of_isInteger (h : (g.stamp i).IsInteger w) : i < g.nodes.size := by
  cases hl : g.label? i with
  | some l => exact lt_size_of_label? hl
  | none =>
    rw [stamp, hl] at h
    exact h.elim

theorem shape?_binary {op : Binary} (h : g.shape? i = some (.binary op x y)) :
    g.op? i = some (.binary op) ∧ g.inputs i = [some x, some y] := by
  unfold shape? at h
  split at h
  all_goals cases h
  exact ⟨by assumption, by assumption⟩

theorem operands_of_binary {op : Binary} (h : g.shape? i = some (.binary op x y)) :
    g.operands i = [x, y] := by
  rw [operands, (shape?_binary h).2]
  rfl

theorem shape?_of_binary? {op : Binary} (h : g.binary? op i = some (x, y)) :
    g.shape? i = some (.binary op x y) := by
  unfold binary? at h
  split at h
  · rename_i hshape
    split at h
    · rename_i hop
      cases h
      rw [hshape, hop]
    · cases h
  · cases h

theorem shape?_unary {op : Unary} (h : g.shape? i = some (.unary op x)) :
    g.op? i = some (.unary op) ∧ g.inputs i = [some x] := by
  unfold shape? at h
  split at h
  all_goals cases h
  exact ⟨by assumption, by assumption⟩

theorem shape?_of_unary? {op : Unary} (h : g.unary? op i = some x) :
    g.shape? i = some (.unary op x) := by
  unfold unary? at h
  split at h
  · rename_i hshape
    split at h
    · rename_i hop
      cases h
      rw [hshape, hop]
    · cases h
  · cases h

theorem op?_of_constant? {c : Constant} (h : g.constant? i = some c) :
    g.op? i = some (.leaf (.constant c)) := by
  unfold constant? at h
  split at h
  · cases h
    assumption
  · cases h

theorem Models.ofLow_low (hρ : g.Models ρ) (hi : (g.stamp i).IsInteger w) :
    Word.ofLow (Word.low w (ρ i)) = ρ i := by
  obtain ⟨s, hs, rfl, _⟩ := hi.exists_int
  have hfits := hρ.fits i (lt_size_of_isInteger hi)
  simpa only [fitsAt, hs, decide_eq_true_eq] using hfits

theorem Models.eq_of_binary (hρ : g.Models ρ) {op : Binary} {v : Word}
    (h : g.shape? i = some (.binary op x y)) (hv : op.eval (g.stamp i) (ρ x) (ρ y) = some v) :
    ρ i = v := by
  have hcomputes := hρ.computes i (lt_size_of_op? (shape?_binary h).1)
  simp only [computed, h, hv, Option.getD_some] at hcomputes
  exact hcomputes.symm

theorem Models.eq_of_unary (hρ : g.Models ρ) {op : Unary} {v : Word}
    (h : g.shape? i = some (.unary op x)) (hv : op.eval (g.stamp i) (ρ x) = some v) :
    ρ i = v := by
  have hcomputes := hρ.computes i (lt_size_of_op? (shape?_unary h).1)
  simp only [computed, h, hv, Option.getD_some] at hcomputes
  exact hcomputes.symm

theorem Models.eq_unrefinedWithin (hρ : g.Models ρ) (fuel : Nat) (i : NodeId) :
    ρ (g.unrefinedWithin fuel i) = ρ i := by
  induction fuel generalizing i with
  | zero => rfl
  | succ fuel ih =>
    unfold unrefinedWithin
    split
    · rename_i h
      rw [ih]
      exact (hρ.eq_of_unary h rfl).symm
    · rfl

theorem Models.eq_of_sameValue (hρ : g.Models ρ) (h : g.sameValue x y = true) : ρ x = ρ y := by
  rw [sameValue, beq_iff_eq] at h
  rw [← hρ.eq_unrefinedWithin g.nodes.size x, ← hρ.eq_unrefinedWithin g.nodes.size y]
  exact congrArg ρ h

theorem Models.eq_of_arith (hρ : g.Models ρ) {op : BinaryOp} {v : BitVec w}
    (h : g.shape? i = some (.binary (.arith op) x y)) (hi : (g.stamp i).IsInteger w)
    (hv : op.onValues (Word.low w (ρ x)) (Word.low w (ρ y)) = some v) : ρ i = Word.ofLow v := by
  obtain ⟨s, hs, hbits, _⟩ := hi.exists_int
  apply hρ.eq_of_binary h
  rw [hs, Binary.eval_arith hbits, hv, Option.map_some]

theorem Models.eq_of_divide (hρ : g.Models ρ) {d : Division}
    (h : g.shape? i = some (.binary (.divide d) x y)) (hi : (g.stamp i).IsInteger w)
    (hy : Word.low w (ρ y) ≠ 0) :
    ρ i = Word.ofLow (d.onNonzero (Word.low w (ρ x)) (Word.low w (ρ y))) := by
  obtain ⟨s, hs, hbits, _⟩ := hi.exists_int
  apply hρ.eq_of_binary h
  rw [hs, Binary.eval_divide hbits, Division.onValues, if_neg hy, Option.map_some]

theorem Models.eq_of_constant (hg : g.WellTyped) (hρ : g.Models ρ) {k : Kind} {c : Word}
    (h : g.constant? i = some (.primitive k c)) : ρ i = c := by
  have hop := op?_of_constant? h
  have hi := lt_size_of_op? hop
  have htyped := hg i hi
  have hcomputes := hρ.computes i hi
  simp only [typedAt, hop, decide_eq_true_eq] at htyped
  simp only [computed, shape?, hop, htyped, Leaf.eval, Option.getD_some] at hcomputes
  exact hcomputes.symm

theorem WellTyped.operands (hg : g.WellTyped) {op : Binary} (hop : op.keepsWidth = true)
    (h : g.shape? i = some (.binary op x y)) (hi : (g.stamp i).IsInteger w) :
    (g.stamp x).IsInteger w ∧ (g.stamp y).IsInteger w := by
  obtain ⟨s, hs, rfl, _⟩ := hi.exists_int
  have htyped := hg i (lt_size_of_isInteger hi)
  simpa only [typedAt, (shape?_binary h).1, hs, hop, operands_of_binary h, List.all_cons,
    List.all_nil, Bool.not_true, Bool.false_or, Bool.and_true, Bool.and_eq_true,
    decide_eq_true_eq] using htyped

end Graph

end CompilerKit
