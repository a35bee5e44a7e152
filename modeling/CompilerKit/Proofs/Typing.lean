import CompilerKit.Proofs.Evaluation

/-! # Well-sorted graphs

In a well-sorted graph the operands of integer operators have the widths that the operators ask for,
and a constant is of the kind that its width has. What is known of the values is a matter of the
valuation.
-/

namespace CompilerKit.Graph

/-- A constant is of the kind of its width, and operands have the widths that are asked for. -/
def sortedAt (g : Graph Label) (i : NodeId) : Bool :=
  match g.shape? i, g.stamp i with
  | some (.leaf (.constant c)), .int s => Kind.ofBits? s.bits = some c.kind
  | some (.unary (.arith _) x), .int s => (g.stamp x).IsInteger s.bits
  | some (.unary (.resize op m n) x), .int s =>
    (g.stamp x).IsInteger m ∧ s.bits = n ∧ (m ≤ n ∨ op = .narrow)
  | some (.binary (.shift _) x y), .int s =>
    (g.stamp x).IsInteger s.bits ∧ (g.stamp y).IsInteger 32
  | _, _ => true

structure WellSorted (g : Graph Label) : Prop where
  wellTyped : g.WellTyped
  sorted : ∀ i < g.nodes.size, g.sortedAt i = true

instance (g : Graph Label) : Decidable g.WellSorted :=
  decidable_of_iff (g.WellTyped ∧ ∀ i < g.nodes.size, g.sortedAt i = true)
    ⟨fun h => ⟨h.1, h.2⟩, fun h => ⟨h.1, h.2⟩⟩

def knownAt (g : Graph Label) (ρ : NodeId → Word) (i : NodeId) : Bool :=
  match g.stamp i with
  | .int s => s.contains (ρ i)
  | _ => true

/-- Every integer is a value of its node's stamp. -/
def Known (g : Graph Label) (ρ : NodeId → Word) : Prop := ∀ i < g.nodes.size, g.knownAt ρ i = true

instance (g : Graph Label) (ρ : NodeId → Word) : Decidable (g.Known ρ) :=
  inferInstanceAs (Decidable (∀ i < g.nodes.size, g.knownAt ρ i = true))

variable {g : Graph Label} {ρ : NodeId → Word} {i x y : NodeId} {w : Nat}

theorem Known.contains (h : g.Known ρ) {s : IntStamp} (hs : g.stamp i = .int s)
    (hi : (g.stamp i).IsInteger w) : s.contains (ρ i) = true := by
  have hknown := h i (lt_size_of_isInteger hi)
  simpa only [knownAt, hs] using hknown

theorem shape?_of_leaf (hg : g.WellTyped) {l : Leaf} (h : g.op? i = some (.leaf l)) :
    g.shape? i = some (.leaf l) := by
  have htyped := hg i (lt_size_of_op? h)
  simp only [typedAt, h, decide_eq_true_eq] at htyped
  rw [shape?, h, htyped]

theorem shape?_of_constant? (hg : g.WellTyped) {c : Constant} (h : g.constant? i = some c) :
    g.shape? i = some (.leaf (.constant c)) := shape?_of_leaf hg (op?_of_constant? h)

namespace WellSorted

variable (hg : g.WellSorted)

include hg

theorem kind_of_constant {c : Constant} (h : g.constant? i = some c)
    (hi : (g.stamp i).IsInteger w) : Kind.ofBits? w = some c.kind := by
  obtain ⟨s, hs, rfl, _⟩ := hi.exists_int
  have hsorted := hg.sorted i (lt_size_of_isInteger hi)
  simpa only [sortedAt, shape?_of_constant? hg.wellTyped h, hs, decide_eq_true_eq] using hsorted

theorem operand_of_arith {op : UnaryOp} (h : g.shape? i = some (.unary (.arith op) x))
    (hi : (g.stamp i).IsInteger w) : (g.stamp x).IsInteger w := by
  obtain ⟨s, hs, rfl, _⟩ := hi.exists_int
  have hsorted := hg.sorted i (lt_size_of_isInteger hi)
  simpa only [sortedAt, h, hs, decide_eq_true_eq] using hsorted

theorem operand_of_resize {op : ResizeOp} {m n : Nat}
    (h : g.shape? i = some (.unary (.resize op m n) x)) (hi : (g.stamp i).IsInteger w) :
    (g.stamp x).IsInteger m ∧ n = w ∧ (m ≤ n ∨ op = .narrow) := by
  obtain ⟨s, hs, rfl, _⟩ := hi.exists_int
  have hsorted := hg.sorted i (lt_size_of_isInteger hi)
  simp only [sortedAt, h, hs, decide_eq_true_eq] at hsorted
  exact ⟨hsorted.1, hsorted.2.1.symm, hsorted.2.2⟩

theorem operands_of_shift {op : ShiftOp} (h : g.shape? i = some (.binary (.shift op) x y))
    (hi : (g.stamp i).IsInteger w) : (g.stamp x).IsInteger w ∧ (g.stamp y).IsInteger 32 := by
  obtain ⟨s, hs, rfl, _⟩ := hi.exists_int
  have hsorted := hg.sorted i (lt_size_of_isInteger hi)
  simpa only [sortedAt, h, hs, decide_eq_true_eq] using hsorted

end WellSorted

theorem Models.eq_of_unaryArith (hρ : g.Models ρ) {op : UnaryOp} {v : BitVec w}
    (h : g.shape? i = some (.unary (.arith op) x)) (hi : (g.stamp i).IsInteger w)
    (hv : op.onValue (Word.low w (ρ x)) = some v) : ρ i = Word.ofLow v := by
  obtain ⟨s, hs, hbits, _⟩ := hi.exists_int
  apply hρ.eq_of_unary h
  rw [hs, Unary.eval_arith op hbits, hv, Option.map_some]

theorem Models.eq_of_resize (hρ : g.Models ρ) {op : ResizeOp} {m n : Nat}
    (h : g.shape? i = some (.unary (.resize op m n) x)) :
    ρ i = Word.ofLow (op.onValue n (Word.low m (ρ x))) := hρ.eq_of_unary h rfl

theorem Models.low_of_resize (hρ : g.Models ρ) {op : ResizeOp} {m n : Nat} (hn : n ≤ 64)
    (h : g.shape? i = some (.unary (.resize op m n) x)) :
    Word.low n (ρ i) = op.onValue n (Word.low m (ρ x)) := by
  rw [hρ.eq_of_resize h, Word.low_ofLow hn]

theorem Models.eq_of_shift (hρ : g.Models ρ) {op : ShiftOp}
    (h : g.shape? i = some (.binary (.shift op) x y)) (hi : (g.stamp i).IsInteger w) :
    ρ i = Word.ofLow (op.onValue (Word.low w (ρ x)) (Word.distance w (ρ y))) := by
  obtain ⟨s, hs, hbits, _⟩ := hi.exists_int
  apply hρ.eq_of_binary h
  rw [hs, Binary.eval_shift hbits]

end CompilerKit.Graph
