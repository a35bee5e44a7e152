import CompilerKit.Proofs.Canonical.Rule

/-! # Types of expression graphs

The nodes of a graph compute integers of 32 or 64 bits and truth values. A graph type checks if every
operator is applied to nodes of the types that it asks for; a slot that was emptied may stand for any
type. The stamp of a node fits its type, but it may say whatever it likes about the value.
-/

namespace CompilerKit

/-- The widths in which integers are computed. -/
inductive IntWidth where
  | int | long
  deriving DecidableEq

namespace IntWidth

def bits : IntWidth → Nat
  | int => 32
  | long => 64

def kind : IntWidth → Kind
  | int => .int
  | long => .long

variable (w : IntWidth)

@[simp] theorem ofBits?_bits : Kind.ofBits? w.bits = some w.kind := by cases w <;> rfl

@[simp] theorem isInteger_kind : w.kind.isInteger = true := by cases w <;> rfl

theorem stackKind_eq {s : IntStamp} (h : s.bits = w.bits) : (Stamp.int s).stackKind = w.kind := by
  rw [Stamp.stackKind, h]
  cases w <;> rfl

variable {w} {v : IntWidth}

theorem eq_of_bits (h : v.bits = w.bits) : v = w := by
  cases v <;> cases w <;> first | rfl | cases h

end IntWidth

inductive ValueType where
  | integer (w : IntWidth)
  | truth
  /-- The type of the nodes that compute nothing. -/
  | control

/-- Whether a stamp is one for values of the type. -/
def ValueType.Describes : ValueType → Stamp → Prop
  | integer w, s => ∃ t : IntStamp, s = .int t ∧ t.bits = w.bits
  | truth, s | control, s => s = .void

/-- The operators that a graph may have: all of them, or only those that no rule can fail on. -/
inductive Fragment where
  | all | total

def Fragment.Admits : Fragment → Binary → Prop
  | total, .arith op => op ≠ .div ∧ op ≠ .rem
  | total, .order _ => False
  | _, _ => True

def Comparison.OnIntegers : Comparison → Prop
  | intEquals | intLess | intBelow => True
  | _ => False

/-- The types of an operator's operands and of its value. -/
inductive Op.Typing (F : Fragment) : Op → List ValueType → ValueType → Prop where
  | parameter {k : Int} {w : IntWidth} : Typing F (.leaf (.parameter k)) [] (.integer w)
  | constant {k : Kind} {x : Word} {w : IntWidth} (hk : k = w.kind) :
      Typing F (.leaf (.constant (.primitive k x))) [] (.integer w)
  | truth {b : Bool} : Typing F (.leaf (.truth b)) [] .truth
  | arith1 {op : UnaryOp} {w : IntWidth} (hop : op ≠ .sqrt) :
      Typing F (.unary (.arith op)) [.integer w] (.integer w)
  | resize {op : ResizeOp} {m n : Nat} {v w : IntWidth} (hm : m = v.bits) (hn : n = w.bits) :
      Typing F (.unary (.resize op m n)) [.integer v] (.integer w)
  | refine {s : IntStamp} {w : IntWidth} (hs : s.bits = w.bits) :
      Typing F (.unary (.refine (.int s))) [.integer w] (.integer w)
  | negation : Typing F (.unary .negation) [.truth] .truth
  | arith {op : BinaryOp} {w : IntWidth} (hF : F.Admits (.arith op)) :
      Typing F (.binary (.arith op)) [.integer w, .integer w] (.integer w)
  | shift {op : ShiftOp} {w : IntWidth} :
      Typing F (.binary (.shift op)) [.integer w, .integer .int] (.integer w)
  | order {b : Bool} {w : IntWidth} (hF : F.Admits (.order b)) :
      Typing F (.binary (.order b)) [.integer w, .integer w] (.integer .int)
  | compare {c : Comparison} {w : IntWidth} (hc : c.OnIntegers) :
      Typing F (.binary (.compare c)) [.integer w, .integer w] .truth
  | test {w : IntWidth} : Typing F (.binary .test) [.integer w, .integer w] .truth
  | either {a b : Bool} {p : FloatingPoint.Double} :
      Typing F (.binary (.either a b p)) [.truth, .truth] .truth
  | divide {d : Division} {w : IntWidth} :
      Typing F (.binary (.divide d)) [.integer w, .integer w] (.integer w)
  | select {w : IntWidth} : Typing F .select [.truth, .integer w, .integer w] (.integer w)
  | start : Typing F .start [] .control
  | ret {w : IntWidth} : Typing F .ret [.integer w] .control

variable {F : Fragment} {g : Graph Label} {i x y : NodeId} {σ τ : ValueType} {v w : IntWidth}

theorem ValueType.Describes.width_eq {s : Stamp} (hv : (integer v).Describes s)
    (hw : (integer w).Describes s) : v = w := by
  obtain ⟨t, rfl, ht⟩ := hv
  obtain ⟨_, ⟨⟩, hbits⟩ := hw
  exact IntWidth.eq_of_bits (ht.symm.trans hbits)

namespace Op.Typing

theorem type_eq {op : Op} {args args' : List ValueType} {s : Stamp} (h : op.Typing F args σ)
    (h' : op.Typing F args' τ) (hs : σ.Describes s) (hs' : τ.Describes s) : σ = τ := by
  cases h <;> cases h' <;> first | rfl | exact congrArg _ (hs.width_eq hs')

theorem operands_eq {op : Binary} {ρ : ValueType} (h : Op.Typing F (.binary op) [ρ, σ] τ)
    (hop : op.isCommutative = true) : ρ = σ := by
  cases h with
  | shift => cases hop
  | arith | order | compare | test | either | divide => rfl

theorem of_agrees {op op' : Op} {args : List ValueType} (h : op.Typing F args τ)
    (hop : op'.agrees op = true) : op'.Typing F args τ := by
  unfold agrees at hop
  split at hop
  · rename_i b b'
    unfold Binary.agrees at hop
    split at hop
    · cases h
      exact either
    · rw [of_decide_eq_true hop]
      exact h
  · rw [of_decide_eq_true hop]
    exact h

end Op.Typing

/-- A node with this label is of the type. -/
def Label.Has (F : Fragment) (l : Label) (τ : ValueType) : Prop :=
  τ.Describes l.stamp ∧ ∃ args, l.op.Typing F args τ

namespace Graph

def Has (F : Fragment) (g : Graph Label) (i : NodeId) (τ : ValueType) : Prop :=
  ∃ l, g.label? i = some l ∧ l.Has F τ

/-- What a slot for values of a type may hold. -/
def Fits (F : Fragment) (g : Graph Label) (o : Option NodeId) (τ : ValueType) : Prop :=
  ∀ x ∈ o, g.Has F x τ

/-- Every operator is applied to values of the types that it asks for. -/
def TypeChecks (F : Fragment) (g : Graph Label) : Prop :=
  ∀ i l, g.label? i = some l → ∃ args τ, l.op.Typing F args τ ∧ τ.Describes l.stamp ∧
    List.Forall₂ (g.Fits F) (g.inputs i) args

theorem Has.type_eq (h : g.Has F i σ) (h' : g.Has F i τ) : σ = τ := by
  obtain ⟨l, hl, hs, args, hop⟩ := h
  obtain ⟨_, hl', hs', args', hop'⟩ := h'
  obtain rfl := Option.some.inj (hl.symm.trans hl')
  exact hop.type_eq hop' hs hs'

theorem Has.width_eq (h : g.Has F i (.integer v)) (h' : g.Has F i (.integer w)) : v = w := by
  cases h.type_eq h'
  rfl

theorem Has.describes (h : g.Has F i τ) : τ.Describes (g.stamp i) := by
  obtain ⟨l, hl, hs, _⟩ := h
  rw [stamp, hl]
  exact hs

theorem Has.exists_int (h : g.Has F i (.integer w)) :
    ∃ s : IntStamp, g.stamp i = .int s ∧ s.bits = w.bits := h.describes

theorem Has.op_typing {op : Op} (h : g.Has F i τ) (hop : g.op? i = some op) :
    ∃ args, op.Typing F args τ := by
  obtain ⟨l, hl, _, hargs⟩ := h
  rw [op?, hl] at hop
  cases hop
  exact hargs

theorem Has.constant {c : Constant} (h : g.Has F i (.integer w)) (hc : g.constant? i = some c) :
    ∃ x, c = .primitive w.kind x := by
  obtain ⟨args, hop⟩ := h.op_typing (op?_of_constant? hc)
  cases hop with
  | constant hk => exact ⟨_, by rw [hk]⟩

theorem Has.integer? {c : Word} (h : g.constant? i = some (.primitive w.kind c)) :
    g.integer? i = some c := by
  rw [Graph.integer?, h]
  exact if_pos w.isInteger_kind

end Graph

namespace Shape

def op : Shape → Op
  | leaf l => .leaf l
  | unary op _ => .unary op
  | binary op _ _ => .binary op
  | select _ _ _ => .select
  | start => .start
  | ret _ => .ret

def operands : Shape → List NodeId
  | leaf _ | start => []
  | unary _ x | ret x => [x]
  | binary _ x y => [x, y]
  | select c t f => [c, t, f]

end Shape

namespace Graph

theorem op?_of_shape? {sh : Shape} (h : g.shape? i = some sh) :
    g.op? i = some sh.op ∧ g.inputs i = sh.operands.map some := by
  unfold shape? at h
  split at h <;> cases h
  all_goals constructor <;> assumption

theorem forall₂_has_of_fits {xs : List NodeId} {args : List ValueType}
    (h : List.Forall₂ (g.Fits F) (xs.map some) args) : List.Forall₂ (g.Has F) xs args := by
  rw [List.forall₂_map_left_iff] at h
  exact h.imp fun x τ hx => hx x rfl

namespace TypeChecks

variable (hg : g.TypeChecks F)

include hg

theorem operands {sh : Shape} (h : g.shape? i = some sh) (hi : g.Has F i τ) :
    ∃ args, sh.op.Typing F args τ ∧ List.Forall₂ (g.Has F) sh.operands args := by
  obtain ⟨hop, hinputs⟩ := op?_of_shape? h
  obtain ⟨l, hl, hs, args', hop'⟩ := hi
  obtain ⟨args, τ', htyping, hs', hfits⟩ := hg i l hl
  obtain rfl := hop'.type_eq htyping hs hs'
  rw [op?, hl] at hop
  rw [hinputs] at hfits
  refine ⟨args, ?_, forall₂_has_of_fits hfits⟩
  rwa [← Option.some.inj hop]

theorem exists_type {op : Op} (h : g.op? i = some op) : ∃ τ, g.Has F i τ := by
  obtain ⟨l, hl, rfl⟩ := Option.map_eq_some_iff.mp h
  obtain ⟨args, τ, htyping, hs, _⟩ := hg i l hl
  exact ⟨τ, l, hl, hs, args, htyping⟩

theorem exists_type_of_isAlive (h : g.isAlive i = true) : ∃ τ, g.Has F i τ := by
  obtain ⟨n, hn, _⟩ := (Option.any_eq_true ..).mp h
  have hop : g.op? i = some n.label.op := by rw [op?, label?, hn, Option.map_some, Option.map_some]
  exact hg.exists_type hop

theorem unary {op : Unary} (h : g.shape? i = some (.unary op x)) (hi : g.Has F i τ) :
    ∃ σ, Op.Typing F (.unary op) [σ] τ ∧ g.Has F x σ := by
  obtain ⟨args, htyping, hargs⟩ := hg.operands h hi
  obtain ⟨σ, _, hx, hnil, rfl⟩ := List.forall₂_cons_left_iff.mp hargs
  cases hnil
  exact ⟨σ, htyping, hx⟩

theorem binary {op : Binary} (h : g.shape? i = some (.binary op x y)) (hi : g.Has F i τ) :
    ∃ ρ σ, Op.Typing F (.binary op) [ρ, σ] τ ∧ g.Has F x ρ ∧ g.Has F y σ := by
  obtain ⟨args, htyping, hargs⟩ := hg.operands h hi
  obtain ⟨ρ, _, hx, htail, rfl⟩ := List.forall₂_cons_left_iff.mp hargs
  obtain ⟨σ, _, hy, hnil, rfl⟩ := List.forall₂_cons_left_iff.mp htail
  cases hnil
  exact ⟨ρ, σ, htyping, hx, hy⟩

/-! What the type of a node says of its operands, by operator. -/

theorem arith1 {op : UnaryOp} (h : g.shape? i = some (.unary (.arith op) x))
    (hi : g.Has F i (.integer w)) : op ≠ .sqrt ∧ g.Has F x (.integer w) := by
  obtain ⟨σ, htyping, hx⟩ := hg.unary h hi
  cases htyping with
  | arith1 hop => exact ⟨hop, hx⟩

theorem resize {op : ResizeOp} {m n : Nat} (h : g.shape? i = some (.unary (.resize op m n) x))
    (hi : g.Has F i (.integer w)) :
    ∃ v : IntWidth, m = v.bits ∧ n = w.bits ∧ g.Has F x (.integer v) := by
  obtain ⟨σ, htyping, hx⟩ := hg.unary h hi
  cases htyping with
  | resize hm hn => exact ⟨_, hm, hn, hx⟩

theorem refine {s : Stamp} (h : g.shape? i = some (.unary (.refine s) x))
    (hi : g.Has F i τ) : τ.Describes s ∧ g.Has F x τ := by
  obtain ⟨σ, htyping, hx⟩ := hg.unary h hi
  cases htyping with
  | refine hs => exact ⟨⟨_, rfl, hs⟩, hx⟩

theorem negation (h : g.shape? i = some (.unary .negation x)) (hi : g.Has F i τ) :
    g.Has F x .truth := by
  obtain ⟨σ, htyping, hx⟩ := hg.unary h hi
  cases htyping
  exact hx

theorem arith {op : BinaryOp} (h : g.shape? i = some (.binary (.arith op) x y))
    (hi : g.Has F i (.integer w)) :
    F.Admits (.arith op) ∧ g.Has F x (.integer w) ∧ g.Has F y (.integer w) := by
  obtain ⟨ρ, σ, htyping, hx, hy⟩ := hg.binary h hi
  cases htyping with
  | arith hF => exact ⟨hF, hx, hy⟩

theorem shift {op : ShiftOp} (h : g.shape? i = some (.binary (.shift op) x y))
    (hi : g.Has F i (.integer w)) : g.Has F x (.integer w) ∧ g.Has F y (.integer .int) := by
  obtain ⟨ρ, σ, htyping, hx, hy⟩ := hg.binary h hi
  cases htyping
  exact ⟨hx, hy⟩

theorem order {b : Bool} (h : g.shape? i = some (.binary (.order b) x y)) (hi : g.Has F i τ) :
    F.Admits (.order b) ∧ ∃ v : IntWidth, g.Has F x (.integer v) ∧ g.Has F y (.integer v) := by
  obtain ⟨ρ, σ, htyping, hx, hy⟩ := hg.binary h hi
  cases htyping with
  | order hF => exact ⟨hF, _, hx, hy⟩

theorem compare {c : Comparison} (h : g.shape? i = some (.binary (.compare c) x y))
    (hi : g.Has F i τ) :
    c.OnIntegers ∧ τ = .truth ∧
      ∃ v : IntWidth, g.Has F x (.integer v) ∧ g.Has F y (.integer v) := by
  obtain ⟨ρ, σ, htyping, hx, hy⟩ := hg.binary h hi
  cases htyping with
  | compare hc => exact ⟨hc, rfl, _, hx, hy⟩

theorem divide {d : Division} (h : g.shape? i = some (.binary (.divide d) x y))
    (hi : g.Has F i τ) :
    ∃ w : IntWidth, τ = .integer w ∧ g.Has F x (.integer w) ∧ g.Has F y (.integer w) := by
  obtain ⟨ρ, σ, htyping, hx, hy⟩ := hg.binary h hi
  cases htyping
  exact ⟨_, rfl, hx, hy⟩

theorem select {c t f : NodeId} (h : g.shape? i = some (.select c t f)) (hi : g.Has F i τ) :
    ∃ w : IntWidth, τ = .integer w ∧ g.Has F c .truth ∧ g.Has F t (.integer w) ∧
      g.Has F f (.integer w) := by
  obtain ⟨args, htyping, hargs⟩ := hg.operands h hi
  cases htyping
  obtain ⟨hc, hrest⟩ := List.forall₂_cons.mp hargs
  obtain ⟨ht, hlast⟩ := List.forall₂_cons.mp hrest
  exact ⟨_, rfl, hc, ht, (List.forall₂_cons.mp hlast).1⟩

end TypeChecks

end Graph

/-! Terms. -/

/-- A term over a graph is of a type. -/
inductive Term.Has (F : Fragment) (g : Graph Label) : Term → ValueType → Prop where
  | node {i : NodeId} {τ : ValueType} (h : g.Has F i τ) : Has F g (.node i) τ
  | leaf {l : Leaf} {s : Stamp} {τ : ValueType} (h : Op.Typing F (.leaf l) [] τ)
      (hs : τ.Describes s) : Has F g (.leaf l s) τ
  | unary {op : Unary} {s : Stamp} {x : Term} {σ τ : ValueType}
      (h : Op.Typing F (.unary op) [σ] τ) (hs : τ.Describes s) (hx : Has F g x σ) :
      Has F g (.unary op s x) τ
  | binary {op : Binary} {s : Stamp} {x y : Term} {ρ σ τ : ValueType}
      (h : Op.Typing F (.binary op) [ρ, σ] τ) (hs : τ.Describes s) (hx : Has F g x ρ)
      (hy : Has F g y σ) : Has F g (.binary op s x y) τ
  | select {s : Stamp} {c t f : Term} {ρ σ τ υ : ValueType}
      (h : Op.Typing F .select [ρ, σ, τ] υ) (hs : υ.Describes s) (hc : Has F g c ρ)
      (ht : Has F g t σ) (hf : Has F g f τ) : Has F g (.select s c t f) υ

namespace IntStamp

theorem combine_bits (bits : Nat) (lo hi down up : Word) :
    (combine bits lo hi down up).bits = bits := by
  unfold combine
  split <;> rfl

theorem meet_bits (a b : IntStamp) : (a.meet b).bits = a.bits := combine_bits ..

theorem join_bits (a b : IntStamp) : (a.join b).bits = a.bits := combine_bits ..

end IntStamp

theorem Graph.met_describes {t f : NodeId} (ht : g.Has F t (.integer w)) (hf : g.Has F f (.integer w)) :
    ∃ s, g.met t f = .ok s ∧ (ValueType.integer w).Describes s := by
  obtain ⟨a, ha, haw⟩ := ht.exists_int
  obtain ⟨b, hb, _⟩ := hf.exists_int
  unfold Graph.met
  split
  · exact ⟨_, rfl, ht.describes⟩
  · rw [ha, hb]
    exact ⟨_, rfl, _, rfl, (a.meet_bits b).trans haw⟩

namespace Term

theorem Has.describes {t : Term} (h : t.Has F g τ) : τ.Describes (t.stamp g) := by
  cases h with
  | node h => exact h.describes
  | leaf _ hs | unary _ hs _ | binary _ hs _ _ | select _ hs _ _ _ => exact hs

/-- The term can be formed, and it is of the type. -/
def Formed (F : Fragment) (g : Graph Label) (τ : ValueType) (r : Result Term) : Prop :=
  ∃ t, r = .ok t ∧ t.Has F g τ

theorem formed_ok {t : Term} (h : t.Has F g τ) : Formed F g τ (.ok t) := ⟨t, rfl, h⟩

theorem Formed.bind {r : Result Term} {k : Term → Result Term} (h : Formed F g σ r)
    (hk : ∀ t : Term, t.Has F g σ → Formed F g τ (k t)) : Formed F g τ (r >>= k) := by
  obtain ⟨t, rfl, ht⟩ := h
  exact hk t ht

theorem Formed.gives {r : Result Term} (h : Formed F g τ r) :
    Reduction.Gives (·.Has F g τ) (Reduction.build r) := by
  obtain ⟨t, ht, hτ⟩ := h
  exact Reduction.gives_build ht hτ

variable {l r c : Term}

/-! Constants. -/

theorem has_ofInt (n : Int) : (ofInt n).Has F g (.integer .int) :=
  .leaf (.constant rfl) ⟨_, rfl, IntStamp.ofBounds_bits ..⟩

theorem has_ofWord (x : Word) : (ofWord x).Has F g (.integer .long) :=
  .leaf (.constant rfl) ⟨_, rfl, IntStamp.ofBounds_bits ..⟩

theorem has_truth (b : Bool) : (truth b).Has F g .truth := .leaf .truth rfl

theorem formed_ofKind (x : Word) : Formed F g (.integer w) (ofKind w.kind x) := by
  cases w with
  | int => exact formed_ok (has_ofInt _)
  | long => exact formed_ok (has_ofWord x)

theorem formed_primitive {s : Stamp} (hs : (ValueType.integer w).Describes s) (x : Word) :
    Formed F g (.integer w) (primitive s (.primitive w.kind x)) := by
  obtain ⟨t, rfl, ht⟩ := hs
  exact formed_ok (.leaf (.constant rfl) ⟨_, rfl, (IntStamp.ofBounds_bits ..).trans ht⟩)

theorem formed_constant {s : Stamp} (hs : (ValueType.integer w).Describes s) (x : Word) :
    Formed F g (.integer w) (constant s (.primitive w.kind x)) := by
  obtain ⟨t, rfl, ht⟩ := hs
  exact formed_ok (.leaf (.constant rfl) ⟨_, rfl, (IntStamp.ofBounds_bits ..).trans ht⟩)

theorem formed_integer {s : Stamp} (hs : (ValueType.integer w).Describes s) (x : Word) :
    Formed F g (.integer w) (integer s x) := by
  obtain ⟨t, rfl, ht⟩ := hs
  rw [integer, ofBits, Constant.ofBits, ht, w.ofBits?_bits]
  exact formed_ok (.leaf (.constant rfl) ⟨_, rfl, IntStamp.ofBounds_bits ..⟩)

/-! Applications. -/

theorem formed_arith1 {op : UnaryOp} (hop : op ≠ .sqrt) (hl : l.Has F g (.integer w)) :
    Formed F g (.integer w) (arith1 g op l) := by
  obtain ⟨s, hs, hbits⟩ := hl.describes
  obtain ⟨t, ht, htw⟩ := op.exists_onStamp hop s
  rw [arith1, hs, ht]
  exact formed_ok (.unary (.arith1 hop) ⟨t, rfl, htw.trans hbits⟩ hl)

theorem formed_arith {op : BinaryOp} (hF : F.Admits (.arith op)) (hl : l.Has F g (.integer w))
    (hr : r.Has F g (.integer w)) : Formed F g (.integer w) (arith g op l r) := by
  obtain ⟨s, hs, hsw⟩ := hl.describes
  obtain ⟨t, ht, htw⟩ := hr.describes
  rw [arith, hs, ht]
  exact formed_ok (.binary (.arith hF)
    ⟨_, rfl, (op.onInt_bits (htw.trans hsw.symm)).trans hsw⟩ hl hr)

theorem formed_shift (op : ShiftOp) (hl : l.Has F g (.integer w))
    (hr : r.Has F g (.integer .int)) : Formed F g (.integer w) (shift g op l r) := by
  obtain ⟨s, hs, hsw⟩ := hl.describes
  obtain ⟨t, ht, _⟩ := hr.describes
  rw [shift, hs, ht]
  exact formed_ok (.binary .shift ⟨_, rfl, (op.onInt_bits s t).trans hsw⟩ hl hr)

theorem formed_resize (op : ResizeOp) {m n : Nat} (hm : m = v.bits) (hn : n = w.bits)
    (hl : l.Has F g (.integer v)) : Formed F g (.integer w) (resize g op m n l) := by
  obtain ⟨s, hs, hsv⟩ := hl.describes
  have hbits : (op.onInt m n s).bits = w.bits := by
    rw [hm, ← hsv, op.onInt_bits, hn]
  rw [resize, hs]
  exact formed_ok (.unary (.resize hm hn) ⟨_, rfl, hbits⟩ hl)

theorem formed_divide (d : Division) (hl : l.Has F g (.integer w)) (hr : r.Has F g (.integer w)) :
    Formed F g (.integer w) (divide g d l r) := by
  obtain ⟨s, hs, hsw⟩ := hl.describes
  obtain ⟨t, ht, _⟩ := hr.describes
  rw [divide, hs, ht]
  cases d with
  | quotient => exact formed_ok (.binary .divide ⟨_, rfl, (s.div_bits t).trans hsw⟩ hl hr)
  | remainder =>
    exact formed_ok (.binary .divide ⟨_, rfl, (IntStamp.ofBounds_bits ..).trans hsw⟩ hl hr)
  | unsignedQuotient | unsignedRemainder =>
    exact formed_ok (.binary .divide ⟨_, rfl, hsw⟩ hl hr)

theorem has_compare {cmp : Comparison} (hcmp : cmp.OnIntegers) (hl : l.Has F g (.integer w))
    (hr : r.Has F g (.integer w)) : (compare cmp l r).Has F g .truth :=
  .binary (.compare hcmp) rfl hl hr

theorem has_test (hl : l.Has F g (.integer w)) (hr : r.Has F g (.integer w)) :
    (test l r).Has F g .truth := .binary .test rfl hl hr

theorem has_negation (hl : l.Has F g .truth) : (negation l).Has F g .truth :=
  .unary .negation rfl hl

theorem formed_choose {t f : NodeId} (hc : c.Has F g .truth) (ht : g.Has F t (.integer w))
    (hf : g.Has F f (.integer w)) : Formed F g (.integer w) (choose g c (.node t) (.node f)) := by
  obtain ⟨s, hs, hdescribes⟩ := Graph.met_describes ht hf
  rw [choose, meetStamp, hs]
  exact formed_ok (.select .select hdescribes hc (.node ht) (.node hf))

end Term

end CompilerKit
