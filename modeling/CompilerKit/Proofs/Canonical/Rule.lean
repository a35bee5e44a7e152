import CompilerKit.Canonical.Phase
import CompilerKit.Proofs.Stamp.Sum
import CompilerKit.Proofs.Typing

/-! # Rules and the values of their answers

A term denotes a value of a width if its stamp is of that width and it computes the value. Terms that
are formed of such terms can be formed, and denote what their operator computes. A rule is described by
what its answers satisfy, and a list of rules by what all of them do.
-/

namespace CompilerKit

theorem Result.bind_of_ok {α β : Type} {r : Result α} {a : α} (h : r = .ok a)
    (f : α → Result β) : r >>= f = f a := by
  rw [h]
  rfl

/-! Widths of stamps that are computed. -/

theorem IntStamp.add_bits {a b : IntStamp} (h : b.bits = a.bits) : (a.add b).bits = a.bits := by
  unfold add
  split
  · rfl
  · split
    · exact h
    · rfl

theorem IntStamp.mul_bits {a b : IntStamp} (h : b.bits = a.bits) : (a.mul b).bits = a.bits := by
  unfold mul
  split
  · rfl
  · split
    · exact h
    · rfl

theorem IntStamp.div_bits (a b : IntStamp) : (a.div b).bits = a.bits := by
  unfold div
  split
  · exact ofBounds_bits ..
  · rfl

theorem BinaryOp.onInt_bits (op : BinaryOp) {a b : IntStamp} (h : b.bits = a.bits) :
    (op.onInt a b).bits = a.bits := by
  cases op with
  | add => exact IntStamp.add_bits h
  | sub => exact IntStamp.add_bits (b.neg_bits.trans h)
  | mul => exact IntStamp.mul_bits h
  | div => exact a.div_bits b
  | rem => exact IntStamp.ofBounds_bits ..
  | and | or | xor => rfl

theorem IntStamp.abs_bits (a : IntStamp) : a.abs.bits = a.bits := by
  unfold abs
  split
  · rfl
  · exact ofBounds_bits ..

theorem UnaryOp.exists_onStamp (op : UnaryOp) (hop : op ≠ .sqrt) (s : IntStamp) :
    ∃ t : IntStamp, op.onStamp (.int s) = .ok (.int t) ∧ t.bits = s.bits := by
  cases op with
  | neg => exact ⟨_, rfl, s.neg_bits⟩
  | not => exact ⟨_, rfl, rfl⟩
  | abs => exact ⟨_, rfl, s.abs_bits⟩
  | sqrt => exact absurd rfl hop

theorem ResizeOp.onInt_bits (op : ResizeOp) (n : Nat) (s : IntStamp) :
    (op.onInt s.bits n s).bits = n := by
  cases op with
  | zeroExtend =>
    simp only [onInt, IntStamp.zeroExtend]
    split <;> rfl
  | signExtend => rfl
  | narrow =>
    simp only [onInt, IntStamp.narrow]
    split
    · rename_i h
      exact h.symm
    · rfl

theorem ShiftOp.onInt_bits (op : ShiftOp) (a b : IntStamp) : (op.onInt a b).bits = a.bits := by
  cases op
  all_goals
    simp only [onInt, IntStamp.shl, IntStamp.shr, IntStamp.ushr]
    repeat' split
  all_goals rfl

theorem Kind.exists_ofBits? {w : Nat} (hw : w = 32 ∨ w = 64) : ∃ k, ofBits? w = some k := by
  rcases hw with rfl | rfl
  · exact ⟨.int, rfl⟩
  · exact ⟨.long, rfl⟩

theorem Kind.width_of_ofBits? {w : Nat} {k : Kind} (h : ofBits? w = some k) :
    w = 1 ∨ w = 8 ∨ w = 16 ∨ w = 32 ∨ w = 64 := by
  unfold ofBits? at h
  split at h
  all_goals simp_all

/-- A constant of a width is sign extended, other than a truth value. -/
theorem Kind.clip_eq {w : Nat} {k : Kind} (h : ofBits? w = some k) (hw : w ≠ 1) (x : Word) :
    k.clip x = Word.signExtend x w := by
  rcases width_of_ofBits? h with rfl | rfl | rfl | rfl | rfl
  · exact absurd rfl hw
  all_goals
    cases h
    rfl

theorem ResizeOp.onConstant_eq (op : ResizeOp) (m : Nat) {n : Nat} {k : Kind}
    (hk : Kind.ofBits? n = some k) (l : Kind) (x : Word) :
    op.onConstant m n (.primitive l x) = .ok (.primitive k (k.clip (op.onWord m n x))) := by
  rw [onConstant, Constant.word, Result.bind_of_ok rfl, Constant.ofBits, hk]

theorem ResizeOp.onConstant_unsupported (op : ResizeOp) {n : Nat} (hn : Kind.ofBits? n = none) (m : Nat)
    (k : Kind) (x : Word) : op.onConstant m n (.primitive k x) =
      .error (.invalidArgument s!"unsupported integer width: {n}") := by
  rw [onConstant, Constant.word, Result.bind_of_ok rfl, Constant.ofBits, hn]

theorem Graph.WellSorted.primitive_of_constant {g : Graph Label} {ρ : NodeId → Word} (hg : g.WellSorted)
    (hρ : g.Models ρ) {i : NodeId} {c : Constant} {w : Nat} (hc : g.constant? i = some c)
    (hi : (g.stamp i).IsInteger w) : ∃ k, c = .primitive k (ρ i) ∧ Kind.ofBits? w = some k := by
  have hkind := hg.kind_of_constant hc hi
  cases c with
  | primitive k x =>
    obtain rfl := hρ.eq_of_constant hg.wellTyped hc
    exact ⟨k, rfl, hkind⟩
  | null =>
    rcases Kind.width_of_ofBits? hkind with rfl | rfl | rfl | rfl | rfl
    all_goals cases hkind

section Fits

variable {g : Graph Label} {ρ : NodeId → Word} (hρ : g.Models ρ) {i : NodeId} {w : Nat}
  (hi : (g.stamp i).IsInteger w)

include hρ hi

theorem Graph.Models.fits_of_isInteger : Word.Fits w (ρ i) := by
  rw [← hρ.ofLow_low hi]
  exact Word.fits_ofLow hi.le _

theorem Graph.Models.toInt_low : (Word.low w (ρ i)).toInt = (ρ i).toInt :=
  Word.toInt_low_of_fits hi.pos hi.le (hρ.fits_of_isInteger hi)

end Fits

namespace Canonical

/-- Integers of the width of a stamp, in a valuation that keeps to what is known. -/
structure Computing (g : Graph Label) (ρ : NodeId → Word) (s : IntStamp) : Prop where
  sorted : g.WellSorted
  models : g.Models ρ
  known : g.Known ρ
  width : s.bits = 32 ∨ s.bits = 64

namespace Computing

variable {g : Graph Label} {ρ : NodeId → Word} {s : IntStamp} (h : Computing g ρ s) {i : NodeId}

include h

theorem pos : 0 < s.bits := by
  have := h.width
  omega

theorem le : s.bits ≤ 64 := by
  have := h.width
  omega

theorem fits (hi : (g.stamp i).IsInteger s.bits) : Word.Fits s.bits (ρ i) :=
  h.models.fits_of_isInteger hi

theorem toInt_low (hi : (g.stamp i).IsInteger s.bits) :
    (Word.low s.bits (ρ i)).toInt = (ρ i).toInt := h.models.toInt_low hi

theorem constant {c : Constant} (hc : g.constant? i = some c)
    (hi : (g.stamp i).IsInteger s.bits) :
    ∃ k, c = .primitive k (ρ i) ∧ Kind.ofBits? s.bits = some k :=
  h.sorted.primitive_of_constant h.models hc hi

theorem isInteger_kind {k : Kind} (hk : Kind.ofBits? s.bits = some k) :
    k.isInteger = true ∧ k.bits = s.bits := by
  rcases h.width with hw | hw
  all_goals
    rw [hw] at hk ⊢
    cases hk
    exact ⟨rfl, rfl⟩

end Computing

end Canonical

namespace Term

/-- The term is of a width, and its value is this one. -/
structure Denotes (g : Graph Label) (ρ : NodeId → Word) {w : Nat} (t : Term) (v : BitVec w) :
    Prop where
  width : ∃ s : IntStamp, t.stamp g = .int s ∧ s.bits = w
  value : t.eval ρ = some (Word.ofLow v)

variable {g : Graph Label} {ρ : NodeId → Word} {w : Nat}

theorem denotes_node (hρ : g.Models ρ) {i : NodeId} (hi : (g.stamp i).IsInteger w) :
    (node i).Denotes g ρ (Word.low w (ρ i)) := by
  obtain ⟨s, hs, hbits, _⟩ := hi.exists_int
  exact ⟨⟨s, hs, hbits⟩, congrArg some (hρ.ofLow_low hi).symm⟩

theorem exists_primitive_of_kind {s : IntStamp} (hs : s.bits = w) {k : Kind}
    (hk : Kind.ofBits? w = some k) (hw : w ≠ 1) (x : Word) :
    ∃ t, primitive (.int s) (.primitive k (k.clip x)) = .ok t ∧
      t.Denotes g ρ (Word.low w x) := by
  have hwidth := Kind.width_of_ofBits? hk
  subst hs
  refine ⟨_, rfl, ⟨_, rfl, IntStamp.ofBounds_bits ..⟩, ?_⟩
  rw [eval, Leaf.eval, Kind.clip_eq hk hw, Word.signExtend_eq (by omega) (by omega)]

theorem exists_primitive {s : IntStamp} (hs : s.bits = w) (hw : w = 32 ∨ w = 64) {k : Kind}
    (hk : Kind.ofBits? w = some k) (x : Word) :
    ∃ t, primitive (.int s) (.primitive k (k.clip x)) = .ok t ∧
      t.Denotes g ρ (Word.low w x) := exists_primitive_of_kind hs hk (by omega) x

theorem exists_integer {s : IntStamp} (hw : s.bits = 32 ∨ s.bits = 64) (x : Word) :
    ∃ t, integer (.int s) x = .ok t ∧ t.Denotes g ρ (Word.low s.bits x) := by
  obtain ⟨k, hk⟩ := Kind.exists_ofBits? hw
  obtain ⟨t, ht, hvalue⟩ := exists_primitive (g := g) (ρ := ρ) rfl hw hk x
  refine ⟨t, ?_, hvalue⟩
  rw [integer, ofBits, Constant.ofBits, hk]
  exact ht

theorem eval_ofInt (i : Int) :
    (ofInt i).eval ρ = some (Word.ofLow (Word.low 32 (BitVec.ofInt 64 i))) := by
  rw [← Word.signExtend_eq (by decide) (by decide)]
  rfl

section Application

variable (hw : w ≤ 64) {l r : Term} {a b : BitVec w}

include hw

theorem exists_arith (op : BinaryOp) (hl : l.Denotes g ρ a) (hr : r.Denotes g ρ b)
    {v : BitVec w} (hv : op.onValues a b = some v) :
    ∃ s, arith g op l r = .ok (binary (.arith op) s l r) ∧
      (binary (.arith op) s l r).Denotes g ρ v := by
  obtain ⟨s, hs, hsw⟩ := hl.width
  obtain ⟨t, ht, htw⟩ := hr.width
  have hbits : (op.onInt s t).bits = w := (op.onInt_bits (htw.trans hsw.symm)).trans hsw
  refine ⟨.int (op.onInt s t), by rw [arith, hs, ht]; rfl, ⟨_, rfl, hbits⟩, ?_⟩
  rw [eval_binary hl.value hr.value, Binary.eval_arith hbits, Word.low_ofLow hw,
    Word.low_ofLow hw, hv, Option.map_some]

theorem exists_arith1 {op : UnaryOp} (hl : l.Denotes g ρ a) {v : BitVec w}
    (hv : op.onValue a = some v) : ∃ t, arith1 g op l = .ok t ∧ t.Denotes g ρ v := by
  obtain ⟨s, hs, hsw⟩ := hl.width
  have hop : op ≠ .sqrt := by
    rintro rfl
    cases hv
  obtain ⟨t, ht, htw⟩ := op.exists_onStamp hop s
  refine ⟨_, by rw [arith1, hs, ht]; rfl, ⟨t, rfl, htw.trans hsw⟩, ?_⟩
  rw [eval_unary hl.value, Unary.eval_arith _ (htw.trans hsw), Word.low_ofLow hw, hv,
    Option.map_some]

theorem exists_neg (hl : l.Denotes g ρ a) :
    ∃ t, arith1 g .neg l = .ok t ∧ t.Denotes g ρ (-a) := exists_arith1 hw hl rfl

theorem exists_resize (op : ResizeOp) (n : Nat) (hl : l.Denotes g ρ a) :
    ∃ t, resize g op w n l = .ok t ∧ t.Denotes g ρ (op.onValue n a) := by
  obtain ⟨s, hs, rfl⟩ := hl.width
  refine ⟨_, by rw [resize, hs]; rfl, ⟨_, rfl, op.onInt_bits n s⟩, ?_⟩
  rw [eval_unary hl.value, Unary.eval, Word.low_ofLow hw]

theorem exists_shiftBy (op : ShiftOp) (hl : l.Denotes g ρ a) {t : IntStamp}
    (ht : r.stamp g = .int t) {k : Word} (hk : r.eval ρ = some k) :
    ∃ t, shift g op l r = .ok t ∧ t.Denotes g ρ (op.onValue a (Word.distance w k)) := by
  obtain ⟨s, hs, hsw⟩ := hl.width
  have hbits : (op.onInt s t).bits = w := (op.onInt_bits s t).trans hsw
  refine ⟨_, by rw [shift, hs, ht]; rfl, ⟨_, rfl, hbits⟩, ?_⟩
  rw [eval_binary hl.value hk, Binary.eval_shift hbits, Word.low_ofLow hw]

theorem exists_shift (op : ShiftOp) (hl : l.Denotes g ρ a) {n : Nat} (hn : n < w) :
    ∃ t, shift g op l (ofInt n) = .ok t ∧ t.Denotes g ρ (op.onValue a n) := by
  obtain ⟨t, ht, hvalue⟩ := exists_shiftBy hw op hl rfl (eval_ofInt n)
  rw [Word.distance_ofLow hw hn] at hvalue
  exact ⟨t, ht, hvalue⟩

theorem exists_divide (hl : l.Denotes g ρ a) (hr : r.Denotes g ρ b) :
    ∃ s, divide g .quotient l r = .ok (binary (.divide .quotient) s l r) ∧
      (b ≠ 0 → (binary (.divide .quotient) s l r).Denotes g ρ (a.sdiv b)) := by
  obtain ⟨s, hs, hsw⟩ := hl.width
  obtain ⟨t, ht, htw⟩ := hr.width
  have hbits : (s.div t).bits = w := (s.div_bits t).trans hsw
  refine ⟨.int (s.div t), by rw [divide, hs, ht]; rfl, fun hb => ⟨⟨_, rfl, hbits⟩, ?_⟩⟩
  rw [eval_binary hl.value hr.value, Binary.eval_divide hbits, Word.low_ofLow hw,
    Word.low_ofLow hw, Division.onValues, if_neg hb]
  rfl

end Application

end Term

namespace Reduction

/-- The rule has an answer, and a term that it answers with satisfies the predicate. -/
def Gives (P : Term → Prop) (r : Reduction) : Prop := ∃ o, r = .ok o ∧ ∀ t ∈ o, P t

variable {P : Term → Prop}

theorem Gives.mono {Q : Term → Prop} {r : Reduction} (h : Gives P r) (hPQ : ∀ t, P t → Q t) :
    Gives Q r := by
  obtain ⟨o, ho, hP⟩ := h
  exact ⟨o, ho, fun t ht => hPQ t (hP t ht)⟩

theorem gives_pass : Gives P pass := by
  refine ⟨none, rfl, ?_⟩
  intro t ht
  cases ht

theorem gives_keep {i : NodeId} (h : P (.node i)) : Gives P (keep i) := by
  refine ⟨some (.node i), rfl, ?_⟩
  rintro t ⟨⟩
  exact h

theorem gives_build {r : Result Term} {t : Term} (hr : r = .ok t) (h : P t) :
    Gives P (build r) := by
  refine ⟨some t, by rw [hr]; rfl, ?_⟩
  rintro t ⟨⟩
  exact h

theorem gives_become {t : Term} (h : P t) : Gives P (become t) := by
  refine ⟨some t, rfl, ?_⟩
  rintro t ⟨⟩
  exact h

theorem build_ne_pass (r : Result Term) : build r ≠ pass := by
  cases r <;> rintro ⟨⟩

theorem gives_otherwise {first second : Reduction} (h : Gives P first)
    (hsecond : first = pass → Gives P second) : Gives P (first.otherwise second) := by
  obtain ⟨o, rfl, hP⟩ := h
  cases o with
  | some t => exact ⟨some t, rfl, hP⟩
  | none => exact hsecond rfl

theorem gives_findSomeM {α : Type} {rule : α → Reduction} {rules : List α}
    (h : ∀ a ∈ rules, Gives P (rule a)) : Gives P (rules.findSomeM? rule) := by
  induction rules with
  | nil => exact gives_pass
  | cons a rules ih =>
    obtain ⟨o, ho, hP⟩ := h a List.mem_cons_self
    rw [List.findSomeM?, ho]
    cases o with
    | some t => exact ⟨some t, rfl, hP⟩
    | none => exact ih fun b hb => h b (List.mem_cons_of_mem a hb)

section First

variable {g : Graph Label} {s : Stamp} {x y : NodeId}

theorem gives_firstUnary_nil : Gives P (firstUnary [] g s x) := gives_pass

theorem gives_firstUnary_cons {rule : UnaryRule} {rules : List UnaryRule}
    (h : Gives P (rule g s x)) (hrest : Gives P (firstUnary rules g s x)) :
    Gives P (firstUnary (rule :: rules) g s x) := by
  obtain ⟨o, ho, hP⟩ := h
  unfold firstUnary
  rw [List.findSomeM?, ho]
  cases o with
  | some t => exact ⟨some t, rfl, hP⟩
  | none => exact hrest

theorem firstBinary_of_become {rule : BinaryRule} {t : Term} (h : rule g s x y = become t)
    (rules : List BinaryRule) : firstBinary (rule :: rules) g s x y = become t := by
  rw [firstBinary, List.findSomeM?, h]
  rfl

theorem firstBinary_of_pass {rule : BinaryRule} (h : rule g s x y = pass)
    (rules : List BinaryRule) :
    firstBinary (rule :: rules) g s x y = firstBinary rules g s x y := by
  rw [firstBinary, List.findSomeM?, h]
  rfl

theorem firstBinary_of_error {rule : BinaryRule} {e : Fault} (h : rule g s x y = .error e)
    (rules : List BinaryRule) : firstBinary (rule :: rules) g s x y = .error e := by
  rw [firstBinary, List.findSomeM?, h]
  rfl

theorem pass_of_firstBinary {rule : BinaryRule} {rules : List BinaryRule}
    (h : firstBinary (rule :: rules) g s x y = pass) : rule g s x y = pass := by
  rw [firstBinary, List.findSomeM?] at h
  cases hrule : rule g s x y with
  | error e =>
    rw [hrule] at h
    cases h
  | ok o =>
    rw [hrule] at h
    cases o with
    | none => rfl
    | some t => cases h

theorem gives_firstBinary_nil : Gives P (firstBinary [] g s x y) := gives_pass

/-- The rules behind the first one may rely on it not to apply. -/
theorem gives_firstBinary_cons {rule : BinaryRule} {rules : List BinaryRule}
    (h : Gives P (rule g s x y))
    (hrest : rule g s x y = pass → Gives P (firstBinary rules g s x y)) :
    Gives P (firstBinary (rule :: rules) g s x y) := by
  obtain ⟨o, ho, hP⟩ := h
  cases o with
  | some t => exact ⟨some t, firstBinary_of_become ho rules, hP⟩
  | none =>
    rw [firstBinary_of_pass ho]
    exact hrest ho

end First

end Reduction

namespace Canonical.Computing

open Reduction

variable {g : Graph Label} {ρ : NodeId → Word} {s : IntStamp} (h : Computing g ρ s)
  {a b : NodeId} {v : BitVec s.bits}

include h

theorem gives_integer {x : Word} (hv : Word.low s.bits x = v) :
    Gives (·.Denotes g ρ v) (build (Term.integer (.int s) x)) := by
  subst hv
  obtain ⟨t, ht, hvalue⟩ := Term.exists_integer (g := g) (ρ := ρ) h.width x
  exact gives_build ht hvalue

variable (ha : (g.stamp a).IsInteger s.bits)

include ha

theorem gives_node (hv : Word.low s.bits (ρ a) = v) : Gives (·.Denotes g ρ v) (keep a) := by
  subst hv
  exact gives_keep (Term.denotes_node h.models ha)

theorem gives_arith1 {op : UnaryOp} (hv : op.onValue (Word.low s.bits (ρ a)) = some v) :
    Gives (·.Denotes g ρ v) (build (Term.arith1 g op (.node a))) := by
  obtain ⟨t, ht, hvalue⟩ := Term.exists_arith1 h.le (Term.denotes_node h.models ha) hv
  exact gives_build ht hvalue

theorem gives_arith (hb : (g.stamp b).IsInteger s.bits) {op : BinaryOp}
    (hv : op.onValues (Word.low s.bits (ρ a)) (Word.low s.bits (ρ b)) = some v) :
    Gives (·.Denotes g ρ v) (build (Term.arith g op (.node a) (.node b))) := by
  obtain ⟨t, ht, hvalue⟩ := Term.exists_arith h.le op (Term.denotes_node h.models ha)
    (Term.denotes_node h.models hb) hv
  exact gives_build ht hvalue

theorem gives_shift {op : ShiftOp} {n : Nat} (hn : n < s.bits)
    (hv : op.onValue (Word.low s.bits (ρ a)) n = v) :
    Gives (·.Denotes g ρ v) (build (Term.shift g op (.node a) (.ofInt n))) := by
  subst hv
  obtain ⟨t, ht, hvalue⟩ := Term.exists_shift h.le op (Term.denotes_node h.models ha) hn
  exact gives_build ht hvalue

end Canonical.Computing

namespace FlowGraph

theorem canonical_eq_reduce (f : FlowGraph) {n : NodeId} {op : Op} (hop : f.graph.op? n = some op)
    (hrefine : ∀ s, op ≠ .unary (.refine s)) :
    f.canonical n = (f.reduce n).map fun o => (f, o) := by
  unfold canonical
  split
  · rename_i s hs
    rw [hop] at hs
    cases hs
    exact absurd rfl (hrefine s)
  · cases f.reduce n <;> rfl

theorem exists_canonical (f : FlowGraph) {n : NodeId} {op : Op} (hop : f.graph.op? n = some op)
    (hrefine : ∀ s, op ≠ .unary (.refine s)) {P : Term → Prop}
    (h : Reduction.Gives P (f.reduce n)) :
    ∃ o, f.canonical n = .ok (f, o) ∧ ∀ t ∈ o, P t := by
  obtain ⟨o, ho, hP⟩ := h
  refine ⟨o, ?_, hP⟩
  rw [f.canonical_eq_reduce hop hrefine, ho]
  rfl

theorem exists_canonical_denoting (f : FlowGraph) {ρ : NodeId → Word} {n : NodeId} {op : Op}
    (hop : f.graph.op? n = some op) (hrefine : ∀ s, op ≠ .unary (.refine s)) {w : Nat}
    {v : BitVec w} (hn : ρ n = Word.ofLow v)
    (h : Reduction.Gives (·.Denotes f.graph ρ v) (f.reduce n)) :
    ∃ o, f.canonical n = .ok (f, o) ∧ (o.getD (.node n)).eval ρ = some (ρ n) := by
  obtain ⟨o, ho, hvalue⟩ := f.exists_canonical hop hrefine h
  refine ⟨o, ho, ?_⟩
  cases o with
  | none => rfl
  | some t => rw [hn, Option.getD_some, (hvalue t rfl).value]

end FlowGraph

end CompilerKit
