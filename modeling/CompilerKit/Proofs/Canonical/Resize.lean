import CompilerKit.Proofs.Canonical.Rule
import CompilerKit.Proofs.Division

/-! # Chains of conversions between widths

Two changes of width in a row are one, or the outer one undoes the inner one; which it is depends on
the order of the three widths. The rules that look at a stamp rely on bits that cannot be set.
-/

namespace CompilerKit

theorem Word.getLsbD_of_and_shl_one {x : Word} {n : Nat} (hn : n < 64) (h : x &&& shl 1 n = 0) :
    x.getLsbD n = false := by
  have hbit := congrArg (·.getLsbD n) h
  simpa [shl, Nat.mod_eq_of_lt hn, BitVec.getLsbD_shiftLeft, hn] using hbit

theorem Word.getLsbD_of_and_not_mask {x : Word} {w i : Nat} (hw : w ≤ 64) (h : x &&& ~~~mask w = 0)
    (hi : w ≤ i) : x.getLsbD i = false := by
  have hbit := congrArg (·.getLsbD i) h
  simp only [BitVec.getLsbD_and, BitVec.getLsbD_not, getLsbD_mask hw,
    decide_eq_false (Nat.not_lt.mpr hi), Bool.not_false, Bool.and_true, BitVec.ofNat_eq_ofNat,
    BitVec.getLsbD_zero, Bool.and_eq_false_iff, decide_eq_false_iff_not] at hbit
  rcases hbit with hx | hlarge
  · exact hx
  · exact BitVec.getLsbD_of_ge x i (Nat.not_lt.mp hlarge)

namespace ResizeOp

variable {a b c : Nat}

theorem onValue_self (op : ResizeOp) (v : BitVec a) : op.onValue a v = v := by
  cases op with
  | zeroExtend | narrow => exact BitVec.setWidth_eq v
  | signExtend => exact BitVec.signExtend_eq v

/-- Extensions grow in both steps and narrowings shrink in the last one. -/
theorem onValue_onValue (op : ResizeOp) (hab : a ≤ b ∨ op = .narrow) (hbc : b ≤ c ∨ op = .narrow)
    (hnarrow : op = .narrow → c ≤ b) (v : BitVec a) :
    op.onValue c (op.onValue b v) = op.onValue c v := by
  cases op with
  | zeroExtend => exact BitVec.setWidth_setWidth (by simp at hab; omega)
  | narrow => exact BitVec.setWidth_setWidth_of_le v (hnarrow rfl)
  | signExtend =>
    simp only [reduceCtorEq, or_false] at hab hbc
    apply BitVec.eq_of_toInt_eq
    rw [onValue, onValue, onValue, BitVec.toInt_signExtend_of_le hbc,
      BitVec.toInt_signExtend_of_le hab, BitVec.toInt_signExtend_of_le (hab.trans hbc)]

theorem setWidth_signExtend (v : BitVec a) (hcb : c ≤ b) :
    (v.signExtend b).setWidth c = v.signExtend c := by
  apply BitVec.eq_of_getLsbD_eq
  intro i hi
  rw [BitVec.getLsbD_setWidth, BitVec.getLsbD_signExtend, BitVec.getLsbD_signExtend,
    decide_eq_true hi, decide_eq_true (by omega), Bool.true_and]

theorem setWidth_onValue {op : ResizeOp} (hop : op ≠ .narrow) (hcb : c ≤ b) (v : BitVec a) :
    (op.onValue b v).setWidth c = op.onValue c v := by
  cases op with
  | zeroExtend => exact BitVec.setWidth_setWidth_of_le v hcb
  | signExtend => exact setWidth_signExtend v hcb
  | narrow => exact absurd rfl hop

theorem onValue_of_le (op : ResizeOp) (hca : c ≤ a) (v : BitVec a) :
    op.onValue c v = v.setWidth c := by
  cases op with
  | zeroExtend | narrow => rfl
  | signExtend => exact BitVec.signExtend_eq_setWidth_of_le v hca

theorem signExtend_setWidth (hab : a < b) (v : BitVec a) :
    (v.setWidth b).signExtend c = v.setWidth c := by
  have hmsb : (v.setWidth b).msb = false := by
    rw [BitVec.msb_setWidth, BitVec.getLsbD_of_ge v _ (by omega), Bool.and_false]
  rw [BitVec.signExtend_eq_setWidth_of_msb_false hmsb, BitVec.setWidth_setWidth (by omega)]

theorem setWidth_setWidth_of_high {v : BitVec a} (hhigh : ∀ i, b ≤ i → v.getLsbD i = false) :
    (v.setWidth b).setWidth a = v := by
  apply BitVec.eq_of_getLsbD_eq
  intro i hi
  rw [BitVec.getLsbD_setWidth, BitVec.getLsbD_setWidth, decide_eq_true hi, Bool.true_and]
  rcases Nat.lt_or_ge i b with hib | hib
  · rw [decide_eq_true hib, Bool.true_and]
  · rw [hhigh i hib, Bool.and_false]

theorem low_onWord (op : ResizeOp) (ha : 0 < a ∧ a ≤ 64) (hc : 0 < c ∧ c ≤ 64)
    (hcompat : op = .narrow → c ≤ a) (x : Word) :
    Word.low c (op.onWord a c x) = op.onValue c (Word.low a x) := by
  cases op with
  | zeroExtend =>
    rw [onWord, Word.zeroExtend_eq ha.2]
    exact BitVec.setWidth_setWidth_of_le _ hc.2
  | signExtend =>
    rw [onWord, Word.signExtend_eq ha.1 ha.2]
    exact setWidth_signExtend _ hc.2
  | narrow =>
    rw [onWord, Word.narrow_eq hc.1 hc.2, Word.low_ofLow hc.2]
    exact (BitVec.setWidth_setWidth_of_le x (hcompat rfl)).symm

end ResizeOp

namespace Canonical

open Reduction

variable {g : Graph Label} {ρ : NodeId → Word} (hg : g.WellSorted) (hρ : g.Models ρ)
  {s : IntStamp} {x : NodeId} {m r : Nat} (hx : (g.stamp x).IsInteger m)

include hρ hx

theorem gives_resizeToSame (op : ResizeOp) :
    Gives (·.Denotes g ρ (op.onValue r (Word.low m (ρ x)))) (resizeToSame m r g (.int s) x) := by
  unfold resizeToSame
  split
  · rename_i heq
    subst heq
    rw [op.onValue_self]
    exact gives_keep (Term.denotes_node hρ hx)
  · exact gives_pass

theorem gives_resizeOf {v : BitVec r} {op : ResizeOp} (hv : op.onValue r (Word.low m (ρ x)) = v) :
    Gives (·.Denotes g ρ v) (build (Term.resize g op m r (.node x))) := by
  subst hv
  obtain ⟨t, ht, hvalue⟩ := Term.exists_resize hx.le op r (Term.denotes_node hρ hx)
  exact gives_build ht hvalue

include hg

theorem gives_foldResize {op : ResizeOp} (hs : s.bits = r) (hr : r ∈ [8, 16, 32, 64])
    (hcompat : op = .narrow → r ≤ m) :
    Gives (·.Denotes g ρ (op.onValue r (Word.low m (ρ x)))) (foldResize op m r g (.int s) x) := by
  obtain ⟨_, _, rfl, hwell⟩ := hx.exists_int
  obtain ⟨k, hk⟩ : ∃ k, Kind.ofBits? r = some k := by
    fin_cases hr
    exacts [⟨.byte, rfl⟩, ⟨.short, rfl⟩, ⟨.int, rfl⟩, ⟨.long, rfl⟩]
  have hr64 := Kind.width_of_ofBits? hk
  unfold foldResize
  split
  · rename_i c hc
    obtain ⟨_, rfl, _⟩ := hg.primitive_of_constant hρ hc hx
    obtain ⟨t, ht, hvalue⟩ := Term.exists_primitive_of_kind (g := g) (ρ := ρ) hs hk
      (by rintro rfl; simp at hr) (op.onWord _ r (ρ x))
    rw [op.low_onWord ⟨hwell.bits_pos, hwell.bits_le⟩ (by omega) hcompat] at hvalue
    rw [Result.bind_of_ok (op.onConstant_eq _ hk _ (ρ x))]
    exact gives_build ht hvalue
  · exact gives_pass

theorem gives_resizeTwice {op : ResizeOp} (hmr : m ≤ r ∨ op = .narrow)
    (hcompat : op = .narrow → r ≤ m) :
    Gives (·.Denotes g ρ (op.onValue r (Word.low m (ρ x)))) (resizeTwice op r g (.int s) x) := by
  unfold resizeTwice
  split
  · rename_i op' inner outer v hshape
    obtain ⟨hv, rfl, hle⟩ := hg.operand_of_resize hshape hx
    split
    · rename_i hop
      subst hop
      refine gives_resizeOf hρ hv ?_
      rw [hρ.low_of_resize hx.le hshape, op'.onValue_onValue hle hmr hcompat]
    · exact gives_pass
  · exact gives_pass

theorem gives_narrowExtended (hrm : r ≤ m) :
    Gives (·.Denotes g ρ ((Word.low m (ρ x)).setWidth r)) (narrowExtended r g (.int s) x) := by
  unfold narrowExtended
  split
  · rename_i op inner outer v hshape
    obtain ⟨hv, rfl, _⟩ := hg.operand_of_resize hshape hx
    split
    · exact gives_pass
    · rename_i hkept
      have hop : op ≠ .narrow := by
        rintro rfl
        simp at hkept
      rw [hρ.low_of_resize hx.le hshape, ResizeOp.setWidth_onValue hop hrm]
      split
      · rename_i heq
        subst heq
        rw [op.onValue_self]
        exact gives_keep (Term.denotes_node hρ hv)
      · split
        · rename_i hlt
          exact gives_resizeOf hρ hv (op.onValue_of_le (Nat.le_of_lt hlt) _).symm
        · exact gives_resizeOf hρ hv rfl
  · exact gives_pass

theorem gives_signExtendZeroExtended :
    Gives (·.Denotes g ρ ((Word.low m (ρ x)).signExtend r))
      (signExtendZeroExtended r g (.int s) x) := by
  unfold signExtendZeroExtended
  split
  · rename_i inner outer v hshape
    obtain ⟨hv, rfl, _⟩ := hg.operand_of_resize hshape hx
    split
    · rename_i hlt
      refine gives_resizeOf hρ hv ?_
      rw [hρ.low_of_resize hx.le hshape]
      exact (ResizeOp.signExtend_setWidth hlt _).symm
    · exact gives_pass
  · exact gives_pass

variable (hknown : g.Known ρ)

include hknown

omit hg in
theorem gives_signExtendPositive :
    Gives (·.Denotes g ρ ((Word.low m (ρ x)).signExtend r))
      (signExtendPositive m r g (.int s) x) := by
  obtain ⟨t, ht, rfl, hwell⟩ := hx.exists_int
  simp only [signExtendPositive, ht]
  split
  · rename_i hzero
    have hmsb : (Word.low t.bits (ρ x)).msb = false := by
      rw [Word.msb_low hwell.bits_pos, ← Bool.not_eq_true]
      intro hsign
      have hup := hwell.getLsbD_up (hknown.contains ht hx) (Nat.sub_lt hwell.bits_pos Nat.one_pos) hsign
      rw [Word.getLsbD_of_and_shl_one (by have := hwell.bits_le; omega) hzero] at hup
      cases hup
    refine gives_resizeOf hρ hx ?_
    exact (BitVec.signExtend_eq_setWidth_of_msb_false hmsb).symm
  · exact gives_pass

theorem gives_zeroExtendNarrowed (hs : s.bits = r) :
    Gives (·.Denotes g ρ ((Word.low m (ρ x)).setWidth r)) (zeroExtendNarrowed g (.int s) x) := by
  unfold zeroExtendNarrowed
  split
  · rename_i inner outer v hshape
    obtain ⟨hv, rfl, _⟩ := hg.operand_of_resize hshape hx
    obtain ⟨t, ht, rfl, hwell⟩ := hv.exists_int
    obtain ⟨u, hu, hbits, _⟩ := hx.exists_int
    simp only [ht, hu]
    split
    · rename_i hcond
      simp only [Stamp.isCompatible, Stamp.bits, hbits, Bool.and_eq_true, decide_eq_true_eq,
        beq_iff_eq] at hcond
      obtain ⟨hwidth, hzero⟩ := hcond
      obtain rfl : t.bits = r := hwidth.trans hs
      have hhigh : ∀ i, outer ≤ i → (Word.low t.bits (ρ v)).getLsbD i = false := by
        intro i hi
        have hup := Word.getLsbD_of_and_not_mask hx.le hzero hi
        rw [BitVec.getLsbD_or, Bool.or_eq_false_iff] at hup
        rw [Word.getLsbD_low, ← Bool.not_eq_true, Bool.and_eq_true, decide_eq_true_eq]
        rintro ⟨hlt, hbit⟩
        rw [hwell.getLsbD_up (hknown.contains ht hv) hlt hbit] at hup
        cases hup.1
      rw [hρ.low_of_resize hx.le hshape, ResizeOp.onValue, ResizeOp.setWidth_setWidth_of_high hhigh]
      exact gives_keep (Term.denotes_node hρ hv)
    · exact gives_pass
  · exact gives_pass

theorem gives_resize {op : ResizeOp} (hs : s.bits = r) (hr : r ∈ [8, 16, 32, 64])
    (hmr : m ≤ r ∨ op = .narrow) (hcompat : op = .narrow → r ≤ m) :
    Gives (·.Denotes g ρ (op.onValue r (Word.low m (ρ x)))) (resize op m r g (.int s) x) := by
  refine gives_firstUnary_cons (gives_resizeToSame hρ hx op) ?_
  refine gives_firstUnary_cons (gives_foldResize hg hρ hx hs hr hcompat) ?_
  refine gives_firstUnary_cons (gives_resizeTwice hg hρ hx hmr hcompat) ?_
  cases op with
  | narrow =>
    exact gives_firstUnary_cons (gives_narrowExtended hg hρ hx (hcompat rfl)) gives_firstUnary_nil
  | signExtend =>
    exact gives_firstUnary_cons (gives_signExtendZeroExtended hg hρ hx)
      (gives_firstUnary_cons (gives_signExtendPositive hρ hx hknown) gives_firstUnary_nil)
  | zeroExtend =>
    exact gives_firstUnary_cons (gives_zeroExtendNarrowed hg hρ hx hknown hs) gives_firstUnary_nil

end Canonical

namespace FlowGraph

/-- A change of width always has a canonical form, itself if no rule applies. That form is of the width
of the result and has the value that the change of width gives. -/
theorem canonical_resize_exact (f : FlowGraph) {ρ : NodeId → Word} (hg : f.graph.WellSorted)
    (hρ : f.graph.Models ρ) (hknown : f.graph.Known ρ) {n x : NodeId} {op : ResizeOp} {m r : Nat}
    (hn : f.graph.shape? n = some (.unary (.resize op m r) x)) (hr : r ∈ [8, 16, 32, 64])
    (hcompat : op = .narrow → r ≤ m) (hint : (f.graph.stamp n).IsInteger r) :
    ∃ o, f.canonical n = .ok (f, o) ∧
      (o.getD (.node n)).Denotes f.graph ρ (op.onValue r (Word.low m (ρ x))) := by
  obtain ⟨s, hs, hbits, _⟩ := hint.exists_int
  obtain ⟨hx, _, hmr⟩ := hg.operand_of_resize hn hint
  have hgives := Canonical.gives_resize hg hρ hx hknown hbits hr hmr hcompat
  obtain ⟨o, ho, hvalue⟩ := f.exists_canonical (Graph.shape?_unary hn).1 (by rintro _ ⟨⟩)
    (by simpa only [reduce, hn, hs] using hgives)
  refine ⟨o, ho, ?_⟩
  cases o with
  | none =>
    rw [← hρ.low_of_resize hint.le hn]
    exact Term.denotes_node hρ hint
  | some t => exact hvalue t rfl

/-- A parameter between `0` and `200` is narrowed to eight bits and zero extended again. -/
def thereAndBack : FlowGraph where
  graph := ⟨#[⟨{ op := .leaf (.parameter 0), stamp := .int (.ofBounds 32 0 200) }, [], .ofList [1], true⟩,
    ⟨{ op := .unary (.resize .narrow 32 8), stamp := .int (.full 8) }, [some 0], .ofList [2], true⟩,
    ⟨{ op := .unary (.resize .zeroExtend 8 32), stamp := .int (.ofBounds 32 0 255) }, [some 1], {}, true⟩],
    #[], []⟩
  control := []

def thereAndBackValues (i : NodeId) : Word := [200, -56, 200].getD i 0

theorem canonical_resize_exact_thereAndBack :
    ∃ o, thereAndBack.canonical 2 = .ok (thereAndBack, o) ∧
      (o.getD (.node 2)).Denotes thereAndBack.graph thereAndBackValues (200 : BitVec 32) :=
  @canonical_resize_exact thereAndBack thereAndBackValues (by decide) (by decide) (by decide) 2 1
    .zeroExtend 8 32 rfl (by decide) (by decide) (by decide)

end FlowGraph

end CompilerKit
