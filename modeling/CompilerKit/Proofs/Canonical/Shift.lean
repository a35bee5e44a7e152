import CompilerKit.Proofs.Canonical.Rule
import CompilerKit.Proofs.Stamp.Shift

/-! # Shifts are reduced without a change of value

The amount of a shift counts modulo the width, whatever constant gives it. Two shifts in one direction
add up, and their sum may exceed the width; two in opposite directions by the same amount are a mask.
What is known of a value matters for its sign only.
-/

namespace CompilerKit

namespace Word

/-- The amounts that the mask of a width leaves as they are. -/
theorem and_pred_eq_self_iff {w : Nat} (hw : w = 32 ∨ w = 64) (n : Nat) :
    n &&& (w - 1) = n ↔ n < w := by
  rcases hw with rfl | rfl
  · rw [show 32 - 1 = 2 ^ 5 - 1 from rfl, Nat.and_two_pow_sub_one_eq_mod]
    omega
  · rw [show 64 - 1 = 2 ^ 6 - 1 from rfl, Nat.and_two_pow_sub_one_eq_mod]
    omega

theorem lowInt_of_fits {x : Word} (hx : Fits 32 x) : lowInt x = x.toInt :=
  toInt_low_of_fits (w := 32) (by decide) (by decide) hx

theorem low_neg_one {w : Nat} (hw : w ≤ 64) : low w (-1) = BitVec.allOnes w := by
  have hones : (-1 : Word) = BitVec.allOnes 64 := by decide
  apply BitVec.eq_of_getLsbD_eq
  intro i hi
  rw [hones, getLsbD_low, BitVec.getLsbD_allOnes, BitVec.getLsbD_allOnes,
    decide_eq_true (by omega : i < 64), Bool.and_true]

end Word

namespace ShiftOp

variable {w : Nat} {op : ShiftOp} (x : BitVec w) (m n : Nat)

theorem onValue_zero (op : ShiftOp) : op.onValue x 0 = x := by
  cases op with
  | shl => exact BitVec.shiftLeft_zero x
  | shr => exact BitVec.sshiftRight_zero
  | ushr => exact BitVec.ushiftRight_zero x

theorem onValue_onValue (op : ShiftOp) : op.onValue (op.onValue x m) n = op.onValue x (m + n) := by
  cases op with
  | shl => exact (BitVec.shiftLeft_add x m n).symm
  | shr => exact BitVec.sshiftRight_add.symm
  | ushr => exact (BitVec.shiftRight_add x m n).symm

variable {n}

theorem onValue_eq_zero (hop : op ≠ .shr) (hn : w ≤ n) : op.onValue x n = 0#w := by
  cases op with
  | shl => exact BitVec.shiftLeft_eq_zero hn
  | shr => exact absurd rfl hop
  | ushr => exact BitVec.ushiftRight_eq_zero hn

theorem sshiftRight_of_le (hn : w ≤ n) : x.sshiftRight n = x.sshiftRight (w - 1) := by
  apply BitVec.eq_of_getLsbD_eq
  intro i hi
  rw [BitVec.getLsbD_sshiftRight, BitVec.getLsbD_sshiftRight, if_neg (by omega)]
  split
  · rw [show w - 1 + i = w - 1 by omega, BitVec.msb_eq_getLsbD_last]
  · rfl

theorem sshiftRight_of_neg (hx : x.toInt < 0) (hn : w ≤ n) : x.sshiftRight n = BitVec.allOnes w := by
  have hmsb : x.msb = true := by rw [BitVec.msb_eq_toInt, decide_eq_true hx]
  rw [BitVec.sshiftRight_eq_of_msb_true hmsb, BitVec.ushiftRight_eq_zero hn, BitVec.not_zero]

theorem shiftLeft_onValue (hop : op ≠ .shl) :
    (op.onValue x n) <<< n = x &&& BitVec.allOnes w <<< n := by
  apply BitVec.eq_of_getLsbD_eq
  intro i hi
  rw [BitVec.getLsbD_shiftLeft, BitVec.getLsbD_and, BitVec.getLsbD_shiftLeft,
    BitVec.getLsbD_allOnes]
  by_cases hin : i < n
  · simp [hin]
  · have hback : (op.onValue x n).getLsbD (i - n) = x.getLsbD i := by
      cases op with
      | shl => exact absurd rfl hop
      | shr =>
        rw [onValue, BitVec.getLsbD_sshiftRight, show n + (i - n) = i by omega, if_pos hi,
          decide_eq_false (by omega), Bool.not_false, Bool.true_and]
      | ushr => rw [onValue, BitVec.getLsbD_ushiftRight, show n + (i - n) = i by omega]
    rw [hback, decide_eq_true hi, decide_eq_false hin, decide_eq_true (by omega : i - n < w)]
    simp only [Bool.not_false, Bool.true_and, Bool.and_true]

theorem shiftLeft_ushiftRight : (x <<< n) >>> n = x &&& BitVec.allOnes w >>> n := by
  apply BitVec.eq_of_getLsbD_eq
  intro i hi
  rw [BitVec.getLsbD_ushiftRight, BitVec.getLsbD_shiftLeft, BitVec.getLsbD_and,
    BitVec.getLsbD_ushiftRight, BitVec.getLsbD_allOnes, show n + i - n = i by omega,
    decide_eq_false (by omega : ¬n + i < n), Bool.not_false, Bool.and_true, Bool.and_comm]

theorem exists_onConstant (hw : w = 32 ∨ w = 64) {k : Kind} (hk : Kind.ofBits? w = some k)
    (op : ShiftOp) (c : Word) {y : Word} (hy : Word.Fits 32 y) :
    ∃ r, op.onConstant (.primitive k c) (Word.lowInt y) = .ok (.primitive k (k.clip r)) ∧
      Word.low w r = op.onValue (Word.low w c) (Word.distance w y) := by
  rw [Word.lowInt_of_fits hy]
  rcases hw with rfl | rfl
  · cases hk
    refine ⟨Word.ofLow (op.onValue (Word.low 32 c) (Word.distance 32 y)), ?_,
      Word.low_ofLow (by decide) _⟩
    cases op <;> rfl
  · cases hk
    have hmod := Nat.mod_eq_of_lt (Word.distance_lt (by decide : 0 < 64) y)
    refine ⟨op.onValue c (Word.distance 64 y), ?_, ?_⟩
    · cases op with
      | shl => exact congrArg (fun n => (.ok (.ofWord (c <<< n)) : Result Constant)) hmod
      | shr => exact congrArg (fun n => (.ok (.ofWord (c.sshiftRight n)) : Result Constant)) hmod
      | ushr => exact congrArg (fun n => (.ok (.ofWord (c >>> n)) : Result Constant)) hmod
    · rw [Word.low, Word.low, BitVec.setWidth_eq, BitVec.setWidth_eq]

end ShiftOp

namespace Canonical

open Reduction

variable {g : Graph Label} {ρ : NodeId → Word} {s : IntStamp}

/-! Constants of the size in which a value is computed. -/

theorem width_and_stackKind (hw : s.bits = 32 ∨ s.bits = 64) :
    s.bits = 32 ∧ (Stamp.int s).stackKind = .int ∨
      s.bits = 64 ∧ (Stamp.int s).stackKind = .long := by
  rcases hw with hw | hw
  · exact .inl ⟨hw, if_neg (by omega)⟩
  · exact .inr ⟨hw, if_pos (by omega)⟩

theorem denotes_sizedConstant (hw : s.bits = 32 ∨ s.bits = 64) (x : Word) :
    (sizedConstant (.int s) x).Denotes g ρ (Word.low s.bits x) := by
  rcases width_and_stackKind hw with ⟨hw, hkind⟩ | ⟨hw, hkind⟩
  · rw [sizedConstant, hkind, if_neg (by decide), hw]
    refine ⟨⟨_, rfl, IntStamp.ofBounds_bits ..⟩, ?_⟩
    rw [Term.eval_ofInt]
    exact congrArg (some ∘ Word.ofLow) (Word.low_ofLow (by decide) (Word.low 32 x))
  · rw [sizedConstant, hkind, if_pos rfl, hw]
    refine ⟨⟨_, rfl, IntStamp.ofBounds_bits ..⟩, ?_⟩
    rw [Word.low, BitVec.setWidth_eq, Word.ofLow, BitVec.signExtend_eq]
    rfl

theorem ofKind_eq (s : IntStamp) (x : Word) :
    Term.ofKind (Stamp.int s).stackKind x = .ok (sizedConstant (.int s) x) := by
  simp only [sizedConstant, Stamp.stackKind]
  split <;> rfl

theorem denotes_highBits (hw : s.bits = 32 ∨ s.bits = 64) {n : Nat} (hn : n < s.bits) :
    (highBits (.int s) n).Denotes g ρ (BitVec.allOnes s.bits <<< n) := by
  have hlow : Word.low s.bits (Word.shl (BitVec.allOnes 64) n) = BitVec.allOnes s.bits <<< n := by
    apply BitVec.eq_of_getLsbD_eq
    intro i hi
    rw [Word.getLsbD_low, Word.getLsbD_shl_allOnes (by omega), BitVec.getLsbD_shiftLeft,
      BitVec.getLsbD_allOnes, Bool.eq_iff_iff]
    simp
    omega
  rw [← hlow]
  exact denotes_sizedConstant hw _

theorem denotes_lowBits (hw : s.bits = 32 ∨ s.bits = 64) {n : Nat} (hn : n < s.bits) :
    (lowBits (.int s) n).Denotes g ρ (BitVec.allOnes s.bits >>> n) := by
  have hmask : lowBits (.int s) n = sizedConstant (.int s) (Word.ushr (Word.mask s.bits) n) := by
    rcases width_and_stackKind hw with ⟨hw, hkind⟩ | ⟨hw, hkind⟩
    · rw [lowBits, sizedConstant, hkind, if_neg (by decide), if_neg (by decide), hw]
    · rw [lowBits, sizedConstant, hkind, if_pos rfl, if_pos rfl, hw, Word.mask, if_pos rfl]
  have hlow : Word.low s.bits (Word.ushr (Word.mask s.bits) n) = BitVec.allOnes s.bits >>> n := by
    apply BitVec.eq_of_getLsbD_eq
    intro i hi
    rw [Word.getLsbD_low, Word.getLsbD_ushr _ (by omega), Word.getLsbD_mask (by omega),
      BitVec.getLsbD_ushiftRight, BitVec.getLsbD_allOnes, decide_eq_true hi, Bool.true_and]
  rw [hmask, ← hlow]
  exact denotes_sizedConstant hw _

variable {x y : NodeId} (h : Computing g ρ s)

include h

theorem Computing.eq_of_constantWord {c : Word} (hc : constantWord? g y = some c) : c = ρ y := by
  unfold constantWord? at hc
  split at hc
  · rename_i hconst
    cases hc
    exact (h.models.eq_of_constant h.sorted.wellTyped hconst).symm
  · cases hc

theorem Computing.amountUnder_eq (c : Word) :
    amountUnder s.shiftMask c = Word.distance s.bits c := Word.and_shiftMask h.width c

theorem Computing.distance_lt (c : Word) : Word.distance s.bits c < s.bits :=
  Word.distance_lt h.pos c

theorem gives_onConstantAmount {P : Term → Prop}
    {rule : Graph Label → Stamp → NodeId → Nat → Nat → Word → Reduction}
    (hrule : Gives P (rule g (.int s) x s.shiftMask (Word.distance s.bits (ρ y)) (ρ y))) :
    Gives P (onConstantAmount rule g (.int s) x y) := by
  unfold onConstantAmount
  split
  · rename_i c hc
    obtain rfl := h.eq_of_constantWord hc
    rw [Stamp.shiftMask, Result.bind_of_ok rfl, h.amountUnder_eq]
    exact hrule
  · exact gives_pass

variable (hx : (g.stamp x).IsInteger s.bits)

include hx

theorem Computing.shifted {op : ShiftOp} {u : NodeId} {k : Nat}
    (hk : shiftByConstant? g s.shiftMask x = some (op, u, k)) :
    (g.stamp u).IsInteger s.bits ∧ k < s.bits ∧
      Word.low s.bits (ρ x) = op.onValue (Word.low s.bits (ρ u)) k := by
  unfold shiftByConstant? at hk
  split at hk
  · rename_i op' u' v hshape
    obtain ⟨c, hc, heq⟩ := Option.map_eq_some_iff.mp hk
    cases heq
    obtain rfl := h.eq_of_constantWord hc
    rw [h.amountUnder_eq]
    refine ⟨(h.sorted.operands_of_shift hshape hx).1, h.distance_lt _, ?_⟩
    rw [h.models.eq_of_shift hshape hx, Word.low_ofLow h.le]
  · cases hk

theorem gives_foldShift (hy : (g.stamp y).IsInteger 32) (op : ShiftOp) :
    Gives (·.Denotes g ρ (op.onValue (Word.low s.bits (ρ x)) (Word.distance s.bits (ρ y))))
      (foldShift op g (.int s) x y) := by
  unfold foldShift
  split
  · rename_i a c ha hc
    obtain ⟨k, rfl, hk⟩ := h.constant ha hx
    obtain rfl := h.eq_of_constantWord hc
    have hfits : Word.Fits 32 (ρ y) := by
      rw [← h.models.ofLow_low hy]
      exact Word.fits_ofLow (by decide) _
    obtain ⟨r, hr, hlow⟩ := ShiftOp.exists_onConstant h.width hk op (ρ x) hfits
    obtain ⟨t, ht, hvalue⟩ := Term.exists_primitive (g := g) (ρ := ρ) rfl h.width hk r
    rw [Result.bind_of_ok hr]
    exact gives_build ht (hlow ▸ hvalue)
  · exact gives_pass

theorem gives_shiftByNothing (op : ShiftOp) :
    Gives (·.Denotes g ρ (op.onValue (Word.low s.bits (ρ x)) (Word.distance s.bits (ρ y))))
      (shiftByNothing g (.int s) x y) := by
  refine gives_onConstantAmount h ?_
  split
  · rename_i hzero
    refine h.gives_node hx ?_
    rw [hzero, ShiftOp.onValue_zero]
  · exact gives_pass

theorem gives_reduceAmount (op : ShiftOp) :
    Gives (·.Denotes g ρ (op.onValue (Word.low s.bits (ρ x)) (Word.distance s.bits (ρ y))))
      (reduceAmount op g (.int s) x y) := by
  refine gives_onConstantAmount h ?_
  split
  · exact h.gives_shift hx (h.distance_lt (ρ y)) rfl
  · exact gives_pass

theorem gives_shiftPositive (hy : (g.stamp y).IsInteger 32) :
    Gives (·.Denotes g ρ ((Word.low s.bits (ρ x)).sshiftRight (Word.distance s.bits (ρ y))))
      (shiftPositive g (.int s) x y) := by
  obtain ⟨a, ha, _, hwell⟩ := hx.exists_int
  obtain ⟨b, hb, _, _⟩ := hy.exists_int
  simp only [shiftPositive, ha]
  split
  · rename_i hpos
    have hlo := ((IntStamp.contains_iff hwell.bits_le _).mp (h.known.contains ha hx)).1.1
    have hnonneg : 0 ≤ (Word.low s.bits (ρ x)).toInt := by
      rw [h.toInt_low hx]
      exact Int.le_trans (a.isPositive_iff.mp hpos) hlo
    obtain ⟨t, ht, hvalue⟩ := Term.exists_shiftBy (r := .node y) h.le .ushr
      (Term.denotes_node h.models hx) hb rfl
    refine gives_build ht ?_
    rw [Word.sshiftRight_eq_of_nonneg hnonneg]
    exact hvalue
  · exact gives_pass

omit hx in
theorem gives_signOnly {u : NodeId} (hu : (g.stamp u).IsInteger s.bits) {n : Nat}
    (hn : s.bits ≤ n) :
    Gives (·.Denotes g ρ ((Word.low s.bits (ρ u)).sshiftRight n))
      (signOnly g (.int s) u s.shiftMask) := by
  obtain ⟨a, ha, _, hwell⟩ := hu.exists_int
  obtain ⟨⟨hlo, hhi⟩, _⟩ := (IntStamp.contains_iff hwell.bits_le _).mp (h.known.contains ha hu)
  rw [← h.toInt_low hu] at hlo hhi
  simp only [signOnly, ha]
  split
  · rename_i hpos
    have hnonneg := Int.le_trans (a.isPositive_iff.mp hpos) hlo
    refine gives_build (ofKind_eq s 0) ?_
    rw [Word.sshiftRight_eq_of_nonneg hnonneg, BitVec.ushiftRight_eq_zero hn, ← Word.low_zero]
    exact denotes_sizedConstant h.width 0
  · split
    · rename_i hneg
      have hlt := Int.lt_of_le_of_lt hhi (a.isStrictlyNegative_iff.mp hneg)
      refine gives_build (ofKind_eq s (-1)) ?_
      rw [ShiftOp.sshiftRight_of_neg _ hlt hn, ← Word.low_neg_one h.le]
      exact denotes_sizedConstant h.width (-1)
    · refine h.gives_shift hu (Nat.sub_lt h.pos Nat.one_pos) ?_
      rw [ShiftOp.sshiftRight_of_le _ hn]
      rfl

omit hx in
theorem gives_added {op : ShiftOp} (hop : op ≠ .shr) {u : NodeId}
    (hu : (g.stamp u).IsInteger s.bits) (n : Nat) :
    Gives (·.Denotes g ρ (op.onValue (Word.low s.bits (ρ u)) n))
      (if n &&& s.shiftMask ≠ n then build (Term.ofKind (Stamp.int s).stackKind 0)
        else build (Term.shift g op (.node u) (.ofInt n))) := by
  split
  · rename_i hne
    have hn : s.bits ≤ n := by
      rw [ne_eq, IntStamp.shiftMask, Word.and_pred_eq_self_iff h.width] at hne
      omega
    refine gives_build (ofKind_eq s 0) ?_
    rw [ShiftOp.onValue_eq_zero _ hop hn, ← Word.low_zero]
    exact denotes_sizedConstant h.width 0
  · rename_i heq
    exact h.gives_shift hu ((Word.and_pred_eq_self_iff h.width n).mp (not_not.mp heq)) rfl

theorem gives_mergeLeft :
    Gives (·.Denotes g ρ (ShiftOp.shl.onValue (Word.low s.bits (ρ x))
      (Word.distance s.bits (ρ y)))) (mergeLeft g (.int s) x y) := by
  refine gives_onConstantAmount h ?_
  split
  · rename_i u k hk
    obtain ⟨hu, _, hvalue⟩ := h.shifted hx hk
    rw [hvalue, ShiftOp.onValue_onValue, Nat.add_comm]
    exact gives_added h (by decide) hu _
  · rename_i op u k hop hk
    obtain ⟨hu, _, hvalue⟩ := h.shifted hx hk
    split
    · rename_i heq
      obtain ⟨t, ht, hand⟩ := Term.exists_arith h.le .and (Term.denotes_node h.models hu)
        (denotes_highBits h.width (h.distance_lt (ρ y))) rfl
      refine gives_build ht ?_
      rw [hvalue, heq, ShiftOp.onValue, ShiftOp.shiftLeft_onValue _ hop]
      exact hand
    · exact gives_pass
  · exact gives_pass

theorem gives_mergeRight :
    Gives (·.Denotes g ρ (ShiftOp.shr.onValue (Word.low s.bits (ρ x))
      (Word.distance s.bits (ρ y)))) (mergeRight g (.int s) x y) := by
  refine gives_onConstantAmount h ?_
  split
  · rename_i u k hk
    obtain ⟨hu, _, hvalue⟩ := h.shifted hx hk
    rw [hvalue, ShiftOp.onValue_onValue, Nat.add_comm]
    dsimp only
    split
    · rename_i hne
      rw [ne_eq, IntStamp.shiftMask, Word.and_pred_eq_self_iff h.width] at hne
      exact gives_signOnly h hu (Nat.le_of_not_lt hne)
    · rename_i heq
      exact h.gives_shift hu ((Word.and_pred_eq_self_iff h.width _).mp (not_not.mp heq)) rfl
  · exact gives_pass

theorem gives_mergeUnsigned :
    Gives (·.Denotes g ρ (ShiftOp.ushr.onValue (Word.low s.bits (ρ x))
      (Word.distance s.bits (ρ y)))) (mergeUnsigned g (.int s) x y) := by
  refine gives_onConstantAmount h ?_
  split
  · rename_i u k hk
    obtain ⟨hu, _, hvalue⟩ := h.shifted hx hk
    rw [hvalue, ShiftOp.onValue_onValue, Nat.add_comm]
    exact gives_added h (by decide) hu _
  · rename_i u k hk
    obtain ⟨hu, _, hvalue⟩ := h.shifted hx hk
    split
    · rename_i heq
      obtain ⟨t, ht, hand⟩ := Term.exists_arith h.le .and (Term.denotes_node h.models hu)
        (denotes_lowBits h.width (h.distance_lt (ρ y))) rfl
      refine gives_build ht ?_
      rw [hvalue, heq, ShiftOp.onValue, ShiftOp.onValue, ShiftOp.shiftLeft_ushiftRight]
      exact hand
    · exact gives_pass
  · exact gives_pass

theorem gives_shift (hy : (g.stamp y).IsInteger 32) (op : ShiftOp) :
    Gives (·.Denotes g ρ (op.onValue (Word.low s.bits (ρ x)) (Word.distance s.bits (ρ y))))
      (shift op g (.int s) x y) := by
  have hfold := gives_foldShift h hx hy op
  have hnothing := gives_shiftByNothing (y := y) h hx op
  have hamount := gives_reduceAmount (y := y) h hx op
  cases op with
  | shl =>
    refine gives_firstBinary_cons hfold fun _ => ?_
    refine gives_firstBinary_cons hnothing fun _ => ?_
    refine gives_firstBinary_cons (gives_mergeLeft h hx) fun _ => ?_
    exact gives_firstBinary_cons hamount fun _ => gives_firstBinary_nil
  | shr =>
    refine gives_firstBinary_cons hfold fun _ => ?_
    refine gives_firstBinary_cons (gives_shiftPositive h hx hy) fun _ => ?_
    refine gives_firstBinary_cons hnothing fun _ => ?_
    refine gives_firstBinary_cons (gives_mergeRight h hx) fun _ => ?_
    exact gives_firstBinary_cons hamount fun _ => gives_firstBinary_nil
  | ushr =>
    refine gives_firstBinary_cons hfold fun _ => ?_
    refine gives_firstBinary_cons hnothing fun _ => ?_
    refine gives_firstBinary_cons (gives_mergeUnsigned h hx) fun _ => ?_
    exact gives_firstBinary_cons hamount fun _ => gives_firstBinary_nil

end Canonical

namespace FlowGraph

/-- A shift always has a canonical form, itself if no rule applies, and that form has the value of the
shift by the amount modulo the width. -/
theorem canonical_shift_exact (f : FlowGraph) {ρ : NodeId → Word} (hg : f.graph.WellSorted)
    (hρ : f.graph.Models ρ) (hknown : f.graph.Known ρ) {n x y : NodeId} {op : ShiftOp}
    (hn : f.graph.shape? n = some (.binary (.shift op) x y)) {w : Nat} (hw : w = 32 ∨ w = 64)
    (hint : (f.graph.stamp n).IsInteger w) :
    ∃ o, f.canonical n = .ok (f, o) ∧ (o.getD (.node n)).eval ρ =
      some (Word.ofLow (op.onValue (Word.low w (ρ x)) ((ρ y).toInt % w).toNat)) := by
  obtain ⟨s, hs, rfl, _⟩ := hint.exists_int
  obtain ⟨hx, hy⟩ := hg.operands_of_shift hn hint
  have hvalue := hρ.eq_of_shift hn hint
  obtain ⟨o, ho, heval⟩ := f.exists_canonical_denoting (Graph.shape?_binary hn).1 (by rintro _ ⟨⟩)
    hvalue (by simpa only [reduce, hn, hs] using Canonical.gives_shift ⟨hg, hρ, hknown, hw⟩ hx hy op)
  exact ⟨o, ho, heval.trans (congrArg some hvalue)⟩

/-- A parameter that is shifted to the right twice, by `20` and by `-17`, which counts as `15`. -/
def twice : FlowGraph where
  graph := ⟨#[⟨{ op := .leaf (.parameter 0), stamp := .int (.full 32) }, [], .ofList [3], true⟩,
    ⟨{ op := .leaf (.constant (.ofInt32 20)), stamp := .int (.single 32 20) }, [], .ofList [3], true⟩,
    ⟨{ op := .leaf (.constant (.ofInt32 (-17))), stamp := .int (.single 32 (-17)) }, [], .ofList [4], true⟩,
    ⟨{ op := .binary (.shift .shr), stamp := .int (.full 32) }, [some 0, some 1], .ofList [4], true⟩,
    ⟨{ op := .binary (.shift .shr), stamp := .int (.full 32) }, [some 3, some 2], {}, true⟩], #[], []⟩
  control := []

def twiceValues (i : NodeId) : Word := [-9, 20, -17, -1, -1].getD i 0

theorem canonical_shift_exact_twice :
    ∃ o, twice.canonical 4 = .ok (twice, o) ∧
      (o.getD (.node 4)).eval twiceValues = some (-1) := by
  obtain ⟨o, ho, hvalue⟩ := @canonical_shift_exact twice twiceValues (by decide) (by decide)
    (by decide) 4 3 2 .shr rfl 32 (.inl rfl) (by decide)
  exact ⟨o, ho, hvalue.trans (by decide)⟩

end FlowGraph

end CompilerKit
