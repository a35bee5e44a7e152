import CompilerKit.Proofs.Canonical.Arithmetic
import CompilerKit.Proofs.Canonical.Divide

/-! # Quotients without a rounding step

A quotient that is not bound to a place in the control flow becomes a shift if its divisor is a power
of two, up to the sign. A shift rounds down and nothing is added before it, so the answer is the
quotient only if the dividend is not negative or a multiple of the divisor. Otherwise it is further
from zero by one.
-/

namespace CompilerKit

namespace Word

variable {w e : Nat} {x y : BitVec w}

/-- Rounding down instead of towards zero loses one if there is a negative remainder. -/
theorem toInt_sshiftRight_add (hw : 1 < w) (x : BitVec w) (e : Nat) :
    (x.sshiftRight e + if x.toInt < 0 ∧ ¬2 ^ e ∣ x.toInt then 1#w else 0#w).toInt =
      x.toInt.tdiv (2 ^ e) := by
  have hshift : (x.sshiftRight e).toInt = x.toInt / 2 ^ e := by
    rw [BitVec.toInt_sshiftRight, Int.shiftRight_eq_div_pow, Int.natCast_pow]
    rfl
  have hpos : (0 : Int) < 2 ^ e := Int.pow_pos (by decide)
  rw [Int.tdiv_eq_ediv, Int.sign_eq_one_of_pos hpos]
  split
  · rename_i hneg
    have hlt : x.toInt / 2 ^ e < 0 := Int.ediv_neg_of_neg_of_pos hneg.1 hpos
    have hle : -2 ^ (w - 1) ≤ x.toInt / 2 ^ e := hshift ▸ BitVec.le_toInt _
    have hbound : (0 : Int) < 2 ^ (w - 1) := Int.pow_pos (by decide)
    rw [BitVec.toInt_add, hshift, BitVec.toInt_one hw, bmod_of_range (by omega) (by omega) (by omega),
      if_neg (by rw [not_or]; exact ⟨by omega, hneg.2⟩)]
  · rename_i hexact
    rw [BitVec.add_zero, hshift, if_pos (by rw [not_and_not_right] at hexact; omega), Int.add_zero]

theorem sshiftRight_eq_sdiv_add (hw : 1 < w) (hy : y.toInt = 2 ^ e) :
    x.sshiftRight e = x.sdiv y + if x.toInt < 0 ∧ ¬2 ^ e ∣ x.toInt then -1#w else 0#w := by
  rw [sdiv_eq_of_toInt hy (toInt_sshiftRight_add hw x e), BitVec.add_assoc]
  split
  · rw [← BitVec.sub_eq_add_neg, BitVec.sub_self, BitVec.add_zero]
  · rw [BitVec.add_zero, BitVec.add_zero]

theorem neg_sshiftRight_eq_sdiv_add (hw : 1 < w) (hy : y.toInt = -2 ^ e) :
    -x.sshiftRight e = x.sdiv y + if x.toInt < 0 ∧ ¬2 ^ e ∣ x.toInt then 1#w else 0#w := by
  rw [sdiv_eq_neg_of_toInt hy (toInt_sshiftRight_add hw x e), BitVec.neg_add, BitVec.sub_add_cancel]

/-- A remainder is left of a division by a power of two exactly if it does not divide. -/
theorem srem_ne_zero_iff {a b : Word} (hb : isPowerOfTwo (abs b) = true) :
    a.srem b ≠ 0 ↔ ¬2 ^ log2 (abs b) ∣ a.toInt := by
  have hdvd : b.toInt ∣ a.toInt ↔ 2 ^ log2 (abs b) ∣ a.toInt := by
    rw [toInt_of_isPowerOfTwo_abs hb]
    split
    · exact Int.neg_dvd
    · rfl
  rw [← hdvd, Int.dvd_iff_tmod_eq_zero, ← BitVec.toInt_srem, ← BitVec.toInt_zero (w := 64),
    BitVec.toInt_inj]
  rfl

end Word

/-- The dividend is negative, and the divisor is a power of two, up to its sign, that leaves a
remainder. -/
def Graph.roundsAway (g : Graph Label) (ρ : NodeId → Word) (x y : NodeId) : Bool :=
  !g.isConstant x && Word.isPowerOfTwo (Word.abs (ρ y)) && (ρ x).slt 0 && (ρ x).srem (ρ y) ≠ 0

/-- What the canonical form of a quotient adds to the quotient. -/
def Graph.roundingError (g : Graph Label) (ρ : NodeId → Word) (w : Nat) (x y : NodeId) : BitVec w :=
  if g.roundsAway ρ x y then if (ρ y).slt 0 then 1#w else -1#w else 0#w

namespace Canonical

open Reduction

variable {g : Graph Label} {ρ : NodeId → Word} {s : IntStamp} {x y : NodeId}

theorem foldConstants_of_isConstant (op : BinaryOp) (hx : g.isConstant x = false) :
    foldConstants op g (.int s) x y = pass := by
  unfold foldConstants
  split
  · rename_i ha _
    rw [Graph.isConstant, ha] at hx
    cases hx
  · rfl

theorem roundingError_of_isConstant (hx : g.isConstant x = true) (w : Nat) :
    g.roundingError ρ w x y = 0#w := by
  rw [Graph.roundingError, Graph.roundsAway, hx]
  rfl

theorem roundingError_of_one (hy : ρ y = 1) (w : Nat) : g.roundingError ρ w x y = 0#w := by
  have hrem : (ρ x).srem (ρ y) = 0 := by
    rw [hy]
    exact BitVec.srem_one
  rw [Graph.roundingError, Graph.roundsAway, hrem, decide_eq_false (not_not.mpr rfl), Bool.and_false]
  rfl

section Rules

variable (h : Computing g ρ s) (hx : (g.stamp x).IsInteger s.bits)
  (hy : (g.stamp y).IsInteger s.bits)

include h hx

theorem roundingError_eq (hxc : g.isConstant x = false)
    (hpow : Word.isPowerOfTwo (Word.abs (ρ y)) = true) :
    g.roundingError ρ s.bits x y =
      if (Word.low s.bits (ρ x)).toInt < 0 ∧
        ¬2 ^ Word.log2 (Word.abs (ρ y)) ∣ (Word.low s.bits (ρ x)).toInt then
          if (ρ y).slt 0 then 1#s.bits else -1#s.bits
      else 0#s.bits := by
  have hcond : g.roundsAway ρ x y = true ↔ (Word.low s.bits (ρ x)).toInt < 0 ∧
      ¬2 ^ Word.log2 (Word.abs (ρ y)) ∣ (Word.low s.bits (ρ x)).toInt := by
    rw [h.toInt_low hx, ← Word.srem_ne_zero_iff hpow, ← Word.slt_zero_iff]
    simp only [Graph.roundsAway, hxc, hpow, Bool.not_false, Bool.true_and, Bool.and_eq_true,
      decide_eq_true_eq]
  rw [Graph.roundingError]
  exact if_congr hcond rfl rfl

include hy

theorem gives_divPowerOfTwo (hxc : g.isConstant x = false) :
    Gives (·.Denotes g ρ ((Word.low s.bits (ρ x)).sdiv (Word.low s.bits (ρ y)) +
      g.roundingError ρ s.bits x y)) (divPowerOfTwo g (.int s) x y) := by
  have hw : 1 < s.bits := by
    have := h.width
    omega
  refine gives_onIntegerRight h fun _ => ?_
  dsimp only
  split
  · rename_i hpow
    have hlow := (h.toInt_low hy).trans (Word.toInt_of_isPowerOfTwo_abs hpow)
    obtain ⟨q, hq, hqValue⟩ := Term.exists_shift h.le .shr (Term.denotes_node h.models hx)
      (log2_lt_of_fits h.pos (h.fits hy) hpow)
    rw [Result.bind_of_ok hq]
    have herror := roundingError_eq (y := y) h hx hxc hpow
    split
    · rename_i hneg
      obtain ⟨t, ht, hvalue⟩ := Term.exists_neg h.le hqValue
      simp only [if_pos hneg] at hlow herror
      refine gives_build ht ?_
      rwa [herror, ← Word.neg_sshiftRight_eq_sdiv_add hw hlow]
    · rename_i hneg
      simp only [if_neg hneg] at hlow herror
      refine gives_build rfl ?_
      rwa [herror, ← Word.sshiftRight_eq_sdiv_add hw hlow]
  · exact gives_pass

variable {c : Constant} (hc : g.constant? y = some c)

include hc

theorem dropNeutral_div :
    dropNeutral .div g (.int s) x y = if ρ y = 1 then keep x else pass := by
  obtain ⟨k, rfl, _⟩ := h.constant hc hy
  obtain ⟨t, ht, _, _⟩ := hx.exists_int
  have hneutral : BinaryOp.div.isNeutral .integer (.primitive k (ρ y)) = .ok (decide (ρ y = 1)) := rfl
  rw [dropNeutral, onConstantRight, hc]
  dsimp only
  rw [ht, isNeutralAt, Stamp.family?, Result.bind_of_ok hneutral]
  simp only [decide_eq_true_eq]

theorem gives_div (hne : Word.low s.bits (ρ y) ≠ 0) :
    Gives (·.Denotes g ρ ((Word.low s.bits (ρ x)).sdiv (Word.low s.bits (ρ y)) +
      g.roundingError ρ s.bits x y)) (div g (.int s) x y) := by
  -- Two constants are divided exactly, so only the shift has to do with the error.
  cases hxc : g.isConstant x with
  | true =>
    obtain ⟨a, ha⟩ := Option.isSome_iff_exists.mp hxc
    rw [roundingError_of_isConstant hxc, BitVec.add_zero]
    refine gives_firstBinary_cons (gives_foldConstants h hx hy (if_neg hne)) fun hpass => ?_
    rw [foldConstants, ha, hc] at hpass
    exact absurd hpass (build_ne_pass _)
  | false =>
    rw [div, firstBinary_of_pass (foldConstants_of_isConstant .div hxc)]
    refine gives_firstBinary_cons ?_ fun _ => ?_
    · rw [dropNeutral_div h hx hy hc]
      split
      · rename_i hone
        refine h.gives_node hx ?_
        rw [roundingError_of_one hone, BitVec.add_zero, hone, Word.low_one h.le, BitVec.sdiv_one]
      · exact gives_pass
    · exact gives_firstBinary_cons (gives_divPowerOfTwo h hx hy hxc) fun _ => gives_firstBinary_nil

omit hx in
theorem roundingError_of_pass (hpass : div g (.int s) x y = pass) :
    g.roundingError ρ s.bits x y = 0#s.bits := by
  obtain ⟨k, rfl, hk⟩ := h.constant hc hy
  have hinteger : g.integer? y = some (ρ y) := by
    rw [Graph.integer?, hc]
    exact if_pos (h.isInteger_kind hk).1
  rw [div, firstBinary_of_pass (pass_of_firstBinary hpass)] at hpass
  rw [firstBinary_of_pass (pass_of_firstBinary hpass)] at hpass
  have hshift := pass_of_firstBinary hpass
  rw [divPowerOfTwo, onIntegerRight, hinteger] at hshift
  dsimp only at hshift
  split at hshift
  · exact absurd hshift (build_ne_pass _)
  · rename_i hpow
    rw [Graph.roundingError, Graph.roundsAway, eq_false_of_ne_true hpow, Bool.and_false]
    rfl

end Rules

end Canonical

namespace FlowGraph

/-- A quotient by a constant other than zero always has a canonical form, itself if no rule applies.
Its value is the quotient, truncated towards zero and wrapped around, but for the rounding error of a
shift. -/
theorem canonical_quotient_rounding (f : FlowGraph) {ρ : NodeId → Word} (hg : f.graph.WellSorted)
    (hρ : f.graph.Models ρ) (hknown : f.graph.Known ρ) {n x y : NodeId}
    (hn : f.graph.shape? n = some (.binary (.arith .div) x y)) (hconst : f.graph.isConstant y = true)
    (hy : ρ y ≠ 0) {w : Nat} (hw : w = 32 ∨ w = 64) (hint : (f.graph.stamp n).IsInteger w) :
    ∃ o, f.canonical n = .ok (f, o) ∧ (o.getD (.node n)).eval ρ =
      some (Word.ofLow ((Word.low w (ρ x)).sdiv (Word.low w (ρ y)) + f.graph.roundingError ρ w x y)) := by
  obtain ⟨s, hs, rfl, _⟩ := hint.exists_int
  obtain ⟨hx, hyi⟩ := hg.wellTyped.operands rfl hn hint
  obtain ⟨c, hc⟩ := Option.isSome_iff_exists.mp hconst
  have h : Canonical.Computing f.graph ρ s := ⟨hg, hρ, hknown, hw⟩
  have hne := hρ.low_ne_zero hyi hy
  obtain ⟨o, ho, hvalue⟩ := Canonical.gives_div h hx hyi hc hne
  refine ⟨o, ?_, ?_⟩
  · rw [f.canonical_eq_reduce (Graph.shape?_binary hn).1 (by rintro _ ⟨⟩)]
    simp only [reduce, hn, hs]
    exact congrArg _ ho
  · cases o with
    | none =>
      rw [Canonical.roundingError_of_pass h hyi hc ho, BitVec.add_zero]
      exact congrArg some (hρ.eq_of_arith hn hint (if_neg hne))
    | some t => exact (hvalue t rfl).value

def floatingQuotient (dividend quotient : IntStamp) (c : Int) : FlowGraph where
  graph := ⟨#[⟨{ op := .leaf (.parameter 0), stamp := .int dividend }, [], .ofList [2], true⟩,
    ⟨{ op := .leaf (.constant (.ofInt32 c)), stamp := .int (.single 32 (BitVec.ofInt 64 c)) }, [],
      .ofList [2], true⟩,
    ⟨{ op := .binary (.arith .div), stamp := .int quotient }, [some 0, some 1], {}, true⟩], #[], []⟩
  control := []

def floatingValues (x y q : Word) (i : NodeId) : Word := [x, y, q].getD i 0

theorem canonical_quotient_rounding_quarter :
    ∃ o, (floatingQuotient (.full 32) (.full 32) (-4)).canonical 2 =
        .ok (floatingQuotient (.full 32) (.full 32) (-4), o) ∧
      (o.getD (.node 2)).eval (floatingValues (-7) (-4) 1) = some 2 := by
  obtain ⟨o, ho, hvalue⟩ := @canonical_quotient_rounding
    (floatingQuotient (.full 32) (.full 32) (-4)) (floatingValues (-7) (-4) 1)
    (by decide) (by decide) (by decide) 2 0 1 rfl rfl (by decide) 32 (.inl rfl) (by decide)
  exact ⟨o, ho, hvalue⟩

/-- A quarter of minus three is zero, the only value in the stamp of the quotient, but the shift that
takes its place gives minus one. -/
theorem canonical_quotient_rounds_down :
    let f := floatingQuotient (.ofBounds 32 (-3) (-2)) (.single 32 0) 4
    let ρ := floatingValues (-3) 4 0
    f.graph.WellSorted ∧ f.graph.Models ρ ∧ f.graph.Known ρ ∧ f.graph.computed ρ 2 = some 0 ∧
      ∃ t, f.canonical 2 = .ok (f, some t) ∧ t.eval ρ = some (-1) :=
  ⟨by decide, by decide, by decide, by decide, _, rfl, by decide⟩

end FlowGraph

end CompilerKit
