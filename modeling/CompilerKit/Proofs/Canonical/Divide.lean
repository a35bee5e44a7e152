import CompilerKit.Canonical.Phase
import CompilerKit.Proofs.Canonical.Rule
import CompilerKit.Proofs.Division

/-! # Divisions are reduced exactly

Every rule for a division answers with a term that has the quotient or the remainder as its value,
unless the divisor is zero. Only rules that keep the divisor apply if it can be zero.
-/

namespace CompilerKit

/-- A division by a node: a new one, or a node that is one. -/
def Term.DividesBy : Term → Graph Label → Division → NodeId → Prop
  | binary (.divide d') _ _ t, _, d, y => d' = d ∧ t = .node y
  | node i, g, d, y => ∃ x, g.shape? i = some (.binary (.divide d) x y)
  | _, _, _, _ => False

theorem Graph.Models.low_ne_zero {g : Graph Label} {ρ : NodeId → Word} (hρ : g.Models ρ) {i : NodeId}
    {w : Nat} (hi : (g.stamp i).IsInteger w) (h : ρ i ≠ 0) : Word.low w (ρ i) ≠ 0 := by
  intro hz
  apply h
  rw [← hρ.ofLow_low hi, hz]
  exact Word.ofLow_zero _

namespace Canonical

open Reduction

/-- A division of two integers in a valuation that keeps to what is known of the dividend. -/
structure Dividing (g : Graph Label) (ρ : NodeId → Word) (s : IntStamp) (x y : NodeId) : Prop where
  wellTyped : g.WellTyped
  models : g.Models ρ
  wellFormed : s.WellFormed
  width : s.bits = 32 ∨ s.bits = 64
  left : (g.stamp x).IsInteger s.bits
  right : (g.stamp y).IsInteger s.bits
  known : ∀ t, g.stamp x = .int t → t.contains (ρ x) = true

/-- The term has the result of the division as its value, or traps as the division does. -/
structure Answers (g : Graph Label) (ρ : NodeId → Word) (s : IntStamp) (d : Division)
    (x y : NodeId) (t : Term) : Prop where
  value : ρ y ≠ 0 → t.eval ρ =
    some (Word.ofLow (d.onNonzero (Word.low s.bits (ρ x)) (Word.low s.bits (ρ y))))
  traps : ρ y = 0 → t.DividesBy g d y

section Rules

variable {g : Graph Label} {ρ : NodeId → Word} {s : IntStamp} {d : Division} {x y : NodeId}

theorem Dividing.pos (h : Dividing g ρ s x y) : 0 < s.bits := h.wellFormed.bits_pos

theorem Dividing.le (h : Dividing g ρ s x y) : s.bits ≤ 64 := h.wellFormed.bits_le

theorem Dividing.fits_left (h : Dividing g ρ s x y) : Word.Fits s.bits (ρ x) := by
  rw [← h.models.ofLow_low h.left]
  exact Word.fits_ofLow h.le _

theorem Dividing.fits_right (h : Dividing g ρ s x y) : Word.Fits s.bits (ρ y) := by
  rw [← h.models.ofLow_low h.right]
  exact Word.fits_ofLow h.le _

theorem Dividing.low_right_ne_zero (h : Dividing g ρ s x y) (hy : ρ y ≠ 0) :
    Word.low s.bits (ρ y) ≠ 0 := h.models.low_ne_zero h.right hy

theorem Dividing.denotes_left (h : Dividing g ρ s x y) :
    (Term.node x).Denotes g ρ (Word.low s.bits (ρ x)) := Term.denotes_node h.models h.left

theorem answers_of_denotes (hy : ρ y ≠ 0) {t : Term}
    (ht : t.Denotes g ρ (d.onNonzero (Word.low s.bits (ρ x)) (Word.low s.bits (ρ y)))) :
    Answers g ρ s d x y t :=
  ⟨fun _ => ht.value, fun hz => absurd hz hy⟩

theorem gives_foldSigned (h : Dividing g ρ s x y) {f : Word → Word → Word}
    (hf : ∀ {a b}, Word.Fits s.bits a → Word.Fits s.bits b →
      Word.low s.bits (f a b) = d.onNonzero (Word.low s.bits a) (Word.low s.bits b)) :
    Gives (Answers g ρ s d x y) (foldSigned f g (.int s) x y) := by
  unfold foldSigned
  split
  · rename_i a _ b ha hb
    obtain rfl := h.models.eq_of_constant h.wellTyped ha
    obtain rfl := h.models.eq_of_constant h.wellTyped hb
    split
    · exact gives_pass
    · rename_i hy
      obtain ⟨t, ht, hvalue⟩ := Term.exists_integer (g := g) (ρ := ρ) h.width (f (ρ x) (ρ y))
      rw [hf h.fits_left h.fits_right] at hvalue
      exact gives_build ht (answers_of_denotes hy hvalue)
  · exact gives_pass

theorem gives_foldUnsigned (h : Dividing g ρ s x y) {f : Word → Word → Word}
    (hf : ∀ a b, Word.low s.bits (f (Word.zeroExtend a s.bits) (Word.zeroExtend b s.bits)) =
      d.onNonzero (Word.low s.bits a) (Word.low s.bits b)) :
    Gives (Answers g ρ s d x y) (foldUnsigned f g (.int s) x y) := by
  unfold foldUnsigned
  split
  · rename_i a _ b ha hb
    obtain rfl := h.models.eq_of_constant h.wellTyped ha
    obtain rfl := h.models.eq_of_constant h.wellTyped hb
    dsimp only
    split
    · exact gives_pass
    · rename_i hy
      obtain ⟨t, ht, hvalue⟩ := Term.exists_integer (g := g) (ρ := ρ) h.width
        (f (Word.zeroExtend (ρ x) s.bits) (Word.zeroExtend (ρ y) s.bits))
      rw [hf] at hvalue
      refine gives_build ht (answers_of_denotes ?_ hvalue)
      intro hz
      exact hy ((congrArg (Word.zeroExtend · s.bits) hz).trans (Word.zeroExtend_zero h.le))
  · exact gives_pass

theorem gives_onDivisor (h : Dividing g ρ s x y) {P : Term → Prop}
    {rule : Graph Label → Stamp → NodeId → Word → Reduction}
    (hrule : ∀ k, g.constant? x = none → g.constant? y = some (.primitive k (ρ y)) →
      Gives P (rule g (.int s) x (ρ y))) :
    Gives P (onDivisor rule g (.int s) x y) := by
  unfold onDivisor
  split
  · rename_i k c hx hy
    obtain rfl := h.models.eq_of_constant h.wellTyped hy
    exact hrule k hx hy
  · exact gives_pass

theorem gives_quotientByUnit (h : Dividing g ρ s x y) :
    Gives (Answers g ρ s .quotient x y) (quotientByUnit g (.int s) x y) := by
  have hy := Word.toInt_low_of_fits h.pos h.le h.fits_right
  refine gives_onDivisor h fun _ _ _ => ?_
  split
  · rename_i hone
    have hq := Word.sdiv_eq_of_toInt (x := Word.low s.bits (ρ x)) (e := 0)
      (hy.trans (by rw [hone]; rfl)) (Int.tdiv_one _).symm
    refine gives_keep (answers_of_denotes (by rw [hone]; decide) ?_)
    rw [Division.onNonzero, hq]
    exact h.denotes_left
  · split
    · rename_i hone
      have hq := Word.sdiv_eq_neg_of_toInt (x := Word.low s.bits (ρ x)) (e := 0)
        (hy.trans (by rw [hone]; rfl)) (Int.tdiv_one _).symm
      obtain ⟨t, ht, hvalue⟩ := Term.exists_neg h.le h.denotes_left
      refine gives_build ht (answers_of_denotes (by rw [hone]; decide) ?_)
      rwa [Division.onNonzero, hq]
    · exact gives_pass

theorem gives_remainderByUnit (h : Dividing g ρ s x y) :
    Gives (Answers g ρ s .remainder x y) (remainderByUnit g (.int s) x y) := by
  have hy := Word.toInt_low_of_fits h.pos h.le h.fits_right
  refine gives_onDivisor h fun _ _ _ => ?_
  split
  · rename_i hone
    have hunit : (Word.low s.bits (ρ y)).toInt = 1 ∨ (Word.low s.bits (ρ y)).toInt = -1 := by
      rw [hy]
      rcases hone with h | h <;> rw [h]
      · exact .inl rfl
      · exact .inr rfl
    obtain ⟨t, ht, hvalue⟩ := Term.exists_integer (g := g) (ρ := ρ) h.width 0
    refine gives_build ht (answers_of_denotes ?_ ?_)
    · rcases hone with h | h <;> rw [h] <;> decide
    · rwa [Division.onNonzero, Word.srem_eq_zero_of_unit hunit, ← Word.low_zero]
  · exact gives_pass

theorem Dividing.nonneg_left (h : Dividing g ρ s x y) {t : IntStamp} (hx : g.stamp x = .int t)
    (ht : 0 ≤ t.lo.toInt) : 0 ≤ (Word.low s.bits (ρ x)).toInt := by
  obtain ⟨t', ht', _, hwell⟩ := h.left.exists_int
  obtain rfl : t = t' := Stamp.int.inj (hx.symm.trans ht')
  have hlo := ((t.contains_iff hwell.bits_le (ρ x)).mp (h.known t hx)).1.1
  rw [Word.toInt_low_of_fits h.pos h.le h.fits_left]
  omega

theorem exists_rounded (h : Dividing g ρ s x y) {e : Nat} (h0 : 0 < e) (he : e < s.bits) :
    ∃ sign round r,
      Term.shift g .shr (.node x) (.ofInt (((Stamp.int s).bits : Int) - 1)) = .ok sign ∧
      Term.shift g .ushr sign (.ofInt (((Stamp.int s).bits : Int) - e)) = .ok round ∧
      Term.arith g .add (.node x) round = .ok r ∧
      r.Denotes g ρ (Word.low s.bits (ρ x) +
        (Word.low s.bits (ρ x)).sshiftRight (s.bits - 1) >>> (s.bits - e)) := by
  have hpos := h.pos
  have hone : ((Stamp.int s).bits : Int) - 1 = (s.bits - 1 : Nat) := by rw [Stamp.bits]; omega
  have hexp : ((Stamp.int s).bits : Int) - e = (s.bits - e : Nat) := by rw [Stamp.bits]; omega
  rw [hone, hexp]
  obtain ⟨sign, hsign, hsignValue⟩ :=
    Term.exists_shift h.le .shr h.denotes_left (n := s.bits - 1) (by omega)
  obtain ⟨round, hround, hroundValue⟩ :=
    Term.exists_shift h.le .ushr hsignValue (n := s.bits - e) (by omega)
  obtain ⟨_, hsum, hsumValue⟩ := Term.exists_arith h.le .add h.denotes_left hroundValue rfl
  exact ⟨sign, round, _, hsign, hround, hsum, hsumValue⟩

theorem ne_unit_of_pass {k : Kind} (hx : g.constant? x = none)
    (hy : g.constant? y = some (.primitive k (ρ y)))
    (hpass : quotientByUnit g (.int s) x y = pass) : ρ y ≠ 1 ∧ ρ y ≠ -1 := by
  simp only [quotientByUnit, onDivisor, hx, hy] at hpass
  split at hpass
  · cases hpass
  · split at hpass
    · exact absurd hpass (build_ne_pass _)
    · exact ⟨by assumption, by assumption⟩

theorem log2_pos_of_ne {c : Word} (hpow : Word.isPowerOfTwo (Word.abs c) = true) (hone : c ≠ 1)
    (hneg : c ≠ -1) : 0 < Word.log2 (Word.abs c) := by
  have hc := Word.toInt_of_isPowerOfTwo_abs hpow
  rcases Nat.eq_zero_or_pos (Word.log2 (Word.abs c)) with hz | hpos
  · rw [hz] at hc
    split at hc
    · exact absurd (BitVec.eq_of_toInt_eq hc) hneg
    · exact absurd (BitVec.eq_of_toInt_eq hc) hone
  · exact hpos

theorem log2_lt_of_fits {c : Word} {w : Nat} (h0 : 0 < w) (hc : Word.Fits w c)
    (hpow : Word.isPowerOfTwo (Word.abs c) = true) : Word.log2 (Word.abs c) < w := by
  have hvalue := Word.toInt_of_isPowerOfTwo_abs hpow
  have hle : 2 ^ Word.log2 (Word.abs c) ≤ 2 ^ (w - 1) := by
    have hcast : ((2 ^ (w - 1) : Nat) : Int) = 2 ^ (w - 1) := Int.natCast_pow 2 (w - 1)
    have hcast' : ((2 ^ Word.log2 (Word.abs c) : Nat) : Int) = 2 ^ Word.log2 (Word.abs c) :=
      Int.natCast_pow 2 _
    obtain ⟨hlo, hhi⟩ := hc
    split at hvalue <;> omega
  have := (Nat.pow_le_pow_iff_right (by decide)).mp hle
  omega

theorem gives_shifted (h : Dividing g ρ s x y) {e : Nat} (he : e < s.bits)
    (hy : (ρ y).toInt = if (ρ y).slt 0 then -2 ^ e else 2 ^ e) {r : Term} {R : BitVec s.bits}
    (hR : r.Denotes g ρ R)
    (hquotient : (R.sshiftRight e).toInt = (Word.low s.bits (ρ x)).toInt.tdiv (2 ^ e)) :
    Gives (Answers g ρ s .quotient x y) (build do
      let quotient ← Term.shift g .shr r (.ofInt e)
      if (ρ y).slt 0 then Term.arith1 g .neg quotient else return quotient) := by
  have hlow := (Word.toInt_low_of_fits h.pos h.le h.fits_right).trans hy
  have hpow : (0 : Int) < 2 ^ e := Int.pow_pos (by decide)
  have hne : ρ y ≠ 0 := by
    intro hz
    have hzero : (ρ y).toInt = 0 := by rw [hz]; rfl
    split at hy <;> omega
  obtain ⟨q, hq, hqValue⟩ := Term.exists_shift h.le .shr hR he
  rw [Result.bind_of_ok hq]
  split
  · rename_i hneg
    obtain ⟨t, ht, hvalue⟩ := Term.exists_neg h.le hqValue
    rw [if_pos hneg] at hlow
    refine gives_build ht (answers_of_denotes hne ?_)
    rwa [Division.onNonzero, Word.sdiv_eq_neg_of_toInt hlow hquotient]
  · rename_i hneg
    rw [if_neg hneg] at hlow
    refine gives_build rfl (answers_of_denotes hne ?_)
    rwa [Division.onNonzero, Word.sdiv_eq_of_toInt hlow hquotient]

theorem gives_quotientByPower (h : Dividing g ρ s x y)
    (hpass : quotientByUnit g (.int s) x y = pass) :
    Gives (Answers g ρ s .quotient x y) (quotientByPower g (.int s) x y) := by
  refine gives_onDivisor h fun k hxc hyc => ?_
  -- With a unit for a divisor, the rounding step would shift by the whole width, which is not at all.
  obtain ⟨hone, hneg⟩ := ne_unit_of_pass hxc hyc hpass
  dsimp only
  split
  · rename_i t hx
    split
    · rename_i hpow
      have hy := Word.toInt_of_isPowerOfTwo_abs hpow
      have he := log2_lt_of_fits h.pos h.fits_right hpow
      split
      · obtain ⟨sign, round, r, hsign, hround, hr, hR⟩ :=
          exists_rounded h (log2_pos_of_ne hpow hone hneg) he
        rw [Result.bind_of_ok hsign, Result.bind_of_ok hround, Result.bind_of_ok hr]
        exact gives_shifted h he hy hR (Word.toInt_sshiftRight_round he)
      · rename_i hround
        have hlo : 0 ≤ t.lo.toInt := by
          rw [Bool.or_eq_true, not_or] at hround
          have hnot := mt (Word.slt_zero_iff t.lo).mpr hround.1
          omega
        exact gives_shifted h he hy h.denotes_left
          (Word.toInt_sshiftRight_of_nonneg (h.nonneg_left hx hlo) _)
    · exact gives_pass
  · exact gives_pass

theorem gives_quotientOfMultiple (h : Dividing g ρ s x y) :
    Gives (Answers g ρ s .quotient x y) (quotientOfMultiple g (.int s) x y) := by
  unfold quotientOfMultiple
  split
  · rename_i a r hx
    split
    · rename_i p q hr
      split
      · rename_i hmatch
        simp only [Bool.and_eq_true, beq_iff_eq] at hmatch
        obtain ⟨⟨_, rfl⟩, rfl⟩ := hmatch
        have hx := Graph.shape?_of_binary? hx
        have hr := Graph.shape?_of_binary? hr
        obtain ⟨ha, hrem⟩ := h.wellTyped.operands rfl hx h.left
        obtain ⟨t, ht, hvalue⟩ := Term.exists_divide h.le (Term.denotes_node h.models ha)
          (Term.denotes_node h.models h.right)
        refine gives_build ht ⟨fun hy => ?_, fun _ => ⟨rfl, rfl⟩⟩
        have hlow := h.low_right_ne_zero hy
        have hmultiple : ρ x = Word.ofLow (Word.low s.bits (ρ a) -
            (Word.low s.bits (ρ a)).srem (Word.low s.bits (ρ y))) := by
          apply h.models.eq_of_arith hx h.left
          rw [h.models.eq_of_divide hr hrem hlow, Word.low_ofLow h.le]
          rfl
        rw [(hvalue hlow).value, hmultiple, Word.low_ofLow h.le, Division.onNonzero,
          Word.sdiv_sub_srem h.pos hlow]
      · exact gives_pass
    · exact gives_pass
  · exact gives_pass

theorem gives_quotientRepeated (h : Dividing g ρ s x y) (next : Option NodeId) :
    Gives (Answers g ρ s .quotient x y) (quotientRepeated next g (.int s) x y) := by
  unfold quotientRepeated
  split
  · rename_i n
    split
    · rename_i hmatch
      simp only [Bool.and_eq_true, beq_iff_eq, decide_eq_true_eq] at hmatch
      obtain ⟨⟨_, hn⟩, hstamp⟩ := hmatch
      have hshape := Graph.shape?_of_binary? hn
      have hint : (g.stamp n).IsInteger s.bits := hstamp ▸ ⟨rfl, h.wellFormed⟩
      refine gives_keep ⟨fun hy => ?_, fun _ => ⟨x, hshape⟩⟩
      exact congrArg some (h.models.eq_of_divide hshape hint (h.low_right_ne_zero hy))
    · exact gives_pass
  · exact gives_pass

theorem gives_masked (h : Dividing g ρ s x y) (hy : ρ y ≠ 0) {m : Word}
    (hmask : Word.low s.bits (ρ x) &&& Word.low s.bits m =
      d.onNonzero (Word.low s.bits (ρ x)) (Word.low s.bits (ρ y))) :
    Gives (Answers g ρ s d x y)
      (build do Term.arith g .and (.node x) (← Term.integer (.int s) m)) := by
  obtain ⟨t, ht, hvalue⟩ := Term.exists_integer (g := g) (ρ := ρ) h.width m
  obtain ⟨_, hand, handValue⟩ :=
    Term.exists_arith h.le .and h.denotes_left hvalue (congrArg some hmask)
  rw [Result.bind_of_ok ht]
  exact gives_build hand (answers_of_denotes hy handValue)

theorem gives_remainderByPower (h : Dividing g ρ s x y) :
    Gives (Answers g ρ s .remainder x y) (remainderByPower g (.int s) x y) := by
  refine gives_onDivisor h fun _ _ _ => ?_
  split
  · rename_i t hx
    split
    · rename_i hmatch
      obtain ⟨hpow, hpositive⟩ := Bool.and_eq_true_iff.mp hmatch
      have hy := (Word.toInt_low_of_fits h.pos h.le h.fits_right).trans
        (Word.toInt_of_isPowerOfTwo hpow)
      have hx := h.nonneg_left hx ((Word.zero_sle_iff t.lo).mp hpositive)
      refine gives_masked h ?_ ?_
      · intro hz
        rw [hz] at hpow
        exact absurd hpow (by decide)
      · rw [Word.low_sub_one h.le]
        exact Word.and_pred_eq_srem hx hy
    · exact gives_pass
  · exact gives_pass

theorem ne_zero_of_toNat {e : Nat}
    (hy : (Word.low s.bits (ρ y)).toNat = 2 ^ e) : ρ y ≠ 0 := by
  intro hz
  rw [hz, Word.low_zero, BitVec.toNat_zero] at hy
  have := Nat.two_pow_pos e
  omega

theorem Dividing.toNat_right_of_one (h : Dividing g ρ s x y)
    (hone : Word.zeroExtend (ρ y) s.bits = 1) : (Word.low s.bits (ρ y)).toNat = 2 ^ 0 := by
  rw [← Word.toNat_zeroExtend h.le, hone]
  rfl

theorem Dividing.toNat_right_of_power (h : Dividing g ρ s x y)
    (hpow : Word.isPowerOfTwo (Word.zeroExtend (ρ y) s.bits) = true) :
    (Word.low s.bits (ρ y)).toNat = 2 ^ Word.log2 (Word.zeroExtend (ρ y) s.bits) := by
  rw [← Word.toNat_zeroExtend h.le]
  exact Word.toNat_of_isPowerOfTwo hpow

theorem gives_unsignedQuotientByPower (h : Dividing g ρ s x y) :
    Gives (Answers g ρ s .unsignedQuotient x y) (unsignedQuotientByPower g (.int s) x y) := by
  refine gives_onDivisor h fun _ _ _ => ?_
  dsimp only
  split
  · rename_i hone
    have hy := h.toNat_right_of_one hone
    refine gives_keep (answers_of_denotes (ne_zero_of_toNat hy) ?_)
    rw [Division.onNonzero, ← Word.ushiftRight_eq_udiv hy, BitVec.ushiftRight_zero]
    exact h.denotes_left
  · split
    · rename_i hpow
      have hy := h.toNat_right_of_power hpow
      have he : Word.log2 (Word.zeroExtend (ρ y) s.bits) < s.bits := by
        have hlt := (Word.low s.bits (ρ y)).isLt
        rw [hy] at hlt
        exact (Nat.pow_lt_pow_iff_right (by decide)).mp hlt
      obtain ⟨t, ht, hvalue⟩ := Term.exists_shift h.le .ushr h.denotes_left he
      refine gives_build ht (answers_of_denotes (ne_zero_of_toNat hy) ?_)
      rwa [Division.onNonzero, ← Word.ushiftRight_eq_udiv hy]
    · exact gives_pass

theorem gives_unsignedRemainderByPower (h : Dividing g ρ s x y) :
    Gives (Answers g ρ s .unsignedRemainder x y)
      (unsignedRemainderByPower g (.int s) x y) := by
  refine gives_onDivisor h fun _ _ _ => ?_
  dsimp only
  split
  · rename_i hone
    have hy := h.toNat_right_of_one hone
    have hzero : (Word.low s.bits (ρ x)).umod (Word.low s.bits (ρ y)) = Word.low s.bits 0 := by
      apply BitVec.eq_of_toNat_eq
      rw [BitVec.umod_eq, BitVec.toNat_umod, hy, Nat.pow_zero, Nat.mod_one, Word.low_zero]
      rfl
    obtain ⟨t, ht, hvalue⟩ := Term.exists_integer (g := g) (ρ := ρ) h.width 0
    refine gives_build ht (answers_of_denotes (ne_zero_of_toNat hy) ?_)
    rwa [Division.onNonzero, hzero]
  · split
    · rename_i hpow
      have hy := h.toNat_right_of_power hpow
      refine gives_masked h (ne_zero_of_toNat hy) ?_
      have hmask := (Word.low_sub_one h.le (Word.zeroExtend (ρ y) s.bits)).trans
        (congrArg (· - 1) (Word.low_zeroExtend h.le (ρ y)))
      exact (congrArg (Word.low s.bits (ρ x) &&& ·) hmask).trans (Word.and_pred_eq_umod hy)
    · exact gives_pass

theorem gives_divide (h : Dividing g ρ s x y) (next : Option NodeId) (d : Division) :
    Gives (Answers g ρ s d x y) (divide next d g (.int s) x y) := by
  cases d with
  | quotient =>
    refine gives_firstBinary_cons (gives_foldSigned h (Word.low_sdiv h.pos h.le)) fun _ => ?_
    refine gives_firstBinary_cons (gives_quotientByUnit h) fun hunit => ?_
    refine gives_firstBinary_cons (gives_quotientByPower h hunit) fun _ => ?_
    refine gives_firstBinary_cons (gives_quotientOfMultiple h) fun _ => ?_
    exact gives_firstBinary_cons (gives_quotientRepeated h next) fun _ => gives_firstBinary_nil
  | remainder =>
    refine gives_firstBinary_cons (gives_foldSigned h (Word.low_srem h.pos h.le)) fun _ => ?_
    refine gives_firstBinary_cons (gives_remainderByUnit h) fun _ => ?_
    exact gives_firstBinary_cons (gives_remainderByPower h) fun _ => gives_firstBinary_nil
  | unsignedQuotient =>
    refine gives_firstBinary_cons (gives_foldUnsigned h (Word.low_udiv_zeroExtend h.le)) fun _ => ?_
    exact gives_firstBinary_cons (gives_unsignedQuotientByPower h) fun _ => gives_firstBinary_nil
  | unsignedRemainder =>
    refine gives_firstBinary_cons (gives_foldUnsigned h (Word.low_umod_zeroExtend h.le)) fun _ => ?_
    exact gives_firstBinary_cons (gives_unsignedRemainderByPower h) fun _ => gives_firstBinary_nil

end Rules

end Canonical

namespace FlowGraph

theorem canonical_division (f : FlowGraph) {n x y : NodeId} {d : Division}
    (hn : f.graph.shape? n = some (.binary (.divide d) x y)) :
    f.canonical n =
      (Canonical.divide (f.next? n) d f.graph (f.graph.stamp n) x y).map fun o => (f, o) := by
  rw [canonical, (Graph.shape?_binary hn).1]
  simp only [reduce, hn]
  cases Canonical.divide (f.next? n) d f.graph (f.graph.stamp n) x y <;> rfl

/-- A division always has a canonical form, itself if no rule applies. If the divisor is not zero, the
form has the result of the division as its value; otherwise it is again such a division. -/
theorem canonical_division_exact (f : FlowGraph) {ρ : NodeId → Word} (hg : f.graph.WellTyped)
    (hρ : f.graph.Models ρ) {n x y : NodeId} {d : Division}
    (hn : f.graph.shape? n = some (.binary (.divide d) x y)) {w : Nat} (hw : w = 32 ∨ w = 64)
    (hint : (f.graph.stamp n).IsInteger w)
    (hx : ∀ t, f.graph.stamp x = .int t → t.contains (ρ x) = true) :
    ∃ o, f.canonical n = .ok (f, o) ∧
      (ρ y ≠ 0 → (o.getD (.node n)).eval ρ =
        some (Word.ofLow (d.onNonzero (Word.low w (ρ x)) (Word.low w (ρ y))))) ∧
      (ρ y = 0 → (o.getD (.node n)).DividesBy f.graph d y) := by
  obtain ⟨s, hs, rfl, hwell⟩ := hint.exists_int
  obtain ⟨hleft, hright⟩ := hg.operands rfl hn hint
  have hdividing : Canonical.Dividing f.graph ρ s x y := ⟨hg, hρ, hwell, hw, hleft, hright, hx⟩
  obtain ⟨o, ho, hanswer⟩ := Canonical.gives_divide hdividing (f.next? n) d
  refine ⟨o, by rw [f.canonical_division hn, hs, ho]; rfl, ?_⟩
  cases o with
  | none =>
    refine ⟨fun hy => ?_, fun _ => ⟨x, hn⟩⟩
    exact congrArg some (hρ.eq_of_divide hn hint (hdividing.low_right_ne_zero hy))
  | some t => exact ⟨(hanswer t rfl).value, (hanswer t rfl).traps⟩

def quarter : FlowGraph where
  graph := ⟨#[⟨{ op := .leaf (.parameter 0), stamp := .int (.full 32) }, [], .ofList [2], true⟩,
    ⟨{ op := .leaf (.constant (.ofInt32 (-4))), stamp := .int (.single 32 (-4)) }, [], .ofList [2], true⟩,
    ⟨{ op := .binary (.divide .quotient), stamp := .int (.full 32) }, [some 0, some 1], {}, true⟩],
    #[], []⟩
  control := [2]

def quarterValues (i : NodeId) : Word := [-7, -4, 1].getD i 0

theorem canonical_division_exact_quarter :
    ∃ o, quarter.canonical 2 = .ok (quarter, o) ∧
      (o.getD (.node 2)).eval quarterValues = some 1 := by
  obtain ⟨o, ho, hvalue, _⟩ := @canonical_division_exact quarter quarterValues (by decide)
    (by decide) 2 0 1 .quotient rfl 32 (.inl rfl) (by decide) (by rintro t ⟨⟩; decide)
  exact ⟨o, ho, (hvalue (by decide)).trans (by decide)⟩

end FlowGraph

end CompilerKit
