import CompilerKit.Aarch64.Encoding
import CompilerKit.Proofs.Word

/-! # Logical immediates and the rule that decodes them

Bits of a repetition are described by one remainder: bit `i` is set exactly if `i` plus the rotation,
modulo the size of the element, is below the number of ones. From this follow the agreement with the
decoding rule and that no two repetitions have the same value, so that the sorted table has each value
once and the search finds it.
-/

namespace CompilerKit.Aarch64

/-! The immediates of the architecture. -/

def rotatedRuns (m e n r : Nat) : BitVec m :=
  (((BitVec.ofNat e (2 ^ n - 1)).rotateRight r).replicate (m / e)).setWidth m

/-- Bitmask immediates: the elements are of 2, 4, 8, 16, 32 or 64 bits and have at least one bit that is
set and one that is clear. -/
def IsBitmask {m : Nat} (v : BitVec m) : Prop :=
  ∃ e ∈ [2, 4, 8, 16, 32, 64], ∃ n r, e ≤ m ∧ 1 ≤ n ∧ n < e ∧ r < e ∧ v = rotatedRuns m e n r

/-- The immediate that the fields of an instruction on `m` bits stand for. The highest bit that is set in
`wide` and the complement of `ones` marks the size of the element; an element of ones is no immediate. -/
def decodeBitmask (m : Nat) (wide : Bool) (rotation ones : BitVec 6) : Option (BitVec m) :=
  let marks : BitVec 7 := BitVec.ofBool wide ++ ~~~ones
  let len := marks.toNat.log2
  let levels := BitVec.ofNat 6 (2 ^ len - 1)
  if marks.toNat < 2 ∨ m < 2 ^ len ∨ ones &&& levels = levels then none
  else some (rotatedRuns m (2 ^ len) ((ones &&& levels).toNat + 1) (rotation &&& levels).toNat)

def decodeFields (m : Nat) (instr : Instr) : Option (BitVec m) :=
  decodeBitmask m (instr.getLsbD 22) (instr.extractLsb' 16 6) (instr.extractLsb' 10 6)

/-! Single bits. -/

theorem mod_of_lt_two_mul {i e : Nat} (h : i < 2 * e) : i % e = if i < e then i else i - e := by
  split
  · exact Nat.mod_eq_of_lt ‹_›
  · rw [Nat.mod_eq_sub_mod (by omega), Nat.mod_eq_of_lt (by omega)]

theorem getLsbD_rotatedRuns {m e n r : Nat} (hd : e ∣ m) (hr : r < e) (i : Nat) :
    (rotatedRuns m e n r).getLsbD i = (decide (i < m) && decide ((i + r) % e < n)) := by
  have hj : i % e < e := Nat.mod_lt _ (by omega)
  rw [rotatedRuns, BitVec.getLsbD_setWidth, BitVec.getLsbD_replicate, Nat.mul_div_cancel' hd,
    BitVec.getLsbD_rotateRight, Nat.mod_eq_of_lt hr, BitVec.getLsbD_ofNat, BitVec.getLsbD_ofNat,
    Nat.testBit_two_pow_sub_one, Nat.testBit_two_pow_sub_one, ← Nat.mod_add_mod,
    mod_of_lt_two_mul (by omega : i % e + r < 2 * e)]
  generalize i % e = j at hj ⊢
  by_cases hi : i < m
  · by_cases hjr : j + r < e
    · simp [hi, hjr, show j < e - r by omega, Nat.add_comm r j]
    · simp [hi, hjr, show ¬j < e - r by omega, hj, show j - (e - r) < e by omega,
        show j + r - e = j - (e - r) by omega]
  · simp [hi]

theorem lowBits_eq_mask {n : Nat} (hn : n ≤ 64) : Numeric.lowBits 64 n = Word.mask n := by
  unfold Numeric.lowBits Word.mask
  by_cases h : n = 64
  · subst h
    rfl
  · have hlt : n < 64 := by omega
    have hshift : ((n : Int) % (64 : Nat)).toNat = n % 64 := by omega
    rw [if_pos (by exact_mod_cast hlt), if_neg h, Word.shl, hshift]
    rfl

namespace Repetition

variable {p q : Repetition}

theorem size_eq (p : Repetition) : p.size = 2 ^ p.logSize := rfl

/-- The element has at least two bits, and some but not all of them are ones. -/
structure Valid (p : Repetition) : Prop where
  one_le_logSize : 1 ≤ p.logSize
  logSize_le : p.logSize ≤ 6
  one_le_ones : 1 ≤ p.ones
  ones_lt : p.ones < p.size
  rotation_lt : p.rotation < p.size

theorem mem_all_iff : p ∈ all ↔ p.Valid := by
  simp only [all, List.mem_flatMap, List.mem_map, List.mem_range]
  constructor
  · rintro ⟨k, hk, n, hn, r, hr, rfl⟩
    have hones : n + 1 < Nat.pow 2 (k + 1) := by omega
    exact ⟨Nat.succ_pos k, hk, Nat.succ_pos n, hones, hr⟩
  · intro h
    have := h.one_le_logSize
    have := h.logSize_le
    have := h.one_le_ones
    have hk : p.logSize - 1 + 1 = p.logSize := by omega
    refine ⟨p.logSize - 1, by omega, p.ones - 1, ?_, p.rotation, ?_, ?_⟩
    · rw [hk]
      have := h.ones_lt
      simp only [size] at this
      omega
    · rw [hk]
      exact h.rotation_lt
    · rw [hk, Nat.sub_add_cancel h.one_le_ones]

namespace Valid

variable (h : p.Valid)

include h

theorem size_dvd : p.size ∣ 64 := Nat.pow_dvd_pow 2 h.logSize_le

theorem size_le : p.size ≤ 64 := Nat.le_of_dvd (by decide) h.size_dvd

theorem getLsbD_element (i : Nat) :
    p.element.getLsbD i = (decide (i < p.size) && decide ((i + p.rotation) % p.size < p.ones)) := by
  have hsize := h.size_le
  have hones := h.ones_lt
  have hrotation := h.rotation_lt
  rw [element, lowBits_eq_mask (by omega), lowBits_eq_mask hsize, BitVec.getLsbD_and,
    BitVec.getLsbD_or, Word.getLsbD_mask hsize, Word.ushr, Word.shl, BitVec.getLsbD_ushiftRight,
    BitVec.getLsbD_shiftLeft, Word.getLsbD_mask (by omega), Word.getLsbD_mask (by omega),
    Nat.mod_eq_of_lt (by omega : p.rotation < 64)]
  by_cases hi : i < p.size
  · rw [mod_of_lt_two_mul (by omega : i + p.rotation < 2 * p.size)]
    rw [Bool.eq_iff_iff]
    simp only [Bool.and_eq_true, Bool.or_eq_true, Bool.not_eq_true', decide_eq_true_eq,
      decide_eq_false_iff_not]
    split <;> omega
  · simp [hi]

/-- Each step doubles the part of the word that holds copies of the element. -/
theorem getLsbD_foldl {j : Nat} (hj : p.size * 2 ^ j ≤ 64) (i : Nat) :
    ((List.range j).foldl (fun v i => v ||| Word.shl v (p.size * Nat.pow 2 i)) p.element).getLsbD i =
      (decide (i < p.size * 2 ^ j) && decide ((i + p.rotation) % p.size < p.ones)) := by
  induction j generalizing i with
  | zero => simpa using h.getLsbD_element i
  | succ j ih =>
    have hpow : p.size * 2 ^ (j + 1) = p.size * 2 ^ j + p.size * 2 ^ j := by ring
    have hsize : 0 < p.size * 2 ^ j :=
      Nat.mul_pos (Nat.zero_lt_of_lt h.rotation_lt) (Nat.two_pow_pos j)
    have hshift : p.size * Nat.pow 2 j % 64 = p.size * 2 ^ j :=
      Nat.mod_eq_of_lt (show p.size * 2 ^ j < 64 by omega)
    rw [List.range_succ, List.foldl_append, List.foldl_cons, List.foldl_nil, BitVec.getLsbD_or,
      Word.shl, hshift, BitVec.getLsbD_shiftLeft, ih (by omega), ih (by omega)]
    by_cases hi : i < p.size * 2 ^ j
    · simp [hi, show i < p.size * 2 ^ (j + 1) by omega]
    · have hcopy : (i - p.size * 2 ^ j + p.rotation) % p.size = (i + p.rotation) % p.size := by
        rw [← Nat.add_mul_mod_self_left (i - p.size * 2 ^ j + p.rotation) p.size (2 ^ j)]
        congr 1
        omega
      rw [hcopy, Bool.eq_iff_iff]
      simp only [Bool.and_eq_true, Bool.or_eq_true, Bool.not_eq_true', decide_eq_true_eq,
        decide_eq_false_iff_not]
      omega

theorem getLsbD_value (i : Nat) :
    p.value.getLsbD i = (decide (i < 64) && decide ((i + p.rotation) % p.size < p.ones)) := by
  have hpow : p.size * 2 ^ (6 - p.logSize) = 64 := by
    rw [size_eq, ← Nat.pow_add, Nat.add_sub_cancel' h.logSize_le]
  rw [value, h.getLsbD_foldl hpow.le, hpow]

theorem value_eq : p.value = rotatedRuns 64 p.size p.ones p.rotation := by
  apply BitVec.eq_of_getLsbD_eq
  intro i _
  rw [h.getLsbD_value, getLsbD_rotatedRuns h.size_dvd h.rotation_lt]

end Valid

/-! A value determines its repetition. -/

/-- A run in elements of `2 * h` bits does not repeat after `h` bits. -/
theorem not_periodic {h n r : Nat} (hn : 1 ≤ n) (hlt : n < 2 * h) (hr : r < 2 * h) :
    ¬∀ i, (i + h + r) % (2 * h) < n ↔ (i + r) % (2 * h) < n := by
  intro heq
  -- The first bit of the run is set, the bit before it is clear.
  have hfirst := heq (2 * h - r)
  have hbefore := heq (2 * h - r + (2 * h - 1))
  rw [show 2 * h - r + h + r = h + 2 * h by omega, Nat.add_mod_right, Nat.mod_eq_of_lt (by omega),
    Nat.sub_add_cancel hr.le, Nat.mod_self] at hfirst
  rw [show 2 * h - r + (2 * h - 1) + h + r = h - 1 + 2 * h + 2 * h by omega,
    show 2 * h - r + (2 * h - 1) + r = 2 * h - 1 + 2 * h by omega, Nat.add_mod_right,
    Nat.add_mod_right, Nat.add_mod_right, Nat.mod_eq_of_lt (by omega),
    Nat.mod_eq_of_lt (by omega)] at hbefore
  omega

/-- Runs in elements of the same size are told apart by where they start and end. -/
theorem eq_of_runs {e n r n' r' : Nat} (hn : 1 ≤ n) (hlt : n < e) (hr : r < e) (hn' : 1 ≤ n')
    (hlt' : n' < e) (hr' : r' < e) (heq : ∀ i, (i + r) % e < n ↔ (i + r') % e < n') :
    n = n' ∧ r = r' := by
  have hrr : r = r' := by
    have hfirst := heq (e - r)
    have hbefore := heq (e - r + (e - 1))
    rw [show e - r + r = e by omega, Nat.mod_self] at hfirst
    rw [show e - r + (e - 1) + r = e - 1 + e by omega, Nat.add_mod_right,
      Nat.mod_eq_of_lt (by omega)] at hbefore
    rw [mod_of_lt_two_mul (by omega)] at hfirst
    by_cases hwrap : r' < r
    · rw [show e - r + (e - 1) + r' = e - r + r' - 1 + e by omega, Nat.add_mod_right,
        Nat.mod_eq_of_lt (by omega)] at hbefore
      split at hfirst <;> omega
    · by_contra hne
      rw [show e - r + (e - 1) + r' = r' - r - 1 + e + e by omega, Nat.add_mod_right,
        Nat.add_mod_right, Nat.mod_eq_of_lt (by omega)] at hbefore
      split at hfirst <;> omega
  subst hrr
  have hend := heq (e - r + n)
  have hend' := heq (e - r + n')
  rw [show e - r + n + r = n + e by omega, Nat.add_mod_right, Nat.mod_eq_of_lt hlt] at hend
  rw [show e - r + n' + r = n' + e by omega, Nat.add_mod_right, Nat.mod_eq_of_lt hlt'] at hend'
  omega

theorem Valid.runs_of_value_eq (hp : p.Valid) (hq : q.Valid) (h : p.value = q.value) (i : Nat) :
    (i + p.rotation) % p.size < p.ones ↔ (i + q.rotation) % q.size < q.ones := by
  have hbit : p.value.getLsbD (i % 64) = q.value.getLsbD (i % 64) := by rw [h]
  have hmod {s : Nat} (hs : s ∣ 64) (r : Nat) : (i % 64 + r) % s = (i + r) % s := by
    rw [← Nat.mod_add_mod, Nat.mod_mod_of_dvd _ hs, Nat.mod_add_mod]
  rw [hp.getLsbD_value, hq.getLsbD_value, hmod hp.size_dvd, hmod hq.size_dvd,
    decide_eq_true (Nat.mod_lt _ (by decide)), Bool.true_and, Bool.true_and, decide_eq_decide] at hbit
  exact hbit

theorem Valid.not_logSize_lt (hp : p.Valid) (hq : q.Valid) (h : p.value = q.value) :
    ¬p.logSize < q.logSize := by
  intro hlt
  have hsize : q.size = 2 * 2 ^ (q.logSize - 1) := by
    rw [size_eq, ← Nat.pow_succ', Nat.succ_eq_add_one, Nat.sub_add_cancel (by omega)]
  have hruns := hp.runs_of_value_eq hq h
  obtain ⟨c, hc⟩ : p.size ∣ 2 ^ (q.logSize - 1) := Nat.pow_dvd_pow 2 (by omega)
  refine not_periodic hq.one_le_ones (hsize ▸ hq.ones_lt) (hsize ▸ hq.rotation_lt) fun i => ?_
  -- The smaller element repeats after half of the larger one.
  rw [← hsize, ← hruns, ← hruns, hc, Nat.add_right_comm, Nat.add_mul_mod_self_left]

theorem Valid.eq_of_value_eq (hp : p.Valid) (hq : q.Valid) (h : p.value = q.value) : p = q := by
  have hsize : p.logSize = q.logSize := by
    have := hp.not_logSize_lt hq h
    have := hq.not_logSize_lt hp h.symm
    omega
  have hruns := hp.runs_of_value_eq hq h
  have hpow : q.size = p.size := by rw [size_eq, size_eq, hsize]
  rw [hpow] at hruns
  obtain ⟨hones, hrotation⟩ := eq_of_runs hp.one_le_ones hp.ones_lt hp.rotation_lt hq.one_le_ones
    (hpow ▸ hq.ones_lt) (hpow ▸ hq.rotation_lt) hruns
  cases p
  cases q
  simp_all

/-! The search. -/

/-- The values of a table are in their signed order. -/
def IsSorted (t : Array (Word × Repetition)) : Prop :=
  ∀ i j (_ : i < j) (_ : j < t.size), t[i].1.toInt ≤ t[j].1.toInt

theorem IsSorted.lt_of_toInt_lt {t : Array (Word × Repetition)} (h : IsSorted t) {i j : Nat}
    (hi : i < t.size) (hj : j < t.size) (hlt : t[i].1.toInt < t[j].1.toInt) : i < j := by
  by_contra hle
  rcases Nat.lt_or_eq_of_le (Nat.le_of_not_lt hle) with hji | rfl
  · have := h j i hji hi
    omega
  · omega

theorem isSorted_table : IsSorted table := by
  have htrans (a b c : Word × Repetition) (hab : a.1.sle b.1) (hbc : b.1.sle c.1) : a.1.sle c.1 := by
    rw [BitVec.sle_iff_toInt_le] at hab hbc ⊢
    exact hab.trans hbc
  have htotal (a b : Word × Repetition) : a.1.sle b.1 || b.1.sle a.1 := by
    rw [Bool.or_eq_true, BitVec.sle_iff_toInt_le, BitVec.sle_iff_toInt_le]
    exact le_total _ _
  have hsorted := List.pairwise_mergeSort htrans htotal (all.map fun p => (p.value, p))
  intro i j hij hj
  have hle := List.pairwise_iff_getElem.mp hsorted i j (by simpa [table] using hij.trans hj)
    (by simpa [table] using hj) hij
  exact BitVec.sle_iff_toInt_le.mp hle

theorem mem_table_iff {v : Word} : (v, p) ∈ table ↔ p.Valid ∧ p.value = v := by
  simp only [table, List.mem_toArray, List.mem_mergeSort, List.mem_map, Prod.mk.injEq, mem_all_iff]
  constructor
  · rintro ⟨q, hq, rfl, rfl⟩
    exact ⟨hq, rfl⟩
  · rintro ⟨hp, rfl⟩
    exact ⟨p, hp, rfl, rfl⟩

section Search

variable {t : Array (Word × Repetition)} {v : Word} {lo hi : Nat} {h : hi ≤ t.size}

theorem mem_of_searchWithin (hfound : searchWithin t v lo hi h = some p) : (v, p) ∈ t := by
  fun_induction searchWithin t v lo hi h with
  | case1 lo hi h _ mid hmid hbelow ih => exact ih hfound
  | case2 lo hi h _ mid hmid _ habove ih => exact ih hfound
  | case3 lo hi h _ mid hmid hbelow habove =>
    have hv : t[mid].1 = v := by
      rw [BitVec.slt_iff_toInt_lt] at hbelow habove
      exact BitVec.toInt_inj.mp (by omega)
    cases hfound
    rw [← hv]
    exact Array.getElem_mem hmid
  | case4 => cases hfound

/-- What is in the part of a sorted table that is looked at is found: the half that is left out has
values on the other side only. -/
theorem isSome_searchWithin (hsorted : IsSorted t) {k : Nat} (hlo : lo ≤ k) (hhi : k < hi)
    (hk : ∃ hk : k < t.size, t[k].1 = v) : (searchWithin t v lo hi h).isSome := by
  obtain ⟨hlt, rfl⟩ := hk
  fun_induction searchWithin t _ lo hi h with
  | case1 lo hi h _ mid hmid hbelow ih =>
    exact ih (hsorted.lt_of_toInt_lt hmid hlt (BitVec.slt_iff_toInt_lt.mp hbelow)) hhi
  | case2 lo hi h _ mid hmid _ habove ih =>
    exact ih hlo (hsorted.lt_of_toInt_lt hlt hmid (BitVec.slt_iff_toInt_lt.mp habove))
  | case3 => rfl
  | case4 => omega

end Search

theorem find?_eq_some_iff {v : Word} : find? v = some p ↔ p.Valid ∧ p.value = v := by
  constructor
  · intro h
    exact mem_table_iff.mp (mem_of_searchWithin h)
  · rintro ⟨hp, hv⟩
    obtain ⟨k, hk, hentry⟩ := Array.mem_iff_getElem.mp (mem_table_iff.mpr ⟨hp, hv⟩)
    obtain ⟨q, hq⟩ := Option.isSome_iff_exists.mp
      (isSome_searchWithin (h := Nat.le_refl _) isSorted_table (Nat.zero_le k) hk
        ⟨hk, congrArg Prod.fst hentry⟩)
    obtain ⟨hqValid, hqv⟩ := mem_table_iff.mp (mem_of_searchWithin hq)
    rw [find?, hq, hqValid.eq_of_value_eq hp (hqv.trans hv.symm)]

/-! The fields. -/

theorem getLsbD_fields (hp : p.Valid) {i : Nat} (hi : i < 23) :
    p.fields.getLsbD i =
      if i < 10 then false
      else if i < 16 then p.sizeAndOnes.getLsbD (i - 10)
      else if i < 22 then p.rotation.testBit (i - 16)
      else p.isWide := by
  have hrotation : p.rotation.testBit 6 = false :=
    Nat.testBit_lt_two_pow (hp.rotation_lt.trans_le hp.size_le)
  simp only [fields, BitVec.getLsbD_or, BitVec.getLsbD_shiftLeft, BitVec.getLsbD_setWidth,
    BitVec.getLsbD_ofBool, BitVec.getLsbD_ofNat]
  split_ifs with h1 h2 h3
  · simp [show i < 22 by omega, show i < 16 by omega, h1]
  · simp [show i < 22 by omega, h1, h2, show i < 32 by omega, show i - 10 < 32 by omega]
  · obtain ⟨j, rfl⟩ : ∃ j, i = 16 + j := ⟨i - 16, by omega⟩
    simp [show 16 + j < 22 by omega, show 16 + j - 10 = 6 + j by omega, show 16 + j < 32 by omega,
      show j < 32 by omega]
  · obtain rfl : i = 22 := by omega
    simp [hrotation]

theorem extractLsb'_fields_rotation (hp : p.Valid) :
    p.fields.extractLsb' 16 6 = BitVec.ofNat 6 p.rotation := by
  apply BitVec.eq_of_getLsbD_eq
  intro i hi
  rw [BitVec.getLsbD_extractLsb', getLsbD_fields hp (by omega), if_neg (by omega), if_neg (by omega),
    if_pos (by omega), Nat.add_sub_cancel_left, BitVec.getLsbD_ofNat]

theorem extractLsb'_fields_ones (hp : p.Valid) : p.fields.extractLsb' 10 6 = p.sizeAndOnes := by
  apply BitVec.eq_of_getLsbD_eq
  intro i hi
  rw [BitVec.getLsbD_extractLsb', getLsbD_fields hp (by omega), if_neg (by omega), if_pos (by omega),
    Nat.add_sub_cancel_left, decide_eq_true hi, Bool.true_and]

theorem log2_marks : ∀ k < 7, ∀ n < 2 ^ k, 1 ≤ n →
    2 ≤ (BitVec.ofBool (isWide ⟨k, n, 0⟩) ++ ~~~sizeAndOnes ⟨k, n, 0⟩).toNat ∧
      (BitVec.ofBool (isWide ⟨k, n, 0⟩) ++ ~~~sizeAndOnes ⟨k, n, 0⟩).toNat.log2 = k := by
  decide +kernel

/-- The bits below the mark count the ones, of which there are fewer than bits. -/
theorem sizeAndOnes_and_levels : ∀ k < 7, ∀ n < 2 ^ k, 1 ≤ n →
    (sizeAndOnes ⟨k, n, 0⟩ &&& BitVec.ofNat 6 (2 ^ k - 1)).toNat = n - 1 ∧
      sizeAndOnes ⟨k, n, 0⟩ &&& BitVec.ofNat 6 (2 ^ k - 1) ≠ BitVec.ofNat 6 (2 ^ k - 1) := by
  decide +kernel

theorem decodeFields_fields (hp : p.Valid) {m : Nat} (hm : p.size ≤ m) :
    decodeFields m p.fields = some (rotatedRuns m p.size p.ones p.rotation) := by
  have hk := hp.logSize_le
  have hn := hp.one_le_ones
  -- Neither field depends on the rotation, so the finite lemmas speak about `p` as well.
  obtain ⟨htwo, hlog⟩ : 2 ≤ (BitVec.ofBool p.isWide ++ ~~~p.sizeAndOnes).toNat ∧
      (BitVec.ofBool p.isWide ++ ~~~p.sizeAndOnes).toNat.log2 = p.logSize :=
    log2_marks p.logSize (by omega) p.ones hp.ones_lt hn
  obtain ⟨hones, hnot⟩ : (p.sizeAndOnes &&& BitVec.ofNat 6 (2 ^ p.logSize - 1)).toNat = p.ones - 1 ∧
      p.sizeAndOnes &&& BitVec.ofNat 6 (2 ^ p.logSize - 1) ≠ BitVec.ofNat 6 (2 ^ p.logSize - 1) :=
    sizeAndOnes_and_levels p.logSize (by omega) p.ones hp.ones_lt hn
  have hrotation : (BitVec.ofNat 6 p.rotation &&& BitVec.ofNat 6 (2 ^ p.logSize - 1)).toNat =
      p.rotation := by
    have hr : p.rotation < 2 ^ p.logSize := hp.rotation_lt
    have hpow : 2 ^ p.logSize ≤ 2 ^ 6 := Nat.pow_le_pow_right (by omega) hk
    rw [BitVec.toNat_and, BitVec.toNat_ofNat, BitVec.toNat_ofNat, Nat.mod_eq_of_lt (by omega),
      Nat.mod_eq_of_lt (by omega), Nat.and_two_pow_sub_one_eq_mod, Nat.mod_eq_of_lt hr]
  have hsize' : 2 ^ p.logSize ≤ m := hm
  rw [decodeFields, extractLsb'_fields_rotation hp, extractLsb'_fields_ones hp,
    getLsbD_fields hp (by omega)]
  simp only [Nat.reduceLT, if_false]
  rw [decodeBitmask]
  simp only [hlog]
  have himmediate : ¬((BitVec.ofBool p.isWide ++ ~~~p.sizeAndOnes).toNat < 2 ∨ m < 2 ^ p.logSize ∨
      p.sizeAndOnes &&& BitVec.ofNat 6 (2 ^ p.logSize - 1) = BitVec.ofNat 6 (2 ^ p.logSize - 1)) := by
    rintro (h | h | h)
    · omega
    · omega
    · exact hnot h
  rw [if_neg himmediate, hones, hrotation, Nat.sub_add_cancel hn, ← size_eq]

/-- A repetition that is not wide has copies of its element in the lower half as well. -/
theorem Valid.value_eq_append (hp : p.Valid) (hsize : p.size ∣ 32) :
    p.value = rotatedRuns 32 p.size p.ones p.rotation ++ rotatedRuns 32 p.size p.ones p.rotation := by
  apply BitVec.eq_of_getLsbD_eq
  intro i hi
  rw [hp.getLsbD_value, BitVec.getLsbD_append, getLsbD_rotatedRuns hsize hp.rotation_lt,
    getLsbD_rotatedRuns hsize hp.rotation_lt]
  split
  · simp [hi, show i < 32 by omega]
  · obtain ⟨j, rfl⟩ : ∃ j, i = j + 32 := ⟨i - 32, by omega⟩
    obtain ⟨c, hc⟩ := hsize
    have hcopy : (j + 32 + p.rotation) % p.size = (j + p.rotation) % p.size := by
      rw [Nat.add_right_comm]
      nth_rewrite 1 [hc]
      rw [Nat.add_mul_mod_self_left]
    simp [hcopy, show j + 32 < 64 by omega, show j < 32 by omega]

theorem Valid.isWide_eq_false_iff (hp : p.Valid) : p.isWide = false ↔ p.size ≤ 32 := by
  have hsize : p.size ≤ 2 ^ 5 ↔ p.logSize ≤ 5 := Nat.pow_le_pow_iff_right (by decide)
  have := hp.logSize_le
  rw [isWide, decide_eq_false_iff_not, show (32 : Nat) = 2 ^ 5 from rfl, hsize]
  omega

theorem size_dvd_of_le (hle : p.size ≤ 32) : p.size ∣ 32 := by
  have hlog : p.logSize ≤ 5 :=
    (Nat.pow_le_pow_iff_right (by decide)).mp (show 2 ^ p.logSize ≤ 2 ^ 5 from hle)
  exact Nat.pow_dvd_pow 2 hlog

end Repetition

open Repetition

theorem isBitmask_iff {m : Nat} {v : BitVec m} :
    IsBitmask v ↔ ∃ p : Repetition, p.Valid ∧ p.size ≤ m ∧ v = rotatedRuns m p.size p.ones p.rotation := by
  constructor
  · rintro ⟨e, he, n, r, hm, hn, hlt, hr, rfl⟩
    obtain ⟨k, hk, hk', rfl⟩ : ∃ k, 1 ≤ k ∧ k ≤ 6 ∧ e = 2 ^ k := by
      simp only [List.mem_cons, List.not_mem_nil, or_false] at he
      rcases he with rfl | rfl | rfl | rfl | rfl | rfl
      exacts [⟨1, by decide⟩, ⟨2, by decide⟩, ⟨3, by decide⟩, ⟨4, by decide⟩, ⟨5, by decide⟩,
        ⟨6, by decide⟩]
    exact ⟨⟨k, n, r⟩, ⟨hk, hk', hn, hlt, hr⟩, hm, rfl⟩
  · rintro ⟨p, hp, hm, hv⟩
    have hsize : p.size ∈ [2, 4, 8, 16, 32, 64] := by
      have h1 := hp.one_le_logSize
      have h2 := hp.logSize_le
      rw [size_eq]
      generalize p.logSize = k at h1 h2
      interval_cases k <;> decide
    exact ⟨p.size, hsize, p.ones, p.rotation, hm, hp.one_le_ones, hp.ones_lt, hp.rotation_lt, hv⟩

theorem isBitmask_word_iff {v : Word} : IsBitmask v ↔ ∃ p, Repetition.find? v = some p := by
  simp only [isBitmask_iff, find?_eq_some_iff]
  constructor
  · rintro ⟨p, hp, -, hv⟩
    exact ⟨p, hp, hp.value_eq.trans hv.symm⟩
  · rintro ⟨p, hp, hv⟩
    exact ⟨p, hp, hp.size_le, hv.symm.trans hp.value_eq⟩

namespace LogicalImmediate

variable {p : Repetition}

theorem fitsUnsigned_setWidth (v : BitVec 32) : Numeric.fitsUnsigned 32 (v.setWidth 64) = true := by
  rw [Numeric.fitsUnsigned, decide_eq_true_eq, Numeric.bitLength]
  split
  case isTrue => decide
  case isFalse hne =>
    have hlt : (v.setWidth 64).toNat < 2 ^ 32 := by
      rw [BitVec.toNat_setWidth]
      omega
    have hne' : (v.setWidth 64).toNat ≠ 0 := fun h => hne (BitVec.eq_of_toNat_eq h)
    have := (Nat.log2_lt hne').mpr hlt
    omega

theorem shl_or_eq_append (v : BitVec 32) :
    Word.shl (v.setWidth 64) 32 ||| v.setWidth 64 = v ++ v := by
  apply BitVec.eq_of_getLsbD_eq
  intro i hi
  rw [Word.shl, BitVec.getLsbD_or, BitVec.getLsbD_shiftLeft, BitVec.getLsbD_append]
  by_cases hlow : i < 32
  · simp [hlow, hi]
  · simp [hlow, hi, show i - 32 < 64 by omega, BitVec.getLsbD_of_ge v i (by omega)]

theorem append_self_inj {v w : BitVec 32} (h : v ++ v = w ++ w) : v = w := by
  apply BitVec.eq_of_getLsbD_eq
  intro i hi
  have hbit : (v ++ v).getLsbD i = (w ++ w).getLsbD i := by rw [h]
  rwa [BitVec.getLsbD_append, BitVec.getLsbD_append, if_pos hi, if_pos hi] at hbit

theorem findNarrow?_eq_some_iff {v : BitVec 32} :
    findNarrow? (v.setWidth 64) = some p ↔
      p.Valid ∧ p.size ≤ 32 ∧ v = rotatedRuns 32 p.size p.ones p.rotation := by
  rw [findNarrow?, if_pos (fitsUnsigned_setWidth v), shl_or_eq_append]
  constructor
  · intro h
    split at h
    case h_1 q hq =>
      split at h
      case isTrue => cases h
      case isFalse hwide =>
        cases h
        obtain ⟨hp, hv⟩ := find?_eq_some_iff.mp hq
        have hsize := hp.isWide_eq_false_iff.mp (Bool.eq_false_iff.mpr hwide)
        rw [hp.value_eq_append (size_dvd_of_le hsize)] at hv
        exact ⟨hp, hsize, append_self_inj hv.symm⟩
    case h_2 => cases h
  · rintro ⟨hp, hsize, rfl⟩
    rw [← hp.value_eq_append (size_dvd_of_le hsize), find?_eq_some_iff.mpr ⟨hp, rfl⟩]
    simp only [hp.isWide_eq_false_iff.mpr hsize, Bool.false_eq_true, if_false]

theorem isBitmask_narrow_iff {v : BitVec 32} :
    IsBitmask v ↔ ∃ p, findNarrow? (v.setWidth 64) = some p := by
  simp only [isBitmask_iff, findNarrow?_eq_some_iff]

theorem representable_wide_ne_no_iff {v : Word} :
    representable true v ≠ .no ↔ ∃ p, Repetition.find? v = some p := by
  rw [representable, find?, if_pos rfl]
  cases Repetition.find? v with
  | none => simp
  | some p => by_cases hwide : p.isWide <;> simp [hwide]

theorem representable_narrow_eq_yes_iff {v : BitVec 32} :
    representable false (v.setWidth 64) = .yes ↔ ∃ p, findNarrow? (v.setWidth 64) = some p := by
  rw [representable, find?, if_neg Bool.false_ne_true]
  cases h : findNarrow? (v.setWidth 64) with
  | none =>
    cases (Repetition.find? (v.setWidth 64)).isSome <;> simp
  | some p =>
    obtain ⟨hp, hsize, -⟩ := findNarrow?_eq_some_iff.mp h
    simp [hp.isWide_eq_false_iff.mpr hsize]

end LogicalImmediate

theorem find?_of_logicalField_eq_ok {wide : Bool} {v : Word} {f : Instr}
    (h : Instr.logicalField wide v = .ok f) : ∃ p, LogicalImmediate.find? wide v = some p := by
  rw [Instr.logicalField] at h
  cases hp : LogicalImmediate.find? wide v with
  | none =>
    rw [hp] at h
    cases h
  | some p => exact ⟨p, rfl⟩

open LogicalImmediate in
/-- Exactly the bitmask immediates can be held, and the fields that hold one decode to it. The table of
all repetitions is in order, so that each of its entries is found. -/
theorem representable_iff_isBitmask :
    (∀ v : Word, (representable true v ≠ .no ↔ IsBitmask v) ∧
      (IsBitmask v ↔ ∃ f, Instr.logicalField true v = .ok f ∧ decodeFields 64 f = some v)) ∧
    (∀ v : BitVec 32, (representable false (v.setWidth 64) = .yes ↔ IsBitmask v) ∧
      (IsBitmask v ↔ ∃ f, Instr.logicalField false (v.setWidth 64) = .ok f ∧
        f.getLsbD 22 = false ∧ decodeFields 32 f = some v)) ∧
    IsSorted table ∧ ∀ entry ∈ table, Repetition.find? entry.1 = some entry.2 := by
  refine ⟨fun v => ⟨?_, ?_, ?_⟩, fun v => ⟨?_, ?_, ?_⟩, isSorted_table, fun entry h => ?_⟩
  · rw [representable_wide_ne_no_iff, isBitmask_word_iff]
  · intro hv
    obtain ⟨p, hp⟩ := isBitmask_word_iff.mp hv
    obtain ⟨hvalid, rfl⟩ := find?_eq_some_iff.mp hp
    refine ⟨p.fields, ?_, ?_⟩
    · rw [Instr.logicalField, LogicalImmediate.find?, if_pos rfl, hp]
    · rw [decodeFields_fields hvalid hvalid.size_le, hvalid.value_eq]
  · rintro ⟨f, hf, -⟩
    exact isBitmask_word_iff.mpr (find?_of_logicalField_eq_ok hf)
  · rw [representable_narrow_eq_yes_iff, isBitmask_narrow_iff]
  · intro hv
    obtain ⟨p, hp⟩ := isBitmask_narrow_iff.mp hv
    obtain ⟨hvalid, hsize, hruns⟩ := findNarrow?_eq_some_iff.mp hp
    refine ⟨p.fields, ?_, ?_, ?_⟩
    · rw [Instr.logicalField, LogicalImmediate.find?, if_neg Bool.false_ne_true, hp]
    · rw [getLsbD_fields hvalid (by decide)]
      exact hvalid.isWide_eq_false_iff.mpr hsize
    · rw [decodeFields_fields hvalid hsize, ← hruns]
  · rintro ⟨f, hf, -⟩
    exact isBitmask_narrow_iff.mpr (find?_of_logicalField_eq_ok hf)
  · exact find?_eq_some_iff.mpr (mem_table_iff.mp h)

end CompilerKit.Aarch64
