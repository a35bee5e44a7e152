import CompilerKit.Collections.BitTable
import CompilerKit.Proofs.Result

/-! # Tables of bits

Different places of a table are different positions of its row, and room for more slots leaves all bits
as they are. The room comes from doubling the number of slots; the doubling ends if that number is
positive, and it goes on for ever if there is not a single slot.
-/

namespace CompilerKit

namespace BitRow

variable (r : BitRow) (i j : Nat)

theorem contains_insert : (r.insert i).contains j = if j = i then true else r.contains j := by
  rw [insert, contains]
  dsimp only
  split
  case isTrue hi =>
    split
    case isTrue hji => exact hji ▸ hi
    case isFalse => rfl
  case isFalse =>
    rw [List.contains_cons]
    split
    case isTrue hji => rw [hji, beq_self_eq_true, Bool.true_or]
    case isFalse hji => rw [beq_false_of_ne hji, Bool.false_or, contains]

theorem contains_erase : (r.erase i).contains j = if j = i then false else r.contains j := by
  rw [erase, contains, Bool.eq_iff_iff]
  split
  case isTrue hji => simp [hji]
  case isFalse hji => simp [hji, contains]

theorem wordsInUse_le {n : Nat} (h : ∀ i ∈ r.members, i < 64 * n) : r.wordsInUse ≤ n := by
  have hfold (l : List Nat) (m : Nat) (hm : m ≤ n) (hl : ∀ i ∈ l, i < 64 * n) :
      l.foldl (fun m i => max m (i / 64 + 1)) m ≤ n := by
    induction l generalizing m with
    | nil => exact hm
    | cons i l ih =>
      have hi := hl i List.mem_cons_self
      exact ih (max m (i / 64 + 1)) (by omega) fun j hj => hl j (List.mem_cons_of_mem _ hj)
  exact hfold r.members 0 (Nat.zero_le n) h

/-- Room for `words` words is found within twice as many. -/
theorem words_reserve (words : Nat) :
    r.words ≤ (r.reserve words).words ∧
      ((r.reserve words).words = r.words ∨ (r.reserve words).words < 2 * words) := by
  rw [reserve]
  dsimp only
  split <;> omega

def put (value : Bool) : BitRow := if value then r.insert i else r.erase i

theorem contains_put (value : Bool) :
    (r.put i value).contains j = if j = i then value else r.contains j := by
  cases value with
  | true => exact r.contains_insert i j
  | false => exact r.contains_erase i j

theorem words_put (value : Bool) :
    r.words ≤ (r.put i value).words ∧
      ((r.put i value).words = r.words ∨ (r.put i value).words < 2 * (i / 64 + 1)) := by
  cases value with
  | true => exact r.words_reserve (i / 64 + 1)
  | false => exact ⟨le_rfl, .inl rfl⟩

end BitRow

namespace BitTable

variable {t : BitTable} {width slot bit : Int}

/-- A place of a table whose slots have some width, below 2 ^ 30. -/
structure Within (width slot bit : Int) : Prop where
  slot_nonneg : 0 ≤ slot
  bit_nonneg : 0 ≤ bit
  bit_lt : bit < width
  small : slot * width + bit < 2 ^ 30

theorem Within.nonneg (h : Within width slot bit) : 0 ≤ slot * width :=
  Int.mul_nonneg h.slot_nonneg (h.bit_nonneg.trans h.bit_lt.le)

theorem place_of_within (h : Within t.width slot bit) :
    t.place slot bit = .ok (slot * t.width + bit).toNat := by
  have hnonneg := h.nonneg
  have hbit := h.bit_nonneg
  have hsmall := h.small
  have hindex : t.index slot bit = slot * t.width + bit :=
    BitVec.toInt_ofInt_eq_self (by decide) (by omega) (by omega)
  rw [place, hindex]
  exact if_neg (by omega)

theorem Within.inj {slot' bit' : Int} (h : Within width slot bit) (h' : Within width slot' bit') :
    (slot * width + bit).toNat = (slot' * width + bit').toNat ↔ slot = slot' ∧ bit = bit' := by
  have parts {s b : Int} (hs : Within width s b) :
      (s * width + b) / width = s ∧ (s * width + b) % width = b := by
    have hwidth : width ≠ 0 := (hs.bit_nonneg.trans_lt hs.bit_lt).ne'
    rw [Int.add_comm, Int.add_mul_ediv_right _ _ hwidth, Int.add_mul_emod_self_right,
      Int.ediv_eq_zero_of_lt hs.bit_nonneg hs.bit_lt, Int.emod_eq_of_lt hs.bit_nonneg hs.bit_lt, Int.zero_add]
    exact ⟨rfl, rfl⟩
  constructor
  · intro heq
    have hnonneg := h.nonneg
    have hnonneg' := h'.nonneg
    have hbit := h.bit_nonneg
    have hbit' := h'.bit_nonneg
    have hsame : slot * width + bit = slot' * width + bit' := by omega
    have hparts := parts h
    rw [hsame, (parts h').1, (parts h').2] at hparts
    exact ⟨hparts.1.symm, hparts.2.symm⟩
  · rintro ⟨rfl, rfl⟩
    rfl

def holds (t : BitTable) (slot bit : Int) : Bool := t.row.contains (slot * t.width + bit).toNat

theorem get_of_within (h : Within t.width slot bit) : t.get slot bit = .ok (t.holds slot bit) := by
  rw [get, place_of_within h]
  rfl

def slots (t : BitTable) : BitVec 32 := BitVec.ofInt 32 (Int.tdiv t.sizeInBits t.width)

theorem sizeInBits_mem (t : BitTable) : -2 ^ 31 ≤ t.sizeInBits ∧ t.sizeInBits < 2 ^ 31 :=
  ⟨(BitVec.ofNat 32 t.row.size).le_toInt, (BitVec.ofNat 32 t.row.size).toInt_lt⟩

theorem sizeInSlots_eq (hwidth : 1 ≤ t.width) : t.sizeInSlots = .ok t.slots.toInt := by
  have hbits := sizeInBits_mem t
  have hrange : -2 ^ 31 ≤ Int.tdiv t.sizeInBits t.width ∧ Int.tdiv t.sizeInBits t.width < 2 ^ 31 := by
    have hle := Int.natAbs_tdiv_le_natAbs t.sizeInBits t.width
    obtain hnonneg | hneg := le_or_gt 0 t.sizeInBits
    · omega
    · have hquotient : 0 ≤ Int.tdiv (-t.sizeInBits) t.width := Int.tdiv_nonneg (by omega) (by omega)
      rw [Int.neg_tdiv] at hquotient
      omega
  rw [sizeInSlots, if_neg (by omega), slots, BitVec.toInt_ofInt_eq_self (by decide) hrange.1 hrange.2]

/-- The number of slots, doubled as long as it is not greater than `slot`, ends at a number of slots
that has no negative number of bits. -/
def Opens (t : BitTable) (slot : Int) : Prop :=
  ∃ k, slot < (t.slots <<< k).toInt ∧ (∀ j < k, (t.slots <<< j).toInt ≤ slot) ∧
    (k = 0 ∨ ∃ bits, bitsOf (t.slots <<< k).toInt t.width = .ok bits)

theorem doubled_cases (slot : Int) (fuel : Nat) (x : BitVec 32) :
    (∃ k < fuel, doubled slot fuel x = some (x <<< k) ∧ slot < (x <<< k).toInt ∧
      ∀ j < k, (x <<< j).toInt ≤ slot) ∨
    doubled slot fuel x = none ∧ ∀ j < fuel, (x <<< j).toInt ≤ slot := by
  induction fuel generalizing x with
  | zero => exact .inr ⟨rfl, by simp⟩
  | succ fuel ih =>
    have hnext (k : Nat) : (x + x) <<< k = x <<< (k + 1) := by
      have hdouble : x + x = x <<< 1 := by
        rw [← BitVec.toNat_inj, BitVec.toNat_add, BitVec.toNat_shiftLeft, Nat.shiftLeft_eq, pow_one,
          Nat.mul_two]
      rw [hdouble, ← BitVec.shiftLeft_add, Nat.add_comm]
    rw [doubled]
    split
    case isTrue hlt =>
      exact .inl ⟨0, by omega, by rw [BitVec.shiftLeft_zero], by rwa [BitVec.shiftLeft_zero], by simp⟩
    case isFalse hge =>
      have hfirst : (x <<< 0).toInt ≤ slot := by
        rw [BitVec.shiftLeft_zero]
        omega
      obtain ⟨k, hk, hsome, hlt, hbefore⟩ | ⟨hnone, hbefore⟩ := ih (x + x)
      · refine .inl ⟨k + 1, by omega, by rw [hsome, hnext], by rwa [← hnext], ?_⟩
        rintro (_ | j) hj
        · exact hfirst
        · rw [← hnext]
          exact hbefore j (by omega)
      · refine .inr ⟨hnone, ?_⟩
        rintro (_ | j) hj
        · exact hfirst
        · rw [← hnext]
          exact hbefore j (by omega)

/-- The search for a size gives up only when no doubling ever leads beyond the slot. -/
theorem doubled_eq_none_iff (hslot : 0 ≤ slot) (x : BitVec 32) :
    doubled slot 33 x = none ↔ ∀ k : Nat, (x <<< k).toInt ≤ slot := by
  obtain ⟨k, -, hsome, hlt, -⟩ | ⟨hnone, hbefore⟩ := doubled_cases slot 33 x
  · rw [hsome]
    refine iff_of_false (by simp) ?_
    intro h
    exact absurd (h k) (by omega)
  · refine iff_of_true hnone ?_
    intro k
    obtain hk | hk := lt_or_ge k 33
    · exact hbefore k hk
    · rw [BitVec.shiftLeft_eq_zero (by omega)]
      exact hslot

theorem grow_of_lt (hwidth : 1 ≤ t.width) (hlt : slot < t.slots.toInt) : t.grow slot = .ok t := by
  rw [grow, sizeInSlots_eq hwidth]
  exact if_pos hlt

theorem grow_of_ends (hwidth : 1 ≤ t.width) (hge : ¬ slot < t.slots.toInt) {size : BitVec 32}
    (hsize : doubled slot 33 t.slots = some size) :
    t.grow slot = do return { t with row := t.row.moveTo (← bitsOf size.toInt t.width) } := by
  rw [grow, sizeInSlots_eq hwidth]
  refine (if_neg hge).trans ?_
  rw [BitVec.ofInt_toInt, hsize]

theorem grow_of_endless (hwidth : 1 ≤ t.width) (hslot : 0 ≤ slot)
    (hnone : ∀ k : Nat, (t.slots <<< k).toInt ≤ slot) : t.grow slot = .error .neverEnds := by
  have hge : ¬ slot < t.slots.toInt := by
    have := hnone 0
    rw [BitVec.shiftLeft_zero] at this
    omega
  rw [grow, sizeInSlots_eq hwidth]
  refine (if_neg hge).trans ?_
  rw [BitVec.ofInt_toInt, (doubled_eq_none_iff hslot t.slots).2 hnone]
  rfl

theorem grow_cases (hwidth : 1 ≤ t.width) (hslot : 0 ≤ slot) :
    (t.Opens slot ∧ ∃ words, t.grow slot = .ok { t with row := { t.row with words } }) ∨
      ¬ t.Opens slot ∧ ∃ fault, t.grow slot = .error fault := by
  obtain hlt | hge := lt_or_ge slot t.slots.toInt
  · refine .inl ⟨⟨0, by rwa [BitVec.shiftLeft_zero], by simp, .inl rfl⟩, t.row.words, ?_⟩
    exact grow_of_lt hwidth hlt
  · obtain ⟨k, -, hsome, hbeyond, hbefore⟩ | ⟨hnone, -⟩ := doubled_cases slot 33 t.slots
    · have hgrow := grow_of_ends hwidth hge.not_gt hsome
      cases hbits : bitsOf (t.slots <<< k).toInt t.width with
      | ok bits =>
        refine .inl ⟨⟨k, hbeyond, hbefore, .inr ⟨bits, hbits⟩⟩, (t.row.moveTo bits).words, ?_⟩
        rw [hgrow, hbits]
        rfl
      | error fault =>
        refine .inr ⟨?_, fault, by rw [hgrow, hbits]; rfl⟩
        -- the doubling ends at one place only
        rintro ⟨k', hbeyond', hbefore', hzero⟩
        obtain rfl : k' = k := by
          by_contra hne
          obtain hlt | hlt := lt_or_gt_of_ne hne
          · exact absurd (hbefore k' hlt) hbeyond'.not_ge
          · exact absurd (hbefore' k hlt) hbeyond.not_ge
        obtain rfl | ⟨bits, hok⟩ := hzero
        · rw [BitVec.shiftLeft_zero] at hbeyond
          omega
        · rw [hbits] at hok
          cases hok
    · have hnever := (doubled_eq_none_iff hslot t.slots).1 hnone
      refine .inr ⟨?_, .neverEnds, grow_of_endless hwidth hslot hnever⟩
      rintro ⟨k, hbeyond, -⟩
      exact absurd (hnever k) hbeyond.not_ge

theorem grow_eq_neverEnds_iff (hwidth : 1 ≤ t.width) (hslot : 0 ≤ slot) :
    t.grow slot = .error .neverEnds ↔ ∀ k : Nat, (t.slots <<< k).toInt ≤ slot := by
  constructor
  · intro hgrow
    obtain hlt | hge := lt_or_ge slot t.slots.toInt
    · rw [grow_of_lt hwidth hlt] at hgrow
      cases hgrow
    · cases hdoubled : doubled slot 33 t.slots with
      | none => exact (doubled_eq_none_iff hslot t.slots).1 hdoubled
      | some size =>
        rw [grow_of_ends hwidth hge.not_gt hdoubled, bitsOf] at hgrow
        split at hgrow <;> cases hgrow
  · exact grow_of_endless hwidth hslot

/-- The table in which one bit has a value and all others are as they were. -/
def Writes (t : BitTable) (slot bit : Int) (value : Bool) (u : BitTable) : Prop :=
  u.width = t.width ∧ ∀ s b, Within t.width s b →
    u.holds s b = if s = slot ∧ b = bit then value else t.holds s b

def put (t : BitTable) (slot bit : Int) (value : Bool) : BitTable :=
  { t with row := t.row.put (slot * t.width + bit).toNat value }

theorem write_of_within (h : Within t.width slot bit) (value : Bool) :
    (if value then t.set slot bit else t.clear slot bit) = .ok (t.put slot bit value) := by
  rw [set, clear, place_of_within h]
  cases value <;> rfl

theorem writes_put (h : Within t.width slot bit) (value : Bool) :
    Writes t slot bit value (t.put slot bit value) := by
  refine ⟨rfl, ?_⟩
  intro s b hs
  rw [holds, put, BitRow.contains_put, if_congr (hs.inj h) rfl rfl, holds]

theorem putGrow_of_grow {u : BitTable} (hgrow : t.grow slot = .ok u) (h : Within u.width slot bit)
    (value : Bool) : t.putGrow slot bit value = (.ok (), u.put slot bit value) := by
  rw [putGrow, hgrow]
  dsimp only
  rw [write_of_within h]

/-- Room for a slot and a bit in it: either both are there afterwards, or the room is not. -/
theorem putGrow_cases (h : Within t.width slot bit) (value : Bool) :
    (t.Opens slot ∧ ∃ u, t.putGrow slot bit value = (.ok (), u) ∧ Writes t slot bit value u) ∨
      ¬ t.Opens slot ∧ ∃ fault, t.putGrow slot bit value = (.error fault, t) := by
  have hwidth : 1 ≤ t.width := h.bit_nonneg.trans_lt h.bit_lt
  obtain ⟨hopens, words, hgrow⟩ | ⟨hopens, fault, hgrow⟩ := grow_cases hwidth h.slot_nonneg
  · refine .inl ⟨hopens, _, putGrow_of_grow hgrow h value, ?_⟩
    exact writes_put (t := { t with row := { t.row with words } }) h value
  · exact .inr ⟨hopens, fault, by rw [putGrow, hgrow]⟩

theorem putGrow_eq_neverEnds_iff (h : Within t.width slot bit) (value : Bool) :
    (t.putGrow slot bit value).1 = .error .neverEnds ↔ ∀ k : Nat, (t.slots <<< k).toInt ≤ slot := by
  have hwidth : 1 ≤ t.width := h.bit_nonneg.trans_lt h.bit_lt
  rw [← grow_eq_neverEnds_iff hwidth h.slot_nonneg]
  obtain ⟨-, words, hgrow⟩ | ⟨-, fault, hgrow⟩ := grow_cases hwidth h.slot_nonneg
  · rw [putGrow_of_grow hgrow h, hgrow]
    exact iff_of_false (by rintro ⟨⟩) (by rintro ⟨⟩)
  · rw [putGrow, hgrow, Except.error.injEq, Except.error.injEq]

/-- There is a slot, and the bits can be counted with 32 bits. -/
structure Roomy (t : BitTable) : Prop where
  width_pos : 1 ≤ t.width
  slot : t.width ≤ t.row.size
  small : t.row.size < 2 ^ 31
  members : ∀ i ∈ t.row.members, i < 2 ^ 30

theorem doubled_of_pos {n : Nat} {x : BitVec 32} (hslot : slot < 2 ^ 30) (hx : 0 < x.toInt)
    (hn : slot < x.toInt * 2 ^ n) :
    ∃ y, doubled slot (n + 1) x = some y ∧ slot < y.toInt ∧ (y = x ∨ y.toInt ≤ 2 * slot) := by
  induction n generalizing x with
  | zero =>
    rw [pow_zero, mul_one] at hn
    exact ⟨x, if_pos hn, hn, .inl rfl⟩
  | succ n ih =>
    rw [doubled]
    split
    case isTrue hlt => exact ⟨x, rfl, hlt, .inl rfl⟩
    case isFalse hge =>
      have hdouble : (x + x).toInt = 2 * x.toInt := by
        rw [BitVec.toInt_add, Int.bmod_eq_of_le (by omega) (by omega)]
        omega
      have hmore : slot < (x + x).toInt * 2 ^ n := by
        rw [hdouble, mul_comm 2, mul_assoc, ← pow_succ']
        exact hn
      obtain ⟨y, hy, hbeyond, hle⟩ := ih (by omega) hmore
      refine ⟨y, hy, hbeyond, .inr ?_⟩
      obtain rfl | hle := hle
      · omega
      · exact hle

theorem Roomy.slots_pos (h : Roomy t) : 1 ≤ t.slots.toInt := by
  obtain ⟨hwidth, hslot, hsmall, -⟩ := h
  have hbits : t.sizeInBits = t.row.size := by
    rw [sizeInBits, BitVec.toInt_ofNat']
    exact Int.bmod_eq_of_le (by omega) (by omega)
  have hquotient : 1 ≤ Int.tdiv t.sizeInBits t.width := by
    rw [hbits, Int.tdiv_eq_ediv_of_nonneg (by omega), Int.le_ediv_iff_mul_le (by omega), one_mul]
    exact hslot
  have hsize := sizeInSlots_eq hwidth
  rw [sizeInSlots, if_neg (by omega)] at hsize
  rwa [← Except.ok.inj hsize]

theorem bitsOf_eq_ok {slots : Int} (h : 0 ≤ slots * width) (hlt : slots * width < 2 ^ 31) :
    bitsOf slots width = .ok (slots * width).toNat := by
  have hbits : (BitVec.ofInt 32 (slots * width)).toInt = slots * width :=
    BitVec.toInt_ofInt_eq_self (by decide) (by omega) (by omega)
  rw [bitsOf, hbits]
  exact if_neg (by omega)

theorem Roomy.moveTo (h : Roomy t) (bits : Nat) (hwidth : t.width ≤ bits) (hbits : bits ≤ 2 ^ 31 - 64) :
    Roomy { t with row := t.row.moveTo bits } := by
  have hused := t.row.wordsInUse_le (n := 2 ^ 24) h.members
  have hwords := (BitRow.withRoom bits).words_reserve t.row.wordsInUse
  have hfirst : (BitRow.withRoom bits).words = (bits + 63) / 64 := rfl
  have hsize : (t.row.moveTo bits).size = 64 * ((BitRow.withRoom bits).reserve t.row.wordsInUse).words := rfl
  constructor
  case width_pos => exact h.width_pos
  case slot =>
    change t.width ≤ ((t.row.moveTo bits).size : Int)
    omega
  case small =>
    change (t.row.moveTo bits).size < 2 ^ 31
    omega
  case members => exact h.members

theorem Roomy.grow (h : Roomy t) (hslot : 0 ≤ slot) (hsmall : slot * t.width ≤ 2 ^ 30 - 32) :
    ∃ u, t.grow slot = .ok u ∧ Roomy u ∧ u.width = t.width := by
  have hwidth := h.width_pos
  have hpos := h.slots_pos
  obtain hlt | hge := lt_or_ge slot t.slots.toInt
  · exact ⟨t, grow_of_lt hwidth hlt, h, rfl⟩
  · have hlt : slot < 2 ^ 30 := by
      have : slot * 1 ≤ slot * t.width := Int.mul_le_mul_of_nonneg_left hwidth hslot
      omega
    obtain ⟨y, hy, hbeyond, hle⟩ := doubled_of_pos (n := 32) (x := t.slots) hlt (by omega) (by omega)
    have hdouble : y.toInt ≤ 2 * slot := hle.resolve_left (by rintro rfl; omega)
    have hbits : y.toInt * t.width ≤ 2 * slot * t.width := Int.mul_le_mul_of_nonneg_right hdouble (by omega)
    have hone : 1 * t.width ≤ y.toInt * t.width := Int.mul_le_mul_of_nonneg_right (by omega) (by omega)
    rw [mul_assoc] at hbits
    refine ⟨_, ?_, h.moveTo (y.toInt * t.width).toNat (by omega) (by omega), rfl⟩
    rw [grow_of_ends hwidth hge.not_gt hy, bitsOf_eq_ok (by omega) (by omega)]
    rfl

theorem Roomy.put (h : Roomy t) (hin : Within t.width slot bit) (value : Bool) :
    Roomy (t.put slot bit value) := by
  obtain ⟨hwidth, hslot, hsmall, hmembers⟩ := h
  have hplace : (slot * t.width + bit).toNat < 2 ^ 30 := by
    have := hin.small
    omega
  have hwords := t.row.words_put (slot * t.width + bit).toNat value
  have hsize : (t.put slot bit value).row.size =
      64 * (t.row.put (slot * t.width + bit).toNat value).words := rfl
  rw [BitRow.size] at hslot hsmall
  constructor
  case width_pos => exact hwidth
  case slot =>
    change t.width ≤ ((t.put slot bit value).row.size : Int)
    omega
  case small => omega
  case members =>
    intro i hi
    have hcontains : (t.row.put (slot * t.width + bit).toNat value).contains i = true :=
      List.elem_eq_true_of_mem hi
    rw [BitRow.contains_put] at hcontains
    split at hcontains
    case isTrue heq => exact heq ▸ hplace
    case isFalse => exact hmembers i (List.mem_of_elem_eq_true hcontains)

theorem ofSize_roomy {slots : Int} (hslots : 0 < slots) (hwidth : 1 ≤ width)
    (hsmall : slots * width ≤ 2 ^ 31 - 64) : ∃ t, ofSize slots width = .ok t ∧ Roomy t := by
  have hone : 1 * width ≤ slots * width := Int.mul_le_mul_of_nonneg_right hslots (by omega)
  refine ⟨⟨.withRoom (slots * width).toNat, width⟩, ?_, ?_⟩
  · rw [ofSize, bitsOf_eq_ok (by omega) (by omega)]
    rfl
  · have hsize : (BitRow.withRoom (slots * width).toNat).size =
        64 * (((slots * width).toNat + 63) / 64) := rfl
    constructor
    case width_pos => exact hwidth
    case slot =>
      change width ≤ ((BitRow.withRoom (slots * width).toNat).size : Int)
      omega
    case small =>
      change (BitRow.withRoom (slots * width).toNat).size < 2 ^ 31
      omega
    case members =>
      rintro i ⟨⟩

theorem of_ofSize {slots : Int} (h : ofSize slots width = .ok t) :
    t.width = width ∧ ∀ slot bit, t.holds slot bit = false := by
  obtain ⟨bits, -, hreturn⟩ := Result.bind_eq_ok.1 h
  cases hreturn
  exact ⟨rfl, fun _ _ => rfl⟩

end BitTable

/-- What is done with the bits of a table. -/
inductive BitCall where
  | putGrow (slot bit : Int) (value : Bool)
  | set (slot bit : Int)
  | clear (slot bit : Int)

namespace BitCall

open BitTable

def slot : BitCall → Int
  | putGrow slot _ _ | set slot _ | clear slot _ => slot

def bit : BitCall → Int
  | putGrow _ bit _ | set _ bit | clear _ bit => bit

def value : BitCall → Bool
  | putGrow _ _ value => value
  | set .. => true
  | clear .. => false

def perform (t : BitTable) : BitCall → Result BitTable
  | putGrow slot bit value => (t.putGrow slot bit value).1.map fun _ => (t.putGrow slot bit value).2
  | set slot bit => t.set slot bit
  | clear slot bit => t.clear slot bit

/-- There is room for the slot, or there can be. -/
def Opens (t : BitTable) : BitCall → Prop
  | putGrow slot _ _ => t.Opens slot
  | set .. | clear .. => True

variable {t : BitTable} {c : BitCall}

theorem perform_cases (h : Within t.width c.slot c.bit) :
    (c.Opens t ∧ ∃ u, c.perform t = .ok u ∧ Writes t c.slot c.bit c.value u) ∨
      ¬ c.Opens t ∧ ∃ fault, c.perform t = .error fault := by
  cases c with
  | putGrow slot bit value =>
    change Within t.width slot bit at h
    obtain ⟨hopens, u, hput, hwrites⟩ | ⟨hopens, fault, hput⟩ := putGrow_cases h value
    · exact .inl ⟨hopens, u, by rw [perform, hput]; rfl, hwrites⟩
    · exact .inr ⟨hopens, fault, by rw [perform, hput]; rfl⟩
  | set slot bit => exact .inl ⟨trivial, _, write_of_within h true, writes_put h true⟩
  | clear slot bit => exact .inl ⟨trivial, _, write_of_within h false, writes_put h false⟩

/-- Every call that needs room finds it. -/
def AllOpen (t : BitTable) : List BitCall → Prop
  | [] => True
  | c :: calls => c.Opens t ∧ ∀ u, c.perform t = .ok u → AllOpen u calls

/-- The value of the last call that names a bit, or else its old value. -/
def written (calls : List BitCall) (old : Bool) (slot bit : Int) : Bool :=
  ((calls.reverse.find? fun c => slot = c.slot ∧ bit = c.bit).map value).getD old

theorem written_cons (c : BitCall) (calls : List BitCall) (old : Bool) (slot bit : Int) :
    written (c :: calls) old slot bit =
      written calls (if slot = c.slot ∧ bit = c.bit then c.value else old) slot bit := by
  rw [written, written, List.reverse_cons, List.find?_append]
  cases calls.reverse.find? fun c => slot = c.slot ∧ bit = c.bit with
  | some d => rfl
  | none =>
    rw [Option.none_or, List.find?_singleton]
    split
    case isTrue h => rw [if_pos (of_decide_eq_true h)]; rfl
    case isFalse h => rw [if_neg (fun hnamed => h (decide_eq_true hnamed))]

theorem foldlM_cases (calls : List BitCall) (h : ∀ c ∈ calls, Within t.width c.slot c.bit) :
    (AllOpen t calls ∧ ∃ u, calls.foldlM perform t = .ok u ∧ u.width = t.width ∧
      ∀ slot bit, Within t.width slot bit → u.holds slot bit = written calls (t.holds slot bit) slot bit) ∨
    ¬ AllOpen t calls ∧ ∃ fault, calls.foldlM perform t = .error fault := by
  induction calls generalizing t with
  | nil => exact .inl ⟨trivial, t, rfl, rfl, fun _ _ _ => rfl⟩
  | cons c calls ih =>
    rw [List.foldlM_cons]
    obtain ⟨hopens, u, hperform, hwidth, hholds⟩ | ⟨hopens, fault, hperform⟩ :=
      perform_cases (h c List.mem_cons_self)
    · rw [hperform]
      obtain ⟨hrest, w, hw, hsame, hlast⟩ | ⟨hrest, fault, hfault⟩ :=
        ih (t := u) fun d hd => hwidth ▸ h d (List.mem_cons_of_mem _ hd)
      · refine .inl ⟨⟨hopens, ?_⟩, w, hw, hsame.trans hwidth, ?_⟩
        · intro u' hu'
          obtain rfl := Except.ok.inj (hperform.symm.trans hu')
          exact hrest
        · intro slot bit hwithin
          rw [hlast slot bit (hwidth ▸ hwithin), hholds slot bit hwithin, written_cons]
      · exact .inr ⟨fun hopen => hrest (hopen.2 u hperform), fault, hfault⟩
    · rw [hperform]
      exact .inr ⟨fun hopen => hopens hopen.1, fault, rfl⟩

theorem perform_roomy (h : Roomy t) (hin : Within t.width c.slot c.bit)
    (hsmall : c.slot * t.width ≤ 2 ^ 30 - 32) : ∃ u, c.perform t = .ok u ∧ Roomy u ∧ u.width = t.width := by
  cases c with
  | putGrow slot bit value =>
    change Within t.width slot bit at hin
    obtain ⟨u, hgrow, hroomy, hwidth⟩ := h.grow hin.slot_nonneg hsmall
    rw [← hwidth] at hin
    refine ⟨u.put slot bit value, ?_, hroomy.put hin value, hwidth⟩
    rw [perform, putGrow_of_grow hgrow hin]
    rfl
  | set slot bit => exact ⟨_, write_of_within hin true, h.put hin true, rfl⟩
  | clear slot bit => exact ⟨_, write_of_within hin false, h.put hin false, rfl⟩

theorem allOpen_of_roomy (calls : List BitCall) (h : Roomy t)
    (hin : ∀ c ∈ calls, Within t.width c.slot c.bit) (hsmall : ∀ c ∈ calls, c.slot * t.width ≤ 2 ^ 30 - 32) :
    AllOpen t calls := by
  induction calls generalizing t with
  | nil => trivial
  | cons c calls ih =>
    obtain ⟨u, hperform, hroomy, hwidth⟩ :=
      perform_roomy h (hin c List.mem_cons_self) (hsmall c List.mem_cons_self)
    constructor
    · obtain ⟨hopens, -⟩ | ⟨-, fault, hfault⟩ := perform_cases (hin c List.mem_cons_self)
      · exact hopens
      · cases hperform.symm.trans hfault
    · intro u' hu'
      obtain rfl := Except.ok.inj (hperform.symm.trans hu')
      exact ih hroomy (fun d hd => hwidth ▸ hin d (List.mem_cons_of_mem _ hd))
        (fun d hd => hwidth ▸ hsmall d (List.mem_cons_of_mem _ hd))

def performAll (slots width : Int) (calls : List BitCall) : Result BitTable := do
  calls.foldlM perform (← ofSize slots width)

theorem performAll_of_ok {slots width : Int} (h : ofSize slots width = .ok t) (calls : List BitCall) :
    performAll slots width calls = calls.foldlM perform t := by
  rw [performAll, h]
  rfl

/-- The calls of a new table leave every bit as the last call that names it says, exactly if each of
them that needs room finds it. From one slot or more, and with no more bits than can be counted after
a doubling, they all do; a size of which no doubling leads beyond the slot is doubled for ever. -/
theorem bits_last_written_iff (slots width : Int) (hwidth : 1 ≤ width)
    (calls : List BitCall) (hin : ∀ c ∈ calls, Within width c.slot c.bit) :
    ((∃ t, performAll slots width calls = .ok t ∧
        ∀ slot bit, Within width slot bit → t.get slot bit = .ok (written calls false slot bit)) ↔
      ∃ t, ofSize slots width = .ok t ∧ AllOpen t calls) ∧
    (0 < slots → slots * width ≤ 2 ^ 31 - 64 → (∀ c ∈ calls, c.slot * width ≤ 2 ^ 30 - 32) →
      ∃ t, ofSize slots width = .ok t ∧ AllOpen t calls) ∧
    ∀ (t : BitTable) (size : BitVec 32) (slot bit : Int) (value : Bool), t.width = width →
      t.sizeInSlots = .ok size.toInt → Within width slot bit →
      ((t.putGrow slot bit value).1 = .error .neverEnds ↔ ∀ k : Nat, (size <<< k).toInt ≤ slot) := by
  refine ⟨?_, ?_, ?_⟩
  · constructor
    · rintro ⟨u, hu, -⟩
      obtain ⟨t, ht, hcalls⟩ := Result.bind_eq_ok.1 hu
      obtain ⟨rfl, -⟩ := of_ofSize ht
      refine ⟨t, ht, ?_⟩
      obtain ⟨hopen, -⟩ | ⟨-, fault, hfault⟩ := foldlM_cases calls hin
      · exact hopen
      · cases hcalls.symm.trans hfault
    · rintro ⟨t, ht, hopen⟩
      obtain ⟨rfl, hnone⟩ := of_ofSize ht
      obtain ⟨-, u, hu, hsame, hlast⟩ | ⟨hclosed, -⟩ := foldlM_cases calls hin
      · refine ⟨u, (performAll_of_ok ht calls).trans hu, ?_⟩
        intro slot bit hwithin
        rw [get_of_within (hsame ▸ hwithin), hlast slot bit hwithin, hnone]
      · exact absurd hopen hclosed
  · intro hpos hbits hsmall
    obtain ⟨t, ht, hroomy⟩ := ofSize_roomy hpos hwidth hbits
    obtain ⟨rfl, -⟩ := of_ofSize ht
    exact ⟨t, ht, allOpen_of_roomy calls hroomy hin hsmall⟩
  · rintro t size slot bit value rfl hsize hwithin
    rw [sizeInSlots_eq hwidth] at hsize
    rw [← BitVec.toInt_inj.1 (Except.ok.inj hsize)]
    exact putGrow_eq_neverEnds_iff hwithin value

/-- A table of one slot of three bits that grows for the first call. -/
theorem bits_last_written_iff_grown :
    (∀ c ∈ [putGrow 40 2 true, set 0 1, putGrow 90 0 true, clear 40 2], Within 3 c.slot c.bit) ∧
    ∃ t, performAll 1 3 [putGrow 40 2 true, set 0 1, putGrow 90 0 true, clear 40 2] = .ok t ∧
      ∀ slot bit, Within 3 slot bit →
        t.get slot bit = .ok (written [putGrow 40 2 true, set 0 1, putGrow 90 0 true, clear 40 2] false slot bit) := by
  have hin : ∀ c ∈ [putGrow 40 2 true, set 0 1, putGrow 90 0 true, clear 40 2], Within 3 c.slot c.bit := by
    simp only [List.forall_mem_cons]
    refine ⟨?_, ?_, ?_, ?_, List.forall_mem_nil _⟩ <;> constructor <;> decide
  have hiff := bits_last_written_iff 1 3 (by decide) _ hin
  exact ⟨hin, hiff.1.2 (hiff.2.1 (by decide) (by decide) (by decide))⟩

/-- Without a slot the size stays nothing, and a table with more bits than can be counted has a
negative number of slots. -/
theorem growth_from_nothing_never_ends :
    performAll 0 1 [putGrow 0 0 true] = .error .neverEnds ∧ (∀ k : Nat, ((0 : BitVec 32) <<< k).toInt ≤ 0) ∧
    performAll 33 65075261 [putGrow 0 0 true] = .error .negativeSize := by
  refine ⟨rfl, ?_, rfl⟩
  intro k
  have hzero : (0 : BitVec 32) <<< k = 0 := BitVec.zero_shiftLeft k
  rw [hzero]
  decide

end BitCall

end CompilerKit
