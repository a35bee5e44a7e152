import CompilerKit.Proofs.Bytecode.Layout

/-! # Streams decode what was laid out

A cursor that goes to the position of an instruction stands on it, tells it, and knows the position of
the next one. So a walk through a layout visits the instructions in their order and then reports the end.
-/

namespace CompilerKit.Bytecode

theorem wrap_eq {n : Int} (hl : -2 ^ 31 ≤ n) (hu : n < 2 ^ 31) : wrap n = n := by
  rw [wrap, BitVec.toInt_ofInt]
  exact Word.bmod_of_range (by decide) hl hu

theorem holds_entry {α : Type} {code : Code} {entry : α → Code} {k : Nat}
    (hk : ∀ a, (entry a).length = k) {l : List α} {p : Nat} (h : code.Holds p (l.flatMap entry)) (i : Nat)
    (hi : i < l.length) : code.Holds (p + k * i) (entry l[i]) := by
  induction l generalizing p i with
  | nil => cases hi
  | cons a l ih =>
    rw [List.flatMap_cons, Code.holds_append_iff, hk] at h
    cases i with
    | zero => exact h.1
    | succ i =>
      have hnext := ih h.2 i (Nat.lt_of_succ_lt_succ hi)
      rw [Nat.mul_succ, Nat.add_comm _ k, ← Nat.add_assoc]
      exact hnext

theorem length_flatMap_entry {α : Type} {entry : α → Code} {k : Nat}
    (hk : ∀ a, (entry a).length = k) (l : List α) : (l.flatMap entry).length = k * l.length := by
  induction l with
  | nil => rfl
  | cons a l ih =>
    rw [List.flatMap_cons, List.length_append, hk, ih, List.length_cons, Nat.mul_succ, Nat.add_comm]

/-- The code has an instruction at a position. -/
structure Placed (code : Code) (p : Nat) (i : Instruction) : Prop where
  leading : code.Holds p (bigEndian 1 (BitVec.ofNat 8 i.leading))
  rest : code.Holds (p + 1) (i.rest p)
  fits : p + (i.bytes p).length ≤ code.length
  small : code.length < 2 ^ 31

theorem Placed.of_holds {code : Code} {p : Nat} {i : Instruction} (h : code.Holds p (i.bytes p))
    (hsmall : code.length < 2 ^ 31) : Placed code p i := by
  have hlast := h.lt_length (Nat.lt_succ_self (i.rest p).length)
  rw [Instruction.bytes, ← List.singleton_append, Code.holds_append_iff, ← bigEndian_one] at h
  exact ⟨h.1, h.2, hlast, hsmall⟩

/-! Switches. -/

namespace Switch

theorem word_of_holds {s : Switch} {x : BitVec 32} {q : Nat} {d : Int}
    (h : s.code.Holds q (bigEndian 4 x)) (hq : s.aligned + d = q) : s.word d = .ok x.toInt :=
  signedAt_of_holds h hq rfl

theorem targetAt_of_offsetAt {s : Switch} {i : Nat} {d : Int} (h : s.offsetAt i = .ok d) :
    s.targetAt i = .ok (wrap (s.bci + d)) := by
  rw [targetAt, h]
  rfl

theorem defaultTarget_of_defaultOffset {s : Switch} {d : Int} (h : s.defaultOffset = .ok d) :
    s.defaultTarget = .ok (wrap (s.bci + d)) := by
  rw [defaultTarget, h]
  rfl

theorem size_of_numberOfCases {code : Code} {p n : Int} {isTable : Bool}
    (h : numberOfCases ⟨code, p, isTable⟩ = .ok n) : size ⟨code, p, isTable⟩ =
      .ok (wrap (aligned ⟨code, p, isTable⟩ + (if isTable then 12 + 4 * n else 8 + 8 * n) - p)) := by
  rw [size, h]
  rfl

variable {code : Code} {p : Nat} {padding : Vector Byte 3} {fallback low high : BitVec 32}
  {offsets : List (BitVec 32)} {pairs : List (BitVec 32 × BitVec 32)}
  {ordered : low.toInt ≤ high.toInt} {filled : (offsets.length : Int) = high.toInt - low.toInt + 1}

theorem aligned_eq (code : Code) (p : Nat) (isTable : Bool) (padding : Vector Byte 3) :
    aligned ⟨code, p, isTable⟩ = (p + 1 + (Instruction.pad padding p).length : Nat) := by
  rw [Instruction.length_pad]
  change ((p : Int) + 4) / 4 * 4 = _
  omega

theorem range_table
    (h : Placed code p (.tableSwitch padding fallback low high offsets ordered filled)) :
    range ⟨code, p, true⟩ = .ok (low.toInt, high.toInt) := by
  have hrest := h.rest
  simp only [Instruction.rest, Code.holds_append_iff, List.length_append, length_bigEndian] at hrest
  obtain ⟨⟨⟨_, hlow⟩, hhigh⟩, _⟩ := hrest
  have halign := aligned_eq code p true padding
  have hl : word ⟨code, p, true⟩ 4 = .ok low.toInt := word_of_holds hlow (by omega)
  have hh : word ⟨code, p, true⟩ 8 = .ok high.toInt := word_of_holds hhigh (by omega)
  rw [range, hl, hh]
  rfl

theorem lists_table
    (h : Placed code p (.tableSwitch padding fallback low high offsets ordered filled)) :
    Lists ⟨code, p, true⟩ fallback (offsets.mapIdx fun i d => (low.toInt + i, d))
      ((Instruction.tableSwitch padding fallback low high offsets ordered filled).bytes p).length := by
  have hrange := range_table h
  have hrest := h.rest
  have hfits := h.fits
  have hsmall := h.small
  simp only [Instruction.rest, Code.holds_append_iff, List.length_append, length_bigEndian] at hrest
  simp only [Instruction.length_bytes, Instruction.rest, List.length_append, length_bigEndian,
    length_flatMap_entry fun a => length_bigEndian 4 a] at hfits ⊢
  obtain ⟨⟨⟨⟨_, hdefault⟩, _⟩, _⟩, hoffsets⟩ := hrest
  have halign := aligned_eq code p true padding
  have hlow := BitVec.le_toInt low
  have hhigh := BitVec.toInt_lt (x := high)
  have hcases : numberOfCases ⟨code, p, true⟩ = .ok offsets.length := by
    rw [numberOfCases, if_pos rfl, hrange, filled]
    exact congrArg Except.ok (wrap_eq (by omega) (by omega))
  have hfallback : defaultOffset ⟨code, p, true⟩ = .ok fallback.toInt :=
    word_of_holds hdefault (by omega)
  have hoffset : ∀ i (hi : i < offsets.length),
      offsetAt ⟨code, p, true⟩ i = .ok offsets[i].toInt := by
    intro i hi
    rw [offsetAt, if_pos rfl]
    exact word_of_holds (holds_entry (fun a => length_bigEndian 4 a) hoffsets i hi) (by omega)
  constructor
  case numberOfCases => rw [hcases, List.length_mapIdx]
  case key =>
    intro i hi
    rw [List.length_mapIdx] at hi
    rw [keyAt, if_pos rfl, hrange, List.getElem_mapIdx]
    exact congrArg Except.ok (wrap_eq (by omega) (by omega))
  case offset =>
    intro i hi
    rw [List.length_mapIdx] at hi
    rw [hoffset i hi, List.getElem_mapIdx]
  case target =>
    intro i hi
    rw [List.length_mapIdx] at hi
    rw [targetAt_of_offsetAt (hoffset i hi), List.getElem_mapIdx]
  case defaultOffset => exact hfallback
  case defaultTarget => exact defaultTarget_of_defaultOffset hfallback
  case size =>
    rw [size_of_numberOfCases hcases, if_pos rfl, halign]
    exact congrArg Except.ok ((wrap_eq (by omega) (by omega)).trans (by omega))

theorem lists_lookup (h : Placed code p (.lookupSwitch padding fallback pairs)) :
    Lists ⟨code, p, false⟩ fallback (pairs.map fun p => (p.1.toInt, p.2))
      ((Instruction.lookupSwitch padding fallback pairs).bytes p).length := by
  have hlength : ∀ a : BitVec 32 × BitVec 32, (bigEndian 4 a.1 ++ bigEndian 4 a.2).length = 8 := by
    intro a
    rw [List.length_append, length_bigEndian, length_bigEndian]
  have hrest := h.rest
  have hfits := h.fits
  have hsmall := h.small
  simp only [Instruction.rest, Code.holds_append_iff, List.length_append, length_bigEndian] at hrest
  simp only [Instruction.length_bytes, Instruction.rest, List.length_append, length_bigEndian,
    length_flatMap_entry hlength] at hfits ⊢
  obtain ⟨⟨⟨_, hdefault⟩, hcount⟩, hpairs⟩ := hrest
  have halign := aligned_eq code p false padding
  have hcases : numberOfCases ⟨code, p, false⟩ = .ok pairs.length := by
    rw [numberOfCases, if_neg Bool.false_ne_true, word_of_holds hcount (by omega), BitVec.toInt_ofNat',
      Int.bmod_eq_of_le (by omega) (by omega)]
  have hfallback : defaultOffset ⟨code, p, false⟩ = .ok fallback.toInt :=
    word_of_holds hdefault (by omega)
  have hpair : ∀ i (hi : i < pairs.length), keyAt ⟨code, p, false⟩ i = .ok pairs[i].1.toInt ∧
      offsetAt ⟨code, p, false⟩ i = .ok pairs[i].2.toInt := by
    intro i hi
    have hentry := holds_entry hlength hpairs i hi
    rw [Code.holds_append_iff, length_bigEndian] at hentry
    rw [keyAt, offsetAt, if_neg Bool.false_ne_true, if_neg Bool.false_ne_true]
    exact ⟨word_of_holds hentry.1 (by omega), word_of_holds hentry.2 (by omega)⟩
  constructor
  case numberOfCases => rw [hcases, List.length_map]
  case key =>
    intro i hi
    rw [List.length_map] at hi
    rw [(hpair i hi).1, List.getElem_map]
  case offset =>
    intro i hi
    rw [List.length_map] at hi
    rw [(hpair i hi).2, List.getElem_map]
  case target =>
    intro i hi
    rw [List.length_map] at hi
    rw [targetAt_of_offsetAt (hpair i hi).2, List.getElem_map]
  case defaultOffset => exact hfallback
  case defaultTarget => exact defaultTarget_of_defaultOffset hfallback
  case size =>
    rw [size_of_numberOfCases hcases, if_neg Bool.false_ne_true, halign]
    exact congrArg Except.ok ((wrap_eq (by omega) (by omega)).trans (by omega))

end Switch

/-! Cursors on instructions. -/

theorem unsignedAt_opcode {code : Code} {p opcode : Nat} {q : Int}
    (h : code.Holds p (bigEndian 1 (BitVec.ofNat 8 opcode))) (hq : q = p) (hlt : opcode < 256) :
    unsignedAt code q 1 = .ok (opcode : Int) := by
  rw [unsignedAt_of_holds h hq rfl, BitVec.toNat_ofNat, Nat.mod_eq_of_lt hlt]

theorem lt_of_mem_slotOpcodes {opcode : Nat} (h : opcode ∈ slotOpcodes) :
    opcode < 202 ∧ opcode ≠ iinc := by
  revert opcode
  decide

section Numbers

variable {code l : Code} {p : Nat} {q : Int} (hq : q = p)

include hq

theorem read_byte {x : BitVec 8} (h : code.Holds p (x :: l)) :
    unsignedAt code q 1 = .ok (x.toNat : Int) ∧ signedAt code q 1 = .ok x.toInt ∧
      code.Holds (p + 1) l := by
  rw [← List.singleton_append, Code.holds_append_iff, ← bigEndian_one, length_bigEndian] at h
  exact ⟨unsignedAt_of_holds h.1 hq rfl, signedAt_of_holds h.1 hq rfl, h.2⟩

theorem read_short {x : BitVec 16} (h : code.Holds p (bigEndian 2 x ++ l)) :
    unsignedAt code q 2 = .ok (x.toNat : Int) ∧ signedAt code q 2 = .ok x.toInt ∧
      code.Holds (p + 2) l := by
  rw [Code.holds_append_iff, length_bigEndian] at h
  exact ⟨unsignedAt_of_holds h.1 hq rfl, signedAt_of_holds h.1 hq rfl, h.2⟩

end Numbers

theorem Cursor.branchTarget_eq {c : Cursor} {d : Int} {size : Nat}
    (hsize : (if c.opcode = gotoWide ∨ c.opcode = jsrWide then 4 else 2) = size)
    (h : signedAt c.code (c.bci + 1) size = .ok d) : c.branchTarget = .ok (wrap (c.bci + d)) := by
  rw [Cursor.branchTarget]
  simp only [hsize, h]
  rfl

namespace Operands

variable {c : Cursor} {p : Nat} (hc : c.bci = p)

include hc

theorem poolIndex_eq (hldc : c.opcode ≠ ldc) {x : BitVec 16} {l : Code}
    (h : c.code.Holds (p + 1) (bigEndian 2 x ++ l)) :
    c.poolIndex = .ok (x.toNat : Int) ∧ c.code.Holds (p + 3) l := by
  have hread := read_short (q := c.bci + 1) (by omega) h
  rw [Cursor.poolIndex, if_neg hldc]
  exact ⟨hread.1, hread.2.2⟩

/-- How many bytes an index or an offset takes is told by the opcode. -/
theorem areReadBy {o : Operands} (h : c.code.Holds (p + 1) o.bytes) (fits : c.opcode ∈ o.opcodes) :
    o.AreReadBy c := by
  have hfirst : c.bci + 1 = (p + 1 : Nat) := by omega
  have hwide : c.opcode ≠ wide := by
    intro hop
    exact (Operands.opcode_lt fits).2 (by simp [hop])
  cases o with
  | bare => trivial
  | byte x => exact (read_byte hfirst h).2.1
  | short x => exact signedAt_of_holds h hfirst rfl
  | nearPool i =>
    rw [AreReadBy, Cursor.poolIndex, if_pos (List.mem_singleton.mp fits)]
    exact (read_byte hfirst h).1
  | pool i =>
    rw [opcodes] at fits
    rw [bytes, ← List.append_nil (bigEndian 2 i)] at h
    exact (poolIndex_eq hc (ne_of_mem_of_not_mem fits (by decide)) h).1
  | slot i =>
    rw [AreReadBy, Cursor.localIndex, if_neg hwide]
    exact (read_byte hfirst h).1
  | increment i d =>
    obtain ⟨hindex, _, hrest⟩ := read_byte hfirst h
    rw [AreReadBy, Cursor.localIndex, Cursor.increment, if_neg hwide, if_neg hwide]
    exact ⟨hindex, (read_byte (q := c.bci + 2) (by omega) hrest).2.1⟩
  | branch d =>
    rw [opcodes] at fits
    refine Cursor.branchTarget_eq (if_neg ?_) (signedAt_of_holds h hfirst rfl)
    rintro (hop | hop)
    · exact ne_of_mem_of_not_mem fits (by decide) hop
    · exact ne_of_mem_of_not_mem fits (by decide) hop
  | farBranch d =>
    refine Cursor.branchTarget_eq (if_pos ?_) (signedAt_of_holds h hfirst rfl)
    simpa only [opcodes, List.mem_cons, List.not_mem_nil, or_false] using fits
  | interface i n u =>
    rw [opcodes] at fits
    obtain ⟨hindex, hrest⟩ := poolIndex_eq hc (ne_of_mem_of_not_mem fits (by decide)) h
    exact ⟨hindex, (read_byte (by omega) hrest).1⟩
  | dynamic i u =>
    rw [opcodes] at fits
    refine ⟨(poolIndex_eq hc (ne_of_mem_of_not_mem fits (by decide)) h).1, ?_⟩
    rw [bytes, ← bigEndian_append] at h
    exact signedAt_of_holds h hfirst rfl
  | elementType t => exact (read_byte hfirst h).1
  | dimensions i n =>
    rw [opcodes] at fits
    obtain ⟨hindex, hrest⟩ := poolIndex_eq hc (ne_of_mem_of_not_mem fits (by decide)) h
    exact ⟨hindex, (read_byte (by omega) hrest).1⟩

end Operands

namespace Instruction

def cursor (code : Code) (p : Nat) (i : Instruction) : Cursor :=
  ⟨code, p, i.leading, (p + (i.bytes p).length : Nat)⟩

variable {code : Code} {p : Nat} {i : Instruction}

theorem widened_eq (h : Placed code p i) (hwide : i.leading = wide) :
    unsignedAt code (p + 1) 1 = .ok (i.opcode : Int) := by
  have hrest := h.rest
  cases i with
  | simple opcode operands fits =>
    have hnone := (Operands.opcode_lt fits).2
    rw [show opcode = wide from hwide] at hnone
    exact absurd (by decide) hnone
  | wideSlot opcode index fits =>
    rw [rest, ← List.singleton_append, ← bigEndian_one, Code.holds_append_iff] at hrest
    exact unsignedAt_opcode hrest.1 (by omega) ((lt_of_mem_slotOpcodes fits).1.trans (by decide))
  | wideIncrement index amount =>
    rw [rest, List.cons_append, ← List.singleton_append, ← bigEndian_one, Code.holds_append_iff]
      at hrest
    exact unsignedAt_opcode hrest.1 (by omega) (by decide : iinc < 256)
  | tableSwitch => cases hwide
  | lookupSwitch => cases hwide

theorem sizeAt_wide {n : Int} (h : unsignedAt code (p + 1) 1 = .ok n) :
    Cursor.sizeAt code p wide = .ok (if n = iinc then 6 else 4) := by
  have hvaries : lengthOf wide = 0 := by decide
  simp only [Cursor.sizeAt, hvaries]
  rw [if_neg (by decide), if_neg (by decide), if_pos trivial, h]
  rfl

theorem sizeAt_eq (h : Placed code p i) :
    Cursor.sizeAt code p i.leading = .ok (i.bytes p).length := by
  cases i with
  | simple opcode operands fits =>
    change Cursor.sizeAt code p opcode = _
    rw [Cursor.sizeAt, lengthOf_eq fits]
    rfl
  | wideSlot opcode index fits =>
    have hne : (opcode : Int) ≠ iinc := by exact_mod_cast (lt_of_mem_slotOpcodes fits).2
    refine (sizeAt_wide (widened_eq h rfl)).trans ?_
    rw [Instruction.opcode, if_neg hne, bytes, rest]
    simp
  | wideIncrement index amount =>
    refine (sizeAt_wide (widened_eq h rfl)).trans ?_
    rw [Instruction.opcode, if_pos rfl, bytes, rest]
    simp
  | tableSwitch padding fallback low high offsets ordered filled =>
    exact (Switch.lists_table h).size
  | lookupSwitch padding fallback pairs =>
    exact (Switch.lists_lookup h).size

theorem seek_eq {c : Cursor} (h : Placed c.code p i) :
    c.seek p = (i.cursor c.code p, .ok ()) := by
  have hfits := h.fits
  have hsmall := h.small
  have hlead := i.leading_lt
  rw [length_bytes] at hfits
  rw [Cursor.seek, if_pos (by omega), unsignedAt_opcode h.leading rfl (by omega)]
  simp only [Int.toNat_natCast, sizeAt_eq h]
  rw [wrap_eq (by omega) (by rw [length_bytes]; omega)]
  rfl

theorem isReadBy_cursor (h : Placed code p i) : i.IsReadBy (i.cursor code p) := by
  have hrest := h.rest
  cases i with
  | simple opcode operands fits =>
    refine ⟨if_neg ?_, Operands.areReadBy (c := cursor code p _) rfl hrest fits⟩
    intro hop
    exact (Operands.opcode_lt fits).2 (by simp [show opcode = wide from hop])
  | wideSlot opcode index fits =>
    rw [rest, ← List.append_nil (bigEndian 2 index)] at hrest
    obtain ⟨_, _, hindex⟩ := read_byte (q := p + 1) (by omega) hrest
    exact ⟨widened_eq h rfl, (read_short (by rfl) hindex).1⟩
  | wideIncrement index amount =>
    rw [rest, ← List.append_nil (bigEndian 2 amount)] at hrest
    obtain ⟨_, _, hindex⟩ := read_byte (q := p + 1) (by omega) hrest
    obtain ⟨hlocal, _, hamount⟩ := read_short (q := p + 2) (by omega) hindex
    exact ⟨widened_eq h rfl, hlocal, (read_short (by rfl) hamount).2.1⟩
  | tableSwitch padding fallback low high offsets ordered filled =>
    exact ⟨rfl, Switch.range_table h, Switch.lists_table h⟩
  | lookupSwitch padding fallback pairs =>
    exact ⟨rfl, Switch.lists_lookup h⟩

end Instruction

/-! Walks through a layout. -/

def Cursor.steps (c : Cursor) : Nat → Result Cursor
  | 0 => .ok c
  | k + 1 =>
    match c.advance with
    | (d, .ok ()) => d.steps k
    | (_, .error f) => .error f

/-- From a position on the code consists of the given instructions. -/
structure Remaining (code : Code) (p : Nat) (is : List Instruction) : Prop where
  holds : code.Holds p (layout p is)
  ends : p + (layout p is).length = code.length
  small : code.length < 2 ^ 31

def cursorAt (code : Code) (p : Nat) : List Instruction → Cursor
  | [] => ⟨code, p, endOfStream, p⟩
  | i :: _ => i.cursor code p

variable {code : Code} {p : Nat} {i : Instruction} {is : List Instruction}

theorem Remaining.placed (h : Remaining code p (i :: is)) : Placed code p i :=
  .of_holds (Code.holds_append_iff.mp h.holds).1 h.small

theorem Remaining.tail (h : Remaining code p (i :: is)) :
    Remaining code (p + (i.bytes p).length) is := by
  have hends := h.ends
  rw [layout, List.length_append] at hends
  exact ⟨(Code.holds_append_iff.mp h.holds).2, by omega, h.small⟩

theorem Remaining.seek_eq {c : Cursor} (h : Remaining c.code p is) :
    c.seek p = (cursorAt c.code p is, .ok ()) := by
  cases is with
  | nil =>
    have hends := h.ends
    rw [layout, List.length_nil] at hends
    rw [Cursor.seek, if_neg (by omega)]
    rfl
  | cons i is => exact Instruction.seek_eq h.placed

theorem Remaining.advance_eq (h : Remaining code p (i :: is)) :
    (cursorAt code p (i :: is)).advance =
      (cursorAt code (p + (i.bytes p).length) is, .ok ()) :=
  h.tail.seek_eq (c := cursorAt code p (i :: is))

theorem Remaining.steps_eq (h : Remaining code p is) {k q : Nat} (hk : is[k]? = some i)
    (hq : (starts p is)[k]? = some q) :
    (cursorAt code p is).steps k = .ok (i.cursor code q) ∧ Placed code q i := by
  induction is generalizing p k with
  | nil => cases hk
  | cons j is ih =>
    cases k with
    | zero =>
      cases hk
      cases hq
      exact ⟨rfl, h.placed⟩
    | succ k =>
      rw [Cursor.steps, h.advance_eq]
      exact ih h.tail hk hq

theorem Remaining.steps_length (h : Remaining code p is) :
    (cursorAt code p is).steps is.length = .ok (cursorAt code code.length []) := by
  induction is generalizing p with
  | nil =>
    have hends := h.ends
    rw [layout, List.length_nil, Nat.add_zero] at hends
    rw [hends]
    rfl
  | cons i is ih =>
    rw [List.length_cons, Cursor.steps, h.advance_eq]
    exact ih h.tail

/-- The walk visits the instructions, if it may visit as many. -/
theorem Remaining.exists_visits (h : Remaining code p is) {fuel : Nat} (hfuel : is.length < fuel) :
    ∃ vs, (cursorAt code p is).visits fuel = .ok (vs, none, cursorAt code code.length []) ∧
      vs.map Visit.bci = (starts p is).map Int.ofNat ∧
      vs.map Visit.opcode = is.map fun i => (i.opcode : Int) := by
  induction is generalizing p fuel with
  | nil =>
    obtain ⟨fuel, rfl⟩ : ∃ n, fuel = n + 1 := ⟨fuel - 1, by omega⟩
    have hends := h.ends
    rw [layout, List.length_nil, Nat.add_zero] at hends
    rw [hends]
    exact ⟨[], rfl, rfl, rfl⟩
  | cons i is ih =>
    obtain ⟨fuel, rfl⟩ : ∃ n, fuel = n + 1 := ⟨fuel - 1, by omega⟩
    obtain ⟨vs, hvisits, hbci, hopcode⟩ := ih h.tail (Nat.lt_of_succ_lt_succ hfuel)
    have hlead : (cursorAt code p (i :: is)).opcode ≠ endOfStream := by
      have hlt : (cursorAt code p (i :: is)).opcode < 202 := i.leading_lt
      intro heq
      rw [heq] at hlt
      exact absurd hlt (by decide)
    have hcurrent : (cursorAt code p (i :: is)).current = .ok (i.opcode : Int) :=
      (Instruction.isReadBy_cursor h.placed).1
    have hnext : ¬(cursorAt code p (i :: is)).next ≤ (cursorAt code p (i :: is)).bci := by
      change ¬((p + (i.bytes p).length : Nat) : Int) ≤ p
      rw [Instruction.length_bytes]
      omega
    refine ⟨⟨p, i.opcode, (p + (i.bytes p).length : Nat), (i.cursor code p).operand? i.opcode⟩ :: vs,
      ?_, ?_, ?_⟩
    · rw [Cursor.visits, if_neg hlead, hcurrent]
      simp only [bind, Except.bind, if_neg hnext, h.advance_eq, hvisits]
      rfl
    · rw [List.map_cons, hbci]
      rfl
    · rw [List.map_cons, hopcode]
      rfl

/-- The steps of a cursor from the start of a layout lead to the instructions, each at its place and with
the operands that were laid out, and then to the end; a walk visits these and nothing else. -/
theorem stream_decodes_layout (is : List Instruction) (hsize : (layout 0 is).length < 2 ^ 31) :
    ∃ c, Cursor.start (layout 0 is) = .ok c ∧
      (∀ k i (p : Nat), is[k]? = some i → (starts 0 is)[k]? = some p →
        ∃ d, c.steps k = .ok d ∧ d.bci = p ∧ i.IsReadBy d) ∧
      ∃ d, c.steps is.length = .ok d ∧ d.bci = (layout 0 is).length ∧
        d.current = .ok endOfStream ∧ d.advance = (d, .ok ()) ∧
      ∃ vs, visits (layout 0 is) = .ok (vs, none, d) ∧
        vs.map Visit.bci = (starts 0 is).map Int.ofNat ∧
        vs.map Visit.opcode = is.map fun i => (i.opcode : Int) := by
  have h : Remaining (layout 0 is) 0 is := by
    refine ⟨?_, Nat.zero_add _, hsize⟩
    intro i _
    rw [Nat.zero_add]
  have hstart : Cursor.start (layout 0 is) = .ok (cursorAt (layout 0 is) 0 is) := by
    rw [Cursor.start]
    have hseek := h.seek_eq (c := ⟨layout 0 is, 0, 0, 0⟩)
    rw [show ((0 : Nat) : Int) = 0 from rfl] at hseek
    rw [hseek]
  have hend : Remaining (layout 0 is) (layout 0 is).length [] := by
    refine ⟨?_, rfl, hsize⟩
    intro i hi
    cases hi
  refine ⟨_, hstart, ?_, _, h.steps_length, rfl, rfl, hend.seek_eq (c := cursorAt _ _ []), ?_⟩
  · intro k i p hk hp
    obtain ⟨hsteps, hplaced⟩ := h.steps_eq hk hp
    exact ⟨_, hsteps, rfl, Instruction.isReadBy_cursor hplaced⟩
  · rw [visits, hstart]
    exact h.exists_visits (Nat.lt_succ_of_le (length_le_layout 0 is))

/-- A byte, a widened increment, both switches and a return. -/
def switches : List Instruction :=
  [.simple 16 (.byte 254) (by decide), .wideIncrement 300 65534,
    .tableSwitch ⟨#[1, 2, 3], rfl⟩ 44 (-1) 0 [24, 44] (by decide) (by decide),
    .lookupSwitch ⟨#[0, 7, 0], rfl⟩ 20 [(5, 20), (9, -32)], .simple 177 .bare (by decide)]

theorem stream_decodes_layout_switches : (layout 0 switches).length < 2 ^ 31 ∧
    ∃ c, Cursor.start (layout 0 switches) = .ok c ∧
      (∃ d, c.steps 1 = .ok d ∧ d.bci = 2 ∧ d.current = .ok iinc ∧ d.increment = .ok (-2)) ∧
      (∃ d, c.steps 2 = .ok d ∧ d.bci = 8 ∧ Switch.targetAt ⟨d.code, d.bci, true⟩ 1 = .ok 52) ∧
      ∃ d, c.steps 5 = .ok d ∧ d.bci = 61 ∧ d.current = .ok endOfStream := by
  have hsize : (layout 0 switches).length < 2 ^ 31 := by decide
  obtain ⟨c, hc, hsteps, d, hend, hbci, hlast, _⟩ := stream_decodes_layout switches hsize
  obtain ⟨d₁, hd₁, hbci₁, hread₁⟩ := hsteps 1 _ 2 rfl rfl
  obtain ⟨d₂, hd₂, hbci₂, hread₂⟩ := hsteps 2 _ 8 rfl rfl
  have htarget := hread₂.2.2.target 1 (by decide)
  refine ⟨hsize, c, hc, ⟨d₁, hd₁, hbci₁, hread₁.1, hread₁.2.2⟩, ⟨d₂, hd₂, hbci₂, ?_⟩,
    d, hend, hbci, hlast⟩
  rw [htarget, hbci₂]
  rfl

end CompilerKit.Bytecode
