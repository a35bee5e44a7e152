import CompilerKit.Buffer
import CompilerKit.Proofs.Assembly.Code

/-! # Buffers give back what was written

The two ways of access store a number in the same bytes and take the same number from them. A writer
appends these bytes whatever chunks they go to, so that its contents do not depend on where the chunks
end, and a reader finds the numbers one after the other.
-/

namespace CompilerKit.Buffer

/-! Bytes of a number. -/

theorem littleEndian_eq_map {w : Nat} (n : Nat) (x : BitVec w) :
    Code.littleEndian n x = (List.range n).map fun i => (x >>> (8 * i)).setWidth 8 := by
  induction n generalizing x with
  | zero => rfl
  | succ n ih =>
    rw [Code.littleEndian, ih, List.range_succ_eq_map, List.map_cons, List.map_map]
    congr 1
    apply List.map_congr_left
    intro i _
    rw [Function.comp_apply, ← BitVec.shiftRight_add, Nat.mul_succ, Nat.add_comm]

namespace Access

theorem store_eq (a : Access) {n : Nat} (hn : n ≤ 8) (x : Word) :
    a.store n x = Access.whole.store n x := by
  cases a with
  | whole => rfl
  | bytewise =>
    rw [store, store, littleEndian_eq_map]
    apply List.map_congr_left
    intro i hi
    have hlt := List.mem_range.mp hi
    apply BitVec.eq_of_getLsbD_eq
    intro j hj
    have hin : 8 * i + j < 64 := by omega
    simp only [BitVec.getLsbD_setWidth, BitVec.getLsbD_sshiftRight, BitVec.getLsbD_ushiftRight]
    grind

theorem length_store (a : Access) {n : Nat} (hn : n ≤ 8) (x : Word) : (a.store n x).length = n := by
  rw [store_eq a hn, store, Code.length_littleEndian]

end Access

theorem testBit_toNat_cons (b : Byte) (bytes : Code) (i : Nat) :
    (Code.toNat (b :: bytes)).testBit i =
      if i < 8 then b.getLsbD i else (Code.toNat bytes).testBit (i - 8) := by
  rw [Code.toNat, Nat.add_comm]
  exact Nat.testBit_two_pow_mul_add (Code.toNat bytes) b.isLt i

namespace Access

theorem getLsbD_load {bytes : Code} (hpos : bytes ≠ []) {i : Nat} (hi : i < 64) :
    (Access.whole.load bytes).getLsbD i =
      (Code.toNat bytes).testBit (min i (8 * bytes.length - 1)) := by
  have hlength := List.length_pos_iff.mpr hpos
  rw [load, BitVec.getLsbD_signExtend, BitVec.msb_eq_getLsbD_last, BitVec.getLsbD_ofNat,
    BitVec.getLsbD_ofNat]
  rcases Nat.lt_or_ge i (8 * bytes.length) with hin | hout
  · rw [if_pos hin, Nat.min_eq_left (by omega)]
    simp [hin, hi]
  · rw [if_neg (by omega), Nat.min_eq_right (by omega)]
    simp [hi, hlength]

/-- Put together byte by byte, a number has the sign of its last byte. -/
theorem ofBytes_eq {bytes : Code} (hpos : bytes ≠ []) :
    load.ofBytes bytes = Access.whole.load bytes := by
  induction bytes with
  | nil => exact absurd rfl hpos
  | cons b bs ih =>
    apply BitVec.eq_of_getLsbD_eq
    intro i hi
    rw [getLsbD_load hpos hi, testBit_toNat_cons]
    cases bs with
    | nil =>
      rw [load.ofBytes, BitVec.getLsbD_signExtend, BitVec.msb_eq_getLsbD_last]
      rcases Nat.lt_or_ge i 8 with hin | hout
      · simp [hin, hi, Nat.min_eq_left (by omega : i ≤ 7)]
      · simp [Nat.not_lt.mpr hout, hi, Nat.min_eq_right (by omega : 7 ≤ i)]
    | cons c bs =>
      have hrest := List.cons_ne_nil c bs
      have hcons : load.ofBytes (b :: c :: bs) = b.setWidth 64 ||| load.ofBytes (c :: bs) <<< 8 := rfl
      rw [hcons, ih hrest, BitVec.getLsbD_or, BitVec.getLsbD_shiftLeft,
        BitVec.getLsbD_setWidth, List.length_cons]
      rcases Nat.lt_or_ge i 8 with hin | hout
      · rw [if_pos (by omega), Nat.min_eq_left (by rw [List.length_cons]; omega)]
        simp [hi, hin]
      · rw [if_neg (by rw [List.length_cons]; omega), getLsbD_load hrest (by omega)]
        have hindex : min (i - 8) (8 * (c :: bs).length - 1) =
            min i (8 * ((c :: bs).length + 1) - 1) - 8 := by
          rw [List.length_cons]
          omega
        rw [hindex]
        simp [hi, Nat.not_lt.mpr hout, BitVec.getLsbD_of_ge b i hout]

theorem load_eq (a : Access) {bytes : Code} (hpos : bytes ≠ []) :
    a.load bytes = Access.whole.load bytes := by
  cases a with
  | whole => rfl
  | bytewise => exact ofBytes_eq hpos

theorem load_store (a b : Access) {n : Nat} (h0 : 0 < n) (hn : n ≤ 8) (x : Word) :
    b.load (a.store n x) = Word.ofLow (Word.low (8 * n) x) := by
  have hlength := a.length_store hn x
  rw [load_eq b (List.ne_nil_of_length_pos (by omega)), load, hlength, store_eq a hn, store,
    Code.toNat_littleEndian, Nat.mod_eq_of_lt (BitVec.isLt _), BitVec.ofNat_toNat, BitVec.setWidth_eq]
  rfl

end Access

namespace Field

theorem size_le {f : Field} {n : Nat} (h : f.size? = some n) : 0 < n ∧ n ≤ 8 := by
  cases f <;> cases h <;> decide

theorem load_store (f : Field) (a b : Access) {n : Nat} (hf : f.size? = some n) {x : Word}
    (hx : f.admits x = true) : f.load b (a.store n x) = x := by
  obtain ⟨h0, hn⟩ := size_le hf
  simp only [admits, hf] at hx
  rw [load, Access.load_store a b h0 hn, a.length_store hn]
  split at hx
  · rename_i hsigned
    rw [Bool.and_eq_true, decide_eq_true_eq, decide_eq_true_eq] at hx
    rw [if_pos hsigned]
    exact Word.ofLow_low (by omega) (by omega) (by simpa [Word.Fits] using hx)
  · rename_i hsigned
    rw [decide_eq_true_eq] at hx
    have hlow : x.toNat % 2 ^ (8 * n) = x.toNat := Nat.mod_eq_of_lt hx
    rw [if_neg hsigned, ← Word.low, Word.low_ofLow (by omega)]
    apply BitVec.eq_of_toNat_eq
    rw [BitVec.toNat_setWidth, Word.low, BitVec.toNat_setWidth, hlow, Nat.mod_eq_of_lt x.isLt]

end Field

/-! Writing. -/

/-- A number in a field of fixed size that admits it. -/
structure Item where
  field : Field
  size : Nat
  value : Word
  fixed : field.size? = some size
  admitted : field.admits value = true

def totalSize (items : List Item) : Nat := (items.map Item.size).sum

def Item.bytes (i : Item) : Code := Access.whole.store i.size i.value

theorem Item.length_bytes (i : Item) : i.bytes.length = i.size :=
  Access.whole.length_store (Field.size_le i.fixed).2 i.value

theorem length_flatMap_bytes (items : List Item) :
    (items.flatMap Item.bytes).length = totalSize items := by
  induction items with
  | nil => rfl
  | cons i items ih =>
    rw [List.flatMap_cons, List.length_append, i.length_bytes, ih]
    rfl

namespace Writer

def putAll (a : Access) (w : Writer) (items : List Item) : Writer :=
  items.foldl (fun w i => w.put a i.field i.value) w

/-- No chunk holds more than it has room for, and the current one is not a small one. -/
structure Within (w : Writer) : Prop where
  chunks : ∀ c ∈ w.closed ++ [w.current], c.bytes.length ≤ c.capacity
  room : 200 ≤ w.current.capacity

variable (w : Writer)

theorem toCode_reserve (n : Nat) : (w.reserve n).toCode = w.toCode := by
  rw [reserve]
  split
  · simp only [toCode, List.flatMap_append, List.flatMap_cons, List.flatMap_nil, List.append_nil]
  · rfl

theorem total_reserve (n : Nat) : (w.reserve n).total = w.total := by
  rw [reserve]
  split <;> rfl

theorem toCode_append (bytes : Code) : (w.append bytes).toCode = w.toCode ++ bytes := by
  rw [← w.toCode_reserve bytes.length]
  simp only [append, toCode, List.append_assoc]

theorem total_append (bytes : Code) :
    (w.append bytes).total = w.total + BitVec.ofNat 32 bytes.length := by
  rw [← w.total_reserve bytes.length]
  rfl

variable {w}

theorem Within.reserve (h : w.Within) {n : Nat} (hn : n ≤ 8) :
    (w.reserve n).Within ∧
      (w.reserve n).current.bytes.length + n ≤ (w.reserve n).current.capacity := by
  have hroom := h.room
  rw [Writer.reserve]
  split
  · have hnew : 200 ≤ min (2 * w.current.capacity) maxCapacity := by
      rw [maxCapacity]
      omega
    refine ⟨⟨?_, hnew⟩, ?_⟩
    · intro c hc
      rcases List.mem_append.mp hc with hc | hc
      · exact h.chunks c hc
      · rw [List.mem_singleton.mp hc]
        exact Nat.zero_le _
    · change 0 + n ≤ min (2 * w.current.capacity) maxCapacity
      omega
  · exact ⟨h, by omega⟩

theorem Within.append (h : w.Within) {bytes : Code} (hbytes : bytes.length ≤ 8) :
    (w.append bytes).Within := by
  obtain ⟨hwithin, hfits⟩ := h.reserve hbytes
  refine ⟨?_, hwithin.room⟩
  intro c hc
  rcases List.mem_append.mp hc with hc | hc
  · exact hwithin.chunks c (List.mem_append_left _ hc)
  · rw [List.mem_singleton.mp hc]
    change ((w.reserve bytes.length).current.bytes ++ bytes).length ≤ _
    rw [List.length_append]
    exact hfits

theorem put_eq (w : Writer) (a : Access) (i : Item) :
    w.put a i.field i.value = w.append i.bytes := by
  rw [Item.bytes, ← a.store_eq (Field.size_le i.fixed).2]
  simp only [put, i.fixed]

/-- What a writer does with items, step by step: the bytes follow each other, the count goes on, and all
chunks keep to their room. -/
theorem putAll_eq (a : Access) (w : Writer) (items : List Item) :
    (w.putAll a items).toCode = w.toCode ++ items.flatMap Item.bytes ∧
      (w.putAll a items).total = w.total + BitVec.ofNat 32 (totalSize items) ∧
      (w.Within → (w.putAll a items).Within) := by
  induction items generalizing w with
  | nil => exact ⟨(List.append_nil _).symm, (BitVec.add_zero _).symm, id⟩
  | cons i items ih =>
    obtain ⟨hcode, htotal, hwithin⟩ := ih (w.put a i.field i.value)
    rw [put_eq] at hcode htotal hwithin
    refine ⟨?_, ?_, ?_⟩
    · rw [List.flatMap_cons, ← List.append_assoc, ← toCode_append]
      rw [putAll, List.foldl_cons, put_eq]
      exact hcode
    · rw [putAll, List.foldl_cons, put_eq]
      refine htotal.trans ?_
      rw [total_append, i.length_bytes, BitVec.add_assoc, ← BitVec.ofNat_add]
      rfl
    · intro h
      rw [putAll, List.foldl_cons, put_eq]
      exact hwithin (h.append (i.length_bytes.trans_le (Field.size_le i.fixed).2))

end Writer

/-! Reading. -/

namespace Reader

def getAll? (a : Access) : Reader → List Field → Option (List Word × Reader)
  | r, [] => some ([], r)
  | r, f :: fs => do
    let (x, r) ← r.get? a f
    let (xs, r) ← r.getAll? a fs
    return (x :: xs, r)

theorem take?_append (front bytes back : Code) :
    take? ⟨front ++ (bytes ++ back), front.length⟩ bytes.length = some bytes := by
  have hin : (front.length : Int) ≤ (front ++ (bytes ++ back)).length := by
    rw [List.length_append]
    omega
  have hrest : rest? ⟨front ++ (bytes ++ back), front.length⟩ = some (bytes ++ back) := by
    rw [rest?, if_pos ⟨Int.natCast_nonneg _, hin⟩, Int.toNat_natCast, List.drop_left]
  rw [take?, hrest, Option.bind_eq_bind, Option.bind_some, List.take_left, if_pos rfl]

theorem get?_stored (a : Access) (front back : Code) (i : Item) :
    get? ⟨front ++ (i.bytes ++ back), front.length⟩ a i.field =
      some (i.value, ⟨front ++ (i.bytes ++ back), (front ++ i.bytes).length⟩) := by
  have hload : i.field.load a i.bytes = i.value :=
    i.field.load_store .whole a i.fixed i.admitted
  have htake := take?_append front i.bytes back
  rw [i.length_bytes] at htake
  simp only [get?, i.fixed, htake, Option.bind_eq_bind, Option.bind_some, hload]
  rw [List.length_append, i.length_bytes]
  rfl

theorem getAll?_stored (a : Access) (front : Code) (items : List Item) :
    getAll? a ⟨front ++ items.flatMap Item.bytes, front.length⟩ (items.map Item.field) =
      some (items.map Item.value, ⟨front ++ items.flatMap Item.bytes,
        (front ++ items.flatMap Item.bytes).length⟩) := by
  induction items generalizing front with
  | nil =>
    rw [List.flatMap_nil, List.append_nil]
    rfl
  | cons i items ih =>
    have hrest := ih (front ++ i.bytes)
    rw [List.append_assoc] at hrest
    rw [List.map_cons, getAll?, List.flatMap_cons, get?_stored]
    simp only [Option.bind_eq_bind, Option.bind_some]
    rw [hrest]
    rfl

end Reader

/-- Whatever the access, the same bytes are written, as many as are counted, in chunks that have room for
them; and the numbers are read back from them in their order, up to the end. -/
theorem items_round_trip (items : List Item) (hsize : totalSize items < 2 ^ 31) (a b : Access) :
    (∀ c, (Writer.putAll c {} items).toCode = (Writer.putAll a {} items).toCode) ∧
      (Writer.putAll a {} items).size = totalSize items ∧
      (Writer.putAll a {} items).toCode.length = totalSize items ∧
      (Writer.putAll a {} items).Within ∧
      Reader.getAll? b ⟨(Writer.putAll a {} items).toCode, 0⟩ (items.map Item.field) =
        some (items.map Item.value, ⟨(Writer.putAll a {} items).toCode, totalSize items⟩) := by
  have hcode : ∀ c, (Writer.putAll c {} items).toCode = items.flatMap Item.bytes := by
    intro c
    rw [(Writer.putAll_eq c {} items).1]
    rfl
  have hempty : Writer.Within {} := by
    refine ⟨?_, Nat.le_refl 200⟩
    intro c hc
    rw [List.mem_singleton.mp hc]
    exact Nat.zero_le _
  obtain ⟨_, htotal, hwithin⟩ := Writer.putAll_eq a {} items
  refine ⟨?_, ?_, ?_, hwithin hempty, ?_⟩
  · intro c
    rw [hcode c, hcode a]
  · have hzero : ({} : Writer).total = 0#32 := rfl
    rw [Writer.size, htotal, hzero, BitVec.zero_add, BitVec.toInt_ofNat',
      Int.bmod_eq_of_le (by omega) (by omega)]
  · rw [hcode a, length_flatMap_bytes]
  · have hread := Reader.getAll?_stored b [] items
    rw [List.nil_append, length_flatMap_bytes] at hread
    rw [hcode a]
    exact hread

/-- More numbers than the first chunk has room for. -/
def crossing : List Item :=
  [⟨.s1, 1, -128, rfl, by decide⟩, ⟨.u4, 4, 0xfffffffe, rfl, by decide⟩] ++
    List.replicate 24 ⟨.s8, 8, -2, rfl, by decide⟩ ++ [⟨.u2, 2, 0xffff, rfl, by decide⟩,
    ⟨.s4, 4, -2147483648, rfl, by decide⟩, ⟨.u1, 1, 255, rfl, by decide⟩]

theorem items_round_trip_crossing : totalSize crossing < 2 ^ 31 ∧
    (Writer.putAll .bytewise {} crossing).size = 204 ∧
    (Writer.putAll .bytewise {} crossing).closed.map (·.bytes.length) = [199] ∧
    (Reader.getAll? .whole ⟨(Writer.putAll .bytewise {} crossing).toCode, 0⟩
      (crossing.map Item.field)).map (·.2.position) = some 204 := by
  have hsize : totalSize crossing < 2 ^ 31 := by decide
  obtain ⟨_, hcount, _, _, hread⟩ := items_round_trip crossing hsize .bytewise .whole
  refine ⟨hsize, hcount, by decide +kernel, ?_⟩
  rw [hread]
  rfl

end CompilerKit.Buffer
