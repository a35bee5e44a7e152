import CompilerKit.Collections.Frequency
import CompilerKit.Proofs.Result

/-! # Frequency encoding

The tallies of a table are those of the objects that came: one for each, with its count. From there on
the array is the sorted tallies behind the missing object, and the numbers are positions in it.
-/

namespace CompilerKit

open scoped List

namespace Tally

variable {α : Type} [BEq α] {a : α} {l : List (Tally α)} {objects : List (Option α)}

theorem bump_cases (a : α) (l : List (Tally α)) :
    (∃ before e after, l = before ++ e :: after ∧ e.object == a ∧
      bump a l = before ++ { e with count := e.count + 1 } :: after) ∨
    (∀ e ∈ l, (e.object == a) = false) ∧ bump a l = l ++ [{ object := a, count := 1 }] := by
  induction l with
  | nil => exact .inr ⟨by simp, rfl⟩
  | cons e l ih =>
    rw [bump]
    split
    case isTrue h => exact .inl ⟨[], e, l, rfl, h, rfl⟩
    case isFalse h =>
      obtain ⟨before, d, after, rfl, hd, hbump⟩ | ⟨hnone, hbump⟩ := ih
      · exact .inl ⟨e :: before, d, after, rfl, hd, by rw [hbump, List.cons_append]⟩
      · refine .inr ⟨?_, by rw [hbump, List.cons_append]⟩
        rintro d (_ | ⟨_, hd⟩)
        · exact Bool.eq_false_iff.2 h
        · exact hnone d hd

theorem length_bump_le (a : α) (l : List (Tally α)) : (bump a l).length ≤ l.length + 1 := by
  obtain ⟨before, e, after, rfl, -, hbump⟩ | ⟨-, hbump⟩ := bump_cases a l <;> simp [hbump]

theorem count_append_some (x : α) :
    (objects ++ [some a]).count (some x) = objects.count (some x) + if a == x then 1 else 0 := by
  rw [List.count_append, List.count_singleton, Option.some_beq_some]

/-- The tallies of some objects. -/
structure Tells (l : List (Tally α)) (objects : List (Option α)) : Prop where
  apart : (l.map Tally.object).Pairwise fun a b => (a == b) = false
  counted : ∀ e ∈ l, e.count = BitVec.ofNat 32 (objects.count (some e.object))
  came : ∀ a ∈ l.map Tally.object, some a ∈ objects
  complete : ∀ a, some a ∈ objects → ∃ b ∈ l.map Tally.object, b == a

theorem Tells.missing (h : Tells l objects) : Tells l (objects ++ [none]) where
  apart := h.apart
  counted e he := by
    rw [List.count_append, h.counted e he]
    rfl
  came a ha := List.mem_append_left _ (h.came a ha)
  complete a ha := h.complete a (by simpa using ha)

variable [EquivBEq α]

theorem Tells.perm {m : List (Tally α)} (h : Tells l objects) (hperm : m ~ l) : Tells m objects where
  apart := ((hperm.map _).pairwise_iff BEq.symm_false).2 h.apart
  counted e he := h.counted e (hperm.mem_iff.1 he)
  came a ha := h.came a ((hperm.map _).mem_iff.1 ha)
  complete a ha := by
    obtain ⟨b, hb, hba⟩ := h.complete a ha
    exact ⟨b, (hperm.map _).mem_iff.2 hb, hba⟩

theorem Tells.again {before after : List (Tally α)} {e : Tally α} (h : Tells (before ++ e :: after) objects)
    (hea : e.object == a) :
    Tells (before ++ { e with count := e.count + 1 } :: after) (objects ++ [some a]) := by
  have hobjects : (before ++ { e with count := e.count + 1 } :: after).map Tally.object =
      (before ++ e :: after).map Tally.object := by simp
  -- no other tally is of the same object, so that the counts of the others stay
  have hother (d : Tally α) (hmem : d ∈ before ++ e :: after) (hd : (d.object == e.object) = false) :
      d.count = BitVec.ofNat 32 ((objects ++ [some a]).count (some d.object)) := by
    have hne : (a == d.object) = false := by
      rw [← BEq.congr_left hea]
      exact BEq.symm_false hd
    rw [count_append_some, hne, h.counted d hmem]
    rfl
  have hapart := h.apart
  rw [List.map_append, List.map_cons, List.pairwise_append, List.pairwise_cons] at hapart
  constructor
  case apart => exact hobjects ▸ h.apart
  case counted =>
    intro d hd
    obtain hd | rfl | hd := List.mem_append.1 hd |>.imp_right List.mem_cons.1
    · exact hother d (by simp [hd]) (hapart.2.2 _ (List.mem_map_of_mem hd) _ List.mem_cons_self)
    · rw [count_append_some, if_pos (BEq.symm hea), BitVec.ofNat_add, ← h.counted e (by simp)]
      rfl
    · exact hother d (by simp [hd]) (BEq.symm_false (hapart.2.1.1 _ (List.mem_map_of_mem hd)))
  case came =>
    intro x hx
    exact List.mem_append_left _ (h.came x (hobjects ▸ hx))
  case complete =>
    intro x hx
    rw [hobjects]
    obtain hx | hx := List.mem_append.1 hx
    · exact h.complete x hx
    · obtain rfl := Option.some_inj.1 (List.mem_singleton.1 hx)
      exact ⟨e.object, by simp, hea⟩

theorem Tells.fresh (h : Tells l objects) (hnone : ∀ e ∈ l, (e.object == a) = false) :
    Tells (l ++ [{ object := a, count := 1 }]) (objects ++ [some a]) := by
  have hobjects : (l ++ [({ object := a, count := 1 } : Tally α)]).map Tally.object =
      l.map Tally.object ++ [a] := by simp
  have hnone' : ∀ b ∈ l.map Tally.object, (b == a) = false := by simpa using hnone
  constructor
  case apart =>
    rw [hobjects, List.pairwise_append]
    refine ⟨h.apart, List.pairwise_singleton _ _, ?_⟩
    intro x hx y hy
    rw [List.mem_singleton.1 hy]
    exact hnone' x hx
  case counted =>
    intro d hd
    obtain hd | hd := List.mem_append.1 hd
    · rw [count_append_some, BEq.symm_false (hnone d hd), h.counted d hd]
      rfl
    · have habsent : objects.count (some a) = 0 := by
        refine List.countP_eq_zero.2 ?_
        rintro (_ | x) hx hxa
        · cases hxa
        · obtain ⟨b, hb, hbx⟩ := h.complete x hx
          have hba : b == a := BEq.trans hbx hxa
          rw [hnone' b hb] at hba
          cases hba
      rw [List.mem_singleton.1 hd, count_append_some, habsent, if_pos BEq.rfl]
      rfl
  case came =>
    intro x hx
    rw [hobjects] at hx
    obtain hx | hx := List.mem_append.1 hx
    · exact List.mem_append_left _ (h.came x hx)
    · rw [List.mem_singleton.1 hx]
      exact List.mem_append_right _ List.mem_cons_self
  case complete =>
    intro x hx
    rw [hobjects]
    obtain hx | hx := List.mem_append.1 hx
    · obtain ⟨b, hb, hbx⟩ := h.complete x hx
      exact ⟨b, List.mem_append_left _ hb, hbx⟩
    · obtain rfl := Option.some_inj.1 (List.mem_singleton.1 hx)
      exact ⟨x, by simp, BEq.rfl⟩

theorem Tells.bump (h : Tells l objects) (a : α) : Tells (bump a l) (objects ++ [some a]) := by
  obtain ⟨before, e, after, rfl, hea, hbump⟩ | ⟨hnone, hbump⟩ := bump_cases a l
  · rw [hbump]
    exact h.again hea
  · rw [hbump]
    exact h.fresh hnone

theorem Tells.count_eq_one (h : Tells l objects) (ha : some a ∈ objects) :
    (l.map Tally.object).count a = 1 := by
  obtain ⟨b, hb, hba⟩ := h.complete a ha
  obtain ⟨before, after, hsplit⟩ := List.mem_iff_append.1 hb
  have hapart := h.apart
  rw [hsplit, List.pairwise_append, List.pairwise_cons] at hapart
  have hbefore : before.count a = 0 := by
    refine List.countP_eq_zero.2 fun x hx hxa => ?_
    have hxb := hapart.2.2 x hx b List.mem_cons_self
    rw [BEq.congr_right hba, hxa] at hxb
    cases hxb
  have hafter : after.count a = 0 := by
    refine List.countP_eq_zero.2 fun x hx hxa => ?_
    have hbx := hapart.2.1.1 x hx
    rw [BEq.congr_left hba, BEq.symm hxa] at hbx
    cases hbx
  rw [hsplit, List.count_append, List.count_cons, if_pos hba, hbefore, hafter]

omit [EquivBEq α] in
/-- As long as 32 bits hold all counts, the objects are sorted by how often they came. -/
theorem Tells.pairwise_sorted (h : Tells l objects) (hfew : objects.length < 2 ^ 31) :
    ((sorted l).map Tally.object).Pairwise fun a b => objects.count (some b) ≤ objects.count (some a) := by
  have hcount (e : Tally α) (he : e ∈ l) : e.count.toInt = objects.count (some e.object) := by
    have hle : objects.count (some e.object) ≤ objects.length := List.count_le_length
    rw [h.counted e he, BitVec.toInt_ofNat']
    exact Int.bmod_eq_of_le (by omega) (by omega)
  have hsorted : (sorted l).Pairwise fun d e => e.count.sle d.count :=
    List.pairwise_mergeSort (by simp only [BitVec.sle_iff_toInt_le]; omega)
      (by simp only [Bool.or_eq_true, BitVec.sle_iff_toInt_le]; omega) l
  rw [List.pairwise_map]
  refine hsorted.imp_of_mem ?_
  intro d e hd he hle
  have hmem {x : Tally α} (hx : x ∈ sorted l) : x ∈ l := (List.mergeSort_perm l _).mem_iff.1 hx
  rw [BitVec.sle_iff_toInt_le, hcount d (hmem hd), hcount e (hmem he)] at hle
  exact_mod_cast hle

end Tally

namespace FrequencyTable

variable {α : Type} {objects : List (Option α)} {l listed : List (Tally α)} {t : FrequencyTable α}

theorem store_eq_ok {array : Array (Option α)} {i : Nat} (a : Option α) (hi : i < array.size)
    (hsize : array.size < 2 ^ 31) : store array (BitVec.ofNat 32 i) a = .ok (array.setIfInBounds i a) := by
  have hnumber : (BitVec.ofNat 32 i).toNat = i := by
    rw [BitVec.toNat_ofNat]
    exact Nat.mod_eq_of_lt (by omega)
  rw [store, hnumber, if_pos hi]

theorem toList_setIfInBounds_split {array : Array (Option α)} {i n : Nat} (a : Option α)
    (hi : i < array.size) :
    (array.setIfInBounds i a).toList.take (i + 1) ++ l.map (some ·.object) ++
      (array.setIfInBounds i a).toList.drop (i + 1 + n) =
    array.toList.take i ++ a :: l.map (some ·.object) ++ array.toList.drop (i + (n + 1)) := by
  have hlength : i < array.toList.length := by simpa using hi
  rw [Array.toList_setIfInBounds, List.take_add_one, List.getElem?_set_self hlength, List.take_set_of_le (by omega),
    List.drop_set_of_lt (by omega), Nat.add_assoc, Nat.add_comm 1 n]
  simp

theorem numbered_cons (first : Nat) (e : Tally α) (l : List (Tally α)) :
    Tally.numbered first (e :: l) =
      { e with number := BitVec.ofNat 32 first } :: Tally.numbered (first + 1) l := by
  simp only [Tally.numbered, List.mapIdx_cons, Nat.zero_add, Nat.add_right_comm _ 1 first, Nat.add_assoc]

theorem map_object_numbered (first : Nat) (l : List (Tally α)) :
    (Tally.numbered first l).map Tally.object = l.map Tally.object := by
  induction l generalizing first with
  | nil => rfl
  | cons e l ih => rw [numbered_cons, List.map_cons, List.map_cons, ih]

theorem getElem?_numbered (first i : Nat) (l : List (Tally α)) :
    (Tally.numbered first l)[i]? = l[i]?.map fun e => { e with number := BitVec.ofNat 32 (i + first) } :=
  List.getElem?_mapIdx

theorem exists_filled (l : List (Tally α)) (first : Nat) (array : Array (Option α))
    (hsize : array.size < 2 ^ 31) (hfits : first + l.length ≤ array.size) :
    ∃ filled, (Tally.numbered first l).foldlM (fun array e => store array e.number (some e.object)) array =
        .ok filled ∧
      filled.toList =
        array.toList.take first ++ l.map (some ·.object) ++ array.toList.drop (first + l.length) := by
  induction l generalizing first array with
  | nil => exact ⟨array, rfl, by simp⟩
  | cons e l ih =>
    rw [List.length_cons] at hfits
    obtain ⟨filled, hfilled, hlist⟩ := ih (first + 1) (array.setIfInBounds first (some e.object))
      (by simpa using hsize) (by simp; omega)
    refine ⟨filled, ?_, ?_⟩
    · rw [numbered_cons, List.foldlM_cons, store_eq_ok _ (by omega) hsize]
      exact hfilled
    · rw [hlist, toList_setIfInBounds_split _ (by omega)]
      rfl

theorem exists_storeMissing (t : FrequencyTable α) (array : Array (Option α)) (hsize : array.size < 2 ^ 31)
    (hfits : t.first ≤ array.size) :
    ∃ start, t.storeMissing array = .ok start ∧ start.size = array.size ∧
      start.toList.take t.first = List.replicate t.first none := by
  rw [first] at hfits ⊢
  rw [storeMissing]
  split
  case isTrue hmissing =>
    have hpos : 0 < array.size := by
      rw [if_pos hmissing] at hfits
      exact hfits
    refine ⟨array.setIfInBounds 0 none, store_eq_ok none hpos hsize, by simp, ?_⟩
    rw [Array.toList_setIfInBounds, List.take_add_one, List.getElem?_set_self (by simpa using hpos)]
    rfl
  case isFalse => exact ⟨array, rfl, rfl, rfl⟩

/-- The missing object in the first places and the others behind. -/
def arranged (first : Nat) (l : List (Tally α)) : List (Option α) :=
  List.replicate first none ++ l.map (some ·.object)

theorem exists_encoded (t : FrequencyTable α) (listed : List (Tally α)) (array : Array (Option α))
    (hsize : array.size < 2 ^ 31) (hfits : array.size = listed.length + t.first) :
    ∃ encoded, t.encodeInto listed array =
        .ok (encoded, { t with tallies := Tally.numbered t.first (Tally.sorted listed) }) ∧
      encoded.toList = arranged t.first (Tally.sorted listed) := by
  have hlength : (Tally.sorted listed).length = listed.length := List.length_mergeSort listed
  obtain ⟨start, hstart, hsame, hnone⟩ := exists_storeMissing t array hsize (by omega)
  obtain ⟨encoded, hfilled, hlist⟩ := exists_filled (Tally.sorted listed) t.first start
    (by omega) (by omega)
  refine ⟨encoded, ?_, ?_⟩
  · rw [encodeInto, Result.bind_eq_ok]
    refine ⟨start, hstart, ?_⟩
    rw [Result.bind_eq_ok]
    exact ⟨encoded, hfilled, rfl⟩
  · rw [hlist, hnone, List.drop_eq_nil_of_le (by simp; omega), List.append_nil, arranged]

theorem length_arranged (first : Nat) (l : List (Tally α)) : (arranged first l).length = l.length + first := by
  simp [arranged, Nat.add_comm]

theorem reduceOption_arranged (first : Nat) (l : List (Tally α)) :
    (arranged first l).reduceOption = l.map Tally.object := by
  rw [arranged, List.reduceOption_append, List.reduceOption_replicate_none, List.nil_append,
    List.reduceOption, List.filterMap_map]
  exact congrFun List.filterMap_eq_map l

variable [BEq α]

theorem count_none_arranged (first : Nat) (l : List (Tally α)) : (arranged first l).count none = first := by
  have hothers : (l.map (some ·.object)).count none = 0 :=
    List.countP_eq_zero.2 (by simp)
  rw [arranged, List.count_append, hothers, Nat.add_zero, List.count, List.countP_replicate]
  rfl

theorem count_some_arranged (first : Nat) (l : List (Tally α)) (a : α) :
    (arranged first l).count (some a) = (l.map Tally.object).count a := by
  have hmissing : (List.replicate first (none : Option α)).count (some a) = 0 :=
    List.countP_eq_zero.2 (by simp)
  rw [arranged, List.count_append, hmissing, Nat.zero_add, List.count, List.count, List.countP_map, List.countP_map]
  rfl

theorem ofList_concat (objects : List (Option α)) (a : Option α) :
    ofList (objects ++ [a]) = (ofList objects).add a := by
  rw [ofList, List.foldl_append]
  rfl

theorem hasMissing_ofList (objects : List (Option α)) :
    (ofList objects).hasMissing = true ↔ none ∈ objects := by
  induction objects using List.reverseRecOn with
  | nil => simp [ofList]
  | append_singleton objects a ih =>
    rw [ofList_concat]
    cases a with
    | none => simp [add]
    | some a => simpa [add] using ih

theorem size_ofList_le (objects : List (Option α)) : (ofList objects).size ≤ objects.length := by
  induction objects using List.reverseRecOn with
  | nil => exact Nat.le_refl 0
  | append_singleton objects a ih =>
    rw [ofList_concat, List.length_append, List.length_singleton]
    rw [size] at ih ⊢
    cases a with
    | none =>
      have hfirst : ((ofList objects).add none).first ≤ 1 := Nat.le_refl 1
      exact Nat.add_le_add (Nat.le_of_add_right_le ih) hfirst
    | some a =>
      have hbump := Tally.length_bump_le a (ofList objects).tallies
      calc (Tally.bump a (ofList objects).tallies).length + (ofList objects).first
        _ ≤ (ofList objects).tallies.length + 1 + (ofList objects).first := Nat.add_le_add_right hbump _
        _ ≤ objects.length + 1 := by omega

theorem exists_index (h : Tally.Tells l objects) (ht : t.tallies = Tally.numbered t.first l)
    (hsize : l.length + t.first < 2 ^ 31) {a : α} (ha : some a ∈ objects) :
    ∃ i : Nat, t.index (some a) = .ok i ∧
      ∃ b, (arranged t.first l)[i]? = some (some b) ∧ b == a := by
  obtain ⟨b, hb, hba⟩ := h.complete a ha
  rw [← map_object_numbered t.first, ← ht, List.mem_map] at hb
  obtain ⟨e, he, rfl⟩ := hb
  obtain ⟨d, hd⟩ : ∃ d, t.tallies.find? (·.object == a) = some d := by
    rw [← Option.isSome_iff_exists, List.find?_isSome]
    exact ⟨e, he, hba⟩
  obtain ⟨hda, i, hi, hget, -⟩ := List.find?_eq_some_iff_getElem.1 hd
  obtain ⟨c, hc, rfl⟩ : ∃ c, l[i]? = some c ∧ { c with number := BitVec.ofNat 32 (i + t.first) } = d := by
    rw [← Option.map_eq_some_iff, ← getElem?_numbered, ← ht, ← hget]
    exact List.getElem?_eq_getElem hi
  have hlt : i < l.length := (List.getElem?_eq_some_iff.1 hc).1
  refine ⟨i + t.first, ?_, c.object, ?_, hda⟩
  · rw [index, hd]
    change Except.ok (BitVec.ofNat 32 (i + t.first)).toInt = _
    rw [BitVec.toInt_ofNat', Int.bmod_eq_of_le (by omega) (by omega)]
  · rw [arranged, List.getElem?_append_right (by simp), List.length_replicate, Nat.add_sub_cancel, List.getElem?_map, hc]
    rfl

theorem mem_of_mem_arranged (h : Tally.Tells l objects) {a : Option α}
    (ha : a ∈ arranged (ofList objects).first l) : a ∈ objects := by
  rw [arranged, List.mem_append] at ha
  obtain ha | ha := ha
  · obtain ⟨hfirst, rfl⟩ := List.mem_replicate.1 ha
    rw [first] at hfirst
    exact (hasMissing_ofList objects).1 (by simpa using hfirst)
  · obtain ⟨e, he, rfl⟩ := List.mem_map.1 ha
    exact h.came e.object (List.mem_map_of_mem he)

variable [EquivBEq α]

theorem tells_ofList (objects : List (Option α)) : Tally.Tells (ofList objects).tallies objects := by
  induction objects using List.reverseRecOn with
  | nil => constructor <;> simp [ofList]
  | append_singleton objects a ih =>
    rw [ofList_concat]
    cases a with
    | none => exact ih.missing
    | some a => exact ih.bump a

/-- After fewer than 2 ^ 31 objects, an array of the right length is filled with each of them once: the
missing one first, the others by how often they came, and each at the place that its number says. -/
theorem encoded_by_frequency (objects : List (Option α)) (hfew : objects.length < 2 ^ 31)
    (listed : List (Tally α)) (hlisted : listed ~ (ofList objects).tallies)
    (array : Array (Option α)) (hfits : array.size = (ofList objects).size) :
    ∃ encoded t, (ofList objects).encodeInto listed array = .ok (encoded, t) ∧
      encoded.size = (ofList objects).size ∧
      (∀ a ∈ encoded, a ∈ objects) ∧ (∀ a ∈ objects, encoded.toList.count a = 1) ∧
      (none ∈ objects → encoded[0]? = some none) ∧
      (encoded.toList.reduceOption.Pairwise fun a b => objects.count (some b) ≤ objects.count (some a)) ∧
      ∀ a ∈ objects, ∃ i : Nat, t.index a = .ok i ∧ ∃ b, encoded[i]? = some b ∧ b == a := by
  have hsize := size_ofList_le objects
  have hlength : listed.length = (ofList objects).tallies.length := hlisted.length_eq
  obtain ⟨encoded, hencoded, hlist⟩ := exists_encoded (ofList objects) listed array (by omega)
    (by rw [hfits, hlength, size])
  have hsorted : Tally.sorted listed ~ listed := List.mergeSort_perm listed _
  have hlistedTells := (tells_ofList objects).perm hlisted
  have htells := hlistedTells.perm hsorted
  have hmissing : none ∈ objects → (ofList objects).first = 1 := by
    intro hnone
    rw [first, if_pos ((hasMissing_ofList objects).2 hnone)]
  have hzero : none ∈ objects → encoded.toList[0]? = some none := by
    intro hnone
    rw [hlist, hmissing hnone]
    rfl
  refine ⟨encoded, _, hencoded, ?_, ?_, ?_, ?_, ?_, ?_⟩
  · rw [← Array.length_toList, hlist, length_arranged, hsorted.length_eq, hlength, size]
  · intro a ha
    rw [← Array.mem_toList_iff, hlist] at ha
    exact mem_of_mem_arranged htells ha
  · rintro (_ | a) ha
    · rw [hlist, count_none_arranged, hmissing ha]
    · rw [hlist, count_some_arranged, htells.count_eq_one ha]
  · intro hnone
    rw [← Array.getElem?_toList, hzero hnone]
  · rw [hlist, reduceOption_arranged]
    exact hlistedTells.pairwise_sorted hfew
  · rintro (_ | a) ha
    · exact ⟨0, rfl, none, by rw [← Array.getElem?_toList, hzero ha], rfl⟩
    · obtain ⟨i, hi, b, hb, hba⟩ := exists_index
        (t := { ofList objects with tallies := Tally.numbered (ofList objects).first (Tally.sorted listed) })
        htells rfl (by rw [hsorted.length_eq, hlength]; exact lt_of_le_of_lt hsize hfew) ha
      refine ⟨i, hi, some b, ?_, hba⟩
      rw [← Array.getElem?_toList, hlist]
      exact hb

theorem encoded_by_frequency_listed_backward :
    ∃ encoded t, (ofList [some 4, none, some 7, some 7, none, some 5]).encodeInto
        (ofList [some 4, none, some 7, some 7, none, some 5]).tallies.reverse #[some 7, some 7, some 7, none] =
          .ok (encoded, t) ∧
      encoded.toList.count (some 7) = 1 ∧ encoded[0]? = some none ∧
      ∃ i : Nat, t.index (some 5) = .ok i ∧ ∃ b, encoded[i]? = some b ∧ b == some 5 := by
  obtain ⟨encoded, t, hencoded, -, -, honce, hnone, -, hindex⟩ :=
    encoded_by_frequency [some 4, none, some 7, some 7, none, some 5] (by decide) _ (List.reverse_perm _)
      #[some 7, some 7, some 7, none] (by decide)
  exact ⟨encoded, t, hencoded, honce (some 7) (by decide), hnone (by decide), hindex (some 5) (by decide)⟩

end FrequencyTable

end CompilerKit
