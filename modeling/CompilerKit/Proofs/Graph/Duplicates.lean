import CompilerKit.Expression.Label
import CompilerKit.Proofs.Graph.Consistency

/-! # The search for a duplicate

A node with inputs is looked for among the users of one of them, and not at all if one of them has no user
but the node itself. Where the usage lists are exact, the search finds a node just if there is one.
-/

namespace CompilerKit

/-- The list ends at the first empty place, so that it may be shorter than the count, never longer. -/
theorem Usages.length_toList_le (us : Usages) : us.toList.length ≤ us.count := by
  have hplaces : us.toList.length ≤
      (((List.range (inlineCount + us.moreCount)).map us.at?).takeWhile Option.isSome).length :=
    List.length_filterMap_le _ _
  have hrange : List.range (inlineCount + us.moreCount) = 0 :: 1 :: (List.range us.moreCount).map (· + 2) := by
    rw [inlineCount, Nat.add_comm, List.range_succ_eq_map, List.range_succ_eq_map]
    simp [Function.comp_def]
  refine hplaces.trans ?_
  rw [hrange, count]
  cases hfirst : us.first? with
  | none => simp [at?, hfirst]
  | some a =>
    cases hsecond : us.second? with
    | none => simp [at?, hfirst, hsecond]
    | some b =>
      refine (List.takeWhile_sublist _).length_le.trans ?_
      simp [inlineCount]
      omega

namespace Graph

variable {α : Type} {g : Graph α} {i m u x : NodeId} {self : Option NodeId} {l : List (Option NodeId)}

/-- Every usage list has one entry for each slot of a live node that holds its owner, and no others. -/
def UsagesExact (g : Graph α) : Prop := ∀ a b, (g.usages a).count b = g.slots a b

theorem Consistent.usagesExact (h : g.Consistent) : g.UsagesExact := h.records.count_eq

theorem UsagesExact.mem_usages_iff (h : g.UsagesExact) :
    u ∈ g.usages x ↔ g.isAlive u ∧ some x ∈ g.inputs u := by
  rw [← List.count_pos_iff, h, slots]
  split
  · next hu => rw [List.count_pos_iff, and_iff_right hu]
  · next hu => exact iff_of_false (Nat.lt_irrefl 0) fun hboth => hu hboth.1

theorem leastUsed?_cases (g : Graph α) (xs : List NodeId) :
    (∃ x ∈ xs, g.leastUsed? xs = some x) ∨ xs = [] := by
  cases xs with
  | nil => exact Or.inr rfl
  | cons x xs =>
    refine Or.inl ⟨_, ?_, rfl⟩
    refine List.foldlRecOn xs _ (motive := (· ∈ x :: xs)) List.mem_cons_self fun a ha b hb => ?_
    split
    · exact List.mem_cons_of_mem x hb
    · exact ha

variable [BEq α] {label : α}

/-- The live node with the inputs and with a label that equals the given one. -/
structure Holds (g : Graph α) (i : NodeId) (label : α) (l : List (Option NodeId)) : Prop where
  alive : g.isAlive i
  label : ∃ a, g.label? i = some a ∧ (a == label) = true
  inputs : g.inputs i = l

namespace UsagesExact

variable (h : g.UsagesExact)

include h

theorem holds_of_findDuplicate? (hm : g.findDuplicate? self label l = some m) :
    some m ≠ self ∧ g.Holds m label l := by
  obtain ⟨hne, hlabel, hinputs, halive | ⟨x, hx⟩⟩ := findDuplicate?_spec hm
  · exact ⟨hne, halive, hlabel, hinputs⟩
  · exact ⟨hne, (h.mem_usages_iff.mp hx).1, hlabel, hinputs⟩

/-- An input of a node has more users than the node itself, if another one has the same inputs. -/
theorem usageCount_ne (hself : ∀ i ∈ self, g.isAlive i ∧ g.inputs i = l) (hne : some m ≠ self)
    (hm : g.Holds m label l) (hx : some x ∈ l) : g.usageCount x ≠ self.toList.length := by
  have hsub : m :: self.toList ⊆ g.usages x := by
    intro u hu
    rw [List.mem_cons, Option.mem_toList] at hu
    rw [h.mem_usages_iff]
    rcases hu with rfl | hu
    · exact ⟨hm.alive, hm.inputs ▸ hx⟩
    · obtain ⟨halive, hinputs⟩ := hself u hu
      exact ⟨halive, hinputs ▸ hx⟩
  have hnodup : (m :: self.toList).Nodup := by
    cases self with
    | none => simp
    | some i => simpa using hne
  have hlength := (hnodup.subperm hsub).length_le
  have hcount : (g.usages x).length ≤ g.usageCount x := (g.usageStore x).length_toList_le
  rw [List.length_cons] at hlength
  omega

/-- The node that is looked for may be in the graph itself, as `self`. -/
theorem exists_findDuplicate? (hself : ∀ i ∈ self, g.isAlive i ∧ g.inputs i = l) (hx : some x ∈ l)
    (hne : some m ≠ self) (hm : g.Holds m label l) : ∃ j, g.findDuplicate? self label l = some j := by
  have hl : ¬ l.isEmpty = true := by
    rw [List.isEmpty_iff]
    exact List.ne_nil_of_mem hx
  have hown : (if self.isSome = true then 1 else 0) = self.toList.length := by
    cases self <;> rfl
  have hused : (l.filterMap id).any (g.usageCount · == self.toList.length) = false := by
    rw [List.any_eq_false]
    intro y hy
    rw [beq_iff_eq]
    exact h.usageCount_ne hself hne hm (by simpa using hy)
  rcases g.leastUsed?_cases (l.filterMap id) with ⟨y, hy, hleast⟩ | hnil
  · have hmem : m ∈ g.usages y := h.mem_usages_iff.mpr ⟨hm.alive, by simpa [hm.inputs] using hy⟩
    rw [findDuplicate?, if_neg hl]
    simp only [hown, hused, Bool.false_eq_true, if_false, hleast, Option.bind_some]
    rw [← Option.isSome_iff_exists, List.find?_isSome]
    obtain ⟨a, ha, hbeq⟩ := hm.label
    exact ⟨m, hmem, by simp [hne, ha, hbeq, hm.inputs]⟩
  · have hempty : x ∈ l.filterMap id := by simpa using hx
    rw [hnil] at hempty
    cases hempty

end UsagesExact

/-- The answer has the property, and there is one whenever a node with the property is there. -/
def Finds (r : Option NodeId) (p : NodeId → Prop) : Prop :=
  (∀ m, r = some m → p m) ∧ (r = none ↔ ∀ m, ¬ p m)

theorem UsagesExact.finds_findDuplicate? (h : g.UsagesExact)
    (hself : ∀ i ∈ self, g.isAlive i ∧ g.inputs i = l) (hx : some x ∈ l) :
    Finds (g.findDuplicate? self label l) fun m => some m ≠ self ∧ g.Holds m label l := by
  refine ⟨fun m hm => h.holds_of_findDuplicate? hm, ?_⟩
  constructor
  · rintro hnone m ⟨hne, hm⟩
    obtain ⟨j, hj⟩ := h.exists_findDuplicate? hself hx hne hm
    cases hnone.symm.trans hj
  · intro hnone
    cases hj : g.findDuplicate? self label l with
    | none => rfl
    | some j => exact absurd (h.holds_of_findDuplicate? hj) (hnone j)

/-- Where the usage lists are exact, a node with an input that is not in the graph has a duplicate found just if
there is one, a live node with an equal label and the same inputs; and so has a live node of the graph, another
one than itself. A deleted node, which still counts as one of the graph, is not covered. -/
theorem duplicates_found_iff (h : g.UsagesExact) :
    (∀ (label : α) (l : List (Option NodeId)), (∃ x, some x ∈ l) →
      Finds (g.findDuplicate? none label l) fun m => g.Holds m label l) ∧
    ∀ (i : NodeId) (label : α), g.isAlive i → g.label? i = some label → (∃ x, some x ∈ g.inputs i) →
      Finds (g.duplicateOf? i) fun m => m ≠ i ∧ g.Holds m label (g.inputs i) := by
  constructor
  · rintro label l ⟨x, hx⟩
    have hfinds : Finds (g.findDuplicate? none label l) fun m => some m ≠ none ∧ g.Holds m label l :=
      h.finds_findDuplicate? nofun hx
    simpa using hfinds
  · rintro i label hi hlabel ⟨x, hx⟩
    have hself : ∀ j ∈ some i, g.isAlive j ∧ g.inputs j = g.inputs i := by
      rintro j ⟨⟩
      exact ⟨hi, rfl⟩
    have hfinds : Finds (g.findDuplicate? (some i) label (g.inputs i))
        fun m => some m ≠ some i ∧ g.Holds m label (g.inputs i) := h.finds_findDuplicate? hself hx
    simpa [duplicateOf?, hlabel] using hfinds

/-- A parameter, and two sums of it with itself. -/
def doubledTwice : Graph Label :=
  let sum : Label := { op := .binary (.arith .add), stamp := .int (.full 32) }
  let parameter := (empty.add { op := .leaf (.parameter 0), stamp := .int (.full 32) } []).1
  ((parameter.add sum [some 0, some 0]).1.add sum [some 0, some 0]).1

theorem duplicates_found_iff_doubledTwice :
    doubledTwice.UsagesExact ∧ ∃ m, doubledTwice.duplicateOf? 1 = some m ∧ m ≠ 1 ∧
      doubledTwice.inputs m = [some 0, some 0] := by
  have hexact : doubledTwice.UsagesExact := by
    refine (((consistent_empty.add _ ?_).consistent.add _ ?_).consistent.add _ ?_).consistent.usagesExact
    · simp
    all_goals
      intro a ha
      obtain rfl : a = 0 := by simpa using ha
      decide
  have hlabel : ∃ label, doubledTwice.label? 1 = some label ∧ doubledTwice.Holds 2 label [some 0, some 0] :=
    ⟨_, rfl, by decide, ⟨_, rfl, by decide⟩, by decide⟩
  obtain ⟨label, hlabel, hheld⟩ := hlabel
  obtain ⟨hsound, hnone⟩ := (duplicates_found_iff hexact).2 1 label (by decide) hlabel ⟨0, by decide⟩
  refine ⟨hexact, ?_⟩
  cases hfound : doubledTwice.duplicateOf? 1 with
  | none => exact absurd ⟨by decide, hheld⟩ (hnone.mp hfound 2)
  | some m =>
    obtain ⟨hne, hm⟩ := hsound m hfound
    exact ⟨m, rfl, hne, hm.inputs⟩

end Graph

end CompilerKit
