import CompilerKit.Graph.Unique
import CompilerKit.Proofs.Graph.Bookkeeping

/-! # Usage lists match the input slots

Every operation on a graph keeps, for each node, one entry in its usage list for each slot of a live
node that holds it.
-/
namespace CompilerKit.Graph

section

variable {α : Type} {g g' : Graph α} {i j u : NodeId} {l : List (Option NodeId)} {f : Tally}

/-- The usage lists record the input slots, and no live node holds one that is not. -/
structure Consistent (g : Graph α) : Prop where
  records : g.Records g.slots
  closed : ∀ a b, g.isAlive b → some a ∈ g.inputs b → g.isAlive a

theorem mem_operands {a : NodeId} : a ∈ g.operands i ↔ some a ∈ g.inputs i := by
  simp [operands]

theorem count_operands (a : NodeId) (l : List (Option NodeId)) :
    (l.filterMap id).count a = l.count (some a) := by
  rw [List.count_filterMap, List.count]
  rfl

theorem count_toList (o : Option NodeId) (a : NodeId) :
    o.toList.count a = if o = some a then 1 else 0 := by
  cases o <;> simp [List.count_singleton]

/-- One entry of a list of slots was `old` and is `new`. -/
def Exchanged (old new : Option NodeId) (l l' : List (Option NodeId)) : Prop :=
  ∀ c, l'.count c + (if old = c then 1 else 0) = l.count c + if new = c then 1 else 0

theorem exchanged_replace {old new : Option NodeId} (h : old ∈ l) :
    Exchanged old new l (l.replace old new) := by
  intro c
  have pos := List.count_pos_iff.2 h
  rw [List.count_replace, if_pos (by simpa using h)]
  by_cases hc : old = c
  · subst hc
    simp
    omega
  · simp [hc]

theorem exchanged_set {old new : Option NodeId} {k : Nat} (h : l[k]? = some old) :
    Exchanged old new l (l.set k new) := by
  intro c
  obtain ⟨hk, rfl⟩ := List.getElem?_eq_some_iff.1 h
  have pos := List.count_pos_iff.2 (List.getElem_mem hk)
  rw [List.count_set hk]
  by_cases hc : l[k] = c
  · subst hc
    simp
    omega
  · simp [hc]

theorem consistent_empty : (empty : Graph α).Consistent := by
  constructor
  · constructor
    · intro a
      simpa [usageStore, empty] using Usages.packed_empty
    · intro a b
      simp [usages, usageStore, empty, slots, isAlive, Usages.lists_empty.toList_eq]
  · intro a b hb
    simp [isAlive, empty] at hb

namespace Consistent

variable (h : g.Consistent)
include h

theorem user_of_mem {a : NodeId} (hu : u ∈ g.usages a) : g.isAlive u ∧ some a ∈ g.inputs u := by
  have pos := List.count_pos_iff.2 hu
  rw [h.records.count_eq, slots] at pos
  split at pos
  · next halive => exact ⟨halive, List.count_pos_iff.1 pos⟩
  · cases pos

theorem operands_lt_size (hi : g.isAlive i) : ∀ x ∈ g.operands i, x < g.nodes.size :=
  fun x hx => lt_size_of_isAlive (h.closed x i hi (mem_operands.1 hx))

/-- A graph in which the slots of one live user are others, and are recorded. -/
theorem of_slots (hu : g.isAlive u) (alive : ∀ j, g'.isAlive j = g.isAlive j)
    (inputs : ∀ j, g'.inputs j = if j = u then l else g.inputs j) (records : g'.Records f)
    (tally : ∀ a b, f a b = if b = u then l.count (some a) else g.slots a b)
    (hl : ∀ a, some a ∈ l → g.isAlive a) : g'.Consistent where
  records := by
    have same : g'.slots = f := by
      funext a b
      rw [tally, slots, alive, inputs]
      by_cases hb : b = u
      · simp [hb, hu]
      · simp [hb, slots]
    rw [same]
    exact records
  closed := by
    intro a b hb hab
    rw [alive] at hb ⊢
    rw [inputs] at hab
    split at hab
    · exact hl a hab
    · exact h.closed a b hb hab

/-- As `of_slots`, where the slots are written first and the lists follow. -/
theorem of_setInputs {φ : Tally → Tally} (hu : g.isAlive u)
    (book : Bookkeeping (g.setInputs u l) g' φ)
    (tally : ∀ a b, φ g.slots a b = if b = u then l.count (some a) else g.slots a b)
    (hl : ∀ a, some a ∈ l → g.isAlive a) : g'.Consistent := by
  have recorded : (g.setInputs u l).Records g.slots :=
    h.records.of_usageStore fun _ => usageStore_setInputs l
  refine h.of_slots hu (fun j => ?_) (fun j => ?_) (book.records _ recorded) tally hl
  · rw [book.isAlive_eq, isAlive_setInputs]
  · rw [book.inputs_eq, inputs_setInputs l (lt_size_of_isAlive hu)]

theorem register {s : Graph α → NodeId → Graph α} (label : α) (hl : ∀ a, some a ∈ l → g.isAlive a)
    (step : ∀ (g' : Graph α) (x : NodeId), x < g'.nodes.size →
      Bookkeeping g' (s g' x) (.plus [x] g.nodes.size)) :
    ((l.filterMap id).foldl s (g.push { label, inputs := l })).Consistent ∧
      ∀ j, ((l.filterMap id).foldl s (g.push { label, inputs := l })).isAlive j =
        if j = g.nodes.size then true else g.isAlive j := by
  have size : (g.push { label, inputs := l }).nodes.size = g.nodes.size + 1 := Array.size_push ..
  have book := Bookkeeping.addAll (g := g.push { label, inputs := l }) step (l.filterMap id) (by
    intro x hx
    rw [size]
    exact Nat.lt_succ_of_lt (lt_size_of_isAlive (hl x (by simpa using hx))))
  have recorded : (g.push { label, inputs := l }).Records g.slots :=
    h.records.of_usageStore fun _ => usageStore_push label l
  have unborn : g.isAlive g.nodes.size = false := by simp [isAlive]
  have alive : ∀ j, ((l.filterMap id).foldl s (g.push { label, inputs := l })).isAlive j =
      if j = g.nodes.size then true else g.isAlive j := by
    intro j
    rw [book.isAlive_eq, isAlive_push]
  refine ⟨⟨?_, ?_⟩, alive⟩
  · have same : ((l.filterMap id).foldl s (g.push { label, inputs := l })).slots =
        Tally.plus (l.filterMap id) g.nodes.size g.slots := by
      funext a b
      rw [slots, alive, book.inputs_eq, inputs_push, Tally.plus, count_operands, slots]
      by_cases hb : b = g.nodes.size
      · simp [hb, unborn]
      · simp [hb]
    rw [same]
    exact book.records _ recorded
  · intro a b hb hab
    have older : ∀ a, g.isAlive a → (if a = g.nodes.size then true else g.isAlive a) = true := by
      intro a ha
      split
      · rfl
      · exact ha
    rw [alive] at hb ⊢
    rw [book.inputs_eq, inputs_push] at hab
    by_cases hb' : b = g.nodes.size
    · rw [if_pos hb'] at hab
      exact older a (hl a hab)
    · rw [if_neg hb'] at hb hab
      exact older a (h.closed a b hb hab)

theorem clearInputs (hi : g.isAlive i) : (g.clearInputs i).Consistent := by
  have book := Bookkeeping.releaseInputs (h.operands_lt_size hi)
  have recorded : (g.clearInputs i).Records (.minus (g.operands i) i g.slots) :=
    (book.records _ h.records).of_usageStore fun _ => usageStore_setInputs _
  refine h.of_slots (l := (g.inputs i).map fun _ => none) hi (fun j => ?_) (fun j => ?_) recorded
    (fun a b => ?_) (by simp)
  · rw [Graph.clearInputs, isAlive_setInputs, book.isAlive_eq]
  · rw [Graph.clearInputs, inputs_setInputs _ (book.size_eq ▸ lt_size_of_isAlive hi), book.inputs_eq]
  · rw [Tally.minus, operands, count_operands]
    by_cases hb : b = i
    · simp [hb, slots, hi, List.count_replicate]
    · simp [hb]

theorem delete (hi : g.isAlive i) (unused : g.usages i = []) :
    (g.delete i).Consistent := by
  have book := Bookkeeping.releaseInputs (h.operands_lt_size hi)
  have alive : ∀ j, (g.delete i).isAlive j = (j ≠ i && g.isAlive j) := by
    intro j
    rw [Graph.delete, isAlive_kill, book.isAlive_eq]
  have inputs : ∀ j, (g.delete i).inputs j = g.inputs j := by
    intro j
    rw [Graph.delete, inputs_kill, book.inputs_eq]
  constructor
  · have same : (g.delete i).slots = Tally.minus (g.operands i) i g.slots := by
      funext a b
      rw [slots, alive, inputs, Tally.minus, operands, count_operands, slots]
      by_cases hb : b = i
      · simp [hb, hi]
      · simp [hb]
    rw [same]
    exact (book.records _ h.records).of_usageStore fun _ => usageStore_kill
  · intro a b hb hab
    rw [inputs] at hab
    have hb' : b ≠ i ∧ g.isAlive b := by simpa [alive] using hb
    have used : 0 < (g.usages a).count b := by
      rw [h.records.count_eq, slots, if_pos hb'.2]
      exact List.count_pos_iff.2 hab
    have ha : a ≠ i := by
      rintro rfl
      simp [unused] at used
    simpa [alive, ha] using h.closed a b hb'.2 hab

/-! Replacements. -/

theorem swapInputs (i : NodeId) : (g.swapInputs i).Consistent := by
  have inputs : ∀ b, (g.swapInputs i).inputs b = g.inputs b ∨
      (g.swapInputs i).inputs b = (g.inputs b).reverse := by
    intro b
    by_cases hb : b = i
    · subst hb
      rcases Nat.lt_or_ge b g.nodes.size with hi | hi
      · exact .inr (by rw [Graph.swapInputs, inputs_setInputs _ hi, if_pos rfl])
      · exact .inl (by simp [Graph.swapInputs, setInputs, Graph.inputs, getElem?_modify, hi])
    · exact .inl (inputs_setInputs_of_ne _ hb)
  have same : (g.swapInputs i).slots = g.slots := by
    funext a b
    rw [slots, Graph.swapInputs, isAlive_setInputs, ← Graph.swapInputs, slots]
    obtain hb | hb := inputs b <;> simp [hb]
  constructor
  · rw [same]
    exact h.records.of_usageStore fun _ => usageStore_setInputs _
  · intro a b hb hab
    rw [Graph.swapInputs, isAlive_setInputs] at hb ⊢
    refine h.closed a b hb ?_
    obtain hi | hi := inputs b <;> simpa [hi] using hab

theorem alive_of_exchanged {old new : Option NodeId} (hu : g.isAlive u)
    (hl : Exchanged old new (g.inputs u) l) (hnew : ∀ x ∈ new, g.isAlive x) :
    ∀ a, some a ∈ l → g.isAlive a := by
  intro a ha
  by_cases hn : new = some a
  · exact hnew a hn
  · have pos := List.count_pos_iff.2 ha
    have held := hl (some a)
    rw [if_neg hn] at held
    exact h.closed a u hu (List.count_pos_iff.1 (by omega))

theorem of_exchanged {old new : Option NodeId} (hu : g.isAlive u)
    (hl : Exchanged old new (g.inputs u) l) (hold : ∀ x ∈ old, g.isAlive x)
    (hnew : ∀ x ∈ new, g.isAlive x) (hg' : g' = (g.setInputs u l).moveUsage u old new) :
    g'.Consistent ∧ ∀ j, g'.isAlive j = g.isAlive j := by
  have size : (g.setInputs u l).nodes.size = g.nodes.size := Array.size_modify
  have alive := h.alive_of_exchanged hu hl hnew
  by_cases hne : old = new
  · rw [moveUsage, if_pos hne] at hg'
    rw [hg']
    refine ⟨h.of_setInputs hu (.refl _) (fun a b => ?_) alive, fun j => isAlive_setInputs l⟩
    have held := hl (some a)
    by_cases hb : b = u
    · simp_all [slots]
    · simp [hb]
  · have book := Bookkeeping.moveUsage (g := g.setInputs u l) (i := u)
      (fun x hx => size ▸ lt_size_of_isAlive (hold x hx))
      (fun x hx => size ▸ lt_size_of_isAlive (hnew x hx)) hne
    rw [← hg'] at book
    refine ⟨h.of_setInputs hu book (fun a b => ?_) alive, fun j => ?_⟩
    · have held := hl (some a)
      simp only [Function.comp_apply, Tally.plus, Tally.minus, count_toList]
      by_cases hb : b = u
      · simp only [hb, slots, hu, if_true]
        split_ifs at held ⊢ with ho hn
        · exact absurd (ho.trans hn.symm) hne
        all_goals omega
      · simp [hb]
    · rw [book.isAlive_eq, isAlive_setInputs]

theorem replaceFirstInput {old new : Option NodeId} (hi : g.isAlive i)
    (hnew : ∀ x ∈ new, g.isAlive x) : (g.replaceFirstInput i old new).Consistent := by
  unfold Graph.replaceFirstInput
  split
  · next hold =>
    refine (h.of_exchanged hi (exchanged_replace hold) ?_ hnew rfl).1
    rintro x rfl
    exact h.closed x i hi hold
  · exact h

omit h in
theorem bookkeeping_handOver {other : Option NodeId} (notifies : NodeId → Bool)
    (hother : ∀ x ∈ other, x < g.nodes.size) :
    Bookkeeping (g.redirectFirst u (some i) other) (g.handOver i other notifies u)
      (.plus other.toList u) := by
  have size : (g.redirectFirst u (some i) other).nodes.size = g.nodes.size := Array.size_modify
  have notified : Bookkeeping (g.redirectFirst u (some i) other)
      (if notifies u then (g.redirectFirst u (some i) other).touch u
        else g.redirectFirst u (some i) other) id := by
    split
    · exact .touch _ u
    · exact .refl _
  rw [handOver]
  cases other with
  | none => simpa using notified
  | some x => exact notified.trans (.addUsage (notified.size_eq ▸ size ▸ hother x rfl))

omit h in
/-- The list of the node that is replaced is not written yet. -/
theorem usageStore_handOver {other : Option NodeId} (notifies : NodeId → Bool) (hne : other ≠ some i) :
    (g.handOver i other notifies u).usageStore i = g.usageStore i := by
  have notified : (if notifies u then (g.redirectFirst u (some i) other).touch u
      else g.redirectFirst u (some i) other).usageStore i = g.usageStore i := by
    split
    -- Touching a node leaves all lists as they are.
    · exact usageStore_setInputs _
    · exact usageStore_setInputs _
  rw [handOver]
  cases other with
  | none => exact notified
  | some x =>
    have hx : i ≠ x := fun hx => hne (hx ▸ rfl)
    rw [Option.elim_some, addUsage, usageStore_modifyUsages_of_ne _ hx]
    exact notified

theorem replaceUser {other : Option NodeId} (notifies : NodeId → Bool) {k : Nat} (hi : g.isAlive i)
    (hother : ∀ x ∈ other, g.isAlive x) (hne : other ≠ some i) (hu : g.usageAt? i k = some u)
    (hg' : g' = (g.handOver i other notifies u).modifyUsages i (·.moveLastTo k)) :
    g'.Consistent ∧ (∀ j, g'.isAlive j = g.isAlive j) ∧ (g'.usages i).Perm ((g.usages i).erase u) := by
  obtain ⟨alive, held⟩ := h.user_of_mem
    (List.mem_of_getElem? (((h.records.packed i).at?_eq k).symm.trans hu))
  have exchanged : Exchanged (some i) other (g.inputs u) _ := exchanged_replace held
  have size : (g.redirectFirst u (some i) other).nodes.size = g.nodes.size := Array.size_modify
  have added := bookkeeping_handOver (g := g) (i := i) (u := u) notifies
    fun x hx => lt_size_of_isAlive (hother x hx)
  have store := usageStore_handOver (g := g) (u := u) notifies hne
  have inList : i < (g.handOver i other notifies u).nodes.size :=
    added.size_eq ▸ size ▸ lt_size_of_isAlive hi
  have taken := Bookkeeping.takeUsage (u := u) (f := (·.moveLastTo k)) inList
    (fun packed => packed.moveLastTo (by rw [store]; exact hu))
  rw [← hg'] at taken
  have book := added.trans taken
  refine ⟨h.of_setInputs alive book (fun a b => ?_) (h.alive_of_exchanged alive exchanged hother),
    fun j => ?_, ?_⟩
  · have moved := exchanged (some a)
    simp only [Function.comp_apply, Tally.plus, Tally.minus, count_toList, List.count_singleton,
      beq_iff_eq]
    by_cases hb : b = u
    · simp only [hb, slots, alive, if_true]
      simp only [Option.some.injEq] at moved
      split_ifs at moved ⊢ <;> omega
    · simp [hb]
  · rw [book.isAlive_eq, redirectFirst, isAlive_setInputs]
  · rw [hg', usages, usageStore_modifyUsages _ inList, if_pos rfl, store]
    exact ((h.records.packed i).moveLastTo hu).2

theorem replaceUsers {other : Option NodeId} (p : Graph α → NodeId → Bool) (notifies : NodeId → Bool)
    (hi : g.isAlive i) (hother : ∀ x ∈ other, g.isAlive x) (hne : other ≠ some i) (left k : Nat) :
    (Graph.replaceUsers i other p notifies left k g).Consistent ∧
      ∀ j, (Graph.replaceUsers i other p notifies left k g).isAlive j = g.isAlive j := by
  induction left generalizing g k with
  | zero => exact ⟨h, fun _ => rfl⟩
  | succ left ih =>
    rw [Graph.replaceUsers]
    cases hu : g.usageAt? i k with
    | none => exact ⟨h, fun _ => rfl⟩
    | some u =>
      simp only
      split
      · obtain ⟨consistent, alive, -⟩ := h.replaceUser notifies hi hother hne hu rfl
        obtain ⟨rest, alive'⟩ := ih consistent ((alive i).trans hi)
          (fun x hx => (alive x).trans (hother x hx)) k
        exact ⟨rest, fun j => (alive' j).trans (alive j)⟩
      · exact ih h hi hother (k + 1)

theorem usages_replaceUsers {other : Option NodeId} (notifies : NodeId → Bool) (hi : g.isAlive i)
    (hother : ∀ x ∈ other, g.isAlive x) (hne : other ≠ some i) :
    (Graph.replaceUsers i other (fun _ _ => true) notifies (g.usageCount i) 0 g).usages i = [] := by
  obtain ⟨left, hleft⟩ : ∃ left, g.usageCount i = left := ⟨_, rfl⟩
  rw [hleft]
  have length := (h.records.packed i).count_eq
  rw [← usageCount, hleft, ← usages] at length
  clear hleft
  induction left generalizing g with
  | zero => exact List.eq_nil_of_length_eq_zero length.symm
  | succ left ih =>
    obtain ⟨u, rest, husages⟩ : ∃ u rest, g.usages i = u :: rest :=
      List.exists_cons_of_length_eq_add_one length.symm
    have hu : g.usageAt? i 0 = some u := by
      rw [usageAt?, (h.records.packed i).at?_eq, ← usages, husages]
      rfl
    obtain ⟨consistent, alive, perm⟩ := h.replaceUser notifies hi hother hne hu rfl
    simp only [Graph.replaceUsers, hu, if_true]
    refine ih consistent ((alive i).trans hi) (fun x hx => (alive x).trans (hother x hx)) ?_
    rw [husages, List.length_cons] at length
    rw [perm.length_eq, husages, List.erase_cons_head]
    omega

theorem replaceAtUsagesAndDelete {other : Option NodeId} (hi : g.isAlive i)
    (hother : ∀ x ∈ other, g.isAlive x) (hne : other ≠ some i) :
    (g.replaceAtUsagesAndDelete i other).Consistent := by
  obtain ⟨consistent, alive⟩ := h.replaceUsers (fun _ _ => true) (fun user => user ≠ i) hi hother hne
    (g.usageCount i) 0
  exact consistent.delete ((alive i).trans hi) (h.usages_replaceUsers _ hi hother hne)

theorem replaceSlot {other : Option NodeId} {slot : Nat} (hu : g.isAlive u)
    (hslot : (g.inputs u)[slot]? = some (some i)) (hother : ∀ x ∈ other, g.isAlive x) :
    (g.replaceSlot u slot other).Consistent ∧
      ∀ j, (g.replaceSlot u slot other).isAlive j = g.isAlive j := by
  have exchanged : Exchanged (some i) other (g.inputs u) _ := exchanged_set hslot
  refine h.of_exchanged hu exchanged ?_ hother ?_
  · rintro x ⟨⟩
    exact h.closed i u hu (List.mem_of_getElem? hslot)
  · rw [Graph.replaceSlot, hslot]
    rfl

theorem replaceAtSlots {other : Option NodeId} (p : α → Nat → Bool)
    (hother : ∀ x ∈ other, g.isAlive x) : (g.replaceAtSlots p i other).Consistent := by
  let Kept (g' : Graph α) : Prop := g'.Consistent ∧ ∀ j, g'.isAlive j = g.isAlive j
  suffices kept : Kept (g.replaceAtSlots p i other) from kept.1
  refine List.foldlRecOn _ _ ⟨h, fun _ => rfl⟩ fun g₁ kept₁ u hu => ?_
  refine List.foldlRecOn _ _ kept₁ fun g₂ ⟨consistent, alive⟩ slot _ => ?_
  have hu' : g₂.isAlive u := (alive u).trans (h.user_of_mem hu).1
  split
  · next hslot =>
    rw [Bool.and_eq_true, decide_eq_true_iff] at hslot
    obtain ⟨replaced, alive'⟩ := consistent.replaceSlot hu' hslot.1
      fun x hx => (alive x).trans (hother x hx)
    exact ⟨replaced, fun j => (alive' j).trans (alive j)⟩
  · exact ⟨consistent, alive⟩

end Consistent

/-! Additions. -/

/-- What is found is another node with the inputs and an equal label: a live leaf, or a user of an input. -/
theorem findDuplicate?_spec [BEq α] {self : Option NodeId} {label : α}
    (hj : g.findDuplicate? self label l = some j) :
    some j ≠ self ∧ (∃ a, g.label? j = some a ∧ (a == label) = true) ∧ g.inputs j = l ∧
      (g.isAlive j ∨ ∃ x, j ∈ g.usages x) := by
  unfold findDuplicate? at hj
  split at hj
  · next hl =>
    obtain ⟨hleaf, hne⟩ := Option.filter_eq_some_iff.mp hj
    obtain ⟨e, he, rfl⟩ := Option.map_eq_some_iff.mp hleaf
    have hfound := List.find?_some he
    simp only [isLeaf, Bool.and_eq_true, List.isEmpty_iff] at hfound hl
    obtain ⟨-, ⟨halive, hinputs⟩, hlabel⟩ := hfound
    exact ⟨bne_iff_ne.mp hne, (Option.any_eq_true ..).mp hlabel, hinputs.trans hl.symm, .inl halive⟩
  · obtain ⟨x, -, hx⟩ := Option.bind_eq_some_iff.mp (Option.ite_none_left_eq_some.mp hj).2
    have hfound := List.find?_some hx
    simp only [Bool.and_eq_true, bne_iff_ne, beq_iff_eq] at hfound
    exact ⟨hfound.1.1, (Option.any_eq_true ..).mp hfound.1.2, hfound.2, .inr ⟨x, List.mem_of_find?_eq_some hx⟩⟩

theorem leaves_add (g : Graph α) (label : α) (l : List (Option NodeId)) :
    (g.add label l).1.leaves = g.leaves :=
  List.foldlRecOn _ _ (motive := fun g' : Graph α => g'.leaves = g.leaves) rfl fun _ h _ _ => h

/-- What is asked for is there, or it is added. A leaf can then be found. -/
theorem unique_cases [BEq α] (g : Graph α) (label : α) (l : List (Option NodeId)) :
    (∃ j, g.findDuplicate? none label l = some j ∧ g.unique label l = (g, j)) ∨
    g.findDuplicate? none label l = none ∧ ∃ leaves,
      g.unique label l = ({ (g.add label l).1 with leaves }, g.nodes.size) ∧ g.leaves ⊆ leaves ∧
        (l = [] → (label, g.nodes.size) ∈ leaves) := by
  rw [unique]
  cases g.findDuplicate? none label l with
  | some j => exact Or.inl ⟨j, rfl, rfl⟩
  | none =>
    refine Or.inr ⟨rfl, if l.isEmpty then g.leaves ++ [(label, g.nodes.size)] else g.leaves, ?_⟩
    cases l with
    | nil => exact ⟨rfl, by simp, by simp⟩
    | cons x l => exact ⟨by simp [← leaves_add g label (x :: l), add], by simp, by simp⟩

/-- An addition keeps the live nodes, and gives a live one. -/
structure Grows (g : Graph α) (r : Graph α × NodeId) : Prop where
  consistent : r.1.Consistent
  mono : ∀ j, g.isAlive j → r.1.isAlive j
  alive : r.1.isAlive r.2

namespace Consistent

variable (h : g.Consistent)
include h

theorem add (label : α) (hl : ∀ a, some a ∈ l → g.isAlive a) : g.Grows (g.add label l) := by
  obtain ⟨consistent, alive⟩ := h.register label hl
    (s := fun g' x => (g'.touch g.nodes.size).addUsage x g.nodes.size)
    fun g' x hx => (Bookkeeping.touch g' _).trans (.addUsage hx)
  refine ⟨consistent, fun j hj => ?_, (alive _).trans (if_pos rfl)⟩
  rw [Graph.add, alive]
  split
  · rfl
  · exact hj

theorem isAlive_of_findDuplicate? [BEq α] {self : Option NodeId} {label : α}
    (hj : g.findDuplicate? self label l = some j) : g.isAlive j := by
  obtain ⟨-, -, -, halive | ⟨x, hx⟩⟩ := findDuplicate?_spec hj
  · exact halive
  · exact (h.user_of_mem hx).1

theorem unique [BEq α] (label : α) (hl : ∀ a, some a ∈ l → g.isAlive a) :
    g.Grows (g.unique label l) := by
  rcases g.unique_cases label l with ⟨j, hj, hunique⟩ | ⟨-, leaves, hunique, -⟩
  · rw [hunique]
    exact ⟨h, fun _ ha => ha, h.isAlive_of_findDuplicate? hj⟩
  · rw [hunique]
    obtain ⟨consistent, mono, alive⟩ := h.add label hl
    exact ⟨⟨⟨consistent.records.packed, consistent.records.count_eq⟩, consistent.closed⟩, mono, alive⟩

theorem copy [BEq α] (sharable : α → Bool) (hi : ∀ x ∈ g.operands i, g.isAlive x) :
    (g.copy sharable i).1.Consistent := by
  unfold Graph.copy
  split
  · exact h
  · next label _ =>
    split
    · exact (h.unique label (by simp)).consistent
    · exact (h.register label (fun a ha => hi a (mem_operands.2 ha))
        fun g' x hx => .addUsage hx).1

end Consistent

end

end CompilerKit.Graph
