import CompilerKit.Graph.WorkList
import CompilerKit.Proofs.Graph.Bookkeeping

/-! # Nodes that wait

A work list is to hold every live node at most once, and to tell which nodes it holds. As long as it is
searched it does. The addition that starts the marks does not look whether its node waits: if it does, it waits
twice from then on, and the mark goes with the first visit. No second node is ever concerned.
-/

namespace CompilerKit

namespace Graph

variable {α : Type} {g g' g'' : Graph α}

/-- Nodes may have been added and deleted, but none has come back. -/
structure Ages (g g' : Graph α) : Prop where
  size_le : g.nodes.size ≤ g'.nodes.size
  alive : ∀ i < g.nodes.size, g'.isAlive i → g.isAlive i

namespace Ages

theorem refl (g : Graph α) : Ages g g := ⟨le_rfl, fun _ _ hi => hi⟩

theorem trans (h : Ages g g') (h' : Ages g' g'') : Ages g g'' :=
  ⟨h.size_le.trans h'.size_le, fun i hlt hi => h.alive i hlt (h'.alive i (hlt.trans_le h.size_le) hi)⟩

theorem foldl {β : Type} {step : Graph α → β → Graph α} (h : ∀ g b, Ages g (step g b)) (l : List β)
    (g : Graph α) : Ages g (l.foldl step g) := by
  induction l generalizing g with
  | nil => exact refl g
  | cons b l ih => exact (h g b).trans (ih _)

theorem modify {f : Node α → Node α} (hf : ∀ n, (f n).alive = true → n.alive = true) (g : Graph α)
    (i : NodeId) : Ages g (g.modify i f) where
  size_le := by rw [Graph.modify, Array.size_modify]
  alive j _ := by
    rw [isAlive, getElem?_modify, isAlive]
    split
    · cases g.nodes[j]? with
      | none => exact id
      | some n => exact hf n
    · exact id

theorem touch (g : Graph α) (i : NodeId) : Ages g (g.touch i) := ⟨le_rfl, fun _ _ hi => hi⟩

theorem modifyUsages (g : Graph α) (i : NodeId) (f : Usages → Usages) : Ages g (g.modifyUsages i f) :=
  modify (f := fun n => { n with usages := f n.usages }) (fun _ hn => hn) g i

theorem add (g : Graph α) (label : α) (inputs : List (Option NodeId)) : Ages g (g.add label inputs).1 := by
  have hpush : Ages g (g.push { label, inputs }) := by
    refine ⟨?_, fun i hlt hi => ?_⟩
    · rw [push, Graph.touch, Array.size_push]
      exact Nat.le_succ _
    · rwa [isAlive_push, if_neg hlt.ne] at hi
  refine hpush.trans ?_
  unfold Graph.add
  exact foldl (fun g' x => (touch g' g.nodes.size).trans (modifyUsages _ x (·.add g.nodes.size))) _ _

theorem delete (g : Graph α) (i : NodeId) : Ages g (g.delete i) := by
  have hrelease : Ages g (g.releaseInputs i) := by
    unfold releaseInputs
    refine foldl (fun g x => (modifyUsages g x (·.remove i)).trans ?_) _ _
    unfold touchIfUnused
    split
    · exact touch _ x
    · exact refl _
  exact hrelease.trans (modify (f := ({ · with alive := false })) nofun _ i)

end Ages

end Graph

/-! ## Marks -/

namespace NodeMarks

variable {α : Type} {g : Graph α} {m : NodeMarks} {i j : NodeId}

@[simp] theorem mem_marked_mark : j ∈ (m.mark i).marked ↔ j = i ∨ j ∈ m.marked := by
  unfold mark
  split
  · next hi =>
    rw [List.contains_iff_mem] at hi
    exact ⟨Or.inr, fun hj => hj.elim (· ▸ hi) id⟩
  · exact List.mem_cons

@[simp] theorem blocks_mark : (m.mark i).blocks = m.blocks := by
  unfold mark
  split <;> rfl

@[simp] theorem mem_marked_clear : j ∈ (m.clear i).marked ↔ j ≠ i ∧ j ∈ m.marked := by
  simp [clear, and_comm]

@[simp] theorem marked_grow : (m.grow g i).marked = m.marked := by
  unfold grow
  split_ifs <;> rfl

theorem blocks_le_grow : m.blocks ≤ (m.grow g i).blocks := by
  unfold grow
  split_ifs
  · exact le_rfl
  · next h => exact h.le.trans (le_max_left _ _)
  · exact le_rfl

theorem lt_blocksFor {i n : Nat} (h : i < n) : i / 64 < blocksFor n := by
  rw [blocksFor]
  omega

theorem lt_blocks_grow (h : i < g.nodes.size) : i / 64 < (m.grow g i).blocks := by
  have hfor := lt_blocksFor h
  unfold grow
  split_ifs
  · assumption
  · exact hfor.trans_le (le_max_left _ _)
  · next hblocks => exact hfor.trans_le (Nat.le_of_not_lt hblocks)

end NodeMarks

namespace WorkList

variable {α : Type} {g : Graph α} {w : WorkList} {i j : NodeId}

theorem startMarks_spec (w : WorkList) (g : Graph α) :
    (w.startMarks g).blocks = NodeMarks.blocksFor g.nodes.size ∧ ∀ j, j ∈ (w.startMarks g).marked ↔ j ∈ w.waiting ∧ g.isAlive j := by
  have hfold (l : List NodeId) (m : NodeMarks) : (l.foldl NodeMarks.mark m).blocks = m.blocks ∧
      ∀ j, j ∈ (l.foldl NodeMarks.mark m).marked ↔ j ∈ l ∨ j ∈ m.marked := by
    induction l generalizing m with
    | nil => simp
    | cons i l ih =>
      obtain ⟨hblocks, hmarked⟩ := ih (m.mark i)
      refine ⟨hblocks.trans NodeMarks.blocks_mark, fun j => ?_⟩
      rw [List.foldl_cons, hmarked, NodeMarks.mem_marked_mark, List.mem_cons, or_left_comm, or_assoc]
  obtain ⟨hblocks, hmarked⟩ := hfold (w.waiting.filter g.isAlive) (.forGraph g)
  refine ⟨hblocks, fun j => ?_⟩
  rw [startMarks, hmarked, List.mem_filter]
  exact or_iff_left List.not_mem_nil

theorem add_of_marked {m : NodeMarks} (hm : w.marks = some m) (hi : i ∈ m.marked) :
    w.add g i = ⟨w.waiting, some (m.grow g i)⟩ := by
  unfold add
  rw [hm]
  exact if_pos (by simpa using hi)

theorem add_of_not_marked {m : NodeMarks} (hm : w.marks = some m) (hi : i ∉ m.marked) :
    w.add g i = ⟨w.waiting ++ [i], some ((m.grow g i).mark i)⟩ := by
  unfold add
  rw [hm]
  exact if_neg (by simpa using hi)

theorem add_of_long (hm : w.marks = none) (hlong : searched < w.waiting.length) :
    w.add g i = ⟨w.waiting ++ [i], some (((w.startMarks g).grow g i).mark i)⟩ := by
  unfold add
  rw [hm]
  exact if_pos hlong

theorem add_of_short (hm : w.marks = none) (hshort : ¬ searched < w.waiting.length) :
    w.add g i = ⟨if i ∈ w.waiting then w.waiting else w.waiting ++ [i], none⟩ := by
  obtain ⟨waiting, marks⟩ := w
  obtain rfl : marks = none := hm
  unfold add
  dsimp only
  rw [if_neg hshort]
  by_cases hi : i ∈ waiting <;> simp [hi]

theorem count_dropDeleted (hi : g.isAlive i) : (w.dropDeleted g).waiting.count i = w.waiting.count i := by
  have hsplit : (w.waiting.takeWhile (!g.isAlive ·) ++ w.waiting.dropWhile (!g.isAlive ·)).count i =
      w.waiting.count i := by rw [List.takeWhile_append_dropWhile]
  have hdropped : (w.waiting.takeWhile (!g.isAlive ·)).count i = 0 := by
    rw [List.count_eq_zero]
    intro hmem
    have hdead := List.mem_takeWhile_imp hmem
    simp [hi] at hdead
  rw [List.count_append, hdropped, Nat.zero_add] at hsplit
  exact hsplit

theorem isAlive_of_dropDeleted {rest : List NodeId} (h : (w.dropDeleted g).waiting = i :: rest) :
    g.isAlive i = true := by
  have hhead := List.head?_dropWhile_not (!g.isAlive ·) w.waiting
  rw [show w.waiting.dropWhile (!g.isAlive ·) = i :: rest from h] at hhead
  simpa using hhead

theorem mem_of_mem_dropDeleted (h : i ∈ (w.dropDeleted g).waiting) : i ∈ w.waiting :=
  (List.dropWhile_sublist _).subset h

end WorkList

/-! ## Work lists over a graph that changes -/

structure WorkState (α : Type) where
  graph : Graph α
  list : WorkList

/-- What is done with a work list and its graph. -/
inductive WorkEvent (α : Type) where
  | add (i : NodeId)
  /-- The list is asked whether there is a next node. -/
  | look
  | next
  | grow (label : α) (inputs : List (Option NodeId))
  | delete (i : NodeId)

namespace WorkState

variable {α : Type} {s : WorkState α} {i : NodeId} {m : NodeMarks} {o : Option NodeId} {e : WorkEvent α}

/-- Where there is no next node, only the deleted ones are dropped. -/
def step (s : WorkState α) : WorkEvent α → WorkState α
  | .add i => { s with list := s.list.add s.graph i }
  | .look => { s with list := s.list.dropDeleted s.graph }
  | .next => { s with list := ((s.list.next? s.graph).map (·.2)).getD (s.list.dropDeleted s.graph) }
  | .grow label inputs => { s with graph := (s.graph.add label inputs).1 }
  | .delete i => { s with graph := s.graph.delete i }

/-- Only nodes of the graph are added to the list. -/
def Admits (s : WorkState α) : WorkEvent α → Prop
  | .add i => i < s.graph.nodes.size
  | _ => True

def AdmitsAll (s : WorkState α) : List (WorkEvent α) → Prop
  | [] => True
  | e :: events => s.Admits e ∧ (s.step e).AdmitsAll events

/-- No live node waits twice, and the list tells of every live node whether it waits. -/
structure Exact (s : WorkState α) : Prop where
  once : ∀ i, s.graph.isAlive i → s.list.waiting.count i ≤ 1
  tells : ∀ i, s.graph.isAlive i → s.list.contains i = .ok (decide (i ∈ s.list.waiting))

def AllExact (s : WorkState α) : List (WorkEvent α) → Prop
  | [] => s.Exact
  | e :: events => s.Exact ∧ (s.step e).AllExact events

/-- A live node that waits is added when the marks are started. -/
def Overlooks (s : WorkState α) : WorkEvent α → Prop
  | .add i =>
    s.list.marks = none ∧ WorkList.searched < s.list.waiting.length ∧ s.graph.isAlive i ∧ i ∈ s.list.waiting
  | _ => False

/-- The marks have room for all live nodes. -/
def Roomy (s : WorkState α) : Prop :=
  ∀ m ∈ s.list.marks, ∀ i < s.graph.nodes.size, s.graph.isAlive i → i / 64 < m.blocks

def Undisturbed (s : WorkState α) : List (WorkEvent α) → Prop
  | [] => s.Roomy
  | e :: events => s.Roomy ∧ ¬ s.Overlooks e ∧ (s.step e).Undisturbed events

instance (s : WorkState α) : (e : WorkEvent α) → Decidable (s.Admits e)
  | .add i => inferInstanceAs (Decidable (i < s.graph.nodes.size))
  | .look | .next | .grow .. | .delete _ => inferInstanceAs (Decidable True)

instance decidableAdmitsAll (s : WorkState α) : (events : List (WorkEvent α)) → Decidable (s.AdmitsAll events)
  | [] => inferInstanceAs (Decidable True)
  | e :: events =>
    have := decidableAdmitsAll (s.step e) events
    inferInstanceAs (Decidable (s.Admits e ∧ (s.step e).AdmitsAll events))

instance (s : WorkState α) : Decidable s.Roomy := by
  unfold Roomy
  infer_instance

instance (s : WorkState α) : (e : WorkEvent α) → Decidable (s.Overlooks e)
  | .add _ =>
    have : Decidable (s.list.marks = none) := decidable_of_iff _ Option.isNone_iff_eq_none
    inferInstanceAs (Decidable (s.list.marks = none ∧ _ ∧ _ ∧ _))
  | .look | .next | .grow .. | .delete _ => inferInstanceAs (Decidable False)

instance decidableUndisturbed (s : WorkState α) :
    (events : List (WorkEvent α)) → Decidable (s.Undisturbed events)
  | [] => inferInstanceAs (Decidable s.Roomy)
  | e :: events =>
    have := decidableUndisturbed (s.step e) events
    inferInstanceAs (Decidable (s.Roomy ∧ ¬ s.Overlooks e ∧ (s.step e).Undisturbed events))

/-- A list without marks. -/
structure Searched (s : WorkState α) : Prop where
  unmarked : s.list.marks = none
  inside : ∀ i ∈ s.list.waiting, i < s.graph.nodes.size
  once : ∀ i, s.graph.isAlive i → s.list.waiting.count i ≤ 1

/-- A list with marks. A node waits as often as it is marked, and the node that was overlooked once more. -/
structure Marked (s : WorkState α) (m : NodeMarks) (o : Option NodeId) : Prop where
  marks : s.list.marks = some m
  inside : ∀ i, i ∈ s.list.waiting ∨ i ∈ m.marked ∨ o = some i → i < s.graph.nodes.size
  room : ∀ i ∈ m.marked, i / 64 < m.blocks
  counts : ∀ i, s.graph.isAlive i →
    s.list.waiting.count i = (if i ∈ m.marked then 1 else 0) + if o = some i then 1 else 0

theorem Searched.ages {g' : Graph α} (h : s.Searched) (hg : s.graph.Ages g') :
    (⟨g', s.list⟩ : WorkState α).Searched where
  unmarked := h.unmarked
  inside i hi := (h.inside i hi).trans_le hg.size_le
  once i hi := by
    by_cases hlt : i < s.graph.nodes.size
    · exact h.once i (hg.alive i hlt hi)
    · rw [List.count_eq_zero.mpr fun hmem => hlt (h.inside i hmem)]
      exact Nat.zero_le 1

theorem Marked.ages {g' : Graph α} (h : s.Marked m o) (hg : s.graph.Ages g') :
    (⟨g', s.list⟩ : WorkState α).Marked m o where
  marks := h.marks
  inside i hi := (h.inside i hi).trans_le hg.size_le
  room := h.room
  counts i hi := by
    by_cases hlt : i < s.graph.nodes.size
    · exact h.counts i (hg.alive i hlt hi)
    · have hnew : i ∉ s.list.waiting ∧ i ∉ m.marked ∧ o ≠ some i := by
        simpa [not_or] using fun hi => hlt (h.inside i hi)
      simp [hnew, List.count_eq_zero.mpr hnew.1]

theorem Searched.look (h : s.Searched) : (s.step .look).Searched where
  unmarked := h.unmarked
  inside i hi := h.inside i (WorkList.mem_of_mem_dropDeleted hi)
  once i hi := (WorkList.count_dropDeleted hi).trans_le (h.once i hi)

theorem Marked.look (h : s.Marked m o) : (s.step .look).Marked m o where
  marks := h.marks
  inside i hi := h.inside i (hi.imp_left WorkList.mem_of_mem_dropDeleted)
  room := h.room
  counts i hi := (WorkList.count_dropDeleted hi).trans (h.counts i hi)

/-- The next node is the first one when the deleted ones are dropped. -/
theorem step_next_cases (s : WorkState α) : s.step .next = s.step .look ∨
    ∃ i rest, (s.step .look).list.waiting = i :: rest ∧
      s.step .next = ⟨s.graph, rest, s.list.marks.map fun m => (m.grow s.graph i).clear i⟩ := by
  cases hwaiting : (s.list.dropDeleted s.graph).waiting with
  | nil => exact .inl (by simp only [step, WorkList.next?, hwaiting, Option.map_none, Option.getD_none])
  | cons i rest =>
    refine .inr ⟨i, rest, hwaiting, ?_⟩
    simp only [step, WorkList.next?, hwaiting, Option.map_some, Option.getD_some]

theorem Searched.next (h : s.Searched) : (s.step .next).Searched := by
  obtain heq | ⟨i, rest, hwaiting, heq⟩ := s.step_next_cases
  · rw [heq]
    exact h.look
  · obtain ⟨hunmarked, hinside, honce⟩ := h.look
    rw [hwaiting] at hinside honce
    rw [heq]
    refine ⟨?_, fun j hj => hinside j (List.mem_cons_of_mem i hj), fun j hj => ?_⟩
    · rw [h.unmarked, Option.map_none]
    · exact List.count_le_count_cons.trans (honce j hj)

theorem Marked.grow (h : s.Marked m o) (i : NodeId) :
    (⟨s.graph, s.list.waiting, some (m.grow s.graph i)⟩ : WorkState α).Marked (m.grow s.graph i) o where
  marks := rfl
  inside j hj := h.inside j (by rwa [NodeMarks.marked_grow] at hj)
  room j hj := by
    rw [NodeMarks.marked_grow] at hj
    exact (h.room j hj).trans_le NodeMarks.blocks_le_grow
  counts j hj := by
    rw [NodeMarks.marked_grow]
    exact h.counts j hj

/-- If the first node has no mark it is the one that was overlooked, and it does not wait any more. -/
theorem Marked.visit {rest : List NodeId} (h : s.Marked m o) (hi : s.graph.isAlive i)
    (hwaiting : s.list.waiting = i :: rest) :
    (⟨s.graph, rest, some (m.clear i)⟩ : WorkState α).Marked (m.clear i) (if i ∈ m.marked then o else none) where
  marks := rfl
  inside j hj := by
    apply h.inside j
    rw [NodeMarks.mem_marked_clear] at hj
    grind
  room j hj := h.room j (NodeMarks.mem_marked_clear.mp hj).2
  counts j hj := by
    have hfirst := h.counts i hi
    have hcount := h.counts j hj
    rw [hwaiting, List.count_cons_self] at hfirst
    simp only [hwaiting, List.count_cons, beq_iff_eq] at hcount
    simp only [NodeMarks.mem_marked_clear]
    grind

theorem Marked.next (h : s.Marked m o) :
    ∃ m' o', (s.step .next).Marked m' o' ∧ (o = none → o' = none) := by
  obtain heq | ⟨i, rest, hwaiting, heq⟩ := s.step_next_cases
  · exact ⟨m, o, heq ▸ h.look, id⟩
  · rw [heq, h.marks]
    refine ⟨_, _, (h.look.grow i).visit (WorkList.isAlive_of_dropDeleted hwaiting) hwaiting, fun ho => ?_⟩
    rw [ho, ite_self]

/-- A node with a mark is overlooked, which happens to one node only. -/
theorem Marked.append (h : s.Marked m o) (hi : i < s.graph.nodes.size) (hroom : i / 64 < m.blocks)
    (ho : i ∈ m.marked → o = none) :
    (⟨s.graph, s.list.waiting ++ [i], some (m.mark i)⟩ : WorkState α).Marked (m.mark i)
      (if i ∈ m.marked then some i else o) where
  marks := rfl
  inside j hj := by
    have hinside := h.inside j
    simp only [List.mem_append, List.mem_singleton, NodeMarks.mem_marked_mark] at hj
    grind
  room j hj := by
    rw [NodeMarks.blocks_mark]
    rcases NodeMarks.mem_marked_mark.mp hj with rfl | hj
    · exact hroom
    · exact h.room j hj
  counts j hj := by
    have hcount := h.counts j hj
    simp only [List.count_append, List.count_singleton, beq_iff_eq, NodeMarks.mem_marked_mark, hcount]
    grind

theorem Marked.add (h : s.Marked m o) (hi : i < s.graph.nodes.size) : ∃ m', (s.step (.add i)).Marked m' o := by
  by_cases hmarked : i ∈ m.marked
  · rw [step, WorkList.add_of_marked h.marks hmarked]
    exact ⟨_, h.grow i⟩
  · rw [step, WorkList.add_of_not_marked h.marks hmarked]
    have hgrown : i ∉ (m.grow s.graph i).marked := by rwa [NodeMarks.marked_grow]
    have happended := (h.grow i).append hi (NodeMarks.lt_blocks_grow hi) fun hmem => absurd hmem hgrown
    rw [if_neg hgrown] at happended
    exact ⟨_, happended⟩

theorem Searched.startMarks (h : s.Searched) :
    (⟨s.graph, s.list.waiting, some (s.list.startMarks s.graph)⟩ : WorkState α).Marked
      (s.list.startMarks s.graph) none := by
  obtain ⟨hblocks, hmem⟩ := s.list.startMarks_spec s.graph
  refine ⟨rfl, fun j hj => ?_, fun j hj => ?_, fun j hj => ?_⟩
  · rw [hmem] at hj
    exact h.inside j (hj.elim id fun hj => hj.elim And.left nofun)
  · rw [hblocks]
    exact NodeMarks.lt_blocksFor (h.inside j ((hmem j).mp hj).1)
  · have honce := h.once j hj
    have hpos : j ∈ s.list.waiting ↔ 0 < s.list.waiting.count j := List.count_pos_iff.symm
    simp only [hmem]
    grind

/-- The addition that starts the marks appends its node unseen. -/
theorem Searched.add (h : s.Searched) (hi : i < s.graph.nodes.size) : (s.step (.add i)).Searched ∨
    ∃ m o, (s.step (.add i)).Marked m o ∧ (¬ s.Overlooks (.add i) → o = none) := by
  by_cases hlong : WorkList.searched < s.list.waiting.length
  · right
    rw [step, WorkList.add_of_long h.unmarked hlong]
    refine ⟨_, _, (h.startMarks.grow i).append hi (NodeMarks.lt_blocks_grow hi) fun _ => rfl, fun hseen => ?_⟩
    rw [if_neg]
    intro hmem
    rw [NodeMarks.marked_grow, (s.list.startMarks_spec s.graph).2] at hmem
    exact hseen ⟨h.unmarked, hlong, hmem.2, hmem.1⟩
  · left
    rw [step, WorkList.add_of_short h.unmarked hlong]
    split
    · exact ⟨rfl, h.inside, h.once⟩
    · next hnew =>
      refine ⟨rfl, fun j hj => ?_, fun j hj => ?_⟩
      · rcases List.mem_append.mp hj with hj | hj
        · exact h.inside j hj
        · exact List.mem_singleton.mp hj ▸ hi
      · have honce := h.once j hj
        have hzero : s.list.waiting.count i = 0 := List.count_eq_zero.mpr hnew
        rw [List.count_append, List.count_singleton]
        grind

/-- The list is searched, or has marks that fail at one node at most. -/
def Follows (s : WorkState α) (o : Option NodeId) : Prop := (s.Searched ∧ o = none) ∨ ∃ m, s.Marked m o

theorem Follows.step (h : s.Follows o) (he : s.Admits e) :
    ∃ o', (s.step e).Follows o' ∧ (o = none → ¬ s.Overlooks e → o' = none) := by
  rcases h with ⟨h, rfl⟩ | ⟨m, h⟩
  · cases e with
    | add i =>
      obtain hadded | ⟨m, o, hadded, ho⟩ := h.add he
      · exact ⟨none, .inl ⟨hadded, rfl⟩, fun _ _ => rfl⟩
      · exact ⟨o, .inr ⟨m, hadded⟩, fun _ => ho⟩
    | look => exact ⟨none, .inl ⟨h.look, rfl⟩, fun _ _ => rfl⟩
    | next => exact ⟨none, .inl ⟨h.next, rfl⟩, fun _ _ => rfl⟩
    | grow label inputs => exact ⟨none, .inl ⟨h.ages (.add _ label inputs), rfl⟩, fun _ _ => rfl⟩
    | delete i => exact ⟨none, .inl ⟨h.ages (.delete _ i), rfl⟩, fun _ _ => rfl⟩
  · cases e with
    | add i =>
      obtain ⟨m', hadded⟩ := h.add he
      exact ⟨o, .inr ⟨m', hadded⟩, fun ho _ => ho⟩
    | look => exact ⟨o, .inr ⟨m, h.look⟩, fun ho _ => ho⟩
    | next =>
      obtain ⟨m', o', hnext, ho⟩ := h.next
      exact ⟨o', .inr ⟨m', hnext⟩, fun hnone _ => ho hnone⟩
    | grow label inputs => exact ⟨o, .inr ⟨m, h.ages (.add _ label inputs)⟩, fun ho _ => ho⟩
    | delete i => exact ⟨o, .inr ⟨m, h.ages (.delete _ i)⟩, fun ho _ => ho⟩

theorem Follows.run (h : s.Follows o) (events : List (WorkEvent α)) (he : s.AdmitsAll events) :
    ∃ o', (events.foldl WorkState.step s).Follows o' := by
  induction events generalizing s o with
  | nil => exact ⟨o, h⟩
  | cons e events ih =>
    obtain ⟨o', hstep, -⟩ := h.step he.1
    exact ih hstep he.2

theorem contains_of_unmarked (h : s.list.marks = none) :
    s.list.contains i = .ok (decide (i ∈ s.list.waiting)) := by
  unfold WorkList.contains
  rw [h]
  simp

theorem contains_of_marks (h : s.list.marks = some m) :
    s.list.contains i = if i / 64 < m.blocks then .ok (decide (i ∈ m.marked)) else .error .outOfRange := by
  unfold WorkList.contains NodeMarks.isMarked
  rw [h]
  simp

/-- What holds of every live node but the one that was overlooked. -/
theorem Follows.tells (h : s.Follows o) (hi : s.graph.isAlive i) : s.list.waiting.count i ≤ 2 ∧
    (s.list.contains i = .ok true → i ∈ s.list.waiting) ∧
    (o ≠ some i → s.list.waiting.count i ≤ 1 ∧ (i ∈ s.list.waiting → s.list.contains i = .ok true)) := by
  rcases h with ⟨h, rfl⟩ | ⟨m, h⟩
  · have honce := h.once i hi
    rw [contains_of_unmarked h.unmarked]
    refine ⟨honce.trans one_le_two, fun htrue => ?_, fun _ => ⟨honce, fun hmem => ?_⟩⟩
    · exact of_decide_eq_true (Except.ok.inj htrue)
    · rw [decide_eq_true hmem]
  · have hcount := h.counts i hi
    have hpos : i ∈ s.list.waiting ↔ 0 < s.list.waiting.count i := List.count_pos_iff.symm
    have hroom := h.room i
    rw [contains_of_marks h.marks]
    grind

theorem Follows.exact (h : s.Follows none) (hroomy : s.Roomy) : s.Exact := by
  refine ⟨fun i hi => ((h.tells hi).2.2 nofun).1, fun i hi => ?_⟩
  obtain ⟨-, hsound, hcomplete⟩ := h.tells hi
  have hcomplete := (hcomplete nofun).2
  cases hmarks : s.list.marks with
  | none => exact contains_of_unmarked hmarks
  | some m =>
    have hroom := hroomy m hmarks i (Graph.lt_size_of_isAlive hi) hi
    rw [contains_of_marks hmarks, if_pos hroom] at hsound hcomplete ⊢
    have hiff : i ∈ m.marked ↔ i ∈ s.list.waiting := by
      refine ⟨fun hmem => hsound ?_, fun hmem => ?_⟩
      · rw [decide_eq_true hmem]
      · exact of_decide_eq_true (Except.ok.inj (hcomplete hmem))
    rw [decide_eq_decide.mpr hiff]

theorem Exact.roomy (h : s.Exact) : s.Roomy := by
  intro m hm i _ hi
  have htells := h.tells i hi
  rw [contains_of_marks hm] at htells
  grind

theorem AllExact.exact {events : List (WorkEvent α)} (h : s.AllExact events) : s.Exact := by
  cases events with
  | nil => exact h
  | cons e events => exact h.1

theorem not_exact_of_overlooks (h : s.Overlooks e) : ¬ (s.step e).Exact := by
  cases e with
  | add i =>
    obtain ⟨hunmarked, hlong, hi, hmem⟩ := h
    intro hexact
    have honce := hexact.once i hi
    have hpos : 0 < s.list.waiting.count i := List.count_pos_iff.mpr hmem
    rw [step, WorkList.add_of_long hunmarked hlong, List.count_append, List.count_singleton_self] at honce
    omega
  | _ => exact h.elim

theorem allExact_iff_undisturbed (events : List (WorkEvent α)) (h : s.Follows none) (he : s.AdmitsAll events) :
    s.AllExact events ↔ s.Undisturbed events := by
  induction events generalizing s with
  | nil => exact ⟨Exact.roomy, h.exact⟩
  | cons e events ih =>
    obtain ⟨o, hstep, ho⟩ := h.step he.1
    constructor
    · rintro ⟨hexact, hrest⟩
      have hseen : ¬ s.Overlooks e := fun hover => not_exact_of_overlooks hover hrest.exact
      obtain rfl := ho rfl hseen
      exact ⟨hexact.roomy, hseen, (ih hstep he.2).mp hrest⟩
    · rintro ⟨hroomy, hseen, hrest⟩
      obtain rfl := ho rfl hseen
      exact ⟨h.exact hroomy, (ih hstep he.2).mpr hrest⟩

theorem follows_start (g : Graph α) {w : WorkList} (hw : w = .empty ∨ w = .filled g) :
    (⟨g, w⟩ : WorkState α).Follows none := by
  refine .inl ⟨?_, rfl⟩
  rcases hw with rfl | rfl
  · exact ⟨rfl, nofun, fun _ _ => Nat.zero_le 1⟩
  · refine ⟨rfl, fun i hi => List.mem_range.mp (List.mem_of_mem_filter hi), fun i _ => ?_⟩
    exact List.nodup_iff_count_le_one.mp (List.nodup_range.filter _) i

/-- A list that starts with all live nodes or with none is exact throughout just if the addition that starts
the marks is not one of a live node that waits, and the marks always have room for the live nodes. Whatever is
done, no live node waits three times, what the list tells to wait waits, and all nodes but one wait once and are
told. -/
theorem waits_once_iff (g : Graph α) {w : WorkList} (hw : w = .empty ∨ w = .filled g)
    (events : List (WorkEvent α)) (he : (⟨g, w⟩ : WorkState α).AdmitsAll events) :
    ((⟨g, w⟩ : WorkState α).AllExact events ↔ (⟨g, w⟩ : WorkState α).Undisturbed events) ∧
    ∃ o : Option NodeId, ∀ i, (events.foldl step ⟨g, w⟩).graph.isAlive i →
      let l := (events.foldl step ⟨g, w⟩).list
      l.waiting.count i ≤ 2 ∧ (l.contains i = .ok true → i ∈ l.waiting) ∧
      (o ≠ some i → l.waiting.count i ≤ 1 ∧ (i ∈ l.waiting → l.contains i = .ok true)) := by
  have hstart := follows_start g hw
  obtain ⟨o, ho⟩ := hstart.run events he
  exact ⟨allExact_iff_undisturbed events hstart he, o, fun i hi => ho.tells hi⟩

def leaves (n : Nat) : Graph Nat := (List.range n).foldl (fun g k => (g.add k []).1) .empty

/-- The first of twelve nodes is visited and added again, which starts the marks. -/
theorem waits_once_iff_revisited :
    let s : WorkState Nat := ⟨leaves 12, .filled (leaves 12)⟩
    let events := [.next, .add 0, .next, .grow 12 [], .add 12, .delete 3, .look, .add 12, .add 5]
    s.AdmitsAll events ∧ s.AllExact events ∧
      (events.foldl step s).list.waiting = [2, 3, 4, 5, 6, 7, 8, 9, 10, 11, 0, 12] := by
  intro s events
  have he : s.AdmitsAll events := by decide +kernel
  refine ⟨he, (waits_once_iff (leaves 12) (.inr rfl) events he).1.mpr ?_, ?_⟩ <;> decide +kernel

/-- A node that waits among eleven is added: it waits twice, and after a visit it still waits without a mark. To
ask for a node that is beyond the room of the marks fails. -/
theorem waiting_node_overlooked :
    let s : WorkState Nat := ⟨leaves 11, .filled (leaves 11)⟩
    let t : WorkState Nat := ⟨leaves 64, .filled (leaves 64)⟩
    (s.AdmitsAll [.add 0, .next] ∧ ¬ s.AllExact [.add 0] ∧ (s.step (.add 0)).graph.isAlive 0 ∧
      (s.step (.add 0)).list.waiting.count 0 = 2 ∧
      0 ∈ ((s.step (.add 0)).step .next).list.waiting ∧
      ((s.step (.add 0)).step .next).list.contains 0 = .ok false) ∧
    t.AdmitsAll [.next, .add 0, .grow 64 []] ∧
      (((t.step .next).step (.add 0)).step (.grow 64 [])).list.contains 64 = .error .outOfRange := by
  intro s t
  have hadmits : s.AdmitsAll [.add 0, .next] := by decide +kernel
  have hover : s.Overlooks (.add 0) := by decide +kernel
  refine ⟨⟨hadmits, fun hexact => not_exact_of_overlooks hover hexact.2, ?_, ?_, ?_, ?_⟩, ?_, ?_⟩
  all_goals decide +kernel

end WorkState

end CompilerKit
