import CompilerKit.Canonical.Phase
import CompilerKit.Proofs.Graph.Consistency

/-! # Graphs under edits

A graph is made from the empty one by edits. Whatever they are, as long as each is made where its
conditions hold, the usage lists match the input slots.
-/
namespace CompilerKit

def Term.nodes : Term → List NodeId
  | .node i => [i]
  | .leaf .. => []
  | .unary _ _ x => x.nodes
  | .binary _ _ x y => x.nodes ++ y.nodes
  | .select _ c t f => c.nodes ++ t.nodes ++ f.nodes

inductive Edit where
  | add (label : Label) (inputs : List (Option NodeId))
  | unique (label : Label) (inputs : List (Option NodeId))
  | insert (t : Term)
  | replaceFirstInput (i : NodeId) (old new : Option NodeId)
  /-- The predicate may look at the graph as it is when a user's turn comes. -/
  | replaceAtUsages (p : Graph Label → NodeId → Bool) (i : NodeId) (other : Option NodeId)
  | replaceAtMatchingUsages (p : Graph Label → NodeId → Bool) (i : NodeId) (other : Option NodeId)
  | replaceAtSlots (p : Label → Nat → Bool) (i : NodeId) (other : Option NodeId)
  | clearInputs (i : NodeId)
  | copy (i : NodeId)
  | commute (i : NodeId)
  | replaceAtUsagesAndDelete (i : NodeId) (other : Option NodeId)
  | delete (i : NodeId)

namespace Graph

def edit (g : Graph Label) : Edit → Graph Label
  | .add label inputs => (g.add label inputs).1
  | .unique label inputs => (g.unique label inputs).1
  | .insert t => (g.insert t).1
  | .replaceFirstInput i old new => g.replaceFirstInput i old new
  | .replaceAtUsages p i other => g.replaceAtUsagesWhere p i other
  | .replaceAtMatchingUsages p i other => g.replaceAtMatchingUsages p i other
  | .replaceAtSlots p i other => g.replaceAtSlots p i other
  | .clearInputs i => g.clearInputs i
  | .copy i => (g.copy (·.op.isFloating) i).1
  | .commute i => (g.commute i).1
  | .replaceAtUsagesAndDelete i other => g.replaceAtUsagesAndDelete i other
  | .delete i => g.delete i

/-- A node that may be put into a slot: a live one, or none. -/
def Admits (g : Graph Label) (x : Option NodeId) : Prop := ∀ a ∈ x, g.isAlive a

/-- Another node, or none, that may take the place of a live one. -/
def Replaceable (g : Graph Label) (i : NodeId) (other : Option NodeId) : Prop :=
  g.isAlive i ∧ g.Admits other ∧ other ≠ some i

/-- The conditions of an edit. -/
def Allows (g : Graph Label) : Edit → Prop
  | .add _ inputs | .unique _ inputs => ∀ x ∈ inputs, g.Admits x
  | .insert t => ∀ i ∈ t.nodes, g.isAlive i
  | .replaceFirstInput i old new => old ∈ g.inputs i → g.isAlive i ∧ g.Admits new
  | .replaceAtUsages _ i other | .replaceAtMatchingUsages _ i other | .replaceAtSlots _ i other
  | .replaceAtUsagesAndDelete i other => g.Replaceable i other
  | .clearInputs i => g.isAlive i
  | .copy i => ∀ x ∈ g.inputs i, g.Admits x
  | .commute _ => True
  | .delete i => g.isAlive i ∧ g.usageCount i = 0

/-- Edits that are made one after the other, each where its conditions hold. -/
def AllowsAll (g : Graph Label) : List Edit → Prop
  | [] => True
  | e :: edits => g.Allows e ∧ (g.edit e).AllowsAll edits

instance (g : Graph Label) (x : Option NodeId) : Decidable (g.Admits x) :=
  inferInstanceAs (Decidable (∀ a ∈ x, g.isAlive a))

instance (g : Graph Label) (i : NodeId) (other : Option NodeId) : Decidable (g.Replaceable i other) :=
  inferInstanceAs (Decidable (_ ∧ _ ∧ _))

instance (g : Graph Label) : (e : Edit) → Decidable (g.Allows e)
  | .add _ inputs | .unique _ inputs => inferInstanceAs (Decidable (∀ x ∈ inputs, g.Admits x))
  | .insert t => inferInstanceAs (Decidable (∀ i ∈ t.nodes, g.isAlive i))
  | .replaceFirstInput i old new =>
    inferInstanceAs (Decidable (old ∈ g.inputs i → g.isAlive i ∧ g.Admits new))
  | .replaceAtUsages _ i other | .replaceAtMatchingUsages _ i other | .replaceAtSlots _ i other
  | .replaceAtUsagesAndDelete i other => inferInstanceAs (Decidable (g.Replaceable i other))
  | .clearInputs i => inferInstanceAs (Decidable (g.isAlive i = true))
  | .copy i => inferInstanceAs (Decidable (∀ x ∈ g.inputs i, g.Admits x))
  | .commute _ => inferInstanceAs (Decidable True)
  | .delete i => inferInstanceAs (Decidable (g.isAlive i = true ∧ g.usageCount i = 0))

instance decidableAllowsAll (g : Graph Label) : (edits : List Edit) → Decidable (g.AllowsAll edits)
  | [] => inferInstanceAs (Decidable True)
  | e :: edits =>
    have := decidableAllowsAll (g.edit e) edits
    inferInstanceAs (Decidable (g.Allows e ∧ (g.edit e).AllowsAll edits))

section

variable {g : Graph Label}

theorem Grows.trans {r r' : Graph Label × NodeId} (h : g.Grows r) (h' : r.1.Grows r') : g.Grows r' :=
  ⟨h'.consistent, fun j hj => h'.mono j (h.mono j hj), h'.alive⟩

namespace Consistent

theorem place (h : g.Consistent) (op : Op) (stamp : Stamp) {l : List NodeId}
    (hl : ∀ x ∈ l, g.isAlive x) : g.Grows (g.place op stamp (l.map some)) := by
  have alive : ∀ a, some a ∈ l.map some → g.isAlive a := by
    intro a ha
    exact hl a (by simpa using ha)
  unfold Graph.place
  simp only
  split
  · exact h.unique _ alive
  · exact h.add _ alive

theorem insert (h : g.Consistent) (t : Term) (ht : ∀ i ∈ t.nodes, g.isAlive i) :
    g.Grows (g.insert t) := by
  induction t generalizing g with
  | node i => exact ⟨h, fun _ hj => hj, ht i (by simp [Term.nodes])⟩
  | leaf l s => exact h.place (.leaf l) s (l := []) (by simp)
  | unary op s x ihx =>
    have first := ihx h ht
    have placed := first.consistent.place (.unary op) s (l := [(g.insert x).2])
      (by simpa using first.alive)
    exact first.trans placed
  | binary op s x y ihx ihy =>
    simp only [Term.nodes, List.forall_mem_append] at ht
    have first := ihx h ht.1
    have second := ihy first.consistent fun i hi => first.mono i (ht.2 i hi)
    have placed := second.consistent.place (.binary op) s
      (l := [(g.insert x).2, ((g.insert x).1.insert y).2])
      (by simpa using ⟨second.mono _ first.alive, second.alive⟩)
    exact (first.trans second).trans placed
  | select s c t f ihc iht ihf =>
    simp only [Term.nodes, List.forall_mem_append] at ht
    have first := ihc h ht.1.1
    have second := iht first.consistent fun i hi => first.mono i (ht.1.2 i hi)
    have both := first.trans second
    have third := ihf second.consistent fun i hi => both.mono i (ht.2 i hi)
    have placed := third.consistent.place .select s (l := [(g.insert c).2, ((g.insert c).1.insert t).2,
      (((g.insert c).1.insert t).1.insert f).2]) (by
        simpa using ⟨third.mono _ (second.mono _ first.alive), third.mono _ second.alive, third.alive⟩)
    exact (both.trans third).trans placed

theorem edit (h : g.Consistent) (e : Edit) (he : g.Allows e) : (g.edit e).Consistent := by
  cases e with
  | add label inputs => exact (h.add label fun a ha => he _ ha a rfl).consistent
  | unique label inputs => exact (h.unique label fun a ha => he _ ha a rfl).consistent
  | insert t => exact (h.insert t he).consistent
  | replaceFirstInput i old new =>
    by_cases hold : old ∈ g.inputs i
    · exact h.replaceFirstInput (he hold).1 (he hold).2
    · rw [Graph.edit, Graph.replaceFirstInput, if_neg hold]
      exact h
  | replaceAtUsages p i other => exact (h.replaceUsers p _ he.1 he.2.1 he.2.2 _ _).1
  | replaceAtMatchingUsages p i other => exact (h.replaceUsers p _ he.1 he.2.1 he.2.2 _ _).1
  | replaceAtSlots p i other => exact h.replaceAtSlots p he.2.1
  | clearInputs i => exact h.clearInputs he
  | copy i => exact h.copy _ fun x hx => he _ (mem_operands.1 hx) x rfl
  | commute i =>
    rw [Graph.edit, Graph.commute]
    split
    · split
      · exact h.swapInputs i
      · exact h
    · exact h
  | replaceAtUsagesAndDelete i other => exact h.replaceAtUsagesAndDelete he.1 he.2.1 he.2.2
  | delete i =>
    refine h.delete he.1 (List.eq_nil_of_length_eq_zero ?_)
    rw [usages, ← (h.records.packed i).count_eq]
    exact he.2

theorem edits (h : g.Consistent) (edits : List Edit) (he : g.AllowsAll edits) :
    (edits.foldl Graph.edit g).Consistent := by
  induction edits generalizing g with
  | nil => exact h
  | cons e edits ih => exact ih (h.edit e he.1) he.2

end Consistent

end

/-- After any edits, a live node stands in the usage list of another as often as its slots hold that;
no deleted node stands in a usage list; and the places of a list are taken one after the other. -/
theorem usages_match_inputs (edits : List Edit) (allowed : (empty : Graph Label).AllowsAll edits) :
    let g := edits.foldl edit empty
    (∀ a b, g.isAlive a → g.isAlive b → (g.usages a).count b = (g.inputs b).count (some a)) ∧
    (∀ a b, g.isAlive b = false → b ∉ g.usages a) ∧
    ∀ a, g.usageCount a = (g.usages a).length ∧ ∀ k < g.usageCount a, (g.usageAt? a k).isSome := by
  intro g
  have h : g.Consistent := consistent_empty.edits edits allowed
  refine ⟨fun a b _ hb => ?_, fun a b hb hmem => ?_, fun a => ?_⟩
  · rw [h.records.count_eq, slots, if_pos hb]
  · have alive := (h.user_of_mem hmem).1
    simp [hb] at alive
  · have packed := h.records.packed a
    refine ⟨packed.count_eq, fun k hk => ?_⟩
    rw [usageAt?, packed.at?_eq, List.getElem?_eq_getElem (packed.count_eq ▸ hk)]
    rfl

/-- Sums of two parameters, most of them of one with itself, that are changed in every way. -/
def sumsEdited : List Edit :=
  let parameter (i : Int) : Term := .leaf (.parameter i) (.int (.full 32))
  let sum : Label := { op := .binary (.arith .add), stamp := .int (.full 32) }
  [.insert (parameter 0), .insert (parameter 1),
    .add sum [some 0, some 0], .add sum [some 0, some 0], .add sum [some 0, some 0],
    .add sum [some 0, some 0],
    .insert (.binary (.arith .add) (.int (.full 32)) (.node 1) (.node 0)), .copy 6,
    .unique sum [some 1, some 0], .replaceAtUsages (fun _ user => user % 2 = 0) 0 (some 1),
    .replaceFirstInput 3 (some 0) none, .commute 7,
    .replaceAtMatchingUsages (fun g user => g.inputs user = [some 0, some 0]) 0 (some 7),
    .replaceAtSlots (fun _ slot => slot = 1) 1 (some 0), .clearInputs 3, .delete 3,
    .replaceAtUsagesAndDelete 1 (some 0)]

theorem usages_match_inputs_sums :
    (empty : Graph Label).AllowsAll sumsEdited ∧
    let g := sumsEdited.foldl edit empty
    (g.usages 0).count 2 = (g.inputs 2).count (some 0) ∧ 3 ∉ g.usages 0 ∧
      g.usageCount 0 = (g.usages 0).length := by
  have allowed : (empty : Graph Label).AllowsAll sumsEdited := by decide +kernel
  obtain ⟨counts, deleted, packed⟩ := usages_match_inputs sumsEdited allowed
  exact ⟨allowed, counts 0 2 (by decide +kernel) (by decide +kernel), deleted 0 3 (by decide +kernel),
    (packed 0).1⟩

end Graph

end CompilerKit
