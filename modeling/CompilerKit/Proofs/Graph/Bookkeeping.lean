import CompilerKit.Graph.Basic
import CompilerKit.Proofs.Graph.Usages

/-! # Input slots and usage lists

What the steps of a graph operation do to the input slots and to the usage lists. An operation writes
the slots of a user and the lists of its inputs one after the other, so that in between they do not
match; the lists are followed by what they count.
-/
namespace CompilerKit.Graph

variable {α : Type} {g g' g'' : Graph α} {i j x u : NodeId}

/-! ## Reading a changed graph -/

theorem lt_size_of_isAlive (h : g.isAlive i) : i < g.nodes.size := by
  by_contra hi
  simp [isAlive, Array.getElem?_eq_none (Nat.le_of_not_lt hi)] at h

theorem getElem?_modify (f : Node α → Node α) :
    (g.modify i f).nodes[j]? = if i = j then g.nodes[j]?.map f else g.nodes[j]? :=
  Array.getElem?_modify

@[simp] theorem isAlive_setInputs (l : List (Option NodeId)) :
    (g.setInputs i l).isAlive j = g.isAlive j := by
  rw [isAlive, setInputs, getElem?_modify, isAlive]
  split <;> simp [Option.any_map]

@[simp] theorem usageStore_setInputs (l : List (Option NodeId)) :
    (g.setInputs i l).usageStore j = g.usageStore j := by
  rw [usageStore, setInputs, getElem?_modify, usageStore]
  split <;> simp [Function.comp_def]

theorem inputs_setInputs_of_ne (l : List (Option NodeId)) (h : j ≠ i) :
    (g.setInputs i l).inputs j = g.inputs j := by
  simp [inputs, setInputs, getElem?_modify, h.symm]

theorem inputs_setInputs (l : List (Option NodeId)) (h : i < g.nodes.size) :
    (g.setInputs i l).inputs j = if j = i then l else g.inputs j := by
  split
  · next hj =>
    subst hj
    simp [inputs, setInputs, getElem?_modify, h]
  · next hj => exact inputs_setInputs_of_ne l hj

@[simp] theorem isAlive_modifyUsages (f : Usages → Usages) :
    (g.modifyUsages i f).isAlive j = g.isAlive j := by
  rw [isAlive, modifyUsages, getElem?_modify, isAlive]
  split <;> simp [Option.any_map]

@[simp] theorem inputs_modifyUsages (f : Usages → Usages) :
    (g.modifyUsages i f).inputs j = g.inputs j := by
  rw [inputs, modifyUsages, getElem?_modify, inputs]
  split <;> simp [Function.comp_def]

theorem usageStore_modifyUsages_of_ne (f : Usages → Usages) (h : j ≠ i) :
    (g.modifyUsages i f).usageStore j = g.usageStore j := by
  simp [usageStore, modifyUsages, getElem?_modify, h.symm]

theorem usageStore_modifyUsages (f : Usages → Usages) (h : i < g.nodes.size) :
    (g.modifyUsages i f).usageStore j = if j = i then f (g.usageStore i) else g.usageStore j := by
  split
  · next hj =>
    subst hj
    simp [usageStore, modifyUsages, getElem?_modify, h]
  · next hj => exact usageStore_modifyUsages_of_ne f hj

@[simp] theorem isAlive_kill :
    (g.modify i ({ · with alive := false })).isAlive j = (j ≠ i && g.isAlive j) := by
  rw [isAlive, getElem?_modify, isAlive]
  by_cases hj : j = i
  · simp [hj, Option.any_map]
  · simp [hj, Ne.symm hj]

@[simp] theorem inputs_kill : (g.modify i ({ · with alive := false })).inputs j = g.inputs j := by
  rw [inputs, getElem?_modify, inputs]
  split <;> simp [Function.comp_def]

@[simp] theorem usageStore_kill :
    (g.modify i ({ · with alive := false })).usageStore j = g.usageStore j := by
  rw [usageStore, getElem?_modify, usageStore]
  split <;> simp [Function.comp_def]

@[simp] theorem isAlive_push (n : Node α) :
    (g.push n).isAlive j = if j = g.nodes.size then n.alive else g.isAlive j := by
  rw [isAlive, push, isAlive]
  simp only [touch, Array.getElem?_push]
  split <;> simp

@[simp] theorem inputs_push (n : Node α) :
    (g.push n).inputs j = if j = g.nodes.size then n.inputs else g.inputs j := by
  rw [inputs, push, inputs]
  simp only [touch, Array.getElem?_push]
  split <;> simp

@[simp] theorem label?_push (n : Node α) :
    (g.push n).label? j = if j = g.nodes.size then some n.label else g.label? j := by
  rw [label?, push, label?]
  simp only [touch, Array.getElem?_push]
  split <;> simp

/-- The usages of a node that is not there yet are those of one that was just added: none. -/
theorem usageStore_push (label : α) (inputs : List (Option NodeId)) :
    (g.push { label, inputs }).usageStore j = g.usageStore j := by
  rw [usageStore, push, usageStore]
  simp only [touch, Array.getElem?_push]
  split
  · next hj => simp [hj]
  · rfl

/-! ## What the usage lists count -/

/-- For a node and a user, a number of entries. -/
abbrev Tally := NodeId → NodeId → Nat

/-- The usage lists are packed, and count what a tally says. -/
structure Records (g : Graph α) (f : Tally) : Prop where
  packed : ∀ a, (g.usageStore a).Packed
  count_eq : ∀ a b, (g.usages a).count b = f a b

theorem Records.of_usageStore {f : Tally} (h : g.Records f)
    (same : ∀ a, g'.usageStore a = g.usageStore a) : g'.Records f where
  packed := fun a => same a ▸ h.packed a
  count_eq := fun a b => by rw [usages, same, ← usages, h.count_eq]

/-- The slots of a live user that hold a node. -/
def slots (g : Graph α) : Tally := fun a b => if g.isAlive b then (g.inputs b).count (some a) else 0

namespace Tally

/-- One entry more for each of some inputs of a user. -/
def plus (xs : List NodeId) (u : NodeId) (f : Tally) : Tally :=
  fun a b => f a b + if b = u then xs.count a else 0

/-- One entry less for each of some inputs of a user. -/
def minus (xs : List NodeId) (u : NodeId) (f : Tally) : Tally :=
  fun a b => f a b - if b = u then xs.count a else 0

@[simp] theorem plus_nil : plus [] u = id := by
  funext f a b
  simp [plus]

@[simp] theorem minus_nil : minus [] u = id := by
  funext f a b
  simp [minus]

theorem plus_plus (xs ys : List NodeId) (f : Tally) : plus ys u (plus xs u f) = plus (xs ++ ys) u f := by
  funext a b
  simp only [plus, List.count_append]
  split <;> omega

theorem minus_minus (xs ys : List NodeId) (f : Tally) :
    minus ys u (minus xs u f) = minus (xs ++ ys) u f := by
  funext a b
  simp only [minus, List.count_append]
  split <;> omega

end Tally

/-- A step that changes usage lists only. What they record changes by `φ`. -/
structure Bookkeeping (g g' : Graph α) (φ : Tally → Tally) : Prop where
  size_eq : g'.nodes.size = g.nodes.size
  isAlive_eq : ∀ i, g'.isAlive i = g.isAlive i
  inputs_eq : ∀ i, g'.inputs i = g.inputs i
  records : ∀ f, g.Records f → g'.Records (φ f)

namespace Bookkeeping

variable {φ ψ : Tally → Tally}

theorem refl (g : Graph α) : Bookkeeping g g id := ⟨rfl, fun _ => rfl, fun _ => rfl, fun _ h => h⟩

theorem trans (h : Bookkeeping g g' φ) (h' : Bookkeeping g' g'' ψ) : Bookkeeping g g'' (ψ ∘ φ) where
  size_eq := h'.size_eq.trans h.size_eq
  isAlive_eq := fun i => (h'.isAlive_eq i).trans (h.isAlive_eq i)
  inputs_eq := fun i => (h'.inputs_eq i).trans (h.inputs_eq i)
  records := fun f hf => h'.records _ (h.records f hf)

theorem touch (g : Graph α) (i : NodeId) : Bookkeeping g (g.touch i) id :=
  ⟨rfl, fun _ => rfl, fun _ => rfl, fun _ h => h.of_usageStore fun _ => rfl⟩

theorem touchIfUnused (g : Graph α) (i : NodeId) : Bookkeeping g (g.touchIfUnused i) id := by
  unfold Graph.touchIfUnused
  split
  · exact touch g i
  · exact refl g

theorem modifyUsages {f : Usages → Usages} (hx : x < g.nodes.size)
    (packed : (g.usageStore x).Packed → (f (g.usageStore x)).Packed)
    (other : ∀ (t : Tally) a b, a ≠ x → φ t a b = t a b)
    (count : ∀ (t : Tally) b, (g.usageStore x).Packed → (∀ b, (g.usages x).count b = t x b) →
      (f (g.usageStore x)).toList.count b = φ t x b) :
    Bookkeeping g (g.modifyUsages x f) φ where
  size_eq := Array.size_modify
  isAlive_eq := fun i => isAlive_modifyUsages f
  inputs_eq := fun i => inputs_modifyUsages f
  records := by
    intro t ht
    constructor
    · intro a
      rw [usageStore_modifyUsages f hx]
      split
      · exact packed (ht.packed x)
      · exact ht.packed a
    · intro a b
      rw [usages, usageStore_modifyUsages f hx]
      split
      · next h => rw [h, count t b (ht.packed x) (ht.count_eq x)]
      · next h => rw [other t a b h, ← ht.count_eq, usages]

theorem addUsage (hx : x < g.nodes.size) : Bookkeeping g (g.addUsage x u) (.plus [x] u) := by
  apply modifyUsages hx
  · exact fun h => (h.add u).1
  · intro t a b ha
    simp [Tally.plus, Ne.symm ha]
  · intro t b h ht
    rw [(h.add u).2, List.count_append, Tally.plus, ← ht, usages]
    simp [List.count_singleton, @eq_comm _ u]

theorem takeUsage {f : Usages → Usages} (hx : x < g.nodes.size)
    (taken : (g.usageStore x).Packed → (f (g.usageStore x)).Packed ∧
      (f (g.usageStore x)).toList.Perm ((g.usageStore x).toList.erase u)) :
    Bookkeeping g (g.modifyUsages x f) (.minus [x] u) := by
  apply modifyUsages hx
  · exact fun h => (taken h).1
  · intro t a b ha
    simp [Tally.minus, Ne.symm ha]
  · intro t b h ht
    rw [(taken h).2.count_eq, List.count_erase, Tally.minus, ← ht, usages]
    simp [@eq_comm _ u]

theorem removeUsage (hx : x < g.nodes.size) : Bookkeeping g (g.removeUsage x u) (.minus [x] u) :=
  takeUsage hx fun h => h.remove u

theorem foldl {s : Graph α → NodeId → Graph α} {φ : List NodeId → Tally → Tally}
    (nil : φ [] = id) (cons : ∀ x xs, φ xs ∘ φ [x] = φ (x :: xs))
    (step : ∀ (g : Graph α) (x : NodeId), x < g.nodes.size → Bookkeeping g (s g x) (φ [x]))
    (xs : List NodeId) (hxs : ∀ x ∈ xs, x < g.nodes.size) : Bookkeeping g (xs.foldl s g) (φ xs) := by
  induction xs generalizing g with
  | nil =>
    rw [nil]
    exact refl g
  | cons x xs ih =>
    rw [List.forall_mem_cons] at hxs
    have first := step g x hxs.1
    rw [List.foldl_cons, ← cons]
    exact first.trans (ih fun y hy => first.size_eq ▸ hxs.2 y hy)

theorem addAll {s : Graph α → NodeId → Graph α}
    (step : ∀ (g : Graph α) (x : NodeId), x < g.nodes.size → Bookkeeping g (s g x) (.plus [x] u))
    (xs : List NodeId) (hxs : ∀ x ∈ xs, x < g.nodes.size) :
    Bookkeeping g (xs.foldl s g) (.plus xs u) :=
  foldl (φ := fun xs => Tally.plus xs u) Tally.plus_nil
    (fun x xs => funext (Tally.plus_plus [x] xs)) step xs hxs

theorem releaseInputs (hi : ∀ x ∈ g.operands i, x < g.nodes.size) :
    Bookkeeping g (g.releaseInputs i) (.minus (g.operands i) i) :=
  foldl (φ := fun xs => Tally.minus xs i) Tally.minus_nil
    (fun x xs => funext (Tally.minus_minus [x] xs))
    (fun _ x hx => (removeUsage hx).trans (touchIfUnused _ x)) _ hi

theorem moveUsage {old new : Option NodeId} (hold : ∀ x ∈ old, x < g.nodes.size)
    (hnew : ∀ x ∈ new, x < g.nodes.size) (hne : old ≠ new) :
    Bookkeeping g (g.moveUsage i old new) (.plus new.toList i ∘ .minus old.toList i) := by
  rw [Graph.moveUsage, if_neg hne]
  cases old with
  | none =>
    cases new with
    | none => exact absurd rfl hne
    | some y => simpa [Function.comp_def] using (touch g i).trans (addUsage (hnew y rfl))
  | some x =>
    have removed := (removeUsage (u := i) (hold x rfl)).trans (touch _ i)
    cases new with
    | none => simpa [Function.comp_def] using removed.trans (touchIfUnused _ x)
    | some y =>
      have added := removed.trans (addUsage (u := i) (removed.size_eq ▸ hnew y rfl))
      simpa [Function.comp_def] using added.trans (touchIfUnused _ x)

end Bookkeeping

/-! ## Labels and slots that stay -/

/-- Only usages, and what was touched or deleted, may differ. -/
structure SameNodes (g g' : Graph α) : Prop where
  label : ∀ j, g'.label? j = g.label? j
  inputs : ∀ j, g'.inputs j = g.inputs j

namespace SameNodes

theorem refl (g : Graph α) : SameNodes g g := ⟨fun _ => rfl, fun _ => rfl⟩

theorem trans (h : SameNodes g g') (h' : SameNodes g' g'') : SameNodes g g'' where
  label j := (h'.label j).trans (h.label j)
  inputs j := (h'.inputs j).trans (h.inputs j)

theorem foldl {β : Type} {step : Graph α → β → Graph α} (h : ∀ g b, SameNodes g (step g b))
    (l : List β) (g : Graph α) : SameNodes g (l.foldl step g) := by
  induction l generalizing g with
  | nil => exact refl g
  | cons b l ih => exact (h g b).trans (ih _)

theorem modify {f : Node α → Node α} (hlabel : ∀ n, (f n).label = n.label)
    (hinputs : ∀ n, (f n).inputs = n.inputs) (g : Graph α) (i : NodeId) :
    SameNodes g (g.modify i f) where
  label j := by
    rw [label?, getElem?_modify, label?]
    split <;> simp [Function.comp_def, hlabel]
  inputs j := by
    rw [Graph.inputs, getElem?_modify, Graph.inputs]
    split <;> simp [Function.comp_def, hinputs]

theorem touch (g : Graph α) (i : NodeId) : SameNodes g (g.touch i) := ⟨fun _ => rfl, fun _ => rfl⟩

theorem settle (g : Graph α) : SameNodes g g.settle := ⟨fun _ => rfl, fun _ => rfl⟩

theorem touchAll (g : Graph α) (l : List NodeId) : SameNodes g (g.touchAll l) := foldl touch l g

theorem touchIfUnused (g : Graph α) (i : NodeId) : SameNodes g (g.touchIfUnused i) := by
  unfold Graph.touchIfUnused
  split
  · exact touch g i
  · exact refl g

theorem modifyUsages (g : Graph α) (i : NodeId) (f : Usages → Usages) :
    SameNodes g (g.modifyUsages i f) := by
  apply modify <;> exact fun _ => rfl

theorem releaseInputs (g : Graph α) (i : NodeId) : SameNodes g (g.releaseInputs i) :=
  foldl (fun g x => (modifyUsages g x _).trans (touchIfUnused _ x)) _ g

theorem delete (g : Graph α) (i : NodeId) : SameNodes g (g.delete i) := by
  refine (releaseInputs g i).trans ?_
  apply modify <;> exact fun _ => rfl

theorem elim (o : Option NodeId) {step : NodeId → Graph α} (h : ∀ x, SameNodes g (step x)) :
    SameNodes g (o.elim g step) := by
  cases o with
  | none => exact refl g
  | some x => exact h x

theorem moveUsage (g : Graph α) (i : NodeId) (old new : Option NodeId) :
    SameNodes g (g.moveUsage i old new) := by
  unfold Graph.moveUsage
  split
  · exact refl g
  · have htaken := (elim old fun x => modifyUsages g x (·.remove i)).trans (touch _ i)
    have hgiven := htaken.trans (elim new fun x => modifyUsages _ x (·.add i))
    exact hgiven.trans (elim old fun x => touchIfUnused _ x)

end SameNodes

end CompilerKit.Graph
