import CompilerKit.Expression.Term
import CompilerKit.Proofs.FloatingPoint.Equality
import CompilerKit.Proofs.Graph.Duplicates

/-! # Equal trees are one node

A node that is asked for is found if the graph has it: a leaf in the table, another one among the users of its
least used input. So a graph into which trees are only inserted never has two nodes with equal labels and the
same inputs (`Shared`), and two trees give the same node exactly if they agree.
-/

namespace CompilerKit

/-! ## Equal labels -/

namespace Binary

theorem agrees_iff (a b : Binary) : a.agrees b = true ↔
    (∃ x y p q, a = either x y p ∧ b = either x y q ∧ p.beq q = true) ∨
      a = b ∧ ∀ x y p, a ≠ either x y p := by
  fun_cases agrees a b
  case case1 x y p z w q => grind
  case case2 hne =>
    rw [decide_eq_true_eq]
    grind

theorem agrees_symm {a b : Binary} (h : a.agrees b = true) : b.agrees a = true := by
  rw [agrees_iff] at h ⊢
  rcases h with ⟨x, y, p, q, rfl, rfl, hp⟩ | ⟨rfl, hne⟩
  · exact Or.inl ⟨x, y, q, p, rfl, rfl, FloatingPoint.Double.beq_symm hp⟩
  · exact Or.inr ⟨rfl, hne⟩

theorem agrees_trans {a b c : Binary} (h : a.agrees b = true) (h' : b.agrees c = true) : a.agrees c = true := by
  rw [agrees_iff] at h h' ⊢
  rcases h with ⟨x, y, p, q, rfl, rfl, hp⟩ | ⟨rfl, hne⟩
  · rcases h' with ⟨_, _, _, r, heq, rfl, hr⟩ | ⟨-, hne⟩
    · obtain ⟨rfl, rfl, rfl⟩ := either.inj heq
      exact Or.inl ⟨x, y, p, r, rfl, rfl, FloatingPoint.Double.beq_trans hp hr⟩
    · exact absurd rfl (hne x y q)
  · exact h'

end Binary

namespace Op

theorem agrees_iff (a b : Op) : a.agrees b = true ↔
    (∃ op op', a = binary op ∧ b = binary op' ∧ op.agrees op' = true) ∨ a = b ∧ ∀ op, a ≠ binary op := by
  fun_cases agrees a b
  case case1 op op' => grind
  case case2 hne =>
    rw [decide_eq_true_eq]
    grind

theorem agrees_symm {a b : Op} (h : a.agrees b = true) : b.agrees a = true := by
  rw [agrees_iff] at h ⊢
  rcases h with ⟨op, op', rfl, rfl, hop⟩ | ⟨rfl, hne⟩
  · exact Or.inl ⟨op', op, rfl, rfl, Binary.agrees_symm hop⟩
  · exact Or.inr ⟨rfl, hne⟩

theorem agrees_trans {a b c : Op} (h : a.agrees b = true) (h' : b.agrees c = true) : a.agrees c = true := by
  rw [agrees_iff] at h h' ⊢
  rcases h with ⟨op, op', rfl, rfl, hop⟩ | ⟨rfl, hne⟩
  · rcases h' with ⟨_, op'', heq, rfl, hop'⟩ | ⟨-, hne⟩
    · obtain rfl := binary.inj heq
      exact Or.inl ⟨op, op'', rfl, rfl, Binary.agrees_trans hop hop'⟩
    · exact absurd rfl (hne op')
  · exact h'

end Op

theorem Label.beq_iff (a b : Label) : (a == b) = true ↔ a.op.agrees b.op = true ∧ a.stamp = b.stamp := by
  rw [← decide_eq_true_iff (p := a.stamp = b.stamp), ← Bool.and_eq_true_iff]
  rfl

instance : PartialEquivBEq Label where
  symm {a b} h := by
    rw [Label.beq_iff] at h ⊢
    exact ⟨Op.agrees_symm h.1, h.2.symm⟩
  trans {a b c} h h' := by
    rw [Label.beq_iff] at h h' ⊢
    exact ⟨Op.agrees_trans h.1 h'.1, h.2.trans h'.2⟩

namespace Graph

section Nodes

/-! ## Nodes that are asked for -/

variable {α : Type} {g : Graph α} {label : α} {l : List (Option NodeId)} {i j : NodeId}

theorem sameNodes_add (label : α) (l : List (Option NodeId)) :
    SameNodes (g.push { label, inputs := l }) (g.add label l).1 :=
  .foldl (fun g _ => (SameNodes.touch g _).trans (.modifyUsages _ _ _)) _ _

theorem isAlive_add (label : α) (l : List (Option NodeId)) :
    (g.add label l).1.isAlive j = if j = g.nodes.size then true else g.isAlive j := by
  rw [← isAlive_push (g := g) { label, inputs := l }, add]
  refine List.foldlRecOn _ _ (motive := fun g' : Graph α => g'.isAlive j = _) rfl fun g' hg' x _ => ?_
  rw [addUsage, isAlive_modifyUsages]
  exact hg'

variable [BEq α]

/-- No two live nodes have equal labels and the same inputs. All live leaves are in the table. -/
structure Shared (g : Graph α) : Prop extends g.Consistent where
  eq_of_beq : ∀ i j, g.isAlive i → g.isAlive j → ∀ a b, g.label? i = some a → g.label? j = some b →
    (a == b) = true → g.inputs i = g.inputs j → i = j
  mem_leaves : ∀ i a, g.isAlive i → g.label? i = some a → g.inputs i = [] → (a, i) ∈ g.leaves

namespace Shared

variable (h : g.Shared)

include h

/-- A node that is not found is not there, if it is a leaf or has an input. -/
theorem not_holds_of_findDuplicate? (hl : l = [] ∨ ∃ x, some x ∈ l)
    (hnone : g.findDuplicate? none label l = none) (i : NodeId) : ¬g.Holds i label l := by
  intro hi
  rcases hl with rfl | ⟨x, hx⟩
  · obtain ⟨halive, ⟨a, ha, hbeq⟩, hinputs⟩ := hi
    have hleaf : g.findLeaf? label = none := by
      cases hleaf : g.findLeaf? label with
      | none => rfl
      | some k => simp [findDuplicate?, hleaf] at hnone
    have hnot := List.find?_eq_none.mp (Option.map_eq_none_iff.mp hleaf) _ (h.mem_leaves i a halive ha hinputs)
    exact hnot (by simp [isLeaf, halive, hinputs, ha, hbeq])
  · obtain ⟨j, hj⟩ := h.usagesExact.exists_findDuplicate? (by simp) hx (Option.some_ne_none i) hi
    cases hnone.symm.trans hj

theorem holds_unique (hlabel : (label == label) = true) :
    (g.unique label l).1.Holds (g.unique label l).2 label l ∧
      ∀ j label' l', g.Holds j label' l' → (g.unique label l).1.Holds j label' l' := by
  rcases g.unique_cases label l with ⟨j, hj, hunique⟩ | ⟨-, leaves, hunique, -⟩
  · rw [hunique]
    exact ⟨(h.usagesExact.holds_of_findDuplicate? hj).2, fun _ _ _ hj => hj⟩
  · rw [hunique]
    have hsame := sameNodes_add (g := g) label l
    refine ⟨⟨?_, ⟨label, ?_, hlabel⟩, ?_⟩, fun j label' l' hj => ?_⟩
    · exact (isAlive_add label l).trans (if_pos rfl)
    · exact (hsame.label _).trans ((label?_push ..).trans (if_pos rfl))
    · exact (hsame.inputs _).trans ((inputs_push ..).trans (if_pos rfl))
    · have hne := (lt_size_of_isAlive hj.alive).ne
      refine ⟨?_, ?_, ?_⟩
      · exact (isAlive_add label l).trans ((if_neg hne).trans hj.alive)
      · rw [show ({ (g.add label l).1 with leaves } : Graph α).label? j = g.label? j from
          (hsame.label j).trans ((label?_push ..).trans (if_neg hne))]
        exact hj.label
      · exact (hsame.inputs j).trans ((inputs_push ..).trans ((if_neg hne).trans hj.inputs))

theorem unique [PartialEquivBEq α] (hl : l = [] ∨ ∃ x, some x ∈ l) (halive : ∀ a, some a ∈ l → g.isAlive a) :
    (g.unique label l).1.Shared := by
  have hconsistent := (h.toConsistent.unique label halive).consistent
  rcases g.unique_cases label l with ⟨j, hj, hunique⟩ | ⟨hnone, leaves, hunique, hleaves, hnew⟩
  · rw [hunique]
    exact h
  · rw [hunique] at hconsistent ⊢
    -- An old node is none that was looked for in vain.
    have hold (j : NodeId) (b : α) (hj : g.isAlive j) (hb : g.label? j = some b) (hbeq : (b == label) = true) :
        g.inputs j ≠ l := fun heq => h.not_holds_of_findDuplicate? hl hnone j ⟨hj, ⟨b, hb, hbeq⟩, heq⟩
    have halive (j : NodeId) : ({ (g.add label l).1 with leaves } : Graph α).isAlive j =
        if j = g.nodes.size then true else g.isAlive j := isAlive_add label l
    have hlabel (j : NodeId) : ({ (g.add label l).1 with leaves } : Graph α).label? j =
        if j = g.nodes.size then some label else g.label? j :=
      ((sameNodes_add label l).label j).trans (label?_push ..)
    have hinputs (j : NodeId) : ({ (g.add label l).1 with leaves } : Graph α).inputs j =
        if j = g.nodes.size then l else g.inputs j :=
      ((sameNodes_add label l).inputs j).trans (inputs_push ..)
    refine ⟨hconsistent, fun i j hi hj a b ha hb hab heq => ?_, fun i a hi ha hempty => ?_⟩
    · rw [halive] at hi hj
      rw [hlabel] at ha hb
      rw [hinputs, hinputs] at heq
      by_cases hi' : i = g.nodes.size
      · by_cases hj' : j = g.nodes.size
        · rw [hi', hj']
        · rw [if_pos hi'] at ha heq
          rw [if_neg hj'] at hj hb heq
          obtain rfl := Option.some.inj ha
          exact absurd heq.symm (hold j b hj hb (BEq.symm hab))
      · rw [if_neg hi'] at hi ha heq
        by_cases hj' : j = g.nodes.size
        · rw [if_pos hj'] at hb heq
          obtain rfl := Option.some.inj hb
          exact absurd heq (hold i a hi ha hab)
        · rw [if_neg hj'] at hj hb heq
          exact h.eq_of_beq i j hi hj a b ha hb hab heq
    · rw [halive] at hi
      rw [hlabel] at ha
      rw [hinputs] at hempty
      by_cases hi' : i = g.nodes.size
      · rw [if_pos hi'] at ha hempty
        rw [← Option.some.inj ha, hi']
        exact hnew hempty
      · rw [if_neg hi'] at hi ha hempty
        exact hleaves (h.mem_leaves i a hi ha hempty)

end Shared

end Nodes

end Graph

/-! ## Trees -/

def Op.labelled (op : Op) (stamp : Stamp) : Label := { op, stamp }

namespace Tree

mutual

/-- Trees with equal labels and empty slots in the same places. -/
def agrees : Tree → Tree → Bool
  | make op s xs, make op' s' ys => op.labelled s == op'.labelled s' && allAgree xs ys
  | _, _ => false

def allAgree : List (Option Tree) → List (Option Tree) → Bool
  | [], [] => true
  | none :: xs, none :: ys => allAgree xs ys
  | some x :: xs, some y :: ys => x.agrees y && allAgree xs ys
  | _, _ => false

end

mutual

/-- A tree of nodes that have no place in the flow of control, leaves or with an input, and labels that equal
themselves: only a probability that is not a number does not. -/
def isSharable : Tree → Bool
  | node _ => false
  | make op _ inputs =>
    op.isFloating && op.agrees op && (inputs.isEmpty || inputs.any Option.isSome) && areSharable inputs

def areSharable : List (Option Tree) → Bool
  | [] => true
  | none :: rest => areSharable rest
  | some x :: rest => x.isSharable && areSharable rest

end

end Tree

namespace Graph

variable {g g' : Graph Label} {i j : NodeId} {t T U : Tree} {xs Xs ys : List (Option Tree)}
  {l m : List (Option NodeId)}

mutual

/-- The node is the root of the tree in the graph. -/
def Stands (g : Graph Label) : Tree → NodeId → Prop
  | .node _, _ => False
  | .make op s inputs, i => ∃ l, g.AllStand inputs l ∧ g.Holds i (op.labelled s) l

def AllStand (g : Graph Label) : List (Option Tree) → List (Option NodeId) → Prop
  | [], l => l = []
  | none :: rest, l => ∃ l', l = none :: l' ∧ g.AllStand rest l'
  | some x :: rest, l => ∃ a l', l = some a :: l' ∧ g.Stands x a ∧ g.AllStand rest l'

end

mutual

/-- The first tree is the second one with nodes of the graph in the place of some parts. -/
inductive Abbreviates (g : Graph Label) : Tree → Tree → Prop
  | node {i : NodeId} {T : Tree} : g.Stands T i → Abbreviates g (.node i) T
  | make (op : Op) (s : Stamp) {xs Xs : List (Option Tree)} :
    AllAbbreviate g xs Xs → Abbreviates g (.make op s xs) (.make op s Xs)

inductive AllAbbreviate (g : Graph Label) : List (Option Tree) → List (Option Tree) → Prop
  | nil : AllAbbreviate g [] []
  | none {xs Xs : List (Option Tree)} : AllAbbreviate g xs Xs → AllAbbreviate g (none :: xs) (none :: Xs)
  | some {x X : Tree} {xs Xs : List (Option Tree)} :
    Abbreviates g x X → AllAbbreviate g xs Xs → AllAbbreviate g (some x :: xs) (some X :: Xs)

end

/-- Nothing that the graph had was lost. -/
def Retains (g g' : Graph Label) : Prop := ∀ i label l, g.Holds i label l → g'.Holds i label l

namespace Retains

mutual

theorem stands (h : Retains g g') : (T : Tree) → {i : NodeId} → g.Stands T i → g'.Stands T i
  | .node _, _, hT => hT
  | .make _ _ inputs, _, ⟨l, hl, hi⟩ => ⟨l, allStand h inputs hl, h _ _ _ hi⟩

theorem allStand (h : Retains g g') :
    (xs : List (Option Tree)) → {l : List (Option NodeId)} → g.AllStand xs l → g'.AllStand xs l
  | [], _, hl => hl
  | none :: rest, _, ⟨l', hl, hrest⟩ => ⟨l', hl, allStand h rest hrest⟩
  | some x :: rest, _, ⟨a, l', hl, hx, hrest⟩ => ⟨a, l', hl, stands h x hx, allStand h rest hrest⟩

end

mutual

theorem abbreviates (h : Retains g g') {t T : Tree} : g.Abbreviates t T → g'.Abbreviates t T
  | .node hi => .node (h.stands _ hi)
  | .make op s hxs => .make op s (allAbbreviate h hxs)

theorem allAbbreviate (h : Retains g g') {xs Xs : List (Option Tree)} :
    g.AllAbbreviate xs Xs → g'.AllAbbreviate xs Xs
  | .nil => .nil
  | .none hxs => .none (allAbbreviate h hxs)
  | .some hx hxs => .some (abbreviates h hx) (allAbbreviate h hxs)

end

theorem trans {g'' : Graph Label} (h : Retains g g') (h' : Retains g' g'') : Retains g g'' :=
  fun i label l hi => h' i label l (h i label l hi)

end Retains

theorem Stands.alive (h : g.Stands T i) : g.isAlive i := by
  cases T with
  | node _ => exact h.elim
  | make op s inputs =>
    obtain ⟨l, -, hi⟩ := h
    exact hi.alive

namespace AllStand

theorem alive (h : g.AllStand xs l) : ∀ a, some a ∈ l → g.isAlive a := by
  induction xs generalizing l with
  | nil =>
    obtain rfl := h
    simp
  | cons x xs ih =>
    cases x with
    | none =>
      obtain ⟨l', rfl, hrest⟩ := h
      simpa using ih hrest
    | some x =>
      obtain ⟨a, l', rfl, hx, hrest⟩ := h
      simpa using ⟨hx.alive, ih hrest⟩

theorem map_isSome (h : g.AllStand xs l) : l.map Option.isSome = xs.map Option.isSome := by
  induction xs generalizing l with
  | nil =>
    obtain rfl := h
    rfl
  | cons x xs ih =>
    cases x with
    | none =>
      obtain ⟨l', rfl, hrest⟩ := h
      simp [ih hrest]
    | some x =>
      obtain ⟨a, l', rfl, hx, hrest⟩ := h
      simp [ih hrest]

/-- Slots have nodes in them, unless there are none. -/
theorem eq_nil_or_exists (h : g.AllStand xs l) (hxs : (xs.isEmpty || xs.any Option.isSome) = true) :
    l = [] ∨ ∃ x, some x ∈ l := by
  have hmap := h.map_isSome
  rw [Bool.or_eq_true, List.isEmpty_iff] at hxs
  rcases hxs with rfl | hany
  · exact Or.inl h
  · right
    obtain ⟨o, ho, hsome⟩ := List.any_eq_true.mp hany
    have hmem : true ∈ l.map Option.isSome := hmap ▸ List.mem_map.mpr ⟨o, ho, hsome⟩
    obtain ⟨o', ho', hsome'⟩ := List.mem_map.mp hmem
    obtain ⟨x, rfl⟩ := Option.isSome_iff_exists.mp hsome'
    exact ⟨x, ho'⟩

end AllStand

namespace Shared

theorem eq_iff_of_holds (hg : g.Shared) {label label' : Label} (h : g.Holds i label l)
    (h' : g.Holds j label' m) : i = j ↔ (label == label') = true ∧ l = m := by
  obtain ⟨hi, ⟨a, ha, hbeq⟩, rfl⟩ := h
  obtain ⟨hj, ⟨b, hb, hbeq'⟩, rfl⟩ := h'
  constructor
  · rintro rfl
    obtain rfl := Option.some.inj (ha.symm.trans hb)
    exact ⟨BEq.trans (BEq.symm hbeq) hbeq', rfl⟩
  · rintro ⟨hlabel, hinputs⟩
    exact hg.eq_of_beq i j hi hj a b ha hb (BEq.trans (BEq.trans hbeq hlabel) (BEq.symm hbeq')) hinputs

mutual

/-- Trees have the same root exactly if they agree. -/
theorem eq_iff_agrees (hg : g.Shared) (T : Tree) {U : Tree} {i j : NodeId} (hT : g.Stands T i)
    (hU : g.Stands U j) : i = j ↔ T.agrees U = true := by
  match T, U with
  | .node _, _ => exact hT.elim
  | .make .., .node _ => exact hU.elim
  | .make op s xs, .make op' s' ys =>
    obtain ⟨l, hl, hi⟩ := hT
    obtain ⟨m, hm, hj⟩ := hU
    rw [hg.eq_iff_of_holds hi hj, Tree.agrees, Bool.and_eq_true, ← eq_iff_allAgree hg xs hl hm]

theorem eq_iff_allAgree (hg : g.Shared) (xs : List (Option Tree)) {ys : List (Option Tree)}
    {l m : List (Option NodeId)} (hl : g.AllStand xs l) (hm : g.AllStand ys m) :
    l = m ↔ Tree.allAgree xs ys = true := by
  match xs, ys with
  | [], [] => exact iff_of_true (hl.trans hm.symm) rfl
  | none :: xs, none :: ys =>
    obtain ⟨l, rfl, hl⟩ := hl
    obtain ⟨m, rfl, hm⟩ := hm
    rw [Tree.allAgree, ← eq_iff_allAgree hg xs hl hm, List.cons_inj_right]
  | some x :: xs, some y :: ys =>
    obtain ⟨a, l, rfl, hx, hl⟩ := hl
    obtain ⟨b, m, rfl, hy, hm⟩ := hm
    rw [Tree.allAgree, Bool.and_eq_true, ← eq_iff_agrees hg x hx hy, ← eq_iff_allAgree hg xs hl hm,
      List.cons.injEq, Option.some.injEq]
  | [], _ :: _ | _ :: _, [] | none :: _, some _ :: _ | some _ :: _, none :: _ =>
    -- The slots that are empty differ.
    refine iff_of_false (fun heq => ?_) (by simp [Tree.allAgree])
    have hmap := hl.map_isSome.symm.trans (heq ▸ hm.map_isSome)
    simp at hmap

end

end Shared

/-! ## Insertion -/

/-- An addition that loses and repeats nothing. -/
structure Adopts (g g' : Graph Label) : Prop where
  shared : g'.Shared
  retains : g.Retains g'

theorem Adopts.trans {g'' : Graph Label} (h : g.Adopts g') (h' : g'.Adopts g'') : g.Adopts g'' :=
  ⟨h'.shared, h.retains.trans h'.retains⟩

namespace Shared

theorem place (h : g.Shared) (op : Op) (s : Stamp) (hop : op.isFloating = true)
    (hself : op.agrees op = true) (hl : l = [] ∨ ∃ x, some x ∈ l) (halive : ∀ x, some x ∈ l → g.isAlive x) :
    g.Adopts (g.place op s l).1 ∧ (g.place op s l).1.Holds (g.place op s l).2 (op.labelled s) l := by
  have hlabel (source : Option Source) :
      (({ op, stamp := s, source } : Label) == { op, stamp := s, source }) = true :=
    (Label.beq_iff _ _).mpr ⟨hself, rfl⟩
  rw [Graph.place, if_pos hop]
  obtain ⟨hholds, hretains⟩ := h.holds_unique (l := l) (hlabel (g.takenSource op l))
  exact ⟨⟨h.unique hl halive, hretains⟩, ⟨hholds.alive, hholds.label, hholds.inputs⟩⟩

mutual

/-- What is inserted gives the root of the tree that it abbreviates. -/
theorem insertTree {g : Graph Label} (h : g.Shared) (t : Tree) {T : Tree} (hT : T.isSharable = true)
    (ht : g.Abbreviates t T) :
    g.Adopts (g.insertTree t).1 ∧ (g.insertTree t).1.Stands T (g.insertTree t).2 := by
  match t, ht with
  | .node i, .node hi => exact ⟨⟨h, fun _ _ _ hj => hj⟩, hi⟩
  | .make op s xs, .make _ _ hxs =>
    simp only [Tree.isSharable, Bool.and_eq_true] at hT
    obtain ⟨⟨⟨hop, hself⟩, hslots⟩, hXs⟩ := hT
    obtain ⟨hadopts, hstand⟩ := insertInputs h xs hXs hxs
    obtain ⟨hplace, hholds⟩ :=
      hadopts.shared.place op s hop hself (hstand.eq_nil_or_exists hslots) hstand.alive
    exact ⟨hadopts.trans hplace, _, hplace.retains.allStand _ hstand, hholds⟩

theorem insertInputs {g : Graph Label} (h : g.Shared) (xs : List (Option Tree)) {Xs : List (Option Tree)}
    (hXs : Tree.areSharable Xs = true) (hxs : g.AllAbbreviate xs Xs) :
    g.Adopts (g.insertInputs xs).1 ∧ (g.insertInputs xs).1.AllStand Xs (g.insertInputs xs).2 := by
  match xs, hxs with
  | [], .nil => exact ⟨⟨h, fun _ _ _ hj => hj⟩, rfl⟩
  | none :: xs, .none hxs =>
    rw [Tree.areSharable] at hXs
    obtain ⟨hadopts, hstand⟩ := insertInputs h xs hXs hxs
    exact ⟨hadopts, _, rfl, hstand⟩
  | some x :: xs, .some hx hxs =>
    rw [Tree.areSharable, Bool.and_eq_true] at hXs
    obtain ⟨hadopts, hroot⟩ := insertTree h x hXs.1 hx
    obtain ⟨hadopts', hstand⟩ := insertInputs hadopts.shared xs hXs.2 (hadopts.retains.allAbbreviate hxs)
    exact ⟨hadopts.trans hadopts', _, _, rfl, hadopts'.retains.stands _ hroot, hstand⟩

end

end Shared

/-- A graph that was made by inserting trees. The list has them and the nodes that they gave, the last one
first. -/
inductive Built : Graph Label → List (Tree × NodeId) → Prop
  | empty : Built empty []
  | insert {g : Graph Label} {inserted : List (Tree × NodeId)} {t T : Tree} : Built g inserted →
    g.Abbreviates t T → T.isSharable = true → Built (g.insertTree t).1 ((T, (g.insertTree t).2) :: inserted)

variable {inserted : List (Tree × NodeId)}

theorem Built.stands (h : Built g inserted) : g.Shared ∧ ∀ e ∈ inserted, g.Stands e.1 e.2 := by
  induction h with
  | empty =>
    refine ⟨⟨consistent_empty, fun i j hi => ?_, fun i a hi => ?_⟩, nofun⟩
    · cases hi
    · cases hi
  | insert _ ht hT ih =>
    obtain ⟨hadopts, hroot⟩ := ih.1.insertTree _ hT ht
    refine ⟨hadopts.shared, List.forall_mem_cons.mpr ⟨hroot, fun e he => ?_⟩⟩
    exact hadopts.retains.stands _ (ih.2 e he)

/-- Of the trees that were inserted, two have the same node exactly if they agree, and that node is the root of
both. No two live nodes have equal labels and the same inputs. -/
theorem inserted_trees_shared (h : Built g inserted) :
    (∀ T i, (T, i) ∈ inserted → g.Stands T i) ∧
    (∀ T i U j, (T, i) ∈ inserted → (U, j) ∈ inserted → (i = j ↔ T.agrees U = true)) ∧
    ∀ i j, g.isAlive i → g.isAlive j → ∀ a b, g.label? i = some a → g.label? j = some b → (a == b) = true →
      g.inputs i = g.inputs j → i = j := by
  obtain ⟨hshared, hstands⟩ := h.stands
  refine ⟨fun T i hT => hstands _ hT, fun T i U j hT hU => ?_, hshared.eq_of_beq⟩
  exact hshared.eq_iff_agrees T (hstands _ hT) (hstands _ hU)

def sumOfParameters : Term :=
  let parameter (i : Int) : Term := .leaf (.parameter i) (.int (.full 32))
  .binary (.arith .add) (.int (.full 32)) (parameter 0) (parameter 1)

def productOf (x y : Option Tree) : Tree := .make (.binary (.arith .mul)) (.int (.full 32)) [x, y]

/-- A sum, its product with itself, where one factor is the node of the sum, the same product as a tree, and a
product without the second factor. -/
theorem inserted_trees_shared_product :
    let sum := sumOfParameters.tree
    let square := productOf sum sum
    let half := productOf sum none
    let first := empty.insertTree sum
    let second := first.1.insertTree (productOf (some (.node first.2)) sum)
    let third := second.1.insertTree square
    let fourth := third.1.insertTree half
    Built fourth.1 [(half, fourth.2), (square, third.2), (square, second.2), (sum, first.2)] ∧
      fourth.1.Stands square third.2 ∧ third.2 = second.2 ∧ second.2 ≠ first.2 ∧ fourth.2 ≠ third.2 := by
  intro sum square half first second third fourth
  have hsum {g : Graph Label} : g.Abbreviates sum sum :=
    .make _ _ (.some (.make _ _ .nil) (.some (.make _ _ .nil) .nil))
  have hproduct {g : Graph Label} {t : Tree} (ht : g.Abbreviates t sum) :
      g.Abbreviates (productOf t sum) square := .make _ _ (.some ht (.some hsum .nil))
  have hfirst : Built first.1 [(sum, first.2)] := .insert .empty hsum (by decide)
  have hnode : first.1.Stands sum first.2 := hfirst.stands.2 _ List.mem_cons_self
  have hsecond : Built second.1 [(square, second.2), (sum, first.2)] :=
    .insert hfirst (hproduct (.node hnode)) (by decide)
  have hthird : Built third.1 [(square, third.2), (square, second.2), (sum, first.2)] :=
    .insert hsecond (hproduct hsum) (by decide)
  have hfourth : Built fourth.1 [(half, fourth.2), (square, third.2), (square, second.2), (sum, first.2)] :=
    .insert hthird (.make _ _ (.some hsum (.none .nil))) (by decide)
  obtain ⟨hstands, hiff, -⟩ := inserted_trees_shared hfourth
  refine ⟨hfourth, hstands square third.2 (by simp), ?_, fun heq => ?_, fun heq => ?_⟩
  · exact (hiff square third.2 square second.2 (by simp) (by simp)).mpr (by decide)
  · have hagrees := (hiff square second.2 sum first.2 (by simp) (by simp)).mp heq
    exact absurd hagrees (by decide)
  · have hagrees := (hiff half fourth.2 square third.2 (by simp) (by simp)).mp heq
    exact absurd hagrees (by decide)

end Graph

end CompilerKit
