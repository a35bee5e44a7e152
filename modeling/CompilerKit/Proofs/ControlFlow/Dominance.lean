import CompilerKit.ControlFlow.Cfg
import CompilerKit.Proofs.Word

/-! # Dominance

A block dominates another one if every way from the start to the other passes through it. In a graph whose
blocks are in reverse post order, and where loops are entered through their headers only, ways without
back edges tell all about dominance. So the dominators of a block are the block and what its predecessors,
loop ends apart, have in common (`Reducible.dominates_iff`).
-/

namespace CompilerKit.ControlFlow

/-- The blocks on a way from the start to a block, the last one first. -/
inductive Path (edge : BlockId → BlockId → Prop) : BlockId → List BlockId → Prop
  | start : Path edge 0 [0]
  | step {p b : BlockId} {path : List BlockId} : Path edge p path → edge p b → Path edge b (b :: path)

namespace Path

variable {edge edge' : BlockId → BlockId → Prop} {a b : BlockId} {path : List BlockId}

theorem mem (h : Path edge b path) : b ∈ path := by
  cases h with
  | start => exact List.mem_cons_self
  | step _ _ => exact List.mem_cons_self

theorem zero_mem (h : Path edge b path) : 0 ∈ path := by
  induction h with
  | start => exact List.mem_cons_self
  | step _ _ ih => exact List.mem_cons_of_mem _ ih

theorem mono (hedge : ∀ p c, edge p c → edge' p c) (h : Path edge b path) : Path edge' b path := by
  induction h with
  | start => exact .start
  | step _ he ih => exact .step ih (hedge _ _ he)

theorem exists_suffix (h : Path edge b path) (ha : a ∈ path) : ∃ rest, Path edge a rest ∧ rest <:+ path := by
  induction h with
  | start =>
    obtain rfl := List.mem_singleton.mp ha
    exact ⟨[0], .start, List.suffix_refl _⟩
  | step hp he ih =>
    rcases List.mem_cons.mp ha with rfl | ha
    · exact ⟨_, .step hp he, List.suffix_refl _⟩
    · obtain ⟨rest, hrest, hsuffix⟩ := ih ha
      exact ⟨rest, hrest, hsuffix.trans (List.suffix_cons _ _)⟩

end Path

namespace Cfg

variable (g : Cfg)

def Edge (p b : BlockId) : Prop := b ∈ (g.block p).successors

instance (p b : BlockId) : Decidable (g.Edge p b) :=
  inferInstanceAs (Decidable (b ∈ (g.block p).successors))

/-- An edge that is no jump back. -/
def Forward (p b : BlockId) : Prop := g.Edge p b ∧ (g.block p).isLoopEnd = false

def Dominates (a b : BlockId) : Prop := ∀ path, Path g.Edge b path → a ∈ path

/-- Predecessors and successors tell of the same edges, which lead from blocks to blocks. -/
structure Linked : Prop where
  size_pos : 0 < g.size
  lt_size : ∀ p b : Nat, g.Edge p b → b < g.size
  mem_predecessors : ∀ p b, p ∈ (g.block b).predecessors ↔ g.Edge p b

/-- Blocks are in reverse post order: an edge leads to a later block, or from a loop end to the one
block that it goes back to, which dominates it. -/
structure Reducible : Prop extends g.Linked where
  reachable : ∀ b : Nat, b < g.size → ∃ path, Path g.Edge b path
  forward_or_back : ∀ p b : Nat, g.Edge p b →
    (g.block p).isLoopEnd = false ∧ p < b ∨
      (g.block p).isLoopEnd = true ∧ g.Dominates b p ∧ ∀ c, g.Edge p c → c = b

variable {g} {a b c : Nat}

theorem dominates_refl (b : Nat) : g.Dominates b b := fun _ h => h.mem

theorem zero_dominates (b : Nat) : g.Dominates 0 b := fun _ h => h.zero_mem

theorem dominates_zero_iff : g.Dominates a 0 ↔ a = 0 := by
  constructor
  · intro h
    exact List.mem_singleton.mp (h [0] .start)
  · rintro rfl
    exact dominates_refl 0

theorem Dominates.trans (hab : g.Dominates a b) (hbc : g.Dominates b c) : g.Dominates a c := by
  intro path hpath
  obtain ⟨rest, hrest, hsuffix⟩ := hpath.exists_suffix (hbc path hpath)
  exact hsuffix.subset (hab rest hrest)

theorem block_of_le (h : g.size ≤ b) : g.block b = default := by
  rw [block, Array.getD_eq_getD_getElem?, Array.getElem?_eq_none h, Option.getD_none]

theorem lt_size_of_edge {p : Nat} (h : g.Edge p b) : p < g.size := by
  by_contra hp
  rw [Edge, block_of_le (Nat.le_of_not_lt hp)] at h
  cases h

theorem exists_path (h : ∀ b < g.size, b ≠ 0 → ∃ p < b, g.Edge p b) (b : Nat) (hb : b < g.size) :
    ∃ path, Path g.Edge b path := by
  induction b using Nat.strong_induction_on with
  | _ b ih =>
    by_cases h0 : b = 0
    · subst h0
      exact ⟨[0], .start⟩
    · obtain ⟨p, hlt, hedge⟩ := h b hb h0
      obtain ⟨path, hpath⟩ := ih p hlt (hlt.trans hb)
      exact ⟨b :: path, .step hpath hedge⟩

section OfSuccessors

variable {blocks : List (List BlockId × FloatingPoint.Double × Option Nat × Bool)} {loops : List Loop}

theorem size_ofSuccessors : (ofSuccessors blocks loops).size = blocks.length := by
  simp [ofSuccessors, size]

theorem edge_ofSuccessors {p b : Nat} :
    (ofSuccessors blocks loops).Edge p b ↔ ∃ entry, blocks[p]? = some entry ∧ b ∈ entry.1 := by
  cases h : blocks[p]? with
  | none =>
    have hblock := block_of_le (g := ofSuccessors blocks loops)
      (size_ofSuccessors ▸ List.getElem?_eq_none_iff.mp h)
    rw [Edge, hblock]
    exact iff_of_false List.not_mem_nil (by simp)
  | some entry => simp [Edge, ofSuccessors, block, Array.getD_eq_getD_getElem?, h]

theorem mem_predecessors_ofSuccessors {p b : Nat} (hb : b < blocks.length) :
    p ∈ ((ofSuccessors blocks loops).block b).predecessors ↔ (ofSuccessors blocks loops).Edge p b := by
  have hpredecessors : ((ofSuccessors blocks loops).block b).predecessors =
      ((blocks.zipIdx.flatMap fun entry => entry.1.1.map fun s => (entry.2, s)).filter
        fun e => e.2 = b).map Prod.fst := by
    simp [ofSuccessors, block, Array.getD_eq_getD_getElem?, List.getElem?_eq_getElem hb]
  rw [hpredecessors, edge_ofSuccessors]
  constructor
  · intro h
    obtain ⟨⟨_, _⟩, he, rfl⟩ := List.mem_map.mp h
    obtain ⟨he, hb⟩ := List.mem_filter.mp he
    obtain ⟨⟨entry, i⟩, hentry, he⟩ := List.mem_flatMap.mp he
    obtain ⟨s, hs, heq⟩ := List.mem_map.mp he
    obtain ⟨rfl, rfl⟩ := Prod.mk.inj heq
    exact ⟨entry, List.mem_zipIdx_iff_getElem?.mp hentry, of_decide_eq_true hb ▸ hs⟩
  · rintro ⟨entry, hentry, hb⟩
    refine List.mem_map.mpr ⟨(p, b), List.mem_filter.mpr ⟨?_, by simp⟩, rfl⟩
    exact List.mem_flatMap.mpr
      ⟨(entry, p), List.mem_zipIdx_iff_getElem?.mpr hentry, List.mem_map_of_mem hb⟩

/-- Lists of successors make a graph if they name its blocks only. -/
theorem linked_ofSuccessors (hpos : 0 < blocks.length)
    (hlt : ∀ entry ∈ blocks, ∀ s ∈ entry.1, (s : Nat) < blocks.length) :
    (ofSuccessors blocks loops).Linked := by
  have hedge (p b : Nat) (h : (ofSuccessors blocks loops).Edge p b) : b < blocks.length := by
    obtain ⟨entry, hentry, hb⟩ := edge_ofSuccessors.mp h
    exact hlt entry (List.mem_of_getElem? hentry) b hb
  refine ⟨size_ofSuccessors ▸ hpos, fun p b h => size_ofSuccessors ▸ hedge p b h, fun p b => ?_⟩
  by_cases hb : b < blocks.length
  · exact mem_predecessors_ofSuccessors hb
  · rw [block_of_le (size_ofSuccessors ▸ Nat.le_of_not_lt hb)]
    exact iff_of_false (List.not_mem_nil) fun h => hb (hedge p b h)

end OfSuccessors

namespace Reducible

variable (hg : g.Reducible)

include hg

theorem lt_of_forward {p : Nat} (h : g.Forward p b) : p < b := by
  obtain ⟨he, hend⟩ := h
  rcases hg.forward_or_back p b he with ⟨-, hlt⟩ | ⟨hback, -⟩
  · exact hlt
  · rw [hend] at hback
    cases hback

/-- A way that jumps back has passed the block that it jumps to, so it can be made shorter. -/
theorem exists_forwardPath {path : List BlockId} (h : Path g.Edge b path) :
    ∃ rest, Path g.Forward b rest ∧ rest ⊆ path := by
  induction hn : path.length using Nat.strong_induction_on generalizing b path with
  | _ n ih =>
    subst hn
    cases h with
    | start => exact ⟨[0], .start, List.Subset.refl _⟩
    | @step p _ path hp he =>
      rcases hg.forward_or_back p b he with ⟨hend, -⟩ | ⟨-, hdominates, -⟩
      · obtain ⟨rest, hrest, hsubset⟩ := ih path.length (Nat.lt_succ_self _) hp rfl
        exact ⟨b :: rest, .step hrest ⟨he, hend⟩, List.cons_subset_cons b hsubset⟩
      · obtain ⟨short, hshort, hsuffix⟩ := hp.exists_suffix (hdominates path hp)
        obtain ⟨rest, hrest, hsubset⟩ := ih short.length (Nat.lt_succ_of_le hsuffix.length_le) hshort rfl
        exact ⟨rest, hrest, fun x hx => List.mem_cons_of_mem b (hsuffix.subset (hsubset hx))⟩

theorem le_of_mem {path : List BlockId} (h : Path g.Forward b path) (ha : a ∈ path) : a ≤ b := by
  induction h with
  | start => exact (List.mem_singleton.mp ha).le
  | step _ he ih =>
    rcases List.mem_cons.mp ha with rfl | ha
    · exact Nat.le_refl _
    · exact (ih ha).trans (hg.lt_of_forward he).le

theorem dominates_iff_forwardPath :
    g.Dominates a b ↔ ∀ path, Path g.Forward b path → a ∈ path := by
  constructor
  · intro h path hpath
    exact h path (hpath.mono fun _ _ he => he.1)
  · intro h path hpath
    obtain ⟨rest, hrest, hsubset⟩ := hg.exists_forwardPath hpath
    exact hsubset (h rest hrest)

theorem le_of_dominates (hb : b < g.size) (h : g.Dominates a b) : a ≤ b := by
  obtain ⟨path, hpath⟩ := hg.reachable b hb
  obtain ⟨rest, hrest, -⟩ := hg.exists_forwardPath hpath
  exact hg.le_of_mem hrest (hg.dominates_iff_forwardPath.mp h rest hrest)

theorem exists_forward (h0 : 0 < b) (hb : b < g.size) : ∃ p, g.Forward p b := by
  obtain ⟨path, hpath⟩ := hg.reachable b hb
  obtain ⟨rest, hrest, -⟩ := hg.exists_forwardPath hpath
  cases hrest with
  | start => exact absurd h0 (Nat.lt_irrefl 0)
  | @step p _ _ _ he => exact ⟨p, he⟩

/-- The strict dominators of a block are the dominators that its forward predecessors share. -/
theorem dominates_iff (h0 : 0 < b) :
    g.Dominates a b ↔ a = b ∨ ∀ p, g.Forward p b → g.Dominates a p := by
  constructor
  · intro h
    rw [or_iff_not_imp_left]
    intro hne p hp path hpath
    rcases List.mem_cons.mp (h _ (.step hpath hp.1)) with heq | hmem
    · exact absurd heq hne
    · exact hmem
  · rintro (rfl | h)
    · exact dominates_refl a
    · rw [hg.dominates_iff_forwardPath]
      intro path hpath
      cases hpath with
      | start => exact absurd h0 (Nat.lt_irrefl 0)
      | @step p _ path hp he =>
        exact List.mem_cons_of_mem b (hg.dominates_iff_forwardPath.mp (h p he) path hp)

theorem dominates_or_dominates (hc : c < g.size) (ha : g.Dominates a c) (hb : g.Dominates b c) :
    g.Dominates a b ∨ g.Dominates b a := by
  induction c using Nat.strong_induction_on with
  | _ c ih =>
    rcases Nat.eq_zero_or_pos c with rfl | hpos
    · rw [dominates_zero_iff.mp ha]
      exact Or.inl (zero_dominates b)
    · obtain ⟨p, hp⟩ := hg.exists_forward hpos hc
      rcases (hg.dominates_iff hpos).mp ha with rfl | ha
      · exact Or.inr hb
      rcases (hg.dominates_iff hpos).mp hb with rfl | hb
      · exact Or.inl ((hg.dominates_iff hpos).mpr (Or.inr ha))
      have hlt := hg.lt_of_forward hp
      exact ih p hlt (hlt.trans hc) (ha p hp) (hb p hp)

end Reducible

end Cfg

end CompilerKit.ControlFlow
