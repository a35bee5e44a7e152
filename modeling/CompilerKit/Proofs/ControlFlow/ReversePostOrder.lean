import CompilerKit.Proofs.ControlFlow.Dominance

/-! # Reverse post order

A depth first search is done with a block when it is done with its successors. Blocks in the reverse of the
order in which the search from the start is done with them are in reverse post order. Every block but the
first then has a predecessor before itself, the one from which the search came.
-/

namespace CompilerKit.ControlFlow

namespace Cfg

variable (g : Cfg)

/-- A search that has seen some blocks and still has to look at the blocks `todo` is done with the blocks
`out`, in this order. Successors may be looked at in any order. -/
inductive Finishes : List BlockId → List BlockId → List BlockId → Prop
  | done (seen : List BlockId) : Finishes seen [] []
  | skip {seen todo out : List BlockId} {b : BlockId} :
    b ∈ seen → Finishes seen todo out → Finishes seen (b :: todo) out
  | visit {seen next todo below rest : List BlockId} {b : BlockId} :
    b ∉ seen → next.Perm (g.block b).successors → Finishes (b :: seen) next below →
      Finishes (below ++ b :: seen) todo rest → Finishes seen (b :: todo) (below ++ b :: rest)

def IsReversePostOrder : Prop := ∃ out, g.Finishes [] [0] out ∧ out.reverse = g.ids

variable {g}

/-- A block that was not to be looked at has been found from a block that is done later. -/
theorem Finishes.exists_edge {seen todo out : List BlockId} (h : g.Finishes seen todo out) {b : BlockId}
    (hb : b ∈ out) : b ∈ todo ∨ ∃ p, g.Edge p b ∧ [b, p].Sublist out := by
  induction h with
  | done seen => cases hb
  | skip _ _ ih =>
    rcases ih hb with hmem | hedge
    · exact Or.inl (List.mem_cons_of_mem _ hmem)
    · exact Or.inr hedge
  | @visit seen next todo below rest c _ hnext _ _ ihbelow ihrest =>
    rcases List.mem_append.mp hb with hb | hb
    · refine Or.inr ?_
      rcases ihbelow hb with hmem | ⟨p, hedge, hsublist⟩
      · refine ⟨c, hnext.mem_iff.mp hmem, ?_⟩
        exact (List.singleton_sublist.mpr hb).append (List.singleton_sublist.mpr List.mem_cons_self)
      · exact ⟨p, hedge, hsublist.trans (List.sublist_append_left _ _)⟩
    · rcases List.mem_cons.mp hb with rfl | hb
      · exact Or.inl List.mem_cons_self
      · rcases ihrest hb with hmem | ⟨p, hedge, hsublist⟩
        · exact Or.inl (List.mem_cons_of_mem _ hmem)
        · exact Or.inr ⟨p, hedge, (hsublist.trans (List.sublist_cons_self _ _)).trans
            (List.sublist_append_right _ _)⟩

theorem IsReversePostOrder.exists_edge (h : g.IsReversePostOrder) {b : Nat} (h0 : 0 < b)
    (hb : b < g.size) : ∃ p : Nat, g.Edge p b ∧ p < b := by
  obtain ⟨out, hout, hids⟩ := h
  have hmem : b ∈ out := by
    rw [← List.mem_reverse, hids]
    exact List.mem_range.mpr hb
  rcases hout.exists_edge hmem with hstart | ⟨p, hedge, hsublist⟩
  · exact absurd (List.mem_singleton.mp hstart) h0.ne'
  · have hpair : [p, b].Sublist out.reverse := hsublist.reverse
    rw [hids] at hpair
    exact ⟨p, hedge, List.pairwise_pair.mp (List.pairwise_lt_range.sublist hpair)⟩

end Cfg

end CompilerKit.ControlFlow
