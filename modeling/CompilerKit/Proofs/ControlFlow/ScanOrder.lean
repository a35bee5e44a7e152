import CompilerKit.Proofs.ControlFlow.Traversal

/-! # The order for linear scan

The predecessors of a block that was postponed have smaller numbers. So the smallest block that is not placed
cannot have been postponed, and all blocks are placed when the worklist is empty.
-/

namespace CompilerKit.ControlFlow

namespace OrderState

open Cfg

variable {g : Cfg} {s : OrderState} {b : Nat}

/-- A path is placed up to its end. The fuel lasts because no block is placed twice. -/
theorem Traversal.placeScanPath (hg : g.Linked)
    (hweights : ∀ b : Nat, b < g.size → FloatingPoint.Double.zero.le (g.weight b) = true) (fuel : Nat)
    (h : Traversal g true s [b]) (hfuel : g.size ≤ fuel + s.order.length) :
    Traversal g true (placeScanPath g fuel s b) [] ∧
      s.order.length < (placeScanPath g fuel s b).order.length := by
  induction fuel generalizing s b with
  | zero =>
    have := (h.tracked hg).length_le
    simp at this
    omega
  | succ fuel ih =>
    rcases hleave : (s.placeNumbered b).leave g b with ⟨s', next?⟩
    obtain ⟨horder, -⟩ := (h.tracked hg).place hg hleave
    have hplaced := h.place hleave
    have hlonger : s.order.length < s'.order.length := by simp [horder]
    rw [OrderState.placeScanPath, hleave]
    cases next? with
    | none => exact ⟨hplaced, hlonger⟩
    | some c =>
      dsimp only
      split
      case isTrue hpostpones =>
        have hnew := (edge_of_likeliest? (congrArg Prod.snd hleave)).2.1
        have hne : c ≠ 0 := by
          rintro rfl
          exact hnew h.zero_mem_visited
        exact ⟨hplaced.postpone rfl hne (hweights b (h.tracked hg).lt_size_of_held) hpostpones, hlonger⟩
      case isFalse =>
        obtain ⟨htraversal, hlt⟩ := ih hplaced (by omega)
        exact ⟨htraversal, hlonger.trans hlt⟩

theorem traversal_scanOrder (hg : g.Linked)
    (hweights : ∀ b : Nat, b < g.size → FloatingPoint.Double.zero.le (g.weight b) = true) :
    Traversal g true g.scanOrder [] ∧ g.scanOrder.worklist.toList = [] := by
  have hstep (n : Nat) (s : OrderState) (h : Traversal g true s [] ∧ s.order.length = n) (b : Nat)
      (rest : Heap BlockId) (htake : Heap.takeFirst? g.importance s.worklist = some (b, rest)) :
      ∃ m, n < m ∧ (Traversal g true (placeScanPath g (g.size + 1) { s with worklist := rest } b) [] ∧
        (placeScanPath g (g.size + 1) { s with worklist := rest } b).order.length = m) := by
    obtain ⟨htraversal, hlt⟩ := (h.1.take htake).placeScanPath hg hweights (g.size + 1) (by omega)
    exact ⟨_, h.2 ▸ hlt, htraversal, rfl⟩
  obtain ⟨n, ⟨htraversal, -⟩, hempty⟩ := exists_drained
    (fun n s => Traversal g true s [] ∧ s.order.length = n)
    (fun n s h => (h.1.tracked hg).fault?_none) (fun n s h => h.2 ▸ h.1.length_order_le hg)
    hstep (g.size + 1) ⟨.start, rfl⟩ (by simp [start])
  exact ⟨htraversal, hempty⟩

/-- If nothing is left aside, no block is missing: the first one that is missing could not have been
postponed. -/
theorem Tracked.mem_order (h : Tracked g s []) (hempty : s.worklist.toList = []) (hstart : 0 ∈ s.order)
    (horder : g.IsReversePostOrder)
    (hedges : ∀ p b : Nat, g.Edge p b → p < b ∨ g.isLoopHeader b = true) {b : Nat} (hb : b < g.size) :
    b ∈ s.order := by
  induction b using Nat.strong_induction_on with
  | _ b ih =>
    rcases Nat.eq_zero_or_pos b with rfl | hpos
    · exact hstart
    · by_contra hnot
      have hvisited : b ∉ s.visited := by simpa [h.mem_visited, hempty] using hnot
      obtain ⟨p, hedge, hlt⟩ := horder.exists_edge hpos hb
      obtain ⟨hheader, q, hq, hqb⟩ := h.postponed b hvisited ⟨p, ih p hlt (hlt.trans hb), hedge⟩
      have hqlt : q < b := (hedges q b hqb).resolve_right (by simp [hheader])
      exact hq (ih q hqlt (hqlt.trans hb))

/-- Where blocks are in reverse post order and edges go back to loop headers only, all blocks are placed. -/
theorem scanOrder_perm_ids (hg : g.Linked) (horder : g.IsReversePostOrder)
    (hedges : ∀ p b : Nat, g.Edge p b → p < b ∨ g.isLoopHeader b = true)
    (hweights : ∀ b : Nat, b < g.size → FloatingPoint.Double.zero.le (g.weight b) = true) :
    g.scanOrder.order.Perm g.ids := by
  obtain ⟨h, hempty⟩ := traversal_scanOrder hg hweights
  refine h.order_perm_ids hg fun b hb => ?_
  exact (h.tracked hg).mem_order hempty ((h.mem_order_iff hg hempty 0).mpr h.zero_mem_visited) horder hedges hb

end OrderState

open OrderState

/-- If blocks are in reverse post order, and edges go back to loop headers only, all blocks are placed:
each of them once, the start first, and with its position as its number. -/
theorem linearScanOrder_permutes_blocks (g : Cfg) (hg : g.Linked) (horder : g.IsReversePostOrder)
    (hedges : ∀ p b : Nat, g.Edge p b → p < b ∨ g.isLoopHeader b = true)
    (hweights : ∀ b : Nat, b < g.size → FloatingPoint.Double.zero.le (g.weight b) = true) :
    ∃ order, g.linearScanOrder = .ok order ∧ order.Perm g.ids ∧ order.head? = some 0 ∧
      ∀ i b, order[i]? = some b → g.scanOrder.number? b = some i := by
  obtain ⟨h, hempty⟩ := traversal_scanOrder hg hweights
  refine ⟨g.scanOrder.order, ?_, scanOrder_perm_ids hg horder hedges hweights, ?_,
    (h.tracked hg).number?_placed⟩
  · rw [Cfg.linearScanOrder, result, (h.tracked hg).fault?_none]
  · rw [← List.append_nil g.scanOrder.order]
    refine h.head?_eq.resolve_right fun hnot => ?_
    rw [hnot.2] at hempty
    cases hempty

/-- A loop in which two ways meet again: the merge has to wait until both of them are placed. -/
def waitingMerge : Cfg :=
  .ofSuccessors [([1], 1, none, false), ([2, 3], 10, some 0, false), ([4], 5, some 0, false),
    ([4], 5, some 0, false), ([1, 5], 10, some 0, true), ([], 1, none, false)] [⟨none, 1⟩]

theorem isReversePostOrder_waitingMerge : waitingMerge.IsReversePostOrder := by
  have h5 : waitingMerge.Finishes [4, 3, 1, 0] [5, 1] ([] ++ 5 :: []) :=
    .visit (by decide) (List.Perm.refl []) (.done _) (.skip (by decide) (.done _))
  have h4 : waitingMerge.Finishes [3, 1, 0] [4] ([5] ++ 4 :: []) :=
    .visit (by decide) (by decide) h5 (.done _)
  have h2 : waitingMerge.Finishes [5, 4, 3, 1, 0] [2] ([] ++ 2 :: []) :=
    .visit (by decide) (List.Perm.refl [4]) (.skip (by decide) (.done _)) (.done _)
  have h3 : waitingMerge.Finishes [1, 0] [3, 2] ([5, 4] ++ 3 :: [2]) :=
    .visit (by decide) (List.Perm.refl [4]) h4 h2
  have h1 : waitingMerge.Finishes [0] [1] ([5, 4, 3, 2] ++ 1 :: []) :=
    .visit (by decide) (by decide) h3 (.done _)
  have h0 : waitingMerge.Finishes [] [0] ([5, 4, 3, 2, 1] ++ 0 :: []) :=
    .visit (by decide) (List.Perm.refl [1]) h1 (.done _)
  exact ⟨_, h0, rfl⟩

theorem linearScanOrder_permutes_blocks_waiting :
    waitingMerge.Linked ∧ waitingMerge.IsReversePostOrder ∧
    (∀ p b : Nat, waitingMerge.Edge p b → p < b ∨ waitingMerge.isLoopHeader b = true) ∧
    (∀ b : Nat, b < waitingMerge.size → FloatingPoint.Double.zero.le (waitingMerge.weight b) = true) ∧
    ∃ order, waitingMerge.linearScanOrder = .ok order ∧ order.Perm waitingMerge.ids ∧
      order.head? = some 0 ∧ ∀ i b, order[i]? = some b → waitingMerge.scanOrder.number? b = some i := by
  have hlinked : waitingMerge.Linked := Cfg.linked_ofSuccessors (by decide) (by decide)
  have hedges (p b : Nat) (h : waitingMerge.Edge p b) : p < b ∨ waitingMerge.isLoopHeader b = true := by
    have hall : ∀ p < 6, ∀ b ∈ (waitingMerge.block p).successors,
        p < b ∨ waitingMerge.isLoopHeader b = true := by decide
    exact hall p (Cfg.lt_size_of_edge h) b h
  have hweights : ∀ b : Nat, b < waitingMerge.size →
      FloatingPoint.Double.zero.le (waitingMerge.weight b) = true := by decide +kernel
  exact ⟨hlinked, isReversePostOrder_waitingMerge, hedges, hweights, linearScanOrder_permutes_blocks
    waitingMerge hlinked isReversePostOrder_waitingMerge hedges hweights⟩

end CompilerKit.ControlFlow
