import CompilerKit.Proofs.ControlFlow.CodeOrder
import CompilerKit.Proofs.ControlFlow.ScanOrder

/-! # Loops before what follows them

An edge that leaves a loop leads to a block in which nothing else ends and which is less deep than the
loop. Such an exit is not followed along a path, so it is taken from the worklist; then nothing that is
deeper waits. But if a block of the loop were missing, the first missing one would wait on the worklist:
its predecessors lie in the loop and are placed, so it has been visited and is not postponed.
-/

namespace CompilerKit.ControlFlow

open OrderState

namespace Cfg

variable (g : Cfg)

/-- Where an edge leaves a loop. -/
def Exits (l : Nat) (x : BlockId) : Prop := ∃ p, g.Inside l p ∧ g.Edge p x ∧ ¬g.Inside l x

/-- A graph with natural loops in reverse post order. Loops are entered at their headers; an edge that leaves
a loop is the only one into its exit, which is less deep than the loop. -/
structure Structured : Prop extends g.Linked, g.NaturalLoops where
  reversePostOrder : g.IsReversePostOrder
  forward_or_back : ∀ p b : Nat, g.Edge p b → p < b ∨ g.isLoopHeader b = true
  entered : g.EnteredAtHeaders
  left : ∀ l p x, g.Inside l p → g.Edge p x → ¬g.Inside l x →
    (g.block x).predecessors = [p] ∧ g.loopDepth x < g.depthOfLoop l

variable {g} {l : Nat} {b x : Nat}

namespace Structured

variable (hg : g.Structured)

include hg

theorem eq_of_edge {p q : Nat} (hp : g.Inside l p) (hedge : g.Edge p x) (hx : ¬g.Inside l x)
    (hq : g.Edge q x) : q = p := by
  have hmem := (hg.mem_predecessors q x).mpr hq
  rw [(hg.left l p x hp hedge hx).1] at hmem
  exact List.mem_singleton.mp hmem

/-- A header has its loop end for a predecessor, which lies in the same loops. -/
theorem not_isLoopHeader (hx : g.Exits l x) : g.isLoopHeader x = false := by
  obtain ⟨p, hp, hedge, hout⟩ := hx
  rw [← Bool.not_eq_true]
  intro hheader
  obtain ⟨m, loop, hm, hloop, rfl⟩ := exists_loop_of_isLoopHeader hheader
  obtain ⟨e, he⟩ := hg.exists_loopEnd hloop
  obtain rfl := hg.eq_of_edge hp hedge hout (hg.edge_header hloop he)
  exact hout ((inside_congr ((mem_loopEnds.mp he).2.trans hm.symm)).mp hp)

theorem exit_ne_zero (hx : g.Exits l x) : x ≠ 0 := by
  rintro rfl
  obtain ⟨p, -, hedge, -⟩ := id hx
  have hheader := (hg.forward_or_back p 0 hedge).resolve_left (Nat.not_lt_zero p)
  rw [hg.not_isLoopHeader hx] at hheader
  cases hheader

theorem sublist_flatMap_emits {placed : List BlockId} (hx : g.Exits l x) (hb : g.Inside l b)
    (hbefore : ∀ e, g.Inside l e → [e, x].Sublist placed) : [b, x].Sublist (placed.flatMap g.emits) := by
  obtain ⟨e, hbe, hloop⟩ := hg.exists_mem_emits b
  have hxx : x ∈ g.emits x := by
    refine mem_emits.mpr (Or.inl ⟨rfl, ?_⟩)
    simp [isRotated, hg.not_isLoopHeader hx]
  have hpair : [b, x].Sublist ([e, x].flatMap g.emits) := by
    simpa using (List.singleton_sublist.mpr hbe).append (List.singleton_sublist.mpr hxx)
  exact hpair.trans ((hbefore e ((inside_congr hloop).mpr hb)).flatMap g.emits)

end Structured

end Cfg

namespace OrderState

open Cfg

variable {g : Cfg} {s : OrderState} {held : List BlockId} {l : Nat} {b x : Nat} {postponing : Bool}

namespace Traversal

theorem header_mem_order (h : Traversal g postponing s held) (hg : g.Structured) {loop : Loop}
    (hloop : g.loops[l]? = some loop) (hx : g.Exits l x) (hvisited : x ∈ s.visited) :
    loop.header ∈ s.order := by
  obtain ⟨p, hp, hedge, hout⟩ := id hx
  obtain ⟨path, hpath, hsubset⟩ := h.exists_path hg.toLinked hvisited
  cases hpath with
  | start => exact absurd rfl (hg.exit_ne_zero hx)
  | @step q _ _ hpath he =>
    obtain rfl := hg.eq_of_edge hp hedge hout he
    exact hsubset (hg.dominates l loop q hloop hp path hpath)

theorem mem_order_of_taken (h : Traversal g postponing s []) (hg : g.Structured) {loop : Loop}
    (hloop : g.loops[l]? = some loop) {rest : Heap BlockId}
    (htake : Heap.takeFirst? g.importance s.worklist = some (x, rest)) (hx : g.Exits l x)
    (hb : g.Inside l b) : b ∈ s.order := by
  have htracked := h.tracked hg.toLinked
  obtain ⟨hmem, hdeepest⟩ := h.deepest htake
  have hheader := h.header_mem_order hg hloop hx ((htracked.mem_visited x).mpr (by simp [hmem]))
  obtain ⟨p, hp, hedge, hout⟩ := hx
  have hshallow := (hg.left l p x hp hedge hout).2
  -- The predecessors that come before a block are placed first.
  induction b using Nat.strong_induction_on with
  | _ b ih =>
    by_cases hbheader : b = loop.header
    · exact hbheader ▸ hheader
    have hpos : 0 < b := by
      refine Nat.pos_of_ne_zero fun hzero => hbheader ?_
      have hdominates := hg.dominates l loop b hloop hb
      rw [hzero, dominates_zero_iff] at hdominates
      rw [hzero, hdominates]
    have hinside {q : Nat} (hq : g.Edge q b) : g.Inside l q := hg.entered l loop q b hloop hb hbheader hq
    obtain ⟨q, hq, hlt⟩ := hg.reversePostOrder.exists_edge hpos hb.lt_size
    by_cases hvisited : b ∈ s.visited
    · rcases List.mem_append.mp ((htracked.mem_visited b).mp hvisited) with hplaced | hwaits
      · exact hplaced
      · have := hdeepest b (by simpa using hwaits)
        have := hg.depthOfLoop_le hb
        omega
    · obtain ⟨hnot, r, hr, hrb⟩ := htracked.postponed b hvisited ⟨q, ih q hlt (hinside hq), hq⟩
      have hrlt : r < b := (hg.forward_or_back r b hrb).resolve_right (by simp [hnot])
      exact absurd (ih r hrlt (hinside hrb)) hr

/-- An exit comes after its loop, and so does one that is to be placed next. -/
theorem loop_before_exit (h : Traversal g postponing s held) (hg : g.Structured) {loop : Loop}
    (hloop : g.loops[l]? = some loop) (hx : g.Exits l x) (hb : g.Inside l b) :
    (x ∈ s.order → [b, x].Sublist s.order) ∧ (x ∈ held → b ∈ s.order) := by
  induction h with
  | start => exact ⟨fun hmem => absurd hmem List.not_mem_nil, fun hmem => absurd hmem List.not_mem_nil⟩
  | take h htake ih =>
    refine ⟨ih.1, fun hheld => ?_⟩
    obtain rfl := List.mem_singleton.mp hheld
    exact h.mem_order_of_taken hg hloop htake hx hb
  | @place s s' c next? h hleave ih =>
    have hnext : next? = (s.placeNumbered c).likeliest? g c := (congrArg Prod.snd hleave).symm
    obtain ⟨new, rfl, -, hnew, -⟩ := exists_left hleave
    constructor
    · intro hmem
      rcases List.mem_append.mp hmem with hmem | hmem
      · exact (ih.1 hmem).trans (List.sublist_append_left _ _)
      · obtain rfl := List.mem_singleton.mp hmem
        have hplaced := ih.2 List.mem_cons_self
        exact (List.singleton_sublist.mpr hplaced).append (List.Sublist.refl [x])
    · -- A path does not leave a loop.
      intro hmem
      obtain ⟨p, hp, hedge, hout⟩ := hx
      obtain rfl := hg.eq_of_edge hp hedge hout (hnew x (List.mem_append_right _ hmem)).1
      have hdeep := (edge_of_likeliest? (hnext.symm.trans (Option.mem_toList.mp hmem))).2.2
      have := hg.depthOfLoop_le hp
      have := (hg.left l c x hp hedge hout).2
      omega
  | postpone _ _ _ _ _ ih => exact ⟨ih.1, fun hmem => absurd hmem List.not_mem_nil⟩

end Traversal

end OrderState

/-- In both orders all blocks of a loop, nested ones included, come before every exit of the loop. -/
theorem loops_precede_exits (g : Cfg) (hg : g.Structured)
    (hweights : ∀ b : Nat, b < g.size → FloatingPoint.Double.zero.le (g.weight b) = true) :
    ∃ scan code, g.linearScanOrder = .ok scan ∧ g.codeOrder.result = .ok code ∧
      ∀ order ∈ [scan, code], order.Perm g.ids ∧ ∀ l < g.loops.length, ∀ x b,
        g.Exits l x → g.Inside l b → [b, x].Sublist order := by
  obtain ⟨hscan, -⟩ := traversal_scanOrder hg.toLinked hweights
  obtain ⟨t, hcode, hempty', hmirrors⟩ := exists_traversal_codeOrder hg.toLinked hg.toNaturalLoops
  have hscanned := scanOrder_perm_ids hg.toLinked hg.reversePostOrder hg.forward_or_back hweights
  have hplaced : t.order.Perm g.ids :=
    hcode.order_perm_ids hg.toLinked fun b hb => hcode.mem_order hg.toLinked hempty' hg.reversePostOrder hb
  refine ⟨g.scanOrder.order, t.order.flatMap g.emits, ?_, ?_, ?_⟩
  · rw [Cfg.linearScanOrder, result, (hscan.tracked hg.toLinked).fault?_none]
  · rw [result, hmirrors.fault?_none, hmirrors.order]
  have hbefore {postponing : Bool} {s : OrderState} (h : Traversal g postponing s [])
      (hperm : s.order.Perm g.ids) (l : Nat) (hl : l < g.loops.length) (x b : BlockId) (hx : g.Exits l x)
      (hb : g.Inside l b) : [b, x].Sublist s.order := by
    refine (h.loop_before_exit hg (List.getElem?_eq_getElem hl) hx hb).1 ?_
    obtain ⟨p, -, hedge, -⟩ := hx
    exact hperm.mem_iff.mpr (List.mem_range.mpr (hg.lt_size p x hedge))
  refine List.forall_mem_cons.mpr ⟨⟨hscanned, hbefore hscan hscanned⟩, List.forall_mem_singleton.mpr ⟨?_, ?_⟩⟩
  · exact hg.flatMap_emits_perm hg.toLinked hplaced
  · intro l hl x b hx hb
    exact hg.sublist_flatMap_emits hx hb fun e he => hbefore hcode hplaced l hl x e hx he

theorem structured_nestedLoops : nestedLoops.Structured where
  toLinked := linked_nestedLoops
  toNaturalLoops := naturalLoops_nestedLoops
  reversePostOrder := isReversePostOrder_nestedLoops
  forward_or_back p b hedge := by
    have hall : ∀ p < 8, ∀ b ∈ (nestedLoops.block p).successors,
        p < b ∨ nestedLoops.isLoopHeader b = true := by decide
    exact hall p (Cfg.lt_size_of_edge hedge) b hedge
  entered := enteredAtHeaders_nestedLoops
  left l p x hp hedge hout := by
    have hall : ∀ p < 8, ∀ x ∈ (nestedLoops.block p).successors, ∀ l ∈ nestedLoops.loopsAround p,
        ¬nestedLoops.Inside l x →
          (nestedLoops.block x).predecessors = [p] ∧ nestedLoops.loopDepth x < nestedLoops.depthOfLoop l := by
      decide
    exact hall p hp.lt_size x hedge l hp hout

theorem loops_precede_exits_nested :
    nestedLoops.Structured ∧
    (∀ b : Nat, b < nestedLoops.size → FloatingPoint.Double.zero.le (nestedLoops.weight b) = true) ∧
    ∃ scan code, nestedLoops.linearScanOrder = .ok scan ∧ nestedLoops.codeOrder.result = .ok code ∧
      ∀ order ∈ [scan, code], order.Perm nestedLoops.ids ∧ ∀ l < nestedLoops.loops.length, ∀ x b,
        nestedLoops.Exits l x → nestedLoops.Inside l b → [b, x].Sublist order := by
  have hweights : ∀ b : Nat, b < nestedLoops.size →
      FloatingPoint.Double.zero.le (nestedLoops.weight b) = true := by decide +kernel
  exact ⟨structured_nestedLoops, hweights,
    loops_precede_exits nestedLoops structured_nestedLoops hweights⟩

end CompilerKit.ControlFlow
