import CompilerKit.Proofs.ControlFlow.NaturalLoops
import CompilerKit.Proofs.ControlFlow.Traversal

/-! # The order for emitting code

Blocks are placed as in a traversal, but a rotated header is left out when it is placed and put behind
its loop end. So each block of the traversal stands for a few blocks of the order (`emits`). If loops are
natural, every block is emitted by exactly one block, and the order has all blocks of the traversal.
-/

namespace CompilerKit.ControlFlow

open OrderState

namespace Cfg

variable (g : Cfg)

def emits (b : BlockId) : List BlockId :=
  (if isRotated g b then [] else [b]) ++
    if (g.block b).isLoopEnd then ((g.header? b).filter (isRotated g)).toList else []

variable {g} {b c e : Nat}

theorem mem_emits : c ∈ g.emits e ↔
    c = e ∧ isRotated g e = false ∨
      (g.block e).isLoopEnd = true ∧ g.header? e = some c ∧ isRotated g c = true := by
  rw [emits, List.mem_append]
  refine or_congr ?_ ?_
  · cases isRotated g e <;> simp
  · cases (g.block e).isLoopEnd with
    | false => simp
    | true => simp [Option.filter_eq_some_iff]

theorem isRotated_of_loopEnd (h : (g.block e).isLoopEnd = true) : isRotated g e = false := by
  simp [isRotated, h]

theorem emits_of_loopEnd (hend : (g.block e).isLoopEnd = true) (hheader : g.header? e = some c)
    (hc : isRotated g c = true) : g.emits e = [e, c] := by
  simp [emits, isRotated_of_loopEnd hend, hend, hheader, hc]

theorem nodup_emits (e : Nat) : (g.emits e).Nodup := by
  cases hend : (g.block e).isLoopEnd with
  | false =>
    simp only [emits, hend]
    split <;> simp
  | true =>
    rw [emits, isRotated_of_loopEnd hend, hend]
    cases hheader : (g.header? e).filter (isRotated g) with
    | none => simp
    | some c =>
      have hne : e ≠ c := by
        rintro rfl
        exact absurd (Option.filter_eq_some_iff.mp hheader).2 (by simp [isRotated_of_loopEnd hend])
      simpa using hne

namespace NaturalLoops

variable (h : g.NaturalLoops)

include h

theorem isRotated_iff {l : Nat} {loop : Loop} (hloop : g.loops[l]? = some loop) :
    isRotated g loop.header = true ↔
      (g.block loop.header).isLoopEnd = false ∧ g.backEdges loop = 1 := by
  simp [isRotated, isLoopHeader, h.header?_eq hloop, h.loop?_header l loop hloop, hloop]

theorem exists_loopEnd_of_rotated (hc : isRotated g c = true) :
    ∃ l loop e, g.loops[l]? = some loop ∧ loop.header = c ∧ g.loopEnds l = [e] := by
  have hheader : g.isLoopHeader c = true := by
    simp only [isRotated, Bool.and_eq_true] at hc
    exact hc.1.1
  obtain ⟨l, loop, -, hloop, rfl⟩ := exists_loop_of_isLoopHeader hheader
  have hone := ((h.isRotated_iff hloop).mp hc).2
  rw [h.backEdges_eq l loop hloop] at hone
  obtain ⟨e, he⟩ := List.length_eq_one_iff.mp hone
  exact ⟨l, loop, e, hloop, rfl, he⟩

theorem exists_mem_emits (c : Nat) : ∃ e, c ∈ g.emits e ∧ (g.block e).loop? = (g.block c).loop? := by
  cases hrotated : isRotated g c with
  | false => exact ⟨c, mem_emits.mpr (Or.inl ⟨rfl, hrotated⟩), rfl⟩
  | true =>
    obtain ⟨l, loop, e, hloop, rfl, he⟩ := h.exists_loopEnd_of_rotated hrotated
    have hmem : e ∈ g.loopEnds l := he ▸ List.mem_cons_self
    obtain ⟨hend, hin⟩ := mem_loopEnds.mp hmem
    exact ⟨e, mem_emits.mpr (Or.inr ⟨hend, header?_of_loopEnd hloop hmem, hrotated⟩),
      hin.trans (h.loop?_header l loop hloop).symm⟩

theorem eq_of_mem_emits {d : Nat} (hd : c ∈ g.emits d) (he : c ∈ g.emits e) : d = e := by
  rcases mem_emits.mp hd with ⟨rfl, hrotated⟩ | ⟨hdend, hdheader, hrotated⟩
  · rcases mem_emits.mp he with ⟨rfl, -⟩ | ⟨-, -, hrotated'⟩
    · rfl
    · rw [hrotated] at hrotated'
      cases hrotated'
  · rcases mem_emits.mp he with ⟨rfl, hrotated'⟩ | ⟨heend, heheader, -⟩
    · rw [hrotated] at hrotated'
      cases hrotated'
    · -- Both end the one loop that the header belongs to.
      obtain ⟨l, loop, x, hloop, rfl, hx⟩ := h.exists_loopEnd_of_rotated hrotated
      have hsingle {f : Nat} (hend : (g.block f).isLoopEnd = true)
          (hheader : g.header? f = some loop.header) : f = x := by
        obtain ⟨m, loop', hm, hloop', -⟩ := h.jumps_back f hend
        have hheader' : loop'.header = loop.header := by simpa [header?, hm, hloop'] using hheader
        have hml : m = l := Option.some.inj
          ((h.loop?_header m loop' hloop').symm.trans (hheader' ▸ h.loop?_header l loop hloop))
        have hmem : f ∈ g.loopEnds l := mem_loopEnds.mpr ⟨hend, hml ▸ hm⟩
        rw [hx] at hmem
        exact List.mem_singleton.mp hmem
      rw [hsingle hdend hdheader, hsingle heend heheader]

theorem lt_size_iff_of_mem_emits (hg : g.Linked) (hc : c ∈ g.emits e) : c < g.size ↔ e < g.size := by
  rcases mem_emits.mp hc with ⟨rfl, -⟩ | ⟨hend, hheader, -⟩
  · rfl
  · obtain ⟨l, loop, hl, hloop, hedge⟩ := h.jumps_back e hend
    have hc : loop.header = c := by simpa [header?, hl, hloop] using hheader
    exact iff_of_true (hc ▸ hg.lt_size e loop.header hedge) (lt_size_of_edge hedge)

theorem flatMap_emits_perm (hg : g.Linked) {placed : List BlockId} (hplaced : placed.Perm g.ids) :
    (placed.flatMap g.emits).Perm g.ids := by
  have hnodup : (placed.flatMap g.emits).Nodup := by
    refine List.nodup_flatMap.mpr ⟨fun e _ => nodup_emits e, ?_⟩
    refine (hplaced.nodup_iff.mpr List.nodup_range).imp ?_
    intro d e hne c hd he
    exact hne (h.eq_of_mem_emits hd he)
  refine (List.perm_ext_iff_of_nodup hnodup List.nodup_range).mpr fun c => ?_
  have hmem (e : Nat) : e ∈ placed ↔ e < g.size := by rw [hplaced.mem_iff, ids, List.mem_range]
  rw [List.mem_flatMap, List.mem_range]
  constructor
  · rintro ⟨e, he, hc⟩
    exact (h.lt_size_iff_of_mem_emits hg hc).mpr ((hmem e).mp he)
  · intro hc
    obtain ⟨e, he, -⟩ := h.exists_mem_emits c
    exact ⟨e, (hmem e).mpr ((h.lt_size_iff_of_mem_emits hg he).mp hc), he⟩

end NaturalLoops

end Cfg

namespace OrderState

open Cfg

variable {g : Cfg} {s t s' : OrderState} {b : Nat}

theorem exists_placedBlock (s : OrderState) (hend : (g.block b).isLoopEnd = true → (g.header? b).isSome) :
    ∃ aligned, s.placeBlock g b =
        { s with order := s.order ++ g.emits b, aligned := s.aligned ++ aligned } ∧
      (g.isLoopHeader b = true → isRotated g b = false → b ∈ aligned) := by
  -- First the block itself is placed, then the header behind it.
  have hself : ∃ aligned, (if isRotated g b then s else { s with
        order := s.order ++ [b], aligned := if g.isLoopHeader b then s.aligned ++ [b] else s.aligned }) =
        { s with order := s.order ++ (if isRotated g b then [] else [b]), aligned := s.aligned ++ aligned } ∧
      (g.isLoopHeader b = true → isRotated g b = false → b ∈ aligned) := by
    cases isRotated g b with
    | true => exact ⟨[], by simp, by simp⟩
    | false =>
      cases g.isLoopHeader b with
      | true => exact ⟨[b], by simp, by simp⟩
      | false => exact ⟨[], by simp, by simp⟩
  obtain ⟨aligned, hself, haligned⟩ := hself
  simp only [placeBlock, hself, emits]
  cases hloopEnd : (g.block b).isLoopEnd with
  | false => exact ⟨aligned, by simp, haligned⟩
  | true =>
    obtain ⟨header, hheader⟩ := Option.isSome_iff_exists.mp (hend hloopEnd)
    cases hrotated : isRotated g header with
    | false => exact ⟨aligned, by simp [hheader, hrotated], haligned⟩
    | true =>
      refine ⟨aligned ++ (g.block header).successors.filter fun c => g.loopDepth c = g.loopDepth b, ?_, ?_⟩
      · simp [hheader, hrotated, placeRotated, Option.filter_some_pos]
      · intro h1 h2
        exact List.mem_append_left _ (haligned h1 h2)

theorem likeliest?_eq (hvisited : s.visited = t.visited) : s.likeliest? g b = t.likeliest? g b := by
  have hlikelier : s.likelier? g b = t.likelier? g b := by
    funext best c
    rw [likelier?, likelier?, hvisited]
  rw [likeliest?, likeliest?, hlikelier]

theorem foldl_enqueue_eq {successors : List BlockId} (hvisited : s.visited = t.visited)
    (hworklist : s.worklist = t.worklist) :
    successors.foldl (enqueue g) s = { s with
      worklist := (successors.foldl (enqueue g) t).worklist
      visited := (successors.foldl (enqueue g) t).visited } := by
  induction successors generalizing s t with
  | nil =>
    rw [List.foldl_nil, List.foldl_nil, ← hvisited, ← hworklist]
  | cons c successors ih =>
    rw [List.foldl_cons, List.foldl_cons, enqueue, enqueue, hvisited]
    split
    · exact ih hvisited hworklist
    · exact ih (by simp [visit, hvisited]) (by simp [hworklist])

theorem leave_eq (hvisited : s.visited = t.visited) (hworklist : s.worklist = t.worklist) :
    s.leave g b = ({ s with
      worklist := (t.leave g b).1.worklist, visited := (t.leave g b).1.visited }, (t.leave g b).2) := by
  rw [leave, leave, likeliest?_eq hvisited]
  cases t.likeliest? g b with
  | none => exact Prod.ext (foldl_enqueue_eq hvisited hworklist) rfl
  | some c => exact Prod.ext (foldl_enqueue_eq (s := s.visit c) (by simp [visit, hvisited]) hworklist) rfl

/-- A state of placing code that goes with a traversal. -/
structure Mirrors (g : Cfg) (s t : OrderState) : Prop where
  fault?_none : s.fault? = none
  worklist : s.worklist = t.worklist
  visited : s.visited = t.visited
  order : s.order = t.order.flatMap g.emits
  aligned : ∀ b ∈ t.order, g.isLoopHeader b = true → isRotated g b = false → b ∈ s.aligned

namespace Mirrors

theorem place (h : Mirrors g s t) (hend : (g.block b).isLoopEnd = true → (g.header? b).isSome)
    {t' : OrderState} {next? : Option BlockId} (hleave : (t.placeNumbered b).leave g b = (t', next?)) :
    (s.placeBlock g b).fault? = none ∧
      ∃ s', (s.placeBlock g b).leave g b = (s', next?) ∧ Mirrors g s' t' := by
  obtain ⟨aligned, hplaced, haligned⟩ := exists_placedBlock s hend
  obtain ⟨new, rfl, -⟩ := exists_left hleave
  have hleave' := leave_eq (g := g) (b := b) (t := t.placeNumbered b) (s := s.placeBlock g b)
    (by rw [hplaced]; exact h.visited) (by rw [hplaced]; exact h.worklist)
  rw [hleave, hplaced] at hleave'
  rw [hplaced]
  refine ⟨h.fault?_none, _, hleave', ⟨h.fault?_none, rfl, rfl, ?_, ?_⟩⟩
  · simp [h.order, placeNumbered]
  · rintro c hc hheader hrotated
    rcases List.mem_append.mp hc with hc | hc
    · exact List.mem_append_left _ (h.aligned c hc hheader hrotated)
    · obtain rfl := List.mem_singleton.mp hc
      exact List.mem_append_right _ (haligned hheader hrotated)

theorem placeCodePath (hg : g.Linked) (hloops : g.NaturalLoops) (fuel : Nat) (h : Mirrors g s t)
    (ht : Traversal g false t [b]) (hfuel : g.size ≤ fuel + t.order.length) :
    ∃ t', Traversal g false t' [] ∧ Mirrors g (placeCodePath g fuel s b) t' ∧
      t.order.length < t'.order.length := by
  induction fuel generalizing s t b with
  | zero =>
    have := (ht.tracked hg).length_le
    simp at this
    omega
  | succ fuel ih =>
    have hend (hloopEnd : (g.block b).isLoopEnd = true) : (g.header? b).isSome := by
      obtain ⟨l, loop, hl, hloop, -⟩ := hloops.jumps_back b hloopEnd
      simp [header?, hl, hloop]
    rcases hleave : (t.placeNumbered b).leave g b with ⟨t', next?⟩
    obtain ⟨horder, -⟩ := (ht.tracked hg).place hg hleave
    have htraversal := ht.place hleave
    obtain ⟨hfault, s', hleave', hmirrors⟩ := h.place hend hleave
    rw [OrderState.placeCodePath, hleave', hfault]
    cases next? with
    | none => exact ⟨t', htraversal, hmirrors, by simp [horder]⟩
    | some c =>
      obtain ⟨t'', htraversal', hmirrors', hlt⟩ := ih hmirrors htraversal (by simp [horder]; omega)
      exact ⟨t'', htraversal', hmirrors', by simp [horder] at hlt; omega⟩

end Mirrors

theorem exists_traversal_codeOrder (hg : g.Linked) (hloops : g.NaturalLoops) :
    ∃ t, Traversal g false t [] ∧ t.worklist.toList = [] ∧ Mirrors g g.codeOrder t := by
  have hstart : Mirrors g (start g) (start g) := ⟨rfl, rfl, rfl, rfl, by simp [start]⟩
  have hstep (n : Nat) (s : OrderState)
      (h : ∃ t, Traversal g false t [] ∧ Mirrors g s t ∧ t.order.length = n) (b : Nat)
      (rest : Heap BlockId) (htake : Heap.takeFirst? g.importance s.worklist = some (b, rest)) :
      ∃ m, n < m ∧ ∃ t, Traversal g false t [] ∧
        Mirrors g (placeCodePath g (g.size + 1) { s with worklist := rest } b) t ∧ t.order.length = m := by
    obtain ⟨t, ht, hs, rfl⟩ := h
    have htaken : Mirrors g { s with worklist := rest } { t with worklist := rest } :=
      ⟨hs.fault?_none, rfl, hs.visited, hs.order, hs.aligned⟩
    obtain ⟨t', ht', hs', hlt⟩ :=
      htaken.placeCodePath hg hloops (g.size + 1) (ht.take (hs.worklist ▸ htake)) (by omega)
    exact ⟨t'.order.length, hlt, t', ht', hs', rfl⟩
  have hfault (n : Nat) (s : OrderState)
      (h : ∃ t, Traversal g false t [] ∧ Mirrors g s t ∧ t.order.length = n) : s.fault? = none := by
    obtain ⟨t, -, hs, -⟩ := h
    exact hs.fault?_none
  have hbound (n : Nat) (s : OrderState)
      (h : ∃ t, Traversal g false t [] ∧ Mirrors g s t ∧ t.order.length = n) : n ≤ g.size := by
    obtain ⟨t, ht, -, rfl⟩ := h
    exact ht.length_order_le hg
  obtain ⟨n, ⟨t, ht, hs, -⟩, hempty⟩ := exists_drained
    (fun n s => ∃ t, Traversal g false t [] ∧ Mirrors g s t ∧ t.order.length = n)
    hfault hbound hstep (g.size + 1) ⟨start g, .start, hstart, rfl⟩ (by simp [start])
  exact ⟨t, ht, hs.worklist ▸ hempty, hs⟩

end OrderState

/-- If loops are natural, all blocks are placed once; a loop's header comes right behind the loop end if
there is one loop end and the header is not it, and is aligned otherwise. -/
theorem codeOrder_rotates_loops (g : Cfg) (hg : g.Linked) (horder : g.IsReversePostOrder)
    (hloops : g.NaturalLoops) :
    ∃ order, g.codeOrder.result = .ok order ∧ order.Perm g.ids ∧ ∀ l loop, g.loops[l]? = some loop →
      ((g.block loop.header).isLoopEnd = false ∧ g.backEdges loop = 1 →
        ∃ e front back, g.loopEnds l = [e] ∧ order = front ++ e :: loop.header :: back) ∧
      (¬((g.block loop.header).isLoopEnd = false ∧ g.backEdges loop = 1) →
        loop.header ∈ g.alignedBlocks g.codeOrder) := by
  obtain ⟨t, ht, hempty, hmirrors⟩ := exists_traversal_codeOrder hg hloops
  have hperm := ht.order_perm_ids hg fun b hb => ht.mem_order hg hempty horder hb
  refine ⟨t.order.flatMap g.emits, ?_, hloops.flatMap_emits_perm hg hperm, ?_⟩
  · rw [result, hmirrors.fault?_none, hmirrors.order]
  intro l loop hloop
  constructor
  · intro hsingle
    have hrotated := (hloops.isRotated_iff hloop).mpr hsingle
    obtain ⟨e, he⟩ := List.length_eq_one_iff.mp ((hloops.backEdges_eq l loop hloop) ▸ hsingle.2)
    have hmem : e ∈ g.loopEnds l := he ▸ List.mem_cons_self
    obtain ⟨hend, hin⟩ := Cfg.mem_loopEnds.mp hmem
    have hplaced : e ∈ t.order := hperm.mem_iff.mpr (List.mem_range.mpr (Cfg.inside_of_loop? hin).lt_size)
    obtain ⟨front, back, hsplit⟩ := List.append_of_mem hplaced
    refine ⟨e, front.flatMap g.emits, back.flatMap g.emits, he, ?_⟩
    rw [hsplit, List.flatMap_append, List.flatMap_cons,
      Cfg.emits_of_loopEnd hend (Cfg.NaturalLoops.header?_of_loopEnd hloop hmem) hrotated]
    rfl
  · intro hnot
    obtain ⟨e, he⟩ := hloops.exists_loopEnd hloop
    have hsize := hg.lt_size e loop.header (hloops.edge_header hloop he)
    have haligned := hmirrors.aligned loop.header (hperm.mem_iff.mpr (List.mem_range.mpr hsize))
      (by simp [Cfg.isLoopHeader, hloops.header?_eq hloop])
      (by rwa [← Bool.not_eq_true, hloops.isRotated_iff hloop])
    exact List.mem_filter.mpr ⟨List.mem_range.mpr hsize, by simpa using haligned⟩

/-- A loop that has two ends and another loop inside; to leave them is likelier than to go on. -/
def nestedLoops : Cfg :=
  .ofSuccessors [([1], 90, none, false), ([2, 7], 99, some 0, false), ([3, 4], 13, some 1, false),
    ([2], 4, some 1, true), ([5, 6], 9, some 0, false), ([1], 8, some 0, true), ([1], 1, some 0, true),
    ([], 90, none, false)] [⟨none, 1⟩, ⟨some 0, 2⟩]

theorem linked_nestedLoops : nestedLoops.Linked := Cfg.linked_ofSuccessors (by decide) (by decide)

theorem isReversePostOrder_nestedLoops : nestedLoops.IsReversePostOrder := by
  have h5 : nestedLoops.Finishes [6, 4, 2, 7, 1, 0] [5] ([] ++ 5 :: []) :=
    .visit (by decide) (List.Perm.refl [1]) (.skip (by decide) (.done _)) (.done _)
  have h6 : nestedLoops.Finishes [4, 2, 7, 1, 0] [6, 5] ([] ++ 6 :: [5]) :=
    .visit (by decide) (List.Perm.refl [1]) (.skip (by decide) (.done _)) h5
  have h3 : nestedLoops.Finishes [6, 5, 4, 2, 7, 1, 0] [3] ([] ++ 3 :: []) :=
    .visit (by decide) (List.Perm.refl [2]) (.skip (by decide) (.done _)) (.done _)
  have h4 : nestedLoops.Finishes [2, 7, 1, 0] [4, 3] ([6, 5] ++ 4 :: [3]) :=
    .visit (by decide) (by decide) h6 h3
  have h2 : nestedLoops.Finishes [7, 1, 0] [2] ([6, 5, 4, 3] ++ 2 :: []) :=
    .visit (by decide) (by decide) h4 (.done _)
  have h7 : nestedLoops.Finishes [1, 0] [7, 2] ([] ++ 7 :: [6, 5, 4, 3, 2]) :=
    .visit (by decide) (List.Perm.refl []) (.done _) h2
  have h1 : nestedLoops.Finishes [0] [1] ([7, 6, 5, 4, 3, 2] ++ 1 :: []) :=
    .visit (by decide) (by decide) h7 (.done _)
  have h0 : nestedLoops.Finishes [] [0] ([7, 6, 5, 4, 3, 2, 1] ++ 0 :: []) :=
    .visit (by decide) (List.Perm.refl [1]) h1 (.done _)
  exact ⟨_, h0, rfl⟩

theorem lt_two_of_nestedLoops {l : Nat} {loop : Loop} (h : nestedLoops.loops[l]? = some loop) : l < 2 :=
  (List.getElem?_eq_some_iff.mp h).1

theorem enteredAtHeaders_nestedLoops : nestedLoops.EnteredAtHeaders := by
  intro l loop p b hloop hb hheader hedge
  have hall : ∀ l < 2, ∀ loop ∈ nestedLoops.loops[l]?, ∀ p < 8, ∀ b ∈ (nestedLoops.block p).successors,
      nestedLoops.Inside l b → b ≠ loop.header → nestedLoops.Inside l p := by decide
  exact hall l (lt_two_of_nestedLoops hloop) loop hloop p (Cfg.lt_size_of_edge hedge) b hedge hb hheader

theorem naturalLoops_nestedLoops : nestedLoops.NaturalLoops where
  parent_lt l loop parent hloop hparent := by
    have hall : ∀ l < 2, ∀ loop ∈ nestedLoops.loops[l]?, ∀ parent ∈ loop.parent?, parent < l := by decide
    exact hall l (lt_two_of_nestedLoops hloop) loop hloop parent hparent
  loop?_header l loop hloop := by
    have hall : ∀ l < 2, ∀ loop ∈ nestedLoops.loops[l]?,
        (nestedLoops.block loop.header).loop? = some l := by decide
    exact hall l (lt_two_of_nestedLoops hloop) loop hloop
  dominates l loop b hloop hb := by
    have hall : ∀ l < 2, ∀ loop ∈ nestedLoops.loops[l]?, nestedLoops.Inside l 0 → loop.header = 0 := by decide
    exact enteredAtHeaders_nestedLoops.dominates hloop
      (hall l (lt_two_of_nestedLoops hloop) loop hloop) hb
  jumps_back e hend := by
    have hall : ∀ e < 8, (nestedLoops.block e).isLoopEnd = true → ∃ l < 2, ∃ loop ∈ nestedLoops.loops[l]?,
        (nestedLoops.block e).loop? = some l ∧ nestedLoops.Edge e loop.header := by decide
    have he : e < 8 := by
      by_contra hle
      rw [Cfg.block_of_le (Nat.le_of_not_lt hle)] at hend
      cases hend
    obtain ⟨l, -, loop, hloop, hin, hedge⟩ := hall e he hend
    exact ⟨l, loop, hin, hloop, hedge⟩
  backEdges_eq l loop hloop := by
    have hall : ∀ l < 2, ∀ loop ∈ nestedLoops.loops[l]?,
        nestedLoops.backEdges loop = (nestedLoops.loopEnds l).length := by decide
    exact hall l (lt_two_of_nestedLoops hloop) loop hloop
  loopEnds_ne_nil := by decide

theorem codeOrder_rotates_loops_nested :
    nestedLoops.Linked ∧ nestedLoops.IsReversePostOrder ∧ nestedLoops.NaturalLoops ∧
    ∃ order, nestedLoops.codeOrder.result = .ok order ∧ order.Perm nestedLoops.ids ∧
      ∀ l loop, nestedLoops.loops[l]? = some loop →
        ((nestedLoops.block loop.header).isLoopEnd = false ∧ nestedLoops.backEdges loop = 1 →
          ∃ e front back, nestedLoops.loopEnds l = [e] ∧ order = front ++ e :: loop.header :: back) ∧
        (¬((nestedLoops.block loop.header).isLoopEnd = false ∧ nestedLoops.backEdges loop = 1) →
          loop.header ∈ nestedLoops.alignedBlocks nestedLoops.codeOrder) :=
  ⟨linked_nestedLoops, isReversePostOrder_nestedLoops, naturalLoops_nestedLoops,
    codeOrder_rotates_loops nestedLoops linked_nestedLoops isReversePostOrder_nestedLoops
      naturalLoops_nestedLoops⟩

end CompilerKit.ControlFlow
