import CompilerKit.ControlFlow.Order
import CompilerKit.Proofs.Collections.Heap
import CompilerKit.Proofs.ControlFlow.ReversePostOrder
import CompilerKit.Proofs.FloatingPoint.Equality

/-! # Placing blocks

Both block orders arise in the same way: the most important block is taken from the worklist, blocks are
placed along a path, and one that is to follow may be postponed. A traversal is a state that arises so.
The code order places its blocks in another arrangement and never postpones one; its states are those of
a traversal but for their order.

Every block that has been visited is placed, waits on the worklist or is about to be placed (`Tracked`).
A block that is not visited although it comes after a placed one has been postponed: it is no loop header,
and another of its predecessors is not placed yet. What is taken from the worklist is no less deep than what
is left there.
-/

namespace CompilerKit.ControlFlow

namespace OrderState

open Cfg

variable {g : Cfg} {s t : OrderState} {b : Nat}

/-! ## Steps -/

/-- What comes out on top of some successors: it is one that is not visited and in no outer loop. -/
theorem mem_of_likelier? {successors : List BlockId} {best : Option BlockId} {c : BlockId}
    (h : successors.foldl (s.likelier? g b) best = some c) :
    best = some c ∨ c ∈ successors ∧ c ∉ s.visited ∧ g.loopDepth b ≤ g.loopDepth c := by
  induction successors generalizing best with
  | nil => exact Or.inl h
  | cons d successors ih =>
    rcases ih h with hbest | ⟨hmem, hnew⟩
    · rw [likelier?] at hbest
      split at hbest
      case isTrue hchosen =>
        obtain rfl := Option.some.inj hbest
        simp only [Bool.and_eq_true, Bool.not_eq_true', List.contains_eq_mem, decide_eq_false_iff_not,
          decide_eq_true_iff] at hchosen
        exact Or.inr ⟨List.mem_cons_self, hchosen.1⟩
      case isFalse => exact Or.inl hbest
    · exact Or.inr ⟨List.mem_cons_of_mem d hmem, hnew⟩

theorem edge_of_likeliest? {c : Nat} (h : s.likeliest? g b = some c) :
    g.Edge b c ∧ c ∉ s.visited ∧ g.loopDepth b ≤ g.loopDepth c := by
  rcases mem_of_likelier? h with hnone | hedge
  · cases hnone
  · exact hedge

theorem exists_enqueued (s : OrderState) (successors : List BlockId) :
    ∃ new : List BlockId, successors.foldl (enqueue g) s =
        { s with
          worklist := new.foldl (Heap.insert g.importance) s.worklist
          visited := new.reverse ++ s.visited } ∧
      new.Nodup ∧ (∀ c ∈ new, c ∈ successors ∧ c ∉ s.visited) ∧
      ∀ c ∈ successors, c ∈ new ∨ c ∈ s.visited := by
  induction successors generalizing s with
  | nil => exact ⟨[], by simp, List.nodup_nil, by simp, by simp⟩
  | cons d successors ih =>
    rw [List.foldl_cons, enqueue]
    by_cases hd : d ∈ s.visited
    · rw [if_pos (by simpa using hd)]
      obtain ⟨new, hrun, hnodup, hnew, hall⟩ := ih s
      refine ⟨new, hrun, hnodup, fun c hc => ?_, List.forall_mem_cons.mpr ⟨Or.inr hd, hall⟩⟩
      exact ⟨List.mem_cons_of_mem d (hnew c hc).1, (hnew c hc).2⟩
    · rw [if_neg (by simpa using hd)]
      obtain ⟨new, hrun, hnodup, hnew, hall⟩ :=
        ih { s.visit d with worklist := Heap.insert g.importance s.worklist d }
      simp only [visit, List.mem_cons, not_or] at hnew hall
      refine ⟨d :: new, hrun.trans (by simp [visit]), ?_, ?_, ?_⟩
      · exact List.nodup_cons.mpr ⟨fun hmem => (hnew d hmem).2.1 rfl, hnodup⟩
      · refine List.forall_mem_cons.mpr ⟨⟨List.mem_cons_self, hd⟩, fun c hc => ?_⟩
        exact ⟨List.mem_cons_of_mem d (hnew c hc).1, (hnew c hc).2.2⟩
      · refine List.forall_mem_cons.mpr ⟨Or.inl List.mem_cons_self, fun c hc => ?_⟩
        rcases hall c hc with hmem | rfl | hmem
        · exact Or.inl (List.mem_cons_of_mem d hmem)
        · exact Or.inl List.mem_cons_self
        · exact Or.inr hmem

/-- All successors of a block are visited when it is left: the likeliest one and those that are put on
the worklist. -/
theorem exists_left {next? : Option BlockId} (h : s.leave g b = (t, next?)) :
    ∃ new : List BlockId, t = { s with
        worklist := new.foldl (Heap.insert g.importance) s.worklist
        visited := new.reverse ++ (next?.toList ++ s.visited) } ∧
      (new ++ next?.toList).Nodup ∧ (∀ c ∈ new ++ next?.toList, g.Edge b c ∧ c ∉ s.visited) ∧
      ∀ c, g.Edge b c → c ∈ new ∨ c ∈ next?.toList ∨ c ∈ s.visited := by
  cases hnext : s.likeliest? g b with
  | none =>
    rw [leave, hnext] at h
    obtain ⟨rfl, rfl⟩ := Prod.mk.inj h
    obtain ⟨new, hrun, hnodup, hnew, hall⟩ := exists_enqueued s (g.block b).successors
    exact ⟨new, hrun, by simpa using hnodup, by simpa [Edge] using hnew, by simpa [Edge] using hall⟩
  | some c =>
    rw [leave, hnext] at h
    obtain ⟨rfl, rfl⟩ := Prod.mk.inj h
    obtain ⟨hedge, hc, -⟩ := edge_of_likeliest? hnext
    obtain ⟨new, hrun, hnodup, hnew, hall⟩ := exists_enqueued (s.visit c) (g.block b).successors
    simp only [visit, List.mem_cons, not_or] at hnew hall
    refine ⟨new, hrun, ?_, ?_, fun d hd => ?_⟩
    · rw [Option.toList_some, List.nodup_append]
      refine ⟨hnodup, List.nodup_singleton c, fun d hd e he => ?_⟩
      obtain rfl := List.mem_singleton.mp he
      exact (hnew d hd).2.1
    · rintro d hd
      rcases List.mem_append.mp hd with hd | hd
      · exact ⟨(hnew d hd).1, (hnew d hd).2.2⟩
      · obtain rfl := List.mem_singleton.mp hd
        exact ⟨hedge, hc⟩
    · simpa using hall d hd

theorem exists_unplaced {c : Nat} (hweight : FloatingPoint.Double.zero.le (g.weight b) = true)
    (h : s.postpones g b c) :
    g.isLoopHeader c = false ∧ ∃ p ∈ (g.block c).predecessors, s.number? p = none := by
  simp only [postpones, Bool.and_eq_true, Bool.not_eq_true'] at h
  obtain ⟨⟨hheader, -⟩, hsum⟩ := h
  refine ⟨hheader, ?_⟩
  by_contra hnone
  have hempty : (g.block c).predecessors.filter (fun p => decide (s.number? p = none)) = [] := by
    rw [List.filter_eq_nil_iff]
    intro p hp hp'
    exact hnone ⟨p, hp, of_decide_eq_true hp'⟩
  rw [hempty, List.map_nil, List.foldl_nil, FloatingPoint.Double.div_ten_not_lt_zero hweight] at hsum
  cases hsum

/-! ## What holds all along -/

/-- The visited blocks are those that are placed, on the worklist or held, and unvisited blocks after
placed ones have been postponed. -/
structure Tracked (g : Cfg) (s : OrderState) (held : List BlockId) : Prop where
  fault?_none : s.fault? = none
  nodup : (s.order ++ (s.worklist.toList ++ held)).Nodup
  mem_visited : ∀ c, c ∈ s.visited ↔ c ∈ s.order ++ (s.worklist.toList ++ held)
  lt_size : ∀ c : Nat, c ∈ s.visited → c < g.size
  numbers_size : s.numbers.size = g.size
  number?_placed : ∀ i c, s.order[i]? = some c → s.number? c = some i
  number?_unplaced : ∀ c, c ∉ s.order → s.number? c = none
  postponed : ∀ c, c ∉ s.visited → (∃ p ∈ s.order, g.Edge p c) →
    g.isLoopHeader c = false ∧ ∃ p, p ∉ s.order ∧ g.Edge p c

theorem number?_placeNumbered (s : OrderState) {b c : Nat} (hb : b < s.numbers.size) :
    (s.placeNumbered b).number? c = if c = b then some s.order.length else s.number? c := by
  by_cases hc : c = b
  · simp [number?, placeNumbered, Array.getD_eq_getD_getElem?, hc, hb]
  · simp [number?, placeNumbered, Array.getD_eq_getD_getElem?, hc, Ne.symm hc]

namespace Tracked

variable {held : List BlockId}

theorem length_le (h : Tracked g s held) : (s.order ++ (s.worklist.toList ++ held)).length ≤ g.size := by
  have hsubset : s.order ++ (s.worklist.toList ++ held) ⊆ List.range g.size := fun c hc =>
    List.mem_range.mpr (h.lt_size c ((h.mem_visited c).mpr hc))
  simpa using (h.nodup.subperm hsubset).length_le

theorem notMem_order (h : Tracked g s [b]) : b ∉ s.order := fun hmem =>
  (List.nodup_append.mp h.nodup).2.2 b hmem b (by simp) rfl

theorem lt_size_of_held (h : Tracked g s [b]) : b < g.size :=
  h.lt_size b ((h.mem_visited b).mpr (by simp))

theorem number?_of_place (h : Tracked g s [b]) {i : Nat} {c : BlockId}
    (hc : (s.order ++ [b])[i]? = some c) : (s.placeNumbered b).number? c = some i := by
  rw [number?_placeNumbered s (h.numbers_size.symm ▸ h.lt_size_of_held)]
  by_cases hi : i < s.order.length
  · rw [List.getElem?_append_left hi] at hc
    have hne : c ≠ b := by
      rintro rfl
      exact h.notMem_order (List.mem_of_getElem? hc)
    rw [if_neg hne, h.number?_placed i c hc]
  · rw [List.getElem?_append_right (by omega), List.getElem?_singleton] at hc
    split at hc
    case isTrue hzero => rw [if_pos (Option.some.inj hc).symm, show s.order.length = i by omega]
    case isFalse => cases hc

/-- When a block is placed and its successors are visited, the blocks that have been postponed still wait for
others. -/
theorem postponed_of_place (h : Tracked g s held) {visited : List BlockId} (hvisited : s.visited ⊆ visited)
    (hsuccessors : ∀ c, g.Edge b c → c ∈ visited) {c : BlockId} (hc : c ∉ visited)
    (hplaced : ∃ p ∈ s.order ++ [b], g.Edge p c) :
    g.isLoopHeader c = false ∧ ∃ p, p ∉ s.order ++ [b] ∧ g.Edge p c := by
  have hedge : ¬g.Edge b c := fun hedge => hc (hsuccessors c hedge)
  have hmem {p : BlockId} (hpc : g.Edge p c) : p ∈ s.order ++ [b] ↔ p ∈ s.order := by
    rw [List.mem_append, List.mem_singleton, or_iff_left]
    rintro rfl
    exact hedge hpc
  obtain ⟨p, hp, hpc⟩ := hplaced
  obtain ⟨hheader, q, hq, hqc⟩ :=
    h.postponed c (fun hmem => hc (hvisited hmem)) ⟨p, (hmem hpc).mp hp, hpc⟩
  exact ⟨hheader, q, fun hq' => hq ((hmem hqc).mp hq'), hqc⟩

theorem place (hg : g.Linked) (h : Tracked g s [b]) {next? : Option BlockId}
    (hleave : (s.placeNumbered b).leave g b = (t, next?)) :
    t.order = s.order ++ [b] ∧ Tracked g t next?.toList := by
  obtain ⟨new, rfl, hnodup, hnew, hall⟩ := exists_left hleave
  have hperm :
      (s.order ++ [b] ++ ((new.foldl (Heap.insert g.importance) s.worklist).toList ++ next?.toList)).Perm
        (s.order ++ (s.worklist.toList ++ [b]) ++ (new ++ next?.toList)) := by
    have hswap : ([b] ++ s.worklist.toList).Perm (s.worklist.toList ++ [b]) := List.perm_append_comm
    refine (((Heap.foldl_insert_perm s.worklist new).append_right next?.toList).append_left _).trans ?_
    simpa using (hswap.append_left s.order).append_right (new ++ next?.toList)
  refine ⟨rfl, ⟨h.fault?_none, ?_, fun c => ?_, fun c hc => ?_, ?_,
    fun i c hc => h.number?_of_place hc, fun c hc => ?_, fun c hc => h.postponed_of_place ?_ ?_ hc⟩⟩
  · refine hperm.nodup_iff.mpr (List.nodup_append.mpr ⟨h.nodup, hnodup, ?_⟩)
    rintro c hc _ hc' rfl
    exact (hnew c hc').2 ((h.mem_visited c).mpr hc)
  · refine Iff.trans ?_ hperm.mem_iff.symm
    rw [List.mem_append (s := s.order ++ _), ← h.mem_visited]
    simp only [placeNumbered, List.mem_append, List.mem_reverse]
    tauto
  · simp only [List.mem_append, List.mem_reverse] at hc
    rcases hc with hc | hc | hc
    · exact hg.lt_size b c (hnew c (List.mem_append_left _ hc)).1
    · exact hg.lt_size b c (hnew c (List.mem_append_right _ hc)).1
    · exact h.lt_size c hc
  · simpa [placeNumbered] using h.numbers_size
  · have hc : c ∉ s.order ++ [b] := hc
    rw [List.mem_append, List.mem_singleton, not_or] at hc
    refine (number?_placeNumbered s (h.numbers_size.symm ▸ h.lt_size_of_held)).trans ?_
    rw [if_neg hc.2, h.number?_unplaced c hc.1]
  · exact fun d hd => List.mem_append_right _ (List.mem_append_right _ hd)
  · intro d hd
    simpa using hall d hd

theorem postpone (hg : g.Linked) {c : Nat} (h : Tracked g s [c])
    (hweight : FloatingPoint.Double.zero.le (g.weight b) = true) (hpostpones : s.postpones g b c) :
    Tracked g { s with visited := s.visited.filter (· ≠ c) } [] := by
  have hnodup := h.nodup
  rw [← List.append_assoc, List.nodup_append] at hnodup
  obtain ⟨hnodup, -, hapart⟩ := hnodup
  have hmem (d : BlockId) : d ∈ s.visited.filter (· ≠ c) ↔ d ∈ s.order ++ (s.worklist.toList ++ []) := by
    rw [List.mem_filter, h.mem_visited, List.append_nil, ← List.append_assoc, List.mem_append,
      List.mem_singleton, decide_eq_true_iff]
    constructor
    · rintro ⟨hd | rfl, hne⟩
      · exact hd
      · exact absurd rfl hne
    · exact fun hd => ⟨Or.inl hd, hapart d hd c (List.mem_singleton_self c)⟩
  refine ⟨h.fault?_none, by rwa [List.append_nil], hmem, fun d hd => h.lt_size d (List.mem_filter.mp hd).1,
    h.numbers_size, h.number?_placed, h.number?_unplaced, fun d hd hplaced => ?_⟩
  by_cases hdc : d = c
  · obtain ⟨hheader, p, hp, hnone⟩ := exists_unplaced hweight hpostpones
    subst hdc
    refine ⟨hheader, p, fun hmem => ?_, (hg.mem_predecessors p d).mp hp⟩
    obtain ⟨i, hi⟩ := List.getElem?_of_mem hmem
    rw [h.number?_placed i p hi] at hnone
    cases hnone
  · refine h.postponed d (fun hvisited => hd ?_) hplaced
    exact List.mem_filter.mpr ⟨hvisited, decide_eq_true hdc⟩

theorem take {rest : Heap BlockId} (h : Tracked g s [])
    (htake : Heap.takeFirst? g.importance s.worklist = some (b, rest)) :
    Tracked g { s with worklist := rest } [b] := by
  have hperm : (s.order ++ (rest.toList ++ [b])).Perm (s.order ++ (s.worklist.toList ++ [])) := by
    rw [List.append_nil]
    refine List.Perm.append_left s.order ?_
    exact List.perm_append_comm.trans (Heap.takeFirst?_perm htake).symm
  exact ⟨h.fault?_none, hperm.nodup_iff.mpr h.nodup, fun c => (h.mem_visited c).trans hperm.mem_iff.symm,
    h.lt_size, h.numbers_size, h.number?_placed, h.number?_unplaced, h.postponed⟩

end Tracked

theorem tracked_start (hg : g.Linked) : Tracked g (start g) [] := by
  refine ⟨rfl, by simp [start], by simp [start], ?_, by simp [start], by simp [start], ?_, by simp [start]⟩
  · intro c hc
    rw [List.mem_singleton.mp hc]
    exact hg.size_pos
  · intro c _
    rw [number?, start, Array.getD_eq_getD_getElem?, Array.getElem?_replicate]
    split <;> rfl

/-! ## Traversals -/

/-- The states between two steps, with the block that is to be placed next. -/
inductive Traversal (g : Cfg) (postponing : Bool) : OrderState → List BlockId → Prop
  | start : Traversal g postponing (start g) []
  | take {s : OrderState} {b : BlockId} {rest : Heap BlockId} : Traversal g postponing s [] →
    Heap.takeFirst? g.importance s.worklist = some (b, rest) →
      Traversal g postponing { s with worklist := rest } [b]
  | place {s s' : OrderState} {b : BlockId} {next? : Option BlockId} : Traversal g postponing s [b] →
    (s.placeNumbered b).leave g b = (s', next?) → Traversal g postponing s' next?.toList
  | postpone {s : OrderState} {b c : BlockId} : Traversal g postponing s [c] → postponing = true → c ≠ 0 →
    FloatingPoint.Double.zero.le (g.weight b) = true → s.postpones g b c →
      Traversal g postponing { s with visited := s.visited.filter (· ≠ c) } []

theorem importance_refines : Heap.Refines g.importance fun b c => g.loopDepth c ≤ g.loopDepth b where
  trans hxy hyz := hyz.trans hxy
  le_of_ne_gt h := by
    unfold importance at h
    split at h
    · exact Nat.le_of_not_lt fun hlt => h (compare_gt_iff_gt.mpr hlt)
    · next heq => exact (not_not.mp heq).ge
  ge_of_ne_lt h := by
    unfold importance at h
    split at h
    · exact Nat.le_of_not_lt fun hlt => h (compare_lt_iff_lt.mpr hlt)
    · next heq => exact (not_not.mp heq).le

namespace Traversal

variable {postponing : Bool} {held : List BlockId}

theorem tracked (h : Traversal g postponing s held) (hg : g.Linked) : Tracked g s held := by
  induction h with
  | start => exact tracked_start hg
  | take _ htake ih => exact ih.take htake
  | place _ hleave ih => exact (ih.place hg hleave).2
  | postpone _ _ _ hweight hpostpones ih => exact ih.postpone hg hweight hpostpones

theorem ordered (h : Traversal g postponing s held) :
    Heap.Ordered (fun b c => g.loopDepth c ≤ g.loopDepth b) s.worklist := by
  induction h with
  | start =>
    intro k hk x y _ hy
    obtain ⟨hlt, -⟩ := Array.getElem?_eq_some_iff.mp hy
    exact absurd hlt (Nat.not_lt.mpr hk)
  | take _ htake ih => exact (Heap.takeFirst?_ordered importance_refines ih htake).1
  | @place s s' b next? _ hleave ih =>
    obtain ⟨new, rfl, -⟩ := exists_left hleave
    exact Heap.foldl_insert_ordered importance_refines ih new
  | postpone _ _ _ _ _ ih => exact ih

/-- The block that is taken waited, and no deeper one did. -/
theorem deepest (h : Traversal g postponing s held) {rest : Heap BlockId}
    (htake : Heap.takeFirst? g.importance s.worklist = some (b, rest)) :
    b ∈ s.worklist.toList ∧ ∀ c ∈ s.worklist.toList, g.loopDepth c ≤ g.loopDepth b :=
  ⟨(Heap.takeFirst?_perm htake).mem_iff.mpr List.mem_cons_self,
    (Heap.takeFirst?_ordered importance_refines h.ordered htake).2⟩

theorem head?_eq (h : Traversal g postponing s held) :
    (s.order ++ held).head? = some 0 ∨ s.order ++ held = [] ∧ s.worklist = #[0] := by
  induction h with
  | start => exact Or.inr ⟨rfl, rfl⟩
  | @take s b rest _ htake ih =>
    rw [List.append_nil] at ih
    left
    rcases ih with hhead | ⟨hnil, hworklist⟩
    · rw [List.head?_append, hhead, Option.some_or]
    · have hperm := Heap.takeFirst?_perm htake
      rw [hworklist] at hperm
      have hb : b ∈ [0] := hperm.mem_iff.mpr List.mem_cons_self
      simp [hnil, List.mem_singleton.mp hb]
  | @place s s' b next? _ hleave ih =>
    obtain ⟨new, rfl, -⟩ := exists_left hleave
    have hhead : (s.order ++ [b]).head? = some 0 := ih.resolve_right (by simp)
    refine Or.inl ?_
    rw [show (s.placeNumbered b).order = s.order ++ [b] from rfl, List.head?_append, hhead, Option.some_or]
  | @postpone s b c _ _ hne _ _ ih =>
    have hhead : (s.order ++ [c]).head? = some 0 := ih.resolve_right (by simp)
    left
    cases horder : s.order with
    | nil => simp [horder, hne] at hhead
    | cons d order => simpa [horder] using hhead

theorem length_order_le (h : Traversal g postponing s held) (hg : g.Linked) : s.order.length ≤ g.size := by
  have := (h.tracked hg).length_le
  rw [List.length_append] at this
  omega

/-- Placed blocks lead to every block that has been visited. -/
theorem exists_path (h : Traversal g postponing s held) (hg : g.Linked) {c : BlockId}
    (hc : c ∈ s.visited) :
    ∃ path, Path g.Edge c (c :: path) ∧ path ⊆ s.order := by
  induction h generalizing c with
  | start =>
    obtain rfl := List.mem_singleton.mp hc
    exact ⟨[], .start, List.nil_subset _⟩
  | take _ _ ih => exact ih hc
  | @place s s' b next? hs hleave ih =>
    obtain ⟨new, rfl, -, hnew, -⟩ := exists_left hleave
    have hgrown : s.order ⊆ s.order ++ [b] := List.subset_append_left _ _
    have hcases : c ∈ new ++ next?.toList ∨ c ∈ s.visited := by
      simpa [placeNumbered, or_assoc] using hc
    rcases hcases with hc | hc
    · obtain ⟨path, hpath, hsubset⟩ := ih (((hs.tracked hg).mem_visited b).mpr (by simp))
      refine ⟨b :: path, .step hpath (hnew c hc).1, List.cons_subset.mpr ⟨?_, ?_⟩⟩
      · exact List.mem_append_right _ List.mem_cons_self
      · exact List.Subset.trans hsubset hgrown
    · obtain ⟨path, hpath, hsubset⟩ := ih hc
      exact ⟨path, hpath, List.Subset.trans hsubset hgrown⟩
  | postpone _ _ _ _ _ ih => exact ih (List.mem_filter.mp hc).1

theorem zero_mem_visited (h : Traversal g postponing s held) : 0 ∈ s.visited := by
  induction h with
  | start => exact List.mem_cons_self
  | take _ _ ih => exact ih
  | @place s s' b next? _ hleave ih =>
    obtain ⟨new, rfl, -⟩ := exists_left hleave
    exact List.mem_append_right _ (List.mem_append_right _ ih)
  | postpone _ _ hne _ _ ih => exact List.mem_filter.mpr ⟨ih, decide_eq_true hne.symm⟩

theorem mem_visited_of_edge (h : Traversal g false s held) {p c : BlockId} (hp : p ∈ s.order)
    (hedge : g.Edge p c) : c ∈ s.visited := by
  induction h with
  | start => cases hp
  | take _ _ ih => exact ih hp
  | @place s s' b next? _ hleave ih =>
    obtain ⟨new, rfl, -, -, hall⟩ := exists_left hleave
    rcases List.mem_append.mp hp with hp | hp
    · exact List.mem_append_right _ (List.mem_append_right _ (ih hp))
    · obtain rfl := List.mem_singleton.mp hp
      simpa using hall c hedge
  | postpone _ hfalse => cases hfalse

theorem mem_order_iff (h : Traversal g postponing s []) (hg : g.Linked) (hempty : s.worklist.toList = [])
    (c : BlockId) : c ∈ s.order ↔ c ∈ s.visited := by
  simp [(h.tracked hg).mem_visited, hempty]

theorem mem_order (h : Traversal g false s []) (hg : g.Linked) (hempty : s.worklist.toList = [])
    (horder : g.IsReversePostOrder) {b : Nat} (hb : b < g.size) : b ∈ s.order := by
  induction b using Nat.strong_induction_on with
  | _ b ih =>
    rw [h.mem_order_iff hg hempty]
    rcases Nat.eq_zero_or_pos b with rfl | hpos
    · exact h.zero_mem_visited
    · obtain ⟨p, hedge, hlt⟩ := horder.exists_edge hpos hb
      exact h.mem_visited_of_edge (ih p hlt (hlt.trans hb)) hedge

theorem order_perm_ids (h : Traversal g postponing s held) (hg : g.Linked)
    (hall : ∀ b : Nat, b < g.size → b ∈ s.order) : s.order.Perm g.ids := by
  refine (List.perm_ext_iff_of_nodup (List.nodup_append.mp (h.tracked hg).nodup).1 List.nodup_range).mpr
    fun b => ?_
  rw [List.mem_range]
  constructor
  · intro hb
    exact (h.tracked hg).lt_size b (((h.tracked hg).mem_visited b).mpr (List.mem_append_left _ hb))
  · exact hall b

end Traversal

/-- The worklist gets empty if with each path a number grows that has a bound. -/
theorem exists_drained (P : Nat → OrderState → Prop) {place : OrderState → BlockId → OrderState} {bound : Nat}
    (hfault : ∀ n s, P n s → s.fault? = none) (hbound : ∀ n s, P n s → n ≤ bound)
    (hstep : ∀ n s, P n s → ∀ b rest, Heap.takeFirst? g.importance s.worklist = some (b, rest) →
      ∃ m, n < m ∧ P m (place { s with worklist := rest } b))
    (fuel : Nat) {n : Nat} (h : P n s) (hfuel : bound < fuel + n) :
    ∃ m, P m (s.drain g place fuel) ∧ (s.drain g place fuel).worklist.toList = [] := by
  induction fuel generalizing s n with
  | zero =>
    have := hbound n s h
    omega
  | succ fuel ih =>
    have hnone := hfault n s h
    cases htake : Heap.takeFirst? g.importance s.worklist with
    | none =>
      rw [drain, hnone, htake]
      exact ⟨n, h, Heap.takeFirst?_eq_none htake⟩
    | some taken =>
      obtain ⟨b, rest⟩ := taken
      obtain ⟨m, hlt, hplaced⟩ := hstep n s h b rest htake
      have hdrain : s.drain g place (fuel + 1) =
          (place { s with worklist := rest } b).drain g place fuel := by rw [drain, hnone, htake]
      rw [hdrain]
      exact ih (n := m) hplaced (by omega)

end OrderState

end CompilerKit.ControlFlow
