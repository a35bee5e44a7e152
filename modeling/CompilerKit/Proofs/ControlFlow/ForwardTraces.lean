import CompilerKit.Proofs.Collections.Heap
import CompilerKit.Proofs.ControlFlow.Traces

/-! # Forward traces

A block becomes a start when its last predecessor is done, and a trace may run through it before that. If a
block is passed by, because the trace went on to another successor, it has no other predecessor: it waits for
nothing any more and is on the worklist. So every successor of a block that is done is done, on the worklist
or the next one (`Growing`), and nothing is left out when the worklist is empty.
-/

namespace CompilerKit.ControlFlow

/-- All blocks can be reached from the start, and nothing leads back to it. The lists of both sides name each
edge equally often. If a block has several successors, it is the only predecessor of them. -/
structure Cfg.IsEdgeSplit (g : Cfg) : Prop extends g.Linked where
  count_predecessors : ∀ p b : Nat, (g.block b).predecessors.count p = (g.block p).successors.count b
  reachable : ∀ b : Nat, b < g.size → ∃ path, Path g.Edge b path
  not_edge_start : ∀ p, ¬g.Edge p 0
  eq_of_edge : ∀ p b c q : Nat, g.Edge p b → g.Edge p c → b ≠ c → g.Edge q b → q = p

namespace Cfg

variable {g : Cfg}

theorem Linked.count_predecessors_eq (hg : g.Linked)
    (h : ∀ p < g.size, ∀ b < g.size, (g.block b).predecessors.count p = (g.block p).successors.count b)
    (p b : Nat) : (g.block b).predecessors.count p = (g.block p).successors.count b := by
  by_cases hedge : g.Edge p b
  · exact h p (lt_size_of_edge hedge) b (hg.lt_size p b hedge)
  · rw [List.count_eq_zero.mpr hedge, List.count_eq_zero.mpr fun hp => hedge ((hg.mem_predecessors p b).mp hp)]

end Cfg

namespace ForwardState

/-- A trace is followed to its end, however long it takes. -/
inductive Follows (g : Cfg) : ForwardState → Nat → BlockId → Trace → ForwardState → Prop
  | last {s : ForwardState} {i : Nat} {b : BlockId} :
    (s.visit g i b).successor? g b = none → Follows g s i b [b] (s.visit g i b)
  | next {s s' : ForwardState} {i : Nat} {b c : BlockId} {t : Trace} :
    (s.visit g i b).successor? g b = some c → Follows g (s.visit g i b) (i + 1) c t s' →
      Follows g s i b (b :: t) s'

/-- Traces are started until the worklist is empty, however long it takes. -/
inductive Runs (g : Cfg) : ForwardState → ForwardState → Prop
  | done {s : ForwardState} : Heap.takeFirst? (priority g) s.worklist = none → Runs g s s
  | skip {s s' : ForwardState} {b : BlockId} {worklist : Heap BlockId} :
    Heap.takeFirst? (priority g) s.worklist = some (b, worklist) → b ∈ s.processed →
      Runs g { s with worklist } s' → Runs g s s'
  | grow {s s' s'' : ForwardState} {b : BlockId} {worklist : Heap BlockId} {t : Trace} :
    Heap.takeFirst? (priority g) s.worklist = some (b, worklist) → b ∉ s.processed →
      Follows g { s with worklist } 0 b t s' → Runs g { s' with toTraceState := s'.complete t } s'' →
      Runs g s s''

variable {g : Cfg} {s s' : ForwardState} {b c : Nat} {i : Nat} {cs : List BlockId} {t : Trace}
  {next? : Option BlockId}

theorem Follows.ne_nil (h : Follows g s i b t s') : t ≠ [] := by
  cases h with
  | last _ => exact List.cons_ne_nil _ _
  | next _ _ => exact List.cons_ne_nil _ _

/-- For how many of its predecessors a block has to wait. -/
def left (g : Cfg) (s : ForwardState) (c : BlockId) : Nat :=
  (g.block c).predecessors.countP fun p => p ∉ s.processed

theorem left_eq_zero_iff (hg : g.Linked) : s.left g c = 0 ↔ ∀ p, g.Edge p c → p ∈ s.processed := by
  simp [left, List.countP_eq_zero, hg.mem_predecessors]

theorem release_of_mem (hc : c ∈ s.processed) : s.release g c = s := by
  rw [release, if_pos (TraceState.isProcessed_iff.mpr hc)]

theorem exists_release (hc : c ∉ s.processed) :
    ∃ worklist,
      s.release g c = { s with worklist, blocked := s.blocked.setIfInBounds c (s.blocked.getD c 0 - 1) } ∧
      (∀ d, d ∈ worklist.toList ↔ d ∈ s.worklist.toList ∨ d = c ∧ s.blocked.getD c 0 = 1) ∧
      (s.worklist.toList.Nodup → c ∉ s.worklist.toList → worklist.toList.Nodup) := by
  rw [release, if_neg fun hdone => hc (TraceState.isProcessed_iff.mp hdone)]
  refine ⟨_, rfl, ?_⟩
  split
  case isTrue hzero =>
    have hperm : (Heap.insert (priority g) s.worklist c).toList.Perm (c :: s.worklist.toList) :=
      Heap.insert_perm _ _
    refine ⟨fun d => ?_, fun hnodup hout => hperm.nodup_iff.mpr (List.nodup_cons.mpr ⟨hout, hnodup⟩)⟩
    rw [hperm.mem_iff, List.mem_cons, or_comm, and_iff_left (by omega)]
  case isFalse hzero =>
    exact ⟨fun d => (or_iff_left fun h => hzero (by omega)).symm, fun hnodup _ => hnodup⟩

theorem exists_released (s : ForwardState) (cs : List BlockId) :
    ∃ worklist blocked, cs.foldl (release g) s = { s with worklist, blocked } ∧
      s.worklist.toList ⊆ worklist.toList ∧
      ∀ d ∈ worklist.toList, d ∈ s.worklist.toList ∨ d ∉ s.processed := by
  induction cs generalizing s with
  | nil => exact ⟨s.worklist, s.blocked, rfl, List.Subset.refl _, fun d hd => Or.inl hd⟩
  | cons c cs ih =>
    rw [List.foldl_cons]
    by_cases hc : c ∈ s.processed
    · rw [release_of_mem hc]
      exact ih s
    · obtain ⟨next, hrelease, hmem, -⟩ := exists_release (g := g) hc
      obtain ⟨worklist, blocked, heq, hsubset, hnew⟩ := ih (s.release g c)
      rw [hrelease] at heq hsubset hnew ⊢
      refine ⟨worklist, blocked, heq, fun d hd => hsubset ((hmem d).mpr (Or.inl hd)), fun d hd => ?_⟩
      rcases hnew d hd with hd | hd
      · rcases (hmem d).mp hd with hd | ⟨rfl, -⟩
        · exact Or.inl hd
        · exact Or.inr hc
      · exact Or.inr hd

/-- The tables while blocks `cs` have still to be released; of the next block nothing has to be known. A block
that is not done is on the worklist exactly if it waits for nothing. -/
structure Counts (g : Cfg) (s : ForwardState) (cs : List BlockId) (next? : Option BlockId) : Prop where
  nodup : s.worklist.toList.Nodup
  lt_size : ∀ c ∈ s.worklist.toList, c < g.size
  blocked : ∀ c : Nat, c < g.size → c ∉ s.processed → next? ≠ some c →
    s.blocked[c]? = some ((s.left g c + cs.count c : Nat) : Int)
  mem_worklist : ∀ c : Nat, c < g.size → c ∉ s.processed → next? ≠ some c →
    (c ∈ s.worklist.toList ↔ s.left g c + cs.count c = 0)

namespace Counts

theorem weaken (h : Counts g s cs none) : Counts g s cs next? :=
  ⟨h.nodup, h.lt_size, fun c hc hnew _ => h.blocked c hc hnew (by simp),
    fun c hc hnew _ => h.mem_worklist c hc hnew (by simp)⟩

theorem release (h : Counts g s (c :: cs) none) (hc : c < g.size) : Counts g (s.release g c) cs none := by
  by_cases hdone : c ∈ s.processed
  · have hne {d : Nat} (hd : d ∉ s.processed) : c ≠ d := by
      rintro rfl
      exact hd hdone
    rw [release_of_mem hdone]
    refine ⟨h.nodup, h.lt_size, fun d hlt hd hnext => ?_, fun d hlt hd hnext => ?_⟩
    · rw [h.blocked d hlt hd hnext, List.count_cons_of_ne (hne hd)]
    · rw [h.mem_worklist d hlt hd hnext, List.count_cons_of_ne (hne hd)]
  · have hblocked := h.blocked c hc hdone (by simp)
    have hout := h.mem_worklist c hc hdone (by simp)
    rw [List.count_cons_self] at hblocked hout
    have hnotMem : c ∉ s.worklist.toList := by
      rw [hout]
      omega
    have hget : s.blocked.getD c 0 = ((s.left g c + cs.count c : Nat) : Int) + 1 := by
      rw [Array.getD_eq_getD_getElem?, hblocked, Option.getD_some]
      omega
    obtain ⟨worklist, hrelease, hmem, hnodup⟩ := exists_release (g := g) hdone
    rw [hrelease]
    refine ⟨hnodup h.nodup hnotMem, fun d hd => ?_, fun d hlt hd hnext => ?_, fun d hlt hd hnext => ?_⟩
    · rcases (hmem d).mp hd with hd | ⟨rfl, -⟩
      · exact h.lt_size d hd
      · exact hc
    · by_cases hdc : d = c
      · subst hdc
        rw [Array.getElem?_setIfInBounds_self_of_lt (Array.getElem?_eq_some_iff.mp hblocked).1, hget,
          Int.add_sub_cancel]
        rfl
      · rw [Array.getElem?_setIfInBounds_ne (Ne.symm hdc), h.blocked d hlt hd hnext,
          List.count_cons_of_ne (Ne.symm hdc)]
        rfl
    · change d ∈ worklist.toList ↔ s.left g d + cs.count d = 0
      rw [hmem]
      by_cases hdc : d = c
      · subst hdc
        rw [or_iff_right hnotMem, and_iff_right rfl, hget]
        omega
      · have hold := h.mem_worklist d hlt hd hnext
        rw [List.count_cons_of_ne (Ne.symm hdc)] at hold
        rw [or_iff_left fun h => hdc h.1, hold]

theorem releaseAll (h : Counts g s cs none) (hcs : ∀ c ∈ cs, c < g.size) :
    Counts g (cs.foldl (ForwardState.release g) s) [] none := by
  induction cs generalizing s with
  | nil => exact h
  | cons c cs ih =>
    rw [List.forall_mem_cons] at hcs
    exact ih (h.release hcs.1) hcs.2

/-- A block that is done is one less to wait for, as often as it names a successor. -/
theorem enter (hg : g.IsEdgeSplit) (h : Counts g s [] (some b)) (hb : b ∉ s.processed) :
    Counts g { s with toTraceState := s.enter b } (g.block b).successors none := by
  have hleft (c : Nat) :
      left g { s with toTraceState := s.enter b } c + (g.block b).successors.count c = s.left g c := by
    rw [← hg.count_predecessors, left, left]
    induction (g.block c).predecessors with
    | nil => rfl
    | cons p predecessors ih =>
      simp only [TraceState.enter, List.countP_cons, List.count_cons] at ih ⊢
      by_cases hp : p = b
      · subst hp
        simp [hb] at ih ⊢
        omega
      · simp [hp] at ih ⊢
        omega
  have hopen {c : Nat} (hc : c ∉ (s.enter b).processed) : c ∉ s.processed ∧ some b ≠ some c := by
    rw [TraceState.enter, List.mem_cons, not_or] at hc
    exact ⟨hc.2, fun heq => hc.1 (Option.some.inj heq).symm⟩
  refine ⟨h.nodup, h.lt_size, fun c hlt hc _ => ?_, fun c hlt hc _ => ?_⟩
  · rw [hleft]
    exact h.blocked c hlt (hopen hc).1 (hopen hc).2
  · rw [hleft]
    exact h.mem_worklist c hlt (hopen hc).1 (hopen hc).2

theorem take {worklist : Heap BlockId} (h : Counts g s [] none)
    (hperm : s.worklist.toList.Perm (b :: worklist.toList)) (hb : b ∈ s.processed ∨ next? = some b) :
    Counts g { s with worklist } [] next? := by
  have hnodup := hperm.nodup_iff.mp h.nodup
  refine ⟨(List.nodup_cons.mp hnodup).2,
    fun c hc => h.lt_size c (hperm.mem_iff.mpr (List.mem_cons_of_mem b hc)),
    fun c hlt hc _ => h.blocked c hlt hc (by simp), fun c hlt hc hnext => ?_⟩
  have hne : c ≠ b := by
    rintro rfl
    exact hb.elim hc hnext
  have hmem := h.mem_worklist c hlt hc (by simp)
  rw [hperm.mem_iff, List.mem_cons, or_iff_right hne] at hmem
  exact hmem

/-- What a trace does not run on to has no other predecessor, so that it is on the worklist. -/
theorem covered (hg : g.IsEdgeSplit) (h : Counts g s [] none) (hb : b ∈ s.processed) (hedge : g.Edge b c) :
    c ∈ s.processed ∨ c ∈ s.worklist.toList ∨ s.successor? g b = some c := by
  rcases TraceState.successor?_cases g s.toTraceState b with ⟨d, hsome, hbd, -⟩ | ⟨-, hall⟩
  · rw [hsome, or_iff_not_imp_left]
    intro hc
    by_cases hcd : c = d
    · exact Or.inr (hcd ▸ rfl)
    · refine Or.inl ((h.mem_worklist c (hg.lt_size b c hedge) hc (by simp)).mpr ?_)
      rw [List.count_nil, Nat.add_zero, left_eq_zero_iff hg.toLinked]
      intro q hq
      rw [hg.eq_of_edge b c d q hedge hbd hcd hq]
      exact hb
  · exact Or.inl (hall c hedge)

end Counts

/-! A trace in the making. -/

theorem visit_eq (s : ForwardState) (i : Nat) (b : BlockId) :
    ∃ worklist blocked, s.visit g i b = ⟨(s.enter b).number b i, worklist, blocked⟩ ∧
      s.worklist.toList ⊆ worklist.toList ∧
      ∀ d ∈ worklist.toList, d ∈ s.worklist.toList ∨ d ∉ b :: s.processed := by
  obtain ⟨worklist, blocked, heq, hsubset, hnew⟩ :=
    exists_released (g := g) { s with toTraceState := s.enter b } (g.block b).successors
  refine ⟨worklist, blocked, ?_, hsubset, hnew⟩
  rw [visit, unblock, heq]

/-- A trace that goes on to the next block, if there is one. Nothing that comes after a block is forgotten. -/
structure Growing (g : Cfg) (s : ForwardState) (t : Trace) (next? : Option BlockId) : Prop where
  extending : s.Extending g g.Edge t
  counts : Counts g s [] next?
  next : ∀ b : Nat, next? = some b → s.Continues g g.Edge t b
  covered : ∀ p ∈ s.processed, ∀ c, g.Edge p c → c ∈ s.processed ∨ c ∈ s.worklist.toList ∨ next? = some c

namespace Growing

theorem start (hg : g.IsEdgeSplit) : Growing g (.start g) [] none := by
  have hleft (c : Nat) : left g (.start g) c = (g.block c).predecessors.length := by
    rw [left, List.countP_eq_length]
    exact fun p _ => decide_eq_true List.not_mem_nil
  refine ⟨.start, ⟨List.nodup_singleton 0, fun c hc => ?_, fun c hlt _ _ => ?_, fun c hlt _ _ => ?_⟩,
    nofun, nofun⟩
  · rw [List.mem_singleton.mp hc]
    exact hg.size_pos
  · rw [hleft, List.count_nil, Nat.add_zero, ForwardState.start, Array.getElem?_map,
      Array.getElem?_eq_getElem hlt, Cfg.block, Array.getD_eq_getD_getElem?, Array.getElem?_eq_getElem hlt]
    rfl
  · rw [List.count_nil, Nat.add_zero, left_eq_zero_iff hg.toLinked]
    constructor
    · intro hc p hp
      rw [List.mem_singleton.mp hc] at hp
      exact absurd hp (hg.not_edge_start p)
    · intro hall
      obtain ⟨path, hpath⟩ := hg.reachable c hlt
      cases hpath with
      | start => exact List.mem_singleton_self 0
      | step _ he => cases hall _ he

theorem visit (hg : g.IsEdgeSplit) (h : Growing g s t (some b)) :
    Growing g (s.visit g t.length b) (t ++ [b]) ((s.visit g t.length b).successor? g b) := by
  have hb := h.next b rfl
  have hcounts : Counts g (s.visit g t.length b) [] none := by
    have hreleased := (h.counts.enter hg hb.notMem_processed).releaseAll (fun c hc => hg.lt_size b c hc)
    exact ⟨hreleased.nodup, hreleased.lt_size, hreleased.blocked, hreleased.mem_worklist⟩
  obtain ⟨worklist, blocked, heq, hsubset, -⟩ := visit_eq (g := g) s t.length b
  rw [heq] at hcounts ⊢
  refine ⟨h.extending.concat hb, hcounts.weaken, fun c hc => ?_, fun p hp c hpc => ?_⟩
  · rcases TraceState.successor?_cases g ((s.enter b).number b t.length) b with
      ⟨d, hsome, hedge, hnew⟩ | ⟨hnone, -⟩
    · obtain rfl : d = c := Option.some.inj (hsome.symm.trans hc)
      refine ⟨hg.lt_size b d hedge, hnew, fun a ha => ?_, fun hnil => absurd hnil (by simp)⟩
      rw [List.getLast?_concat] at ha
      exact Option.some.inj ha ▸ hedge
    · cases hnone.symm.trans hc
  · rcases List.mem_cons.mp hp with rfl | hp
    · exact hcounts.covered hg hp hpc
    · rcases h.covered p hp c hpc with hc | hc | hc
      · exact Or.inl (List.mem_cons_of_mem b hc)
      · exact Or.inr (Or.inl (hsubset hc))
      · exact Or.inl (Option.some.inj hc ▸ List.mem_cons_self)

theorem follows (hg : g.IsEdgeSplit) {u : Trace} (hfollows : Follows g s i b u s') (hi : i = t.length)
    (h : Growing g s t (some b)) : Growing g s' (t ++ u) none := by
  induction hfollows generalizing t with
  | last hnone =>
    subst hi
    exact hnone ▸ h.visit hg
  | @next s s' i b c u hsome _ ih =>
    subst hi
    have hvisit := h.visit hg
    rw [hsome] at hvisit
    have hrest := ih (by simp) hvisit
    rwa [List.append_assoc] at hrest

theorem complete (h : Growing g s t none) (ht : t ≠ []) :
    Growing g { s with toTraceState := s.complete t } [] none :=
  ⟨h.extending.complete ht, ⟨h.counts.nodup, h.counts.lt_size, h.counts.blocked, h.counts.mem_worklist⟩,
    nofun, h.covered⟩

variable {worklist : Heap BlockId}

theorem skip (h : Growing g s [] none) (hperm : s.worklist.toList.Perm (b :: worklist.toList))
    (hb : b ∈ s.processed) : Growing g { s with worklist } [] none := by
  refine ⟨h.extending, h.counts.take hperm (Or.inl hb), nofun, fun p hp c hpc => ?_⟩
  rcases h.covered p hp c hpc with hc | hc | hc
  · exact Or.inl hc
  · rcases List.mem_cons.mp (hperm.mem_iff.mp hc) with rfl | hc
    · exact Or.inl hb
    · exact Or.inr (Or.inl hc)
  · cases hc

theorem take (hg : g.IsEdgeSplit) (h : Growing g s [] none)
    (hperm : s.worklist.toList.Perm (b :: worklist.toList)) (hb : b ∉ s.processed) :
    Growing g { s with worklist } [] (some b) := by
  have hmem : b ∈ s.worklist.toList := hperm.mem_iff.mpr List.mem_cons_self
  have hlt := h.counts.lt_size b hmem
  refine ⟨h.extending, h.counts.take hperm (Or.inr rfl), fun c hc => ?_, fun p hp c hpc => ?_⟩
  · obtain rfl := Option.some.inj hc
    refine ⟨hlt, hb, nofun, fun _ p hp => ?_⟩
    have hleft := (h.counts.mem_worklist b hlt hb (by simp)).mp hmem
    rw [List.count_nil, Nat.add_zero, left_eq_zero_iff hg.toLinked] at hleft
    have hdone := (h.extending.mem_processed p).mp (hleft p hp)
    rwa [List.append_nil] at hdone
  · rcases h.covered p hp c hpc with hc | hc | hc
    · exact Or.inl hc
    · rcases List.mem_cons.mp (hperm.mem_iff.mp hc) with rfl | hc
      · exact Or.inr (Or.inr rfl)
      · exact Or.inr (Or.inl hc)
    · cases hc

theorem runs (hg : g.IsEdgeSplit) (hruns : Runs g s s') (h : Growing g s [] none) :
    Growing g s' [] none ∧ s'.worklist.toList = [] := by
  induction hruns with
  | done hnone => exact ⟨h, Heap.takeFirst?_eq_none hnone⟩
  | skip hsome hb _ ih => exact ih (h.skip (Heap.takeFirst?_perm hsome) hb)
  | grow hsome hb hfollows _ ih =>
    exact ih (((h.take hg (Heap.takeFirst?_perm hsome) hb).follows hg hfollows rfl).complete hfollows.ne_nil)

theorem mem_processed (hg : g.IsEdgeSplit) (h : Growing g s [] none) (hempty : s.worklist.toList = [])
    (hb : b < g.size) : b ∈ s.processed := by
  obtain ⟨path, hpath⟩ := hg.reachable b hb
  clear hb
  induction hpath with
  | start =>
    by_contra hnew
    have hmem := (h.counts.mem_worklist 0 hg.size_pos hnew (by simp)).mpr
      ((left_eq_zero_iff hg.toLinked).mpr fun p hp => absurd hp (hg.not_edge_start p))
    rw [hempty] at hmem
    cases hmem
  | step _ he ih =>
    rcases h.covered _ ih _ he with hc | hc | hc
    · exact hc
    · rw [hempty] at hc
      cases hc
    · cases hc

end Growing

/-! The bounds on the loops are never reached. -/

theorem follow_follows (hg : g.IsEdgeSplit) (fuel : Nat) (h : Growing g s t (some b))
    (hfuel : g.size < (s.traces.flatten ++ t).length + fuel) :
    Follows g s t.length b (follow g fuel s t.length b).1 (follow g fuel s t.length b).2 := by
  induction fuel generalizing s t b with
  | zero =>
    have := h.extending.length_le
    omega
  | succ fuel ih =>
    have hvisit := h.visit hg
    rw [follow]
    split
    case h_1 hnone => exact .last hnone
    case h_2 c hsome =>
      rw [hsome] at hvisit
      have htraces : (s.visit g t.length b).traces = s.traces := by
        obtain ⟨worklist, blocked, heq, -⟩ := visit_eq (g := g) s t.length b
        rw [heq]
        rfl
      have hlength : (s.traces.flatten ++ (t ++ [b])).length = (s.traces.flatten ++ t).length + 1 := by
        rw [← List.append_assoc, List.length_append, List.length_singleton]
      have hrest := ih hvisit (by rw [htraces, hlength]; omega)
      rw [List.length_append, List.length_singleton] at hrest
      exact .next hsome hrest

/-- The block is on the worklist or can still get there. -/
def Waiting (s : ForwardState) (c : BlockId) : Prop := c ∈ s.worklist.toList ∨ c ∉ s.processed

theorem waiting_visit (h : (s.visit g i b).Waiting c) : c ∈ s.worklist.toList ∨ c ∉ b :: s.processed := by
  obtain ⟨worklist, blocked, heq, -, hnew⟩ := visit_eq (g := g) s i b
  rw [heq] at h
  exact h.elim (hnew c) Or.inr

theorem Follows.waiting (hfollows : Follows g s i b t s') (h : s'.Waiting c) :
    c ∈ s.worklist.toList ∨ c ∉ b :: s.processed := by
  induction hfollows with
  | last _ => exact waiting_visit h
  | next _ _ ih => exact waiting_visit ((ih h).imp_right fun hc hmem => hc (List.mem_cons_of_mem _ hmem))

instance (s : ForwardState) (c : BlockId) : Decidable (s.Waiting c) :=
  inferInstanceAs (Decidable (c ∈ s.worklist.toList ∨ c ∉ s.processed))

/-- The blocks that are on the worklist or can still get there. -/
def waiting (g : Cfg) (s : ForwardState) : Finset Nat := {c ∈ Finset.range g.size | s.Waiting c}

theorem card_waiting_lt (hlt : b < g.size) (hb : s.Waiting b) (hb' : ¬s'.Waiting b)
    (hsubset : ∀ c, s'.Waiting c → s.Waiting c) : (waiting g s').card < (waiting g s).card := by
  refine Finset.card_lt_card ((Finset.ssubset_iff_of_subset fun c hc => ?_).mpr ⟨b, ?_, ?_⟩)
  · rw [waiting, Finset.mem_filter] at hc ⊢
    exact ⟨hc.1, hsubset c hc.2⟩
  · exact Finset.mem_filter.mpr ⟨Finset.mem_range.mpr hlt, hb⟩
  · exact fun hmem => hb' (Finset.mem_filter.mp hmem).2

theorem run_runs (hg : g.IsEdgeSplit) (fuel : Nat) (h : Growing g s [] none)
    (hfuel : (waiting g s).card < fuel) : Runs g s (run g fuel s) := by
  induction fuel generalizing s with
  | zero => cases hfuel
  | succ fuel ih =>
    rw [run]
    split
    case h_1 hnone => exact .done hnone
    case h_2 b worklist hsome =>
      have hperm := Heap.takeFirst?_perm hsome
      have hmem : b ∈ s.worklist.toList := hperm.mem_iff.mpr List.mem_cons_self
      have hlt := h.counts.lt_size b hmem
      have hout : b ∉ worklist.toList := (List.nodup_cons.mp (hperm.nodup_iff.mp h.counts.nodup)).1
      have hsubset (c : BlockId) (hc : c ∈ worklist.toList) : c ∈ s.worklist.toList :=
        hperm.mem_iff.mpr (List.mem_cons_of_mem b hc)
      dsimp only
      split
      case isTrue hdone =>
        have hb := TraceState.isProcessed_iff.mp hdone
        refine .skip hsome hb (ih (h.skip hperm hb) ((card_waiting_lt hlt (Or.inl hmem) ?_ ?_).trans_le
          (Nat.le_of_lt_succ hfuel)))
        · exact fun hwaiting => hwaiting.elim hout (absurd hb)
        · exact fun c hc => hc.imp_left (hsubset c)
      case isFalse hopen =>
        have hb : b ∉ s.processed := fun hmem => hopen (TraceState.isProcessed_iff.mpr hmem)
        have htake := h.take hg hperm hb
        have hfollows := follow_follows hg (g.size + 1) htake (by omega)
        have hgrown := (htake.follows hg hfollows rfl).complete hfollows.ne_nil
        refine .grow hsome hb hfollows (ih hgrown ((card_waiting_lt hlt (Or.inl hmem) ?_ ?_).trans_le
          (Nat.le_of_lt_succ hfuel)))
        · exact fun hwaiting => (hfollows.waiting hwaiting).elim hout fun hnot => hnot List.mem_cons_self
        · exact fun c hc => (hfollows.waiting hc).imp (hsubset c) fun hnot hmem =>
            hnot (List.mem_cons_of_mem b hmem)

end ForwardState

open ForwardState

/-- If no edge is critical, forward traces divide the blocks of a graph among themselves, whatever the
weights: the loops come to an end, and what leads to the first block of a trace lies in earlier traces. -/
theorem forwardTraces_divide_blocks (g : Cfg) (hg : g.IsEdgeSplit) :
    ∃ s, Runs g (.start g) s ∧ g.forwardTraces = s.toTraces ∧ s.toTraces.Divide g g.Edge := by
  have hstart := Growing.start hg
  have hcard : (waiting g (.start g)).card < g.size + 1 := by
    refine Nat.lt_succ_of_le ((Finset.card_filter_le _ _).trans ?_)
    rw [Finset.card_range]
  have hruns := run_runs hg (g.size + 1) hstart hcard
  obtain ⟨hend, hempty⟩ := hstart.runs hg hruns
  exact ⟨_, hruns, rfl, hend.extending.divide fun b hb => hend.mem_processed hg hempty hb⟩

/-- A loop in which two ways meet again. The loop header is in the middle of the first trace although its loop
end comes later, and the block behind the loop waits on the worklist. -/
def mergeInLoop : Cfg :=
  .ofSuccessors [([1], 5, none, false), ([2, 6], 50, some 0, false), ([3, 4], 40, some 0, false),
    ([5], 10, some 0, false), ([5], 30, some 0, false), ([1], 40, some 0, true), ([], 5, none, false)]
    [⟨none, 1⟩]

example : mergeInLoop.forwardTraces.traces = [[0, 1, 2, 4, 5], [3], [6]] := by decide +kernel

theorem isEdgeSplit_mergeInLoop : mergeInLoop.IsEdgeSplit := by
  have hlinked : mergeInLoop.Linked := Cfg.linked_ofSuccessors (by decide) (by decide)
  refine ⟨hlinked, hlinked.count_predecessors_eq (by decide), Cfg.exists_path (by decide), fun p hp => ?_,
    fun p b c q hpb hpc hne hqb => ?_⟩
  · exact absurd ((hlinked.mem_predecessors p 0).mpr hp) List.not_mem_nil
  · have hall : ∀ p < 7, ∀ b ∈ (mergeInLoop.block p).successors, ∀ c ∈ (mergeInLoop.block p).successors, b ≠ c →
        ∀ q ∈ (mergeInLoop.block b).predecessors, q = p := by decide
    exact hall p (Cfg.lt_size_of_edge hpb) b hpb c hpc hne q ((hlinked.mem_predecessors q b).mpr hqb)

theorem forwardTraces_divide_blocks_merge :
    mergeInLoop.IsEdgeSplit ∧
    ∃ s, Runs mergeInLoop (.start mergeInLoop) s ∧ mergeInLoop.forwardTraces = s.toTraces ∧
      s.toTraces.Divide mergeInLoop mergeInLoop.Edge :=
  ⟨isEdgeSplit_mergeInLoop, forwardTraces_divide_blocks mergeInLoop isEdgeSplit_mergeInLoop⟩

end CompilerKit.ControlFlow
