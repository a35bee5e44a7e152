import CompilerKit.Proofs.ControlFlow.CodeOrder
import CompilerKit.Proofs.ControlFlow.Traces
import CompilerKit.Proofs.Result

/-! # Two-way traces

A trace grows backwards until all predecessors of its first block are done, back edges apart. The first block
has such a predecessor, which is in an earlier trace because the graph has no cycles without back edges. So
everything that dominates a block of the trace is done before the trace grows forwards (`Grown.closed`). A back
edge leads to a block that dominates its source, so that the trace cannot grow over it.
-/

namespace CompilerKit.ControlFlow

namespace Cfg

variable (g : Cfg)

/-- From a loop end to the header of its loop. -/
def BackEdge (p b : BlockId) : Prop :=
  (g.block p).isLoopEnd = true ∧ g.isLoopHeader b = true ∧ (g.block p).loop? = (g.block b).loop?

instance (p b : BlockId) : Decidable (g.BackEdge p b) :=
  inferInstanceAs (Decidable (_ ∧ _ ∧ _))

def Onward (p b : BlockId) : Prop := g.Edge p b ∧ ¬g.BackEdge p b

/-- All blocks can be reached from the start. Loop ends lie in a loop, a block that they jump back to dominates
them, and there are no cycles without such a jump. -/
structure IsLoopNest : Prop extends g.Linked where
  reachable : ∀ b : Nat, b < g.size → ∃ path, Path g.Edge b path
  loop?_ne_none : ∀ b, (g.block b).isLoopEnd = true → (g.block b).loop? ≠ none
  dominates : ∀ p b, g.Edge p b → g.BackEdge p b → g.Dominates b p
  acyclic : ∀ b, ¬Relation.TransGen g.Onward b b

variable {g} {a b p : Nat} {path : List BlockId}

theorem Dominates.of_edge (h : g.Dominates a b) (hne : a ≠ b) (hedge : g.Edge p b) : g.Dominates a p :=
  fun _ hpath => (List.mem_cons.mp (h _ (.step hpath hedge))).resolve_left hne

namespace IsLoopNest

variable (hg : g.IsLoopNest)

include hg

theorem isBackEdge_eq (p b : BlockId) : g.isBackEdge p b = .ok (decide (g.BackEdge p b)) := by
  rw [isBackEdge]
  split
  case isTrue hends =>
    rw [Bool.and_eq_true] at hends
    cases hloop : (g.block p).loop? with
    | none => exact absurd hloop (hg.loop?_ne_none p hends.1)
    | some l => simp [BackEdge, hends.1, hends.2, hloop, eq_comm]
  case isFalse hends =>
    rw [Bool.and_eq_true] at hends
    rw [decide_eq_false fun hback => hends ⟨hback.1, hback.2.1⟩]

/-- A way that comes over a back edge has passed the block before. -/
theorem exists_onward (hpath : Path g.Edge b path) (h0 : b ≠ 0) : ∃ p, g.Onward p b := by
  induction hn : path.length using Nat.strong_induction_on generalizing path with
  | _ n ih =>
    subst hn
    cases hpath with
    | start => exact absurd rfl h0
    | @step p _ path hp hedge =>
      by_cases hback : g.BackEdge p b
      · obtain ⟨rest, hrest, hsuffix⟩ := hp.exists_suffix (hg.dominates p b hedge hback path hp)
        exact ih rest.length (Nat.lt_succ_of_le hsuffix.length_le) hrest rfl
      · exact ⟨p, hedge, hback⟩

theorem notMem_of_onward {t : Trace} (hchain : t.IsChain g.Onward) (hb : t.head? = some b)
    (hp : g.Onward p b) : p ∉ t := by
  intro hmem
  cases t with
  | nil => cases hb
  | cons c t =>
    obtain rfl := Option.some.inj hb
    rcases List.mem_cons.mp hmem with rfl | hmem
    · exact hg.acyclic p (.single hp)
    · have htrans : (c :: t).IsChain (Relation.TransGen g.Onward) := hchain.imp fun _ _ => .single
      exact hg.acyclic c ((htrans.rel_cons hmem).tail hp)

end IsLoopNest

end Cfg

namespace TraceState

/-- A trace grows backwards as far as it can, however long it takes. -/
inductive Backwards (g : Cfg) : TraceState → BlockId → Trace → TraceState → Prop
  | last {s : TraceState} {b : BlockId} : s.predecessor? g b = .ok none → Backwards g s b [] s
  | next {s s' : TraceState} {b p : BlockId} {t : Trace} :
    s.predecessor? g b = .ok (some p) → Backwards g (s.enter p) p t s' → Backwards g s b (t ++ [p]) s'

/-- A trace grows forwards as far as it can, however long it takes. -/
inductive Forwards (g : Cfg) : TraceState → Nat → BlockId → Trace → TraceState → Prop
  | last {s : TraceState} {i : Nat} {b : BlockId} : s.successor? g b = none → Forwards g s i b [] s
  | next {s s' : TraceState} {i : Nat} {b c : BlockId} {t : Trace} :
    s.successor? g b = some c → Forwards g ((s.enter c).number c i) (i + 1) c t s' →
      Forwards g s i b (c :: t) s'

/-- A trace grows around each block of a list that is not done. -/
inductive Grows (g : Cfg) : List BlockId → TraceState → TraceState → Prop
  | done {s : TraceState} : Grows g [] s s
  | skip {s s' : TraceState} {b : BlockId} {bs : List BlockId} :
    b ∈ s.processed → Grows g bs s s' → Grows g (b :: bs) s s'
  | grow {s s₁ s₂ s' : TraceState} {b : BlockId} {bs : List BlockId} {before after : Trace} :
    b ∉ s.processed → Backwards g (s.enter b) b before s₁ →
      Forwards g (s₁.numberAll (before ++ [b])) (before ++ [b]).length b after s₂ →
      Grows g bs (s₂.complete (before ++ [b] ++ after)) s' → Grows g (b :: bs) s s'

variable {g : Cfg} {s s' : TraceState} {b c : Nat} {i : Nat} {t u : Trace}

/-- A trace goes back to a predecessor that is not done, back edges apart, if there is one. -/
theorem predecessor?_cases (hg : g.IsLoopNest) (s : TraceState) (b : BlockId) :
    (∃ p, s.predecessor? g b = .ok (some p) ∧ g.Onward p b ∧ p ∉ s.processed) ∨
      s.predecessor? g b = .ok none ∧ ∀ p, g.Onward p b → p ∈ s.processed := by
  have hkeep (p : BlockId) : (do if s.isProcessed p then return false else return !(← g.isBackEdge p b)) =
      (.ok (decide (p ∉ s.processed ∧ ¬g.BackEdge p b)) : Result Bool) := by
    rw [hg.isBackEdge_eq]
    by_cases hdone : p ∈ s.processed
    · simp [isProcessed_iff.mpr hdone, hdone, pure, Except.pure]
    · simp [mt isProcessed_iff.mp hdone, hdone, pure, Except.pure, bind, Except.bind]
  let candidates := (g.block b).predecessors.filter fun p => decide (p ∉ s.processed ∧ ¬g.BackEdge p b)
  have hpredecessor : s.predecessor? g b = .ok (g.heaviest? candidates) := by
    refine Result.bind_eq_ok.mpr ⟨candidates, Result.filterM_eq_ok.mpr ⟨fun p _ => ⟨_, hkeep p⟩, ?_⟩, rfl⟩
    refine List.filter_congr fun p _ => ?_
    simp only [hkeep, Except.ok.injEq, decide_eq_true_eq]
  have hmem (p : BlockId) : p ∈ candidates ↔ g.Onward p b ∧ p ∉ s.processed := by
    rw [List.mem_filter, hg.mem_predecessors, decide_eq_true_eq, Cfg.Onward]
    tauto
  rw [hpredecessor]
  rcases g.heaviest?_cases candidates with ⟨p, hp, heq⟩ | ⟨hnil, heq⟩
  · exact Or.inl ⟨p, by rw [heq], (hmem p).mp hp⟩
  · refine Or.inr ⟨by rw [heq], fun p hp => ?_⟩
    by_contra hnew
    have hcandidate := (hmem p).mpr ⟨hp, hnew⟩
    rw [hnil] at hcandidate
    cases hcandidate

/-- What dominates a block of the list is in it, too. -/
def Closed (g : Cfg) (bs : List BlockId) : Prop := ∀ b ∈ bs, ∀ a, g.Dominates a b → a ∈ bs

theorem Closed.append {bs : List BlockId} (hclosed : Closed g bs) (hchain : t.IsChain g.Edge)
    (hhead : ∀ b, t.head? = some b → b ≠ 0 → ∃ p ∈ bs, g.Edge p b) : Closed g (bs ++ t) := by
  induction t generalizing bs with
  | nil => rwa [List.append_nil]
  | cons b t ih =>
    have hb : Closed g (bs ++ [b]) := by
      intro c hc a ha
      rw [List.mem_append, List.mem_singleton] at hc ⊢
      rcases hc with hc | rfl
      · exact Or.inl (hclosed c hc a ha)
      · rw [or_iff_not_imp_right]
        intro hne
        by_cases h0 : c = 0
        · subst h0
          exact absurd (Cfg.dominates_zero_iff.mp ha) hne
        · obtain ⟨p, hp, hedge⟩ := hhead c rfl h0
          exact hclosed p hp a (ha.of_edge hne hedge)
    have hrest := ih hb hchain.tail fun c hc _ => ⟨b, by simp, ?_⟩
    · rwa [List.append_assoc] at hrest
    · cases t with
      | nil => cases hc
      | cons d t =>
        obtain rfl := Option.some.inj hc
        exact hchain.rel

/-- Between two traces, if the trace is empty, and while it grows forwards. -/
structure Grown (g : Cfg) (s : TraceState) (t : Trace) : Prop extends s.Extending g g.Onward t where
  closed : Closed g s.processed

theorem Backwards.traces_eq (h : Backwards g s b t s') : s'.traces = s.traces := by
  induction h with
  | last _ => rfl
  | next _ _ ih => exact ih

theorem Backwards.subset (h : Backwards g s b t s') : s.processed ⊆ s'.processed := by
  induction h with
  | last _ => exact List.Subset.refl _
  | next _ _ ih => exact fun c hc => ih (List.mem_cons_of_mem _ hc)

theorem Forwards.subset (h : Forwards g s i b t s') : s.processed ⊆ s'.processed := by
  induction h with
  | last _ => exact List.Subset.refl _
  | next _ _ ih => exact fun c hc => ih (List.mem_cons_of_mem _ hc)

/-- When a trace has grown backwards, what leads on to its first block is done. -/
theorem Building.backwards (hg : g.IsLoopNest) (hback : Backwards g s b u s')
    (h : s.Building g g.Onward (b :: t)) (hchain : (b :: t).IsChain g.Onward) :
    s'.Building g g.Onward (u ++ b :: t) ∧ (u ++ b :: t).IsChain g.Onward ∧
      ∀ c, (u ++ b :: t).head? = some c → ∀ p, g.Onward p c → p ∈ s'.processed := by
  induction hback generalizing t with
  | @last s b hnone =>
    refine ⟨h, hchain, fun c hc p hp => ?_⟩
    obtain rfl := Option.some.inj hc
    rcases predecessor?_cases hg s b with ⟨q, hsome, -⟩ | ⟨-, hall⟩
    · rw [hnone] at hsome
      cases hsome
    · exact hall p hp
  | @next s s' b p u hsome _ ih =>
    rcases predecessor?_cases hg s b with ⟨q, hsome', hq, hnew⟩ | ⟨hnone, -⟩
    · rw [hsome] at hsome'
      obtain rfl : p = q := Option.some.inj (Except.ok.inj hsome')
      have hrest := ih (h.enter hnew (Cfg.lt_size_of_edge hq.1) (List.Perm.refl _))
        (List.isChain_cons_cons.mpr ⟨hq, hchain⟩)
      rwa [List.append_assoc]
    · rw [hsome] at hnone
      cases hnone

namespace Grown

theorem start : Grown g (.start g) [] := ⟨.start, nofun⟩

theorem backwards (hg : g.IsLoopNest) (h : Grown g s []) (hlt : b < g.size) (hb : b ∉ s.processed)
    (hback : Backwards g (s.enter b) b t s') : Grown g (s'.numberAll (t ++ [b])) (t ++ [b]) := by
  obtain ⟨hbuilding, hchain, hdone⟩ := Building.backwards hg hback
    (h.toBuilding.enter hb hlt (List.Perm.refl [b])) (List.isChain_singleton b)
  have htraces : s'.traces = s.traces := hback.traces_eq
  have hnodup : (t ++ [b]).Nodup := (List.nodup_append.mp hbuilding.nodup).2.1
  have hmem (c : Nat) (hc : c ∈ t ++ [b]) : c < s'.positions.size := by
    rw [hbuilding.size_positions]
    exact hbuilding.lt_size c (hbuilding.mem_of_mem hc)
  have hentered (c : Nat) (hc : (t ++ [b]).head? = some c) (p : Nat) (hp : g.Onward p c) :
      p ∈ s'.traces.flatten :=
    (List.mem_append.mp ((hbuilding.mem_processed p).mp (hdone c hc p hp))).resolve_right
      (hg.notMem_of_onward hchain hc hp)
  obtain ⟨positions, heq, -⟩ := s'.exists_numberAll (t ++ [b])
  refine ⟨⟨hbuilding.numberAll fun c hc => hc, .numberAll hnodup hmem, hchain, by rwa [heq]⟩, ?_⟩
  -- The complete traces were closed, and the first block of this one comes behind them.
  have hold : Closed g s'.traces.flatten := by
    intro c hc a ha
    have hiff := h.mem_processed
    simp only [List.append_nil] at hiff
    rw [htraces] at hc ⊢
    exact (hiff a).mp (h.closed c ((hiff c).mpr hc) a ha)
  have hall : Closed g (s'.traces.flatten ++ (t ++ [b])) := by
    refine hold.append (hchain.imp fun _ _ hedge => hedge.1) fun c hc h0 => ?_
    have hclt := hbuilding.size_positions ▸ hmem c (List.mem_of_mem_head? hc)
    obtain ⟨path, hpath⟩ := hg.reachable c hclt
    obtain ⟨p, hp⟩ := hg.exists_onward hpath h0
    exact ⟨p, hentered c hc p hp, hp.1⟩
  rw [heq]
  exact fun c hc a ha => (hbuilding.mem_processed a).mpr (hall c ((hbuilding.mem_processed c).mp hc) a ha)

theorem onward (hg : g.IsLoopNest) (h : Grown g s t) (hb : b ∈ s.processed) (hedge : g.Edge b c)
    (hc : c ∉ s.processed) : g.Onward b c :=
  ⟨hedge, fun hback => hc (h.closed b hb c (hg.dominates b c hedge hback))⟩

theorem concat (hg : g.IsLoopNest) (h : Grown g s t) (hb : t.getLast? = some b) (hedge : g.Edge b c)
    (hc : c ∉ s.processed) : Grown g ((s.enter c).number c t.length) (t ++ [c]) := by
  have hbt : b ∈ t := List.mem_of_getLast? hb
  have hbdone := h.mem_of_mem hbt
  refine ⟨h.toExtending.concat ⟨hg.lt_size b c hedge, hc, fun a ha => ?_, ?_⟩, ?_⟩
  · obtain rfl := Option.some.inj (hb.symm.trans ha)
    exact h.onward hg hbdone hedge hc
  · rintro rfl
    cases hbt
  · have hclosed : Closed g (s.processed ++ [c]) :=
      h.closed.append (List.isChain_singleton c) fun d hd _ => ⟨b, hbdone, Option.some.inj hd ▸ hedge⟩
    have hswap (x : BlockId) : x ∈ c :: s.processed ↔ x ∈ s.processed ++ [c] := by simp [or_comm]
    exact fun d hd a ha => (hswap a).mpr (hclosed d ((hswap d).mp hd) a ha)

theorem forwards (hg : g.IsLoopNest) (hforwards : Forwards g s i b u s') (hi : i = t.length)
    (hb : t.getLast? = some b) (h : Grown g s t) : Grown g s' (t ++ u) := by
  induction hforwards generalizing t with
  | last _ => rwa [List.append_nil]
  | @next s s' i b c u hsome _ ih =>
    subst hi
    rcases successor?_cases g s b with ⟨d, hsome', hedge, hnew⟩ | ⟨hnone, -⟩
    · rw [hsome] at hsome'
      obtain rfl := Option.some.inj hsome'
      have hrest := ih (by simp) List.getLast?_concat (h.concat hg hb hedge hnew)
      rwa [List.append_assoc] at hrest
    · rw [hsome] at hnone
      cases hnone

theorem complete (h : Grown g s t) (ht : t ≠ []) : Grown g (s.complete t) [] :=
  ⟨h.toExtending.complete ht, h.closed⟩

theorem grows (hg : g.IsLoopNest) {bs : List BlockId} (hgrows : Grows g bs s s') (hbs : ∀ b ∈ bs, b < g.size)
    (h : Grown g s []) : Grown g s' [] ∧ s.processed ⊆ s'.processed ∧ bs ⊆ s'.processed := by
  induction hgrows with
  | done => exact ⟨h, List.Subset.refl _, List.nil_subset _⟩
  | @skip s s' b bs hb _ ih =>
    rw [List.forall_mem_cons] at hbs
    obtain ⟨hgrown, hsubset, hrest⟩ := ih hbs.2 h
    exact ⟨hgrown, hsubset, List.cons_subset.mpr ⟨hsubset hb, hrest⟩⟩
  | @grow s s₁ s₂ s' b bs before after hb hback hforwards _ ih =>
    rw [List.forall_mem_cons] at hbs
    have htrace := (h.backwards hg hbs.1 hb hback).forwards hg hforwards rfl List.getLast?_concat
    obtain ⟨hgrown, hsubset, hrest⟩ := ih hbs.2 (htrace.complete (by simp))
    have hmore : (s.enter b).processed ⊆ s'.processed := by
      obtain ⟨positions, heq, -⟩ := s₁.exists_numberAll (before ++ [b])
      have hnumber := hforwards.subset
      rw [heq] at hnumber
      exact fun c hc => hsubset (hnumber (hback.subset hc))
    exact ⟨hgrown, fun c hc => hmore (List.mem_cons_of_mem b hc),
      List.cons_subset.mpr ⟨hmore List.mem_cons_self, hrest⟩⟩

end Grown

/-! The bounds on the loops are never reached. -/

theorem exists_backwards (hg : g.IsLoopNest) (fuel : Nat) (h : s.Building g g.Onward (b :: t))
    (hfuel : g.size < (s.traces.flatten ++ b :: t).length + fuel) :
    ∃ u s', backwards g fuel s b = .ok (u, s') ∧ Backwards g s b u s' := by
  induction fuel generalizing s b t with
  | zero =>
    have := h.length_le
    omega
  | succ fuel ih =>
    rcases predecessor?_cases hg s b with ⟨p, hsome, hp, hnew⟩ | ⟨hnone, -⟩
    · obtain ⟨u, s', hrest, hback⟩ := ih (h.enter hnew (Cfg.lt_size_of_edge hp.1) (List.Perm.refl _))
        (by simp only [enter, List.length_append, List.length_cons] at hfuel ⊢; omega)
      refine ⟨u ++ [p], s', ?_, .next hsome hback⟩
      rw [backwards, hsome]
      exact Result.bind_eq_ok.mpr ⟨_, rfl, Result.bind_eq_ok.mpr ⟨_, hrest, rfl⟩⟩
    · refine ⟨[], s, ?_, .last hnone⟩
      rw [backwards, hnone]
      rfl

theorem forwards_forwards (hg : g.IsLoopNest) (fuel : Nat) (h : Grown g s t) (hb : t.getLast? = some b)
    (hfuel : g.size < (s.traces.flatten ++ t).length + fuel) :
    Forwards g s t.length b (forwards g fuel s t.length b).1 (forwards g fuel s t.length b).2 := by
  induction fuel generalizing s b t with
  | zero =>
    have := h.length_le
    omega
  | succ fuel ih =>
    rw [forwards]
    rcases successor?_cases g s b with ⟨c, hsome, hedge, hnew⟩ | ⟨hnone, -⟩
    · rw [hsome]
      have hrest := ih (h.concat hg hb hedge hnew) List.getLast?_concat
        (by simp only [enter, number, List.length_append, List.length_singleton] at hfuel ⊢; omega)
      rw [List.length_append, List.length_singleton] at hrest
      exact .next hsome hrest
    · rw [hnone]
      exact .last hnone

theorem exists_grows (hg : g.IsLoopNest) (bs : List BlockId) (hbs : ∀ b ∈ bs, b < g.size) (h : Grown g s []) :
    ∃ s', runBothWays g bs s = .ok s' ∧ Grows g bs s s' := by
  induction bs generalizing s with
  | nil => exact ⟨s, rfl, .done⟩
  | cons b bs ih =>
    rw [List.forall_mem_cons] at hbs
    rw [runBothWays]
    split
    case isTrue hdone =>
      obtain ⟨s', hrun, hgrows⟩ := ih hbs.2 h
      exact ⟨s', hrun, .skip (isProcessed_iff.mp hdone) hgrows⟩
    case isFalse hopen =>
      have hb : b ∉ s.processed := fun hmem => hopen (isProcessed_iff.mpr hmem)
      obtain ⟨before, s₁, hbefore, hback⟩ := exists_backwards hg (g.size + 1)
        (h.toBuilding.enter hb hbs.1 (List.Perm.refl [b])) (by omega)
      have hgrown := h.backwards hg hbs.1 hb hback
      have hforwards := forwards_forwards hg (g.size + 1) hgrown List.getLast?_concat (by omega)
      obtain ⟨s', hrun, hgrows⟩ := ih hbs.2
        ((hgrown.forwards hg hforwards rfl List.getLast?_concat).complete (by simp))
      exact ⟨s', Result.bind_eq_ok.mpr ⟨_, hbefore, hrun⟩, .grow hb hback hforwards hgrows⟩

end TraceState

open TraceState

/-- In a graph whose cycles are loops, two-way traces divide the blocks among themselves, whatever the weights,
and none of them runs over a back edge. The loops come to an end. What leads on to the first block of a trace
lies in earlier traces. -/
theorem twoWayTraces_divide_blocks (g : Cfg) (hg : g.IsLoopNest) :
    ∃ s, Grows g (g.byWeight ++ [0]) (.start g) s ∧ g.twoWayTraces = .ok s.toTraces ∧
      s.toTraces.Divide g g.Onward := by
  have hmem (b : Nat) : b ∈ g.byWeight ↔ b < g.size := by
    rw [Cfg.byWeight, List.mem_mergeSort, Cfg.ids, List.mem_range]
  have hbs : ∀ b ∈ g.byWeight ++ [0], b < g.size :=
    List.forall_mem_append.mpr ⟨fun b hb => (hmem b).mp hb, List.forall_mem_singleton.mpr hg.size_pos⟩
  obtain ⟨s, hrun, hgrows⟩ := exists_grows hg _ hbs Grown.start
  obtain ⟨hgrown, -, hall⟩ := Grown.start.grows hg hgrows hbs
  refine ⟨s, hgrows, Result.bind_eq_ok.mpr ⟨s, hrun, rfl⟩, hgrown.divide fun b hb => ?_⟩
  exact hall (List.mem_append_left _ ((hmem b).mpr hb))

theorem isLoopNest_nestedLoops : nestedLoops.IsLoopNest where
  toLinked := linked_nestedLoops
  reachable := Cfg.exists_path (by decide)
  loop?_ne_none b hend := by
    obtain ⟨l, loop, hin, -⟩ := naturalLoops_nestedLoops.jumps_back b hend
    simp [hin]
  dominates p b hedge hback := by
    have hall : ∀ p < 8, ∀ b ∈ (nestedLoops.block p).successors, nestedLoops.BackEdge p b →
        ∃ l < 2, ∃ loop ∈ nestedLoops.loops[l]?, loop.header = b ∧ nestedLoops.Inside l p := by decide
    obtain ⟨l, -, loop, hloop, rfl, hin⟩ := hall p (Cfg.lt_size_of_edge hedge) b hedge hback
    exact naturalLoops_nestedLoops.dominates l loop p hloop hin
  acyclic b hcycle := by
    have hall : ∀ p < 8, ∀ b ∈ (nestedLoops.block p).successors, ¬nestedLoops.BackEdge p b → p < b := by
      decide
    have hlt {p b : Nat} (h : nestedLoops.Onward p b) : p < b :=
      hall p (Cfg.lt_size_of_edge h.1) b h.1 h.2
    have hpath (c : Nat) (hc : Relation.TransGen nestedLoops.Onward b c) : b < c := by
      induction hc with
      | single h => exact hlt h
      | tail _ h ih => exact ih.trans (hlt h)
    exact Nat.lt_irrefl b (hpath b hcycle)

theorem twoWayTraces_divide_blocks_nested :
    nestedLoops.IsLoopNest ∧
    ∃ s, Grows nestedLoops (nestedLoops.byWeight ++ [0]) (.start nestedLoops) s ∧
      nestedLoops.twoWayTraces = .ok s.toTraces ∧ s.toTraces.Divide nestedLoops nestedLoops.Onward :=
  ⟨isLoopNest_nestedLoops, twoWayTraces_divide_blocks nestedLoops isLoopNest_nestedLoops⟩

end CompilerKit.ControlFlow
