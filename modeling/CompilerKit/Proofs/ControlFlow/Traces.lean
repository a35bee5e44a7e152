import CompilerKit.ControlFlow.Trace
import CompilerKit.Proofs.ControlFlow.Dominance

/-! # Traces divide the blocks among themselves

However a trace grows, a block enters it that is in no trace yet. What is known of the complete traces is not
touched by that; when all blocks are done, the traces are a partition of the graph.
-/

namespace CompilerKit.ControlFlow

/-- Every block lies in one trace, at one position, as the tables say. Traces run along edges of some kind, and
what leads over such an edge to the first block of a trace lies in an earlier one. -/
structure Traces.Divide (ts : Traces) (g : Cfg) (edge : BlockId → BlockId → Prop) : Prop where
  perm : ts.traces.flatten.Perm g.ids
  nil_notMem : [] ∉ ts.traces
  chain : ∀ t ∈ ts.traces, t.IsChain edge
  number : ∀ i t (k : Nat) b, ts.traces[i]? = some t → t[k]? = some b → ts.traceOf b = i ∧ ts.positionOf b = k
  entered : ∀ i t b, ts.traces[i]? = some t → t.head? = some b → ∀ p, edge p b → ts.traceOf p < i

namespace Cfg

variable {g : Cfg} {bs : List BlockId}

theorem heaviest?_cases (bs : List BlockId) :
    (∃ c ∈ bs, g.heaviest? bs = some c) ∨ bs = [] ∧ g.heaviest? bs = none := by
  suffices hfold : ∀ best : Option BlockId,
      (∃ c ∈ best.toList ++ bs,
        bs.foldl (fun best c => if best.all fun d => (g.weight d).lt (g.weight c) then some c else best)
          best = some c) ∨
      best = none ∧ bs = [] by
    rcases hfold none with ⟨c, hc, heq⟩ | ⟨-, rfl⟩
    · exact Or.inl ⟨c, hc, heq⟩
    · exact Or.inr ⟨rfl, rfl⟩
  induction bs with
  | nil =>
    intro best
    cases best with
    | none => exact Or.inr ⟨rfl, rfl⟩
    | some c => exact Or.inl ⟨c, List.mem_cons_self, rfl⟩
  | cons d bs ih =>
    intro best
    rw [List.foldl_cons]
    split
    case isTrue =>
      obtain ⟨c, hc, heq⟩ := (ih (some d)).resolve_right (by simp)
      exact Or.inl ⟨c, List.mem_append_right _ hc, heq⟩
    case isFalse hbest =>
      cases best with
      | none => exact absurd rfl hbest
      | some e =>
        obtain ⟨c, hc, heq⟩ := (ih (some e)).resolve_right (by simp)
        refine Or.inl ⟨c, ?_, heq⟩
        simp only [Option.toList_some, List.cons_append, List.nil_append, List.mem_cons] at hc ⊢
        exact hc.imp_right Or.inr

end Cfg

namespace TraceState

variable {g : Cfg} {edge : BlockId → BlockId → Prop} {s : TraceState} {t : Trace} {b : Nat}

/-- The state while a trace is being built. -/
structure Building (g : Cfg) (edge : BlockId → BlockId → Prop) (s : TraceState) (t : Trace) : Prop where
  nodup : (s.traces.flatten ++ t).Nodup
  mem_processed : ∀ b, b ∈ s.processed ↔ b ∈ s.traces.flatten ++ t
  lt_size : ∀ b ∈ s.processed, b < g.size
  size_traceNumbers : s.traceNumbers.size = g.size
  size_positions : s.positions.size = g.size
  traceNumber : ∀ i u, s.traces[i]? = some u → ∀ b : Nat, b ∈ u → s.traceNumbers[b]? = some i
  traceNumber_last : ∀ b : Nat, b ∈ t → s.traceNumbers[b]? = some s.traces.length
  position : ∀ u ∈ s.traces, ∀ (k b : Nat), u[k]? = some b → s.positions[b]? = some (k : Int)
  nil_notMem : [] ∉ s.traces
  chain : ∀ u ∈ s.traces, u.IsChain edge
  entered : ∀ i u b, s.traces[i]? = some u → u.head? = some b → ∀ p, edge p b → p ∈ (s.traces.take i).flatten

def Numbered (s : TraceState) (t : Trace) : Prop :=
  ∀ k b : Nat, t[k]? = some b → s.positions[b]? = some (k : Int)

theorem isProcessed_iff : s.isProcessed b = true ↔ b ∈ s.processed := List.contains_iff_mem

theorem successor?_cases (g : Cfg) (s : TraceState) (b : Nat) :
    (∃ c, s.successor? g b = some c ∧ g.Edge b c ∧ c ∉ s.processed) ∨
      s.successor? g b = none ∧ ∀ c, g.Edge b c → c ∈ s.processed := by
  rcases g.heaviest?_cases ((g.block b).successors.filter fun c => !s.isProcessed c) with
    ⟨c, hc, heq⟩ | ⟨hnil, heq⟩
  · obtain ⟨hedge, hnew⟩ := List.mem_filter.mp hc
    refine Or.inl ⟨c, heq, hedge, fun hdone => ?_⟩
    rw [isProcessed_iff.mpr hdone] at hnew
    cases hnew
  · refine Or.inr ⟨heq, fun c hedge => ?_⟩
    by_contra hnew
    rw [← isProcessed_iff] at hnew
    exact List.filter_eq_nil_iff.mp hnil c hedge (by simp [hnew])

theorem numberAll_concat (s : TraceState) (bs : List BlockId) (b : BlockId) :
    s.numberAll (bs ++ [b]) = (s.numberAll bs).number b bs.length := by
  simp [numberAll, List.zipIdx_append]

theorem exists_numberAll (s : TraceState) (bs : List BlockId) :
    ∃ positions, s.numberAll bs = { s with positions } ∧ positions.size = s.positions.size := by
  induction bs using List.reverseRecOn with
  | nil => exact ⟨s.positions, rfl, rfl⟩
  | append_singleton bs b ih =>
    obtain ⟨positions, heq, hsize⟩ := ih
    refine ⟨positions.setIfInBounds b bs.length, ?_, by rw [Array.size_setIfInBounds, hsize]⟩
    rw [numberAll_concat, heq, number]

namespace Numbered

theorem nil (s : TraceState) : s.Numbered [] := fun k b h => by cases h

theorem concat (h : s.Numbered t) (hb : b ∉ t) (hlt : b < s.positions.size) :
    (s.number b t.length).Numbered (t ++ [b]) := by
  intro k c hc
  rw [List.getElem?_append] at hc
  split at hc
  case isTrue =>
    rw [number, Array.getElem?_setIfInBounds_ne, h k c hc]
    rintro rfl
    exact hb (List.mem_of_getElem? hc)
  case isFalse hk =>
    obtain ⟨hlast, rfl⟩ := List.getElem?_eq_some_iff.mp hc
    rw [List.length_singleton] at hlast
    rw [List.getElem_singleton, number, Array.getElem?_setIfInBounds_self_of_lt hlt]
    congr 2
    omega

theorem numberAll (hnodup : t.Nodup) (hlt : ∀ b ∈ t, b < s.positions.size) : (s.numberAll t).Numbered t := by
  induction t using List.reverseRecOn with
  | nil => exact nil _
  | append_singleton t b ih =>
    obtain ⟨ht, -, hdisjoint⟩ := List.nodup_append.mp hnodup
    rw [List.forall_mem_append, List.forall_mem_singleton] at hlt
    obtain ⟨positions, heq, hsize⟩ := s.exists_numberAll t
    rw [numberAll_concat]
    refine (ih ht hlt.1).concat (fun hb => hdisjoint b hb b List.mem_cons_self rfl) ?_
    rw [heq, hsize]
    exact hlt.2

end Numbered

theorem building_start : Building g edge (.start g) [] where
  nodup := List.nodup_nil
  mem_processed _ := Iff.rfl
  lt_size _ h := by cases h
  size_traceNumbers := Array.size_replicate
  size_positions := Array.size_replicate
  traceNumber _ _ h := by cases h
  traceNumber_last _ h := by cases h
  position _ h := by cases h
  nil_notMem := List.not_mem_nil
  chain _ h := by cases h
  entered _ _ _ h := by cases h

namespace Building

theorem mem_flatten_of_getElem? {i : Nat} {u : Trace} (hu : s.traces[i]? = some u) (hb : b ∈ u) :
    b ∈ s.traces.flatten :=
  List.mem_flatten.mpr ⟨u, List.mem_of_getElem? hu, hb⟩

theorem mem_of_mem (h : Building g edge s t) (hb : b ∈ t) : b ∈ s.processed :=
  (h.mem_processed b).mpr (List.mem_append_right _ hb)

theorem length_le (h : Building g edge s t) : (s.traces.flatten ++ t).length ≤ g.size := by
  have hsubset : s.traces.flatten ++ t ⊆ List.range g.size := fun c hc =>
    List.mem_range.mpr (h.lt_size c ((h.mem_processed c).mpr hc))
  simpa only [List.length_range] using (h.nodup.subperm hsubset).length_le

/-- A block that is not done enters the trace, at whatever place. -/
theorem enter (h : Building g edge s t) (hb : b ∉ s.processed) (hlt : b < g.size) {t' : Trace}
    (hperm : t'.Perm (b :: t)) : Building g edge (s.enter b) t' := by
  have hnew : b ∉ s.traces.flatten ++ t := fun hmem => hb ((h.mem_processed b).mpr hmem)
  have hall : (s.traces.flatten ++ t').Perm (b :: (s.traces.flatten ++ t)) :=
    (hperm.append_left _).trans List.perm_middle
  have hother (c : Nat) (hc : c ∈ s.traces.flatten ++ t) :
      (s.enter b).traceNumbers[c]? = s.traceNumbers[c]? := by
    rw [TraceState.enter, Array.getElem?_setIfInBounds_ne]
    rintro rfl
    exact hnew hc
  refine ⟨hall.nodup_iff.mpr (List.nodup_cons.mpr ⟨hnew, h.nodup⟩), fun c => ?_, ?_, ?_, h.size_positions,
    ?_, ?_, h.position, h.nil_notMem, h.chain, h.entered⟩
  · rw [TraceState.enter, hall.mem_iff, List.mem_cons, List.mem_cons, h.mem_processed]
  · exact List.forall_mem_cons.mpr ⟨hlt, h.lt_size⟩
  · rw [TraceState.enter, Array.size_setIfInBounds, h.size_traceNumbers]
  · intro i u hu c hc
    rw [hother c (List.mem_append_left _ (mem_flatten_of_getElem? hu hc)), h.traceNumber i u hu c hc]
  · intro c hc
    rcases List.mem_cons.mp (hperm.mem_iff.mp hc) with rfl | hc
    · rw [TraceState.enter, Array.getElem?_setIfInBounds_self_of_lt (h.size_traceNumbers ▸ hlt)]
    · rw [hother c (List.mem_append_right _ hc), h.traceNumber_last c hc]
      rfl

theorem number (h : Building g edge s t) (hb : b ∈ t) (k : Nat) : Building g edge (s.number b k) t := by
  refine ⟨h.nodup, h.mem_processed, h.lt_size, h.size_traceNumbers, ?_, h.traceNumber, h.traceNumber_last, ?_,
    h.nil_notMem, h.chain, h.entered⟩
  · rw [TraceState.number, Array.size_setIfInBounds, h.size_positions]
  · intro u hu j c hc
    rw [TraceState.number, Array.getElem?_setIfInBounds_ne, h.position u hu j c hc]
    rintro rfl
    have hmem : b ∈ s.traces.flatten := List.mem_flatten.mpr ⟨u, hu, List.mem_of_getElem? hc⟩
    exact (List.disjoint_of_nodup_append h.nodup) hmem hb

theorem numberAll (h : Building g edge s t) {bs : List BlockId} (hbs : ∀ b ∈ bs, b ∈ t) :
    Building g edge (s.numberAll bs) t := by
  induction bs using List.reverseRecOn with
  | nil => exact h
  | append_singleton bs b ih =>
    rw [List.forall_mem_append, List.forall_mem_singleton] at hbs
    rw [numberAll_concat]
    exact (ih hbs.1).number hbs.2 _

theorem divide (h : Building g edge s []) (hall : ∀ b : Nat, b < g.size → b ∈ s.processed) :
    s.toTraces.Divide g edge where
  perm := by
    have hnodup := h.nodup
    rw [List.append_nil] at hnodup
    refine (List.perm_ext_iff_of_nodup hnodup List.nodup_range).mpr fun b => ?_
    rw [List.mem_range, ← List.append_nil s.traces.flatten, ← h.mem_processed]
    exact ⟨h.lt_size b, hall b⟩
  nil_notMem := h.nil_notMem
  chain := h.chain
  number i u k b hu hb := by
    rw [Traces.traceOf, Traces.positionOf, Array.getD_eq_getD_getElem?, Array.getD_eq_getD_getElem?,
      h.traceNumber i u hu b (List.mem_of_getElem? hb), h.position u (List.mem_of_getElem? hu) k b hb]
    exact ⟨rfl, rfl⟩
  entered i u b hu hb p hp := by
    obtain ⟨v, hv, hpv⟩ := List.mem_flatten.mp (h.entered i u b hu hb p hp)
    obtain ⟨j, hj, rfl⟩ := List.mem_take_iff_getElem.mp hv
    rw [Traces.traceOf, Array.getD_eq_getD_getElem?,
      h.traceNumber j _ (List.getElem?_eq_getElem (by omega)) p hpv, Option.getD_some]
    omega

end Building

/-- A trace along edges whose blocks have their positions. What leads to its first block is in complete
traces. -/
structure Extending (g : Cfg) (edge : BlockId → BlockId → Prop) (s : TraceState) (t : Trace) : Prop
    extends Building g edge s t where
  numbered : s.Numbered t
  isChain : t.IsChain edge
  entered_head : ∀ b, t.head? = some b → ∀ p, edge p b → p ∈ s.traces.flatten

/-- The block can come next in the trace. -/
structure Continues (g : Cfg) (edge : BlockId → BlockId → Prop) (s : TraceState) (t : Trace) (b : Nat) :
    Prop where
  lt_size : b < g.size
  notMem_processed : b ∉ s.processed
  edge_last : ∀ a, t.getLast? = some a → edge a b
  entered_first : t = [] → ∀ p, edge p b → p ∈ s.traces.flatten

namespace Extending

theorem start : Extending g edge (.start g) [] := ⟨building_start, Numbered.nil _, .nil, nofun⟩

theorem concat (h : Extending g edge s t) (hb : Continues g edge s t b) :
    Extending g edge ((s.enter b).number b t.length) (t ++ [b]) := by
  have hbt : b ∉ t := fun hmem => hb.notMem_processed (h.mem_of_mem hmem)
  have hentered := h.toBuilding.enter hb.notMem_processed hb.lt_size (List.perm_append_singleton b t)
  refine ⟨hentered.number (by simp) _, ?_, ?_, ?_⟩
  · exact Numbered.concat (s := s.enter b) h.numbered hbt (h.size_positions ▸ hb.lt_size)
  · refine List.isChain_append.mpr ⟨h.isChain, List.isChain_singleton b, fun a ha c hc => ?_⟩
    obtain rfl := Option.some.inj hc
    exact hb.edge_last a ha
  · intro c hc p hp
    cases t with
    | nil =>
      obtain rfl := Option.some.inj hc
      exact hb.entered_first rfl p hp
    | cons a t => exact h.entered_head c hc p hp

theorem complete (h : Extending g edge s t) (hne : t ≠ []) : Extending g edge (s.complete t) [] := by
  have hflatten : (s.complete t).traces.flatten = s.traces.flatten ++ t := by simp [TraceState.complete]
  have hcases {i : Nat} {u : Trace} (hu : (s.traces ++ [t])[i]? = some u) :
      s.traces[i]? = some u ∨ i = s.traces.length ∧ u = t := by
    rw [List.getElem?_append] at hu
    split at hu
    case isTrue => exact Or.inl hu
    case isFalse hi =>
      obtain ⟨hlt, rfl⟩ := List.getElem?_eq_some_iff.mp hu
      rw [List.length_singleton] at hlt
      exact Or.inr ⟨by omega, List.getElem_singleton _⟩
  refine ⟨⟨?_, fun b => ?_, h.lt_size, h.size_traceNumbers, h.size_positions, ?_,
    fun b hb => absurd hb List.not_mem_nil, ?_, ?_, ?_, ?_⟩, Numbered.nil _, .nil, nofun⟩
  · rw [hflatten, List.append_nil]
    exact h.nodup
  · rw [hflatten, List.append_nil]
    exact h.mem_processed b
  · intro i u hu b hb
    rcases hcases hu with hu | ⟨rfl, rfl⟩
    · exact h.traceNumber i u hu b hb
    · exact h.traceNumber_last b hb
  · exact List.forall_mem_append.mpr ⟨h.position, List.forall_mem_singleton.mpr h.numbered⟩
  · rw [TraceState.complete, List.mem_append, List.mem_singleton, not_or]
    exact ⟨h.nil_notMem, hne.symm⟩
  · exact List.forall_mem_append.mpr ⟨h.chain, List.forall_mem_singleton.mpr h.isChain⟩
  · intro i u b hu hb p hp
    rcases hcases hu with hu | ⟨rfl, rfl⟩
    · have hi := (List.getElem?_eq_some_iff.mp hu).1
      rw [TraceState.complete, List.take_append_of_le_length hi.le]
      exact h.entered i u b hu hb p hp
    · rw [TraceState.complete, List.take_left]
      exact h.entered_head b hb p hp

end Extending

end TraceState

end CompilerKit.ControlFlow
