import CompilerKit.Proofs.Graph.Consistency
import CompilerKit.Proofs.ValueType

/-! # Edits that keep types

A graph that type checks still does when nodes are added, when a node is replaced by another one of its
type, when inputs are exchanged and when a stamp is replaced by one of the same width. All other nodes
keep their types.
-/

namespace CompilerKit.Graph

variable {F : Fragment} {g g' g'' : Graph Label} {i u x : NodeId} {σ τ : ValueType}

/-- The graph type checks, and the nodes of the one before have kept their types. -/
structure Keeps (F : Fragment) (g g' : Graph Label) : Prop where
  checks : g'.TypeChecks F
  has : ∀ {i τ}, g.Has F i τ → g'.Has F i τ

namespace Keeps

theorem refl (h : g.TypeChecks F) : Keeps F g g := ⟨h, id⟩

theorem trans (h : Keeps F g g') (h' : Keeps F g' g'') : Keeps F g g'' :=
  ⟨h'.checks, fun hi => h'.has (h.has hi)⟩

theorem fits (h : Keeps F g g') {o : Option NodeId} (ho : g.Fits F o τ) : g'.Fits F o τ :=
  fun x hx => h.has (ho x hx)

theorem term (h : Keeps F g g') {t : Term} (ht : t.Has F g τ) : t.Has F g' τ := by
  induction ht with
  | node hi => exact .node (h.has hi)
  | leaf hop hs => exact .leaf hop hs
  | unary hop hs _ ih => exact .unary hop hs ih
  | binary hop hs _ _ ihx ihy => exact .binary hop hs ihx ihy
  | select hop hs _ _ _ ihc iht ihf => exact .select hop hs ihc iht ihf

end Keeps

theorem Has.of_label (hl : g'.label? i = g.label? i) (h : g.Has F i τ) : g'.Has F i τ := by
  obtain ⟨l, hi, hτ⟩ := h
  exact ⟨l, hl.trans hi, hτ⟩

theorem label?_setInputs (l : List (Option NodeId)) (j : NodeId) :
    (g.setInputs u l).label? j = g.label? j := by
  rw [Graph.setInputs, label?, getElem?_modify, label?]
  split <;> simp [Function.comp_def]

theorem Fits.exchange {other : Option NodeId} (hi : g.Has F i τ) (ho : g.Fits F other τ)
    (h : g.Fits F (some i) σ) : g.Fits F other σ := by
  obtain rfl := hi.type_eq (h i rfl)
  exact ho

theorem fits_replace {l : List (Option NodeId)} {args : List ValueType} {old new : Option NodeId}
    (hexchange : ∀ σ, g.Fits F old σ → g.Fits F new σ) (h : List.Forall₂ (g.Fits F) l args) :
    List.Forall₂ (g.Fits F) (l.replace old new) args := by
  induction h with
  | nil => exact .nil
  | cons ha htail ih =>
    rw [List.replace_cons]
    split
    · rename_i heq
      obtain rfl := eq_of_beq heq
      exact .cons (hexchange _ ha) htail
    · exact .cons ha ih

theorem fits_set {l : List (Option NodeId)} {args : List ValueType} {old new : Option NodeId}
    {k : Nat} (hk : l[k]? = some old) (hexchange : ∀ σ, g.Fits F old σ → g.Fits F new σ)
    (h : List.Forall₂ (g.Fits F) l args) : List.Forall₂ (g.Fits F) (l.set k new) args := by
  induction h generalizing k with
  | nil => exact .nil
  | cons ha htail ih =>
    cases k with
    | zero =>
      cases hk
      exact .cons (hexchange _ ha) htail
    | succ k => exact .cons ha (ih hk)

namespace TypeChecks

variable (hg : g.TypeChecks F)

include hg

theorem of_inputs (hlabel : ∀ j, g'.label? j = g.label? j)
    (hinputs : ∀ j args, List.Forall₂ (g.Fits F) (g.inputs j) args →
      List.Forall₂ (g.Fits F) (g'.inputs j) args) : Keeps F g g' where
  checks j l hl := by
    rw [hlabel] at hl
    obtain ⟨args, τ, hop, hs, hargs⟩ := hg j l hl
    refine ⟨args, τ, hop, hs, (hinputs j args hargs).imp fun o σ ho x hx => ?_⟩
    exact (ho x hx).of_label (hlabel x)
  has hj := hj.of_label (hlabel _)

theorem same (h : SameNodes g g') : Keeps F g g' :=
  hg.of_inputs h.label fun j _ hargs => by rwa [h.inputs j]

theorem setInputs {l : List (Option NodeId)}
    (h : ∀ args, List.Forall₂ (g.Fits F) (g.inputs u) args → List.Forall₂ (g.Fits F) l args) :
    Keeps F g (g.setInputs u l) := by
  apply hg.of_inputs
  · exact label?_setInputs l
  · intro j args hargs
    rw [Graph.inputs, Graph.setInputs, getElem?_modify]
    split
    · rename_i hju
      subst hju
      cases hj : g.nodes[u]? with
      | none => rwa [Graph.inputs, hj] at hargs
      | some n => exact h args hargs
    · exact hargs

/-! A node in the place of another one of its type. -/

section Exchange

variable (hi : g.Has F i τ) {other : Option NodeId} (ho : g.Fits F other τ)

include hi ho

theorem redirectFirst (u : NodeId) : Keeps F g (g.redirectFirst u (some i) other) :=
  hg.setInputs fun _ => fits_replace fun _ => Fits.exchange hi ho

theorem handOver (notifies : NodeId → Bool) (u : NodeId) :
    Keeps F g (g.handOver i other notifies u) := by
  refine (hg.redirectFirst hi ho u).trans ?_
  have hchecks := (hg.redirectFirst hi ho u).checks
  unfold Graph.handOver
  generalize g.redirectFirst u (some i) other = h at hchecks
  apply hchecks.same
  have htouch : SameNodes h (if notifies u = true then h.touch u else h) := by
    split
    · exact .touch h u
    · exact .refl h
  exact htouch.trans (.elim other fun b => .modifyUsages _ b (·.add u))

theorem replaceUsers (p : Graph Label → NodeId → Bool) (notifies : NodeId → Bool) (left k : Nat) :
    Keeps F g (replaceUsers i other p notifies left k g) := by
  induction left generalizing g k with
  | zero => exact .refl hg
  | succ left ih =>
    unfold Graph.replaceUsers
    split
    · exact .refl hg
    · rename_i u _
      split
      · have hstep := hg.handOver hi ho notifies u
        have hmoved := hstep.trans (hstep.checks.same (.modifyUsages _ i (·.moveLastTo k)))
        exact hmoved.trans (ih hmoved.checks (hmoved.has hi) (hmoved.fits ho) k)
      · exact ih hg hi ho (k + 1)

theorem replaceAtUsages : Keeps F g (g.replaceAtUsages i other) := hg.replaceUsers hi ho _ _ _ _

theorem replaceAtUsagesAndDelete : Keeps F g (g.replaceAtUsagesAndDelete i other) := by
  have hreplaced := hg.replaceUsers hi ho (fun _ _ => true) (fun u => u ≠ i) (g.usageCount i) 0
  exact hreplaced.trans (hreplaced.checks.same (.delete _ i))

theorem replaceSlot {slot : Nat} (hslot : (g.inputs u)[slot]? = some (some i)) :
    Keeps F g (g.replaceSlot u slot other) := by
  have hset : Keeps F g (g.setInputs u ((g.inputs u).set slot other)) :=
    hg.setInputs fun _ => fits_set hslot fun _ => Fits.exchange hi ho
  exact hset.trans (hset.checks.same (.moveUsage _ u _ other))

omit hg hi ho in
theorem foldl {β : Type} {step : Graph Label → β → Graph Label}
    (h : ∀ g b, g.TypeChecks F → g.Has F i τ → g.Fits F other τ → Keeps F g (step g b))
    (l : List β) (hg : g.TypeChecks F) (hi : g.Has F i τ) (ho : g.Fits F other τ) :
    Keeps F g (l.foldl step g) := by
  induction l generalizing g with
  | nil => exact .refl hg
  | cons b l ih =>
    have hstep := h g b hg hi ho
    exact hstep.trans (ih hstep.checks (hstep.has hi) (hstep.fits ho))

theorem replaceAtSlots (p : Label → Nat → Bool) : Keeps F g (g.replaceAtSlots p i other) := by
  refine foldl (fun g u hg hi ho => ?_) _ hg hi ho
  refine foldl (fun g slot hg hi ho => ?_) _ hg hi ho
  split
  · rename_i hslot
    simp only [Bool.and_eq_true, decide_eq_true_eq] at hslot
    exact hg.replaceSlot hi ho hslot.1
  · exact .refl hg

end Exchange

theorem clearInputs (i : NodeId) : Keeps F g (g.clearInputs i) := by
  have hreleased := hg.same (.releaseInputs g i)
  refine hreleased.trans (hreleased.checks.setInputs fun args hargs => ?_)
  rw [(SameNodes.releaseInputs g i).inputs] at hargs
  rw [List.forall₂_map_left_iff]
  exact hargs.imp fun _ _ _ _ hx => nomatch hx

theorem commute (i : NodeId) : Keeps F g (g.commute i).1 := by
  unfold Graph.commute
  split
  · rename_i op x y hshape
    split
    · rename_i hcond
      simp only [Bool.and_eq_true] at hcond
      obtain ⟨hop, hinputs⟩ := op?_of_shape? hshape
      obtain ⟨τ, hi⟩ := hg.exists_type hop
      obtain ⟨ρ, σ, htyping, hx, hy⟩ := hg.binary hshape hi
      obtain rfl := htyping.operands_eq hcond.1.1
      -- Whatever types the two slots are looked at with, they are the type of both operands.
      refine hg.setInputs fun args hargs => ?_
      rw [hinputs] at hargs ⊢
      obtain ⟨a, _, ha, htail, rfl⟩ := List.forall₂_cons_left_iff.mp (forall₂_has_of_fits hargs)
      obtain ⟨b, _, hb, hnil, rfl⟩ := List.forall₂_cons_left_iff.mp htail
      cases hnil
      obtain rfl := hx.type_eq ha
      obtain rfl := hy.type_eq hb
      refine .cons ?_ (.cons ?_ .nil)
      · rintro _ ⟨⟩
        exact hy
      · rintro _ ⟨⟩
        exact hx
    · exact .refl hg
  · exact .refl hg

end TypeChecks

/-! Stamps. -/

section Stamp

variable {j : NodeId} (s : Stamp) (source : Option Source)

theorem inputs_setStamp : (g.setStamp i s source).inputs j = g.inputs j := by
  cases source
  all_goals
    rw [setStamp, Graph.inputs, getElem?_modify, Graph.inputs]
    split <;> simp [Function.comp_def]

theorem label?_setStamp_of_ne (h : j ≠ i) : (g.setStamp i s source).label? j = g.label? j := by
  cases source
  all_goals rw [setStamp, label?, getElem?_modify, if_neg h.symm, label?]

theorem exists_label?_setStamp {l : Label} (hl : g.label? i = some l) :
    ∃ l', (g.setStamp i s source).label? i = some l' ∧ l'.op = l.op ∧ l'.stamp = s := by
  obtain ⟨n, hn, rfl⟩ := Option.map_eq_some_iff.mp hl
  cases source
  all_goals
    rw [setStamp, label?, getElem?_modify, if_pos rfl, hn]
    exact ⟨_, rfl, rfl, rfl⟩

theorem op?_setStamp : (g.setStamp i s source).op? j = g.op? j := by
  by_cases hj : j = i
  · subst hj
    cases hl : g.label? j with
    | none =>
      have hnone : g.nodes[j]? = none := Option.map_eq_none_iff.mp hl
      cases source
      all_goals rw [setStamp, op?, op?, label?, getElem?_modify, if_pos rfl, hnone, label?, hnone]; rfl
    | some l =>
      obtain ⟨l', hl', hop, _⟩ := exists_label?_setStamp s source hl
      rw [op?, hl', op?, hl, Option.map_some, hop, Option.map_some]
  · rw [op?, label?_setStamp_of_ne s source hj, op?]

variable {s}

theorem TypeChecks.setStamp (hg : g.TypeChecks F) (hi : g.Has F i τ) (hs : τ.Describes s) :
    Keeps F g (g.setStamp i s source) := by
  have hlabel {j : NodeId} {l : Label} (hl : g.label? j = some l) {σ : ValueType}
      (hσ : σ.Describes l.stamp) (hop : ∃ args, l.op.Typing F args σ) :
      ∃ l', (g.setStamp i s source).label? j = some l' ∧ l'.op = l.op ∧ σ.Describes l'.stamp := by
    by_cases hj : j = i
    · subst hj
      obtain ⟨l', hl', hop', rfl⟩ := exists_label?_setStamp s source hl
      obtain rfl := hi.type_eq ⟨l, hl, hσ, hop⟩
      exact ⟨l', hl', hop', hs⟩
    · exact ⟨l, (label?_setStamp_of_ne s source hj).trans hl, rfl, hσ⟩
  have hhas {j : NodeId} {σ : ValueType} (h : g.Has F j σ) : (g.setStamp i s source).Has F j σ := by
    obtain ⟨l, hl, hσ, hop⟩ := h
    obtain ⟨l', hl', hop', hs'⟩ := hlabel hl hσ hop
    exact ⟨l', hl', hs', hop' ▸ hop⟩
  refine ⟨fun j l' hl' => ?_, hhas⟩
  have hop : g.op? j = some l'.op := by rw [← op?_setStamp s source, op?, hl', Option.map_some]
  obtain ⟨l, hl, hll⟩ := Option.map_eq_some_iff.mp hop
  obtain ⟨args, σ, htyping, hσ, hargs⟩ := hg j l hl
  obtain ⟨m, hm, _, hms⟩ := hlabel hl hσ ⟨args, htyping⟩
  obtain rfl := Option.some.inj (hl'.symm.trans hm)
  refine ⟨args, σ, hll ▸ htyping, hms, ?_⟩
  rw [inputs_setStamp]
  exact hargs.imp fun o ρ ho x hx => hhas (ho x hx)

end Stamp

/-! New nodes. -/

/-- A node of the type was added or found. -/
structure Adds (F : Fragment) (g : Graph Label) (τ : ValueType) (r : Graph Label × NodeId) :
    Prop where
  keeps : Keeps F g r.1
  has : r.1.Has F r.2 τ

theorem Label.Has.of_beq {l l' : Label} (h : l.Has F τ) (heq : (l' == l) = true) : l'.Has F τ := by
  obtain ⟨hs, args, hop⟩ := h
  obtain ⟨hagrees, hstamp⟩ := Bool.and_eq_true_iff.mp heq
  refine ⟨?_, args, hop.of_agrees hagrees⟩
  rwa [of_decide_eq_true hstamp]

theorem Has.duplicate {other : NodeId} (h : g.duplicateOf? i = some other) (hi : g.Has F i τ) :
    g.Has F other τ := by
  obtain ⟨l, hl, hτ⟩ := hi
  rw [duplicateOf?, hl] at h
  obtain ⟨-, ⟨l', hl', heq⟩, -⟩ := findDuplicate?_spec h
  exact ⟨l', hl', Label.Has.of_beq hτ heq⟩

namespace TypeChecks

variable (hg : g.TypeChecks F)

include hg

theorem add {label : Label} {inputs : List (Option NodeId)} {args : List ValueType}
    (hop : label.op.Typing F args τ) (hs : τ.Describes label.stamp)
    (hargs : List.Forall₂ (g.Fits F) inputs args) : Adds F g τ (g.add label inputs) := by
  have hold {j : NodeId} {σ : ValueType} (hj : g.Has F j σ) :
      (g.push { label, inputs }).Has F j σ := by
    obtain ⟨l, hl, hσ⟩ := hj
    have hne : j ≠ g.nodes.size := (lt_size_of_label? hl).ne
    exact ⟨l, by rw [label?_push, if_neg hne, hl], hσ⟩
  have hpush : Keeps F g (g.push { label, inputs }) := by
    refine ⟨fun j l hl => ?_, hold⟩
    rw [label?_push] at hl
    rw [inputs_push]
    split at hl
    · rename_i hj
      cases hl
      rw [if_pos hj]
      exact ⟨args, τ, hop, hs, hargs.imp fun o σ ho x hx => hold (ho x hx)⟩
    · rename_i hj
      obtain ⟨args, σ, hop, hs, hargs⟩ := hg j l hl
      rw [if_neg hj]
      exact ⟨args, σ, hop, hs, hargs.imp fun o ρ ho x hx => hold (ho x hx)⟩
  have hregistered : Keeps F _ (g.add label inputs).1 := hpush.checks.same
    (.foldl (fun g x => (SameNodes.touch g _).trans (.modifyUsages _ x _)) _ _)
  refine ⟨hpush.trans hregistered, hregistered.has ⟨label, ?_, hs, args, hop⟩⟩
  rw [label?_push, Graph.add, if_pos rfl]

theorem unique {label : Label} {inputs : List (Option NodeId)} {args : List ValueType}
    (hop : label.op.Typing F args τ) (hs : τ.Describes label.stamp)
    (hargs : List.Forall₂ (g.Fits F) inputs args) : Adds F g τ (g.unique label inputs) := by
  rcases g.unique_cases label inputs with ⟨j, hj, hunique⟩ | ⟨-, leaves, hunique, -⟩
  · rw [hunique]
    obtain ⟨-, ⟨l, hl, heq⟩, -⟩ := findDuplicate?_spec hj
    exact ⟨.refl hg, l, hl, Label.Has.of_beq ⟨hs, args, hop⟩ heq⟩
  · rw [hunique]
    obtain ⟨hkeeps, hhas⟩ := hg.add hop hs hargs
    have hsame : Keeps F (g.add label inputs).1 { (g.add label inputs).1 with leaves } :=
      hkeeps.checks.same ⟨fun _ => rfl, fun _ => rfl⟩
    exact ⟨hkeeps.trans hsame, hsame.has hhas⟩

theorem place {op : Op} {s : Stamp} {xs : List NodeId} {args : List ValueType}
    (hop : op.Typing F args τ) (hs : τ.Describes s) (hargs : List.Forall₂ (g.Has F) xs args) :
    Adds F g τ (g.place op s (xs.map some)) := by
  have hfits : List.Forall₂ (g.Fits F) (xs.map some) args := by
    rw [List.forall₂_map_left_iff]
    refine hargs.imp fun x σ hx => ?_
    rintro _ ⟨⟩
    exact hx
  unfold Graph.place
  dsimp only
  split
  · exact hg.unique hop hs hfits
  · exact hg.add hop hs hfits

theorem insert {t : Term} (ht : t.Has F g τ) : Adds F g τ (g.insert t) := by
  induction t generalizing g τ with
  | node i =>
    cases ht with
    | node hi => exact ⟨.refl hg, hi⟩
  | leaf l s =>
    cases ht with
    | leaf hop hs => exact hg.place hop hs .nil
  | unary op s x ihx =>
    cases ht with
    | unary hop hs hx =>
      have hx' := ihx hg hx
      have hplaced := hx'.keeps.checks.place hop hs (.cons hx'.has .nil)
      exact ⟨hx'.keeps.trans hplaced.keeps, hplaced.has⟩
  | binary op s x y ihx ihy =>
    cases ht with
    | binary hop hs hx hy =>
      have hx' := ihx hg hx
      have hy' := ihy hx'.keeps.checks (hx'.keeps.term hy)
      have hplaced := hy'.keeps.checks.place hop hs
        (.cons (hy'.keeps.has hx'.has) (.cons hy'.has .nil))
      exact ⟨(hx'.keeps.trans hy'.keeps).trans hplaced.keeps, hplaced.has⟩
  | select s c t f ihc iht ihf =>
    cases ht with
    | select hop hs hc ht hf =>
      have hc' := ihc hg hc
      have ht' := iht hc'.keeps.checks (hc'.keeps.term ht)
      have hct := hc'.keeps.trans ht'.keeps
      have hf' := ihf hct.checks (hct.term hf)
      have hplaced := hf'.keeps.checks.place hop hs
        (.cons (hf'.keeps.has (ht'.keeps.has hc'.has))
          (.cons (hf'.keeps.has ht'.has) (.cons hf'.has .nil)))
      exact ⟨(hct.trans hf'.keeps).trans hplaced.keeps, hplaced.has⟩

end TypeChecks

end CompilerKit.Graph
