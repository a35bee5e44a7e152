import CompilerKit.Proofs.Options.Overrides

/-! # The values that an option has had

The values listed for an option should be those that the open scopes gave it, the innermost first, and
then its value outside of all scopes. A scope takes over the overrides of the scopes around it, so a
value is listed once more for every scope within the one that gave it.
-/
namespace CompilerKit.Options

open Result

/-- Plain options, each with an identity of its own. -/
structure PlainOptions where
  options : Set Declaration
  id_injOn : Set.InjOn Declaration.id options
  plain : ∀ o ∈ options, ∃ id v, o = .plain id v

/-- A call that gives values to some of the options. -/
def PlainOptions.Names (P : PlainOptions) (c : Call) : Prop :=
  ∀ e ∈ c.changes, e.1 ∈ P.options ∧ e.2 ≠ .null

namespace Session

variable {α : Type}

def valueWithin (s₀ : Session α) (o : Declaration) (calls : List Call) : Result Value := do
  (← s₀.nest calls).value o

def changes (s₀ : Session α) (o : Declaration) : List Call → Bool
  | [] => false
  | c :: outer => s₀.valueWithin o (c :: outer) ≠ s₀.valueWithin o outer

/-- One of some calls gives an option another value than it has outside. -/
def changed (s₀ : Session α) (o : Declaration) (calls : List Call) : Bool :=
  calls.tails.any (s₀.changes o)

/-- The values within those open scopes that are selected, the innermost first, and the value outside. -/
def history (s₀ : Session α) (o : Declaration) (selected : List Call → Bool) (calls : List Call) :
    List (Result Value) :=
  (calls.tails.filter selected).map (s₀.valueWithin o) ++ [.ok (s₀.base o)]

end Session

/-! ## One call -/

namespace PlainOptions

variable {α : Type} {P : PlainOptions} {s s₀ t : Session α} {o : Declaration} {c : Call}

theorem isStable_eq (ho : o ∈ P.options) : o.isStable = false := by
  obtain ⟨id, v, rfl⟩ := P.plain o ho
  rfl

theorem value_eq (ho : o ∈ P.options) (s : Session α) :
    s.value o = .ok ((s.overrides.get? o.id).getD (s.base o)) := by
  obtain ⟨id, v, rfl⟩ := P.plain o ho
  rfl

theorem values_eq (ho : o ∈ P.options) (s : Session α) :
    s.values o = s.scopes.filterMap (·.overrides.get? o.id) ++ [s.base o] := by
  rw [Session.values, isStable_eq ho]
  rfl

theorem exists_overrideAll {l : List (Declaration × Value)}
    (hl : ∀ e ∈ l, e.1 ∈ P.options ∧ e.2 ≠ .null) (s : Session α) :
    s.overrideAll l = .ok (s.enter (s.recorded l)) :=
  (Session.overrideAll_eq_ok (fun e he => isStable_eq (hl e he).1) fun e he => (hl e he).2).2
    ⟨fun e he => ⟨_, value_eq (hl e he).1 s⟩, rfl⟩

theorem Names.exists_enter (h : P.Names c) (s : Session α) :
    ∃ l, (∀ e ∈ l, e.1 ∈ P.options) ∧ c.run s = .ok (s.enter (s.recorded l)) := by
  cases c with
  | single o v =>
    obtain ⟨ho, hv⟩ := h (o, v) (by simp [Call.changes])
    refine ⟨[(o, v)], by simpa using ho, ?_⟩
    rw [Call.run, Session.override_eq (isStable_eq ho) hv]
    exact exists_overrideAll h s
  | map changes =>
    have hl : ∀ e ∈ Session.merged changes, e.1 ∈ P.options ∧ e.2 ≠ .null :=
      fun e he => h e (OrderedMap.mem_of_mem_ofList he)
    refine ⟨_, fun e he => (hl e he).1, ?_⟩
    exact (Session.overrideMap_eq_ok_merged (fun e he => isStable_eq (hl e he).1)
      fun e he => (hl e he).2).2 (exists_overrideAll hl s)
  | array changes =>
    have hl : ∀ e ∈ Session.merged (changes.filter fun e => s.value e.1 ≠ .ok e.2),
        e.1 ∈ P.options ∧ e.2 ≠ .null :=
      fun e he => h e (List.mem_of_mem_filter (OrderedMap.mem_of_mem_ofList he))
    refine ⟨_, fun e he => (hl e he).1, ?_⟩
    exact (Session.overrideArray_eq_ok_merged fun e he => (h e he).2).2
      ⟨fun e he => ⟨_, value_eq (h e he).1 s⟩, exists_overrideAll hl s⟩

theorem get?_recorded {l : List (Declaration × Value)} (hl : ∀ e ∈ l, e.1 ∈ P.options)
    (ho : o ∈ P.options) (s : Session α) :
    (s.recorded l).get? o.id = s.overrides.get? o.id ∨
      ∃ v, (s.recorded l).get? o.id = some v ∧ s.value o ≠ .ok v := by
  have puts : ∀ (l : List (Declaration × Value)) (m : OrderedMap Nat Value),
      (∀ e ∈ l, e.1 ∈ P.options ∧ s.value e.1 ≠ .ok e.2) →
      (l.foldl (fun m e => m.put e.1.id e.2) m).get? o.id = m.get? o.id ∨
        ∃ v, (l.foldl (fun m e => m.put e.1.id e.2) m).get? o.id = some v ∧ s.value o ≠ .ok v := by
    intro l
    induction l with
    | nil => exact fun m _ => .inl rfl
    | cons e l ih =>
      intro m hl
      rw [List.forall_mem_cons] at hl
      obtain ⟨⟨he, hdiffers⟩, hl⟩ := hl
      rcases ih (m.put e.1.id e.2) hl with hsame | hput
      · rw [List.foldl_cons, hsame, OrderedMap.get?_put]
        by_cases hid : o.id = e.1.id
        · obtain rfl : o = e.1 := P.id_injOn ho he hid
          exact .inr ⟨e.2, by simp, hdiffers⟩
        · exact .inl (if_neg hid)
      · exact .inr hput
  apply puts
  intro e he
  rw [List.mem_filter] at he
  exact ⟨hl e he.1, by simpa using he.2⟩

end PlainOptions

/-! ## Nested calls -/

namespace Session

variable {α : Type} {P : PlainOptions} {s s₀ t : Session α} {o : Declaration} {c : Call}
  {calls : List Call}

theorem valueWithin_eq (h : s₀.nest calls = .ok s) (o : Declaration) :
    s₀.valueWithin o calls = s.value o := by
  rw [valueWithin, h]
  rfl

theorem changed_cons (s₀ : Session α) (o : Declaration) (c : Call) (calls : List Call) :
    s₀.changed o (c :: calls) = (s₀.changes o (c :: calls) || s₀.changed o calls) := by
  simp [changed]

theorem history_cons (s₀ : Session α) (o : Declaration) (selected : List Call → Bool) (c : Call)
    (calls : List Call) :
    s₀.history o selected (c :: calls) =
      if selected (c :: calls) then s₀.valueWithin o (c :: calls) :: s₀.history o selected calls
      else s₀.history o selected calls := by
  rw [history, List.tails_cons, List.filter_cons]
  split <;> rfl

/-- What is recorded for an option within nested calls, and what is listed. -/
structure Lists (s₀ : Session α) (o : Declaration) (calls : List Call) (s : Session α) : Prop where
  base_eq : s.base o = s₀.base o
  isSome_eq : (s.overrides.get? o.id).isSome = s₀.changed o calls
  values_eq : (s.values o).map .ok = s₀.history o (s₀.changed o) calls

theorem lists_nil (hs : s₀.scopes = []) (ho : o ∈ P.options) : Lists s₀ o [] s₀ where
  base_eq := rfl
  isSome_eq := by simp [get?_overrides_of_scopes hs, changed, changes]
  values_eq := by simp [PlainOptions.values_eq ho, hs, history, changed, changes]

theorem Lists.step (h : Lists s₀ o calls s) (hnest : s₀.nest calls = .ok s) (ho : o ∈ P.options)
    (hc : P.Names c) (hrun : c.run s = .ok t) : Lists s₀ o (c :: calls) t := by
  obtain ⟨l, hl, hopen⟩ := hc.exists_enter s
  rw [hrun] at hopen
  cases hopen
  have hnow : s₀.nest (c :: calls) = .ok _ := bind_eq_ok.2 ⟨s, hnest, hrun⟩
  have within := valueWithin_eq hnow o
  have outside := valueWithin_eq hnest o
  have base_eq : (s.enter (s.recorded l)).base o = s.base o := rfl
  have value : (s.enter (s.recorded l)).value o = .ok (((s.recorded l).get? o.id).getD (s.base o)) := by
    rw [PlainOptions.value_eq ho, get?_overrides_enter, base_eq]
  have isSome_eq : ((s.recorded l).get? o.id).isSome = s₀.changed o (c :: calls) := by
    rw [changed_cons, ← h.isSome_eq, changes, within, outside, value, PlainOptions.value_eq ho s]
    rcases PlainOptions.get?_recorded hl ho s with hsame | ⟨v, hv, hdiffers⟩
    · simp [hsame]
    · rw [PlainOptions.value_eq ho s] at hdiffers
      simp [hv, Ne.symm hdiffers]
  refine ⟨base_eq.trans h.base_eq, by rw [get?_overrides_enter, isSome_eq], ?_⟩
  rw [history_cons, ← isSome_eq, within, value, ← h.values_eq, PlainOptions.values_eq ho,
    PlainOptions.values_eq ho, base_eq, enter, List.filterMap_cons]
  cases (s.recorded l).get? o.id <;> simp

theorem lists_nest (hs : s₀.scopes = []) (ho : o ∈ P.options) (hcalls : ∀ c ∈ calls, P.Names c)
    (hnest : s₀.nest calls = .ok s) : Lists s₀ o calls s := by
  induction calls generalizing s with
  | nil =>
    cases hnest
    exact lists_nil hs ho
  | cons c calls ih =>
    obtain ⟨before, hbefore, hrun⟩ := bind_eq_ok.1 hnest
    rw [List.forall_mem_cons] at hcalls
    exact (ih hcalls.2 hbefore).step hbefore ho hcalls.1 hrun

theorem changed_of_changes {l : List Call} (h : s₀.changes o l = true) : s₀.changed o l = true :=
  List.any_eq_true.2 ⟨l, (List.mem_tails l l).2 (List.suffix_refl l), h⟩

theorem history_changed_eq_iff (s₀ : Session α) (o : Declaration) (calls : List Call) :
    s₀.history o (s₀.changed o) calls = s₀.history o (s₀.changes o) calls ↔
      ∀ l ∈ calls.tails, s₀.changed o l = true → s₀.changes o l = true := by
  have narrowed : calls.tails.filter (s₀.changes o) =
      (calls.tails.filter (s₀.changed o)).filter (s₀.changes o) := by
    rw [List.filter_filter]
    refine List.filter_congr fun l _ => ?_
    cases h : s₀.changes o l with
    | false => rfl
    | true => rw [changed_of_changes h]; rfl
  constructor
  · intro h
    -- the two lists have the same length only if the second selection leaves nothing out
    have lengths := congrArg List.length h
    rw [history, history, narrowed] at lengths
    simp only [List.length_append, List.length_map, Nat.add_right_cancel_iff] at lengths
    have all := List.length_filter_eq_length_iff.1 lengths.symm
    exact fun l hl hchanged => all l (List.mem_filter.2 ⟨hl, hchanged⟩)
  · intro h
    have same : calls.tails.filter (s₀.changed o) = calls.tails.filter (s₀.changes o) :=
      List.filter_congr fun l hl => Bool.eq_iff_iff.2 ⟨h l hl, changed_of_changes⟩
    rw [history, history, same]

end Session

/-- After properly nested events, the values listed for a plain option are those within each open scope
that changed it or lies inside one that did, and then its value outside. These are the values of the
scopes that changed it just if no scope that left it as it was lies inside one that changed it. -/
theorem values_list_history_iff {α : Type} (P : PlainOptions) (s₀ : Session α) (hs : s₀.scopes = [])
    (events : List Event) (named : ∀ c, Event.opening c ∈ events → P.Names c) (calls : List Call)
    (hopen : stillOpen events [] = some calls) :
    ∃ s, s₀.performAll events = .ok s ∧ ∀ o ∈ P.options,
      (s.values o).map .ok = s₀.history o (s₀.changed o) calls ∧
      ((s.values o).map .ok = s₀.history o (s₀.changes o) calls ↔
        ∀ l ∈ calls.tails, s₀.changed o l = true → s₀.changes o l = true) := by
  have opens : ∀ c calls s, P.Names c → (∀ d ∈ calls, P.Names d) → s₀.nest calls = .ok s →
      ∃ t, c.run s = .ok t ∧ t.close? = some s := by
    intro c _ s hc _ _
    obtain ⟨l, -, hrun⟩ := hc.exists_enter s
    exact ⟨_, hrun, rfl⟩
  obtain ⟨s, hrun, hnest⟩ := exists_performAll_nest opens (by simp) named rfl hopen
  have stillNamed : ∀ c ∈ calls, P.Names c := fun c hc =>
    named c ((mem_of_stillOpen hopen hc).resolve_left List.not_mem_nil)
  refine ⟨s, hrun, fun o ho => ?_⟩
  have lists := Session.lists_nest hs ho stillNamed hnest
  exact ⟨lists.values_eq, by rw [lists.values_eq, Session.history_changed_eq_iff]⟩

def lineWidth : Declaration := .plain 0 (.number 80)

def indent : Declaration := .plain 1 (.number 2)

def layout : PlainOptions where
  options := {lineWidth, indent}
  id_injOn := by
    rintro o (rfl | rfl) p (rfl | rfl) h
    · rfl
    · cases h
    · cases h
    · rfl
  plain := by
    rintro o (rfl | rfl)
    · exact ⟨_, _, rfl⟩
    · exact ⟨_, _, rfl⟩

/-- Both scopes that are open at the end change the option. -/
theorem values_list_history_iff_widths :
    let s₀ : Session Unit := {}
    let events := [Event.opening (.single lineWidth (.number 100)),
      .opening (.map [(indent, .number 4)]), .closing,
      .opening (.array [(lineWidth, .number 120), (indent, .number 2), (lineWidth, .number 100)])]
    (∀ c, Event.opening c ∈ events → layout.Names c) ∧
    ∃ s, s₀.performAll events = .ok s ∧
      (s.values lineWidth).map .ok =
        ([.ok (.number 120), .ok (.number 100), .ok (.number 80)] : List (Result Value)) := by
  intro s₀ events
  have named : ∀ c, Event.opening c ∈ events → layout.Names c := by
    intro c hc
    simp only [events, List.mem_cons, Event.opening.injEq, List.not_mem_nil, or_false, reduceCtorEq,
      false_or] at hc
    obtain rfl | rfl | rfl := hc <;> simp [PlainOptions.Names, Call.changes, layout]
  obtain ⟨s, hrun, listed⟩ := values_list_history_iff layout s₀ rfl events named _ rfl
  refine ⟨named, s, hrun, ?_⟩
  rw [(listed lineWidth (.inl rfl)).1]
  decide

/-- The value that the outer scope gave is listed for the inner one too. -/
theorem inner_scope_repeats_value :
    let s₀ : Session Unit := {}
    ∃ s, s₀.performAll
        [.opening (.single lineWidth (.number 100)), .opening (.single indent (.number 4))] = .ok s ∧
      s.values lineWidth = [.number 100, .number 100, .number 80] ∧
      (s.values lineWidth).map .ok ≠ s₀.history lineWidth (s₀.changes lineWidth)
        [.single indent (.number 4), .single lineWidth (.number 100)] :=
  ⟨_, rfl, by decide, by decide⟩

end CompilerKit.Options
