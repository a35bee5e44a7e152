import CompilerKit.Proofs.Options.Overrides

/-! # Derived values are never stale

A derived value is computed from the values of options and kept in the innermost scope that changes
anything, or outside of all scopes. Values depend on the overrides in force only, and these belong to the
scope for as long as it is open. So a value that is kept is the one that would be computed again.
-/
namespace CompilerKit.Options

open Result

/-- What a session is used for while no option is set. -/
inductive Action where
  | opening (c : Call)
  | closing
  | reading

def Action.isReading : Action → Bool
  | .reading => true
  | _ => false

/-- A derived value looks at the values of options only. It may fail. -/
abbrev Supplier (α : Type) := (Declaration → Result Value) → Result α

namespace Session

variable {α : Type}

def read (f : Supplier α) (s : Session α) : Result α × Session α := s.derive fun s => f s.value

/-- A call that fails opens no scope. -/
def act (f : Supplier α) (s : Session α) : Action → Session α
  | .opening c => (c.run s).toOption.getD s
  | .closing => s.close?.getD s
  | .reading => (s.read f).2

def actAll (f : Supplier α) (s : Session α) (actions : List Action) : Session α :=
  actions.foldl (act f) s

/-! ## What values depend on -/

theorem value_congr {s t : Session α} (hexplicit : s.explicit = t.explicit)
    (hoverrides : s.overrides = t.overrides) : s.value = t.value := by
  have own : s.own = t.own := by
    funext o
    simp only [Session.own, base, hexplicit, hoverrides]
  funext o
  induction o with
  | plain | stable => rw [value, value, own]
  | nested id master initial ih => rw [value, value, own, ih]

def valuesUnder (s : Session α) (m : OrderedMap Nat Value) : Declaration → Result Value :=
  ({ explicit := s.explicit, scopes := [{ overrides := m }] } : Session α).value

theorem value_eq_valuesUnder (s : Session α) : s.value = s.valuesUnder s.overrides := by
  have single : ∀ m : OrderedMap Nat Value,
      m = ({ explicit := s.explicit, scopes := [{ overrides := m }] } : Session α).overrides := by
    rintro ⟨_ | _⟩ <;> rfl
  exact value_congr rfl (single s.overrides)

/-! ## Kept values -/

theorem mem_keepIn {a : α} {l : List (Scope α)} {c : Scope α} (h : c ∈ keepIn a l) :
    c ∈ l ∨
      ∃ d, l.find? (fun c => !c.overrides.isEmpty) = some d ∧ c = { d with derived? := some a } := by
  induction l with
  | nil => cases h
  | cons d l ih =>
    rw [keepIn] at h
    split at h
    · rename_i hempty
      obtain rfl | h := List.mem_cons.1 h
      · exact .inl List.mem_cons_self
      · refine (ih h).imp (List.mem_cons_of_mem d) ?_
        rintro ⟨e, he, rfl⟩
        exact ⟨e, by simpa [List.find?_cons, hempty] using he, rfl⟩
    · rename_i hempty
      obtain rfl | h := List.mem_cons.1 h
      · exact .inr ⟨d, by simp [hempty], rfl⟩
      · exact .inl (List.mem_cons_of_mem d h)

/-- Every value that is kept is the one for the overrides that it is kept with. -/
structure Coherent (f : Supplier α) (s : Session α) : Prop where
  outside : ∀ a ∈ s.derived?, f (s.valuesUnder {}) = .ok a
  scopes : ∀ c ∈ s.scopes, ∀ a ∈ c.derived?, f (s.valuesUnder c.overrides) = .ok a

namespace Coherent

variable {f : Supplier α} {s t : Session α} (h : Coherent f s)
include h

theorem value_of_kept? {a : α} (ha : s.kept? = some a) : f s.value = .ok a := by
  rw [value_eq_valuesUnder, overrides]
  unfold kept? at ha
  split at ha
  · rename_i c hc
    rw [hc]
    exact h.scopes c (List.mem_of_find?_eq_some hc) a ha
  · rename_i hnone
    rw [hnone]
    exact h.outside a ha

theorem read_eq : (s.read f).1 = f s.value := by
  unfold read derive
  split
  · rename_i a ha
    exact (h.value_of_kept? ha).symm
  · have same : ({ s with evaluations := s.evaluations + 1 } : Session α).value = s.value :=
      value_congr rfl rfl
    dsimp only
    rw [same]
    cases f s.value <;> rfl

theorem congr (hexplicit : t.explicit = s.explicit) (houtside : t.derived? = s.derived?)
    (hscopes : ∀ c ∈ t.scopes, c ∈ s.scopes ∨ c.derived? = none) : Coherent f t where
  outside := by
    rw [houtside, valuesUnder, hexplicit]
    exact h.outside
  scopes c hc a ha := by
    rw [valuesUnder, hexplicit]
    rcases hscopes c hc with hmem | hnone
    · exact h.scopes c hmem a ha
    · rw [hnone] at ha
      cases ha

theorem keep {a : α} (ha : f s.value = .ok a) : Coherent f (s.keep a) := by
  rw [value_eq_valuesUnder, overrides] at ha
  unfold Session.keep
  split
  · refine ⟨h.outside, fun c hc b hb => ?_⟩
    rcases mem_keepIn hc with hmem | ⟨d, hd, rfl⟩
    · exact h.scopes c hmem b hb
    · cases hb
      rw [current?, hd] at ha
      exact ha
  · rename_i hnone
    rw [Option.not_isSome_iff_eq_none.1 hnone] at ha
    refine ⟨fun b hb => ?_, h.scopes⟩
    cases hb
    exact ha

theorem read : Coherent f (s.read f).2 := by
  unfold Session.read derive
  split
  · exact h
  · have counted : Coherent f { s with evaluations := s.evaluations + 1 } :=
      h.congr rfl rfl fun c hc => .inl hc
    dsimp only
    split
    · rename_i a ha
      exact counted.keep ha
    · exact counted

end Coherent

theorem exists_enter_of_overrideAll {s t : Session α} {l : List (Declaration × Value)}
    (h : s.overrideAll l = .ok t) : ∃ m, t = s.enter m := by
  obtain ⟨m, -, ht⟩ := bind_eq_ok.1 h
  exact ⟨m, (Except.ok.inj ht).symm⟩

theorem exists_enter_of_run {s t : Session α} {c : Call} (h : c.run s = .ok t) : ∃ m, t = s.enter m := by
  cases c with
  | single o v =>
    rw [Call.run, override] at h
    split at h
    · obtain ⟨agrees, -, h⟩ := bind_eq_ok.1 h
      split at h
      · exact ⟨{}, (Except.ok.inj h).symm⟩
      · exact exists_enter_of_overrideAll h
    · exact exists_enter_of_overrideAll h
  | map changes =>
    rw [Call.run, overrideMap] at h
    split at h
    · obtain ⟨_, -, h⟩ := bind_eq_ok.1 h
      exact exists_enter_of_overrideAll h
    · exact exists_enter_of_overrideAll h
  | array changes =>
    obtain ⟨l, -, h⟩ := bind_eq_ok.1 h
    exact exists_enter_of_overrideAll h

theorem Coherent.act {f : Supplier α} {s : Session α} (h : Coherent f s) (a : Action) :
    Coherent f (s.act f a) := by
  cases a with
  | opening c =>
    rw [Session.act]
    cases hrun : c.run s with
    | error => exact h
    | ok t =>
      obtain ⟨m, rfl⟩ := exists_enter_of_run hrun
      refine h.congr rfl rfl fun c hc => ?_
      obtain rfl | hc := List.mem_cons.1 hc
      · exact .inr rfl
      · exact .inl hc
  | closing =>
    rw [Session.act, close?]
    split
    · exact h
    · rename_i outer hscopes
      refine h.congr rfl rfl fun c hc => .inl ?_
      rw [hscopes]
      exact List.mem_cons_of_mem _ hc
  | reading => exact h.read

theorem Coherent.actAll {f : Supplier α} {s : Session α} (h : Coherent f s) (actions : List Action) :
    Coherent f (s.actAll f actions) := by
  induction actions generalizing s with
  | nil => exact h
  | cons a actions ih => exact ih (h.act a)

/-! ## Readings leave no trace in the values -/

/-- A session without what is kept for derived values. -/
def bare (s : Session α) : Session α where
  explicit := s.explicit
  scopes := s.scopes.map fun c => { overrides := c.overrides }

theorem current?_bare (s : Session α) :
    s.bare.current? = s.current?.map fun c => { overrides := c.overrides } := by
  rw [current?, current?, bare, List.find?_map]
  rfl

theorem overrides_bare (s : Session α) : s.bare.overrides = s.overrides := by
  rw [overrides, overrides, current?_bare, Option.map_map]
  rfl

theorem value_bare (s : Session α) : s.bare.value = s.value := value_congr rfl s.overrides_bare

theorem agrees_bare (s : Session α) : s.bare.agrees = s.agrees := by
  funext o v
  rw [agrees, agrees, value_bare]

theorem change_bare (s : Session α) : s.bare.change = s.change := by
  funext m o v
  rw [change, change, refuse, refuse, render, render, value_bare, agrees_bare]

theorem overrideAll_bare (s : Session α) (l : List (Declaration × Value)) :
    s.bare.overrideAll l = bare <$> s.overrideAll l := by
  rw [overrideAll, overrideAll, overrides_bare, change_bare]
  cases l.foldlM (fun m e => s.change m e.1 e.2) s.overrides <;> rfl

theorem override_bare (s : Session α) (o : Declaration) (v : Value) :
    s.bare.override o v = bare <$> s.override o v := by
  rw [override, override, agrees_bare, overrideAll_bare, current?_bare]
  cases s.current? with
  | some => rfl
  | none =>
    cases s.agrees o v with
    | error => rfl
    | ok agrees => cases agrees <;> rfl

theorem overrideMap_bare (s : Session α) (l : List (Declaration × Value)) :
    s.bare.overrideMap l = bare <$> s.overrideMap l := by
  rw [overrideMap, overrideMap, overrideAll_bare, current?_bare, agrees_bare]
  cases s.current? with
  | some => rfl
  | none =>
    rcases merged l with _ | ⟨⟨o, v⟩, _ | _⟩
    · rfl
    · dsimp only [Option.map_none]
      cases s.agrees o v <;> rfl
    · rfl

theorem overrideArray_bare (s : Session α) (l : List (Declaration × Value)) :
    s.bare.overrideArray l = bare <$> s.overrideArray l := by
  rw [overrideArray, overrideArray, agrees_bare]
  cases l.filterM fun e => not <$> s.agrees e.1 e.2 with
  | error => rfl
  | ok l => exact overrideAll_bare s _

theorem run_bare (s : Session α) (c : Call) : c.run s.bare = bare <$> c.run s := by
  cases c with
  | single o v => exact override_bare s o v
  | map changes => exact overrideMap_bare s changes
  | array changes => exact overrideArray_bare s changes

theorem keepIn_bare (a : α) (l : List (Scope α)) :
    (keepIn a l).map (fun c => ({ overrides := c.overrides } : Scope α)) =
      l.map fun c => { overrides := c.overrides } := by
  induction l with
  | nil => rfl
  | cons c l ih =>
    rw [keepIn]
    split
    · rw [List.map_cons, List.map_cons, ih]
    · rfl

theorem read_bare (f : Supplier α) (s : Session α) : (s.read f).2.bare = s.bare := by
  unfold read derive
  split
  · rfl
  · dsimp only
    split
    · rw [keep]
      split
      · exact congrArg (Session.mk s.explicit · none 0) (keepIn_bare _ s.scopes)
      · rfl
    · rfl

theorem act_bare (f : Supplier α) (s : Session α) (a : Action) :
    (s.act f a).bare = if a.isReading then s.bare else s.bare.act f a := by
  cases a with
  | opening c =>
    simp only [act, Action.isReading, run_bare]
    cases c.run s <;> rfl
  | closing =>
    obtain ⟨explicit, _ | _, derived, evaluations⟩ := s <;> rfl
  | reading => exact read_bare f s

theorem actAll_bare (f : Supplier α) (s : Session α) (actions : List Action) :
    (s.actAll f actions).bare = s.bare.actAll f (actions.filter (!·.isReading)) := by
  induction actions generalizing s with
  | nil => rfl
  | cons a actions ih =>
    rw [actAll, List.foldl_cons, ← actAll, ih, act_bare]
    cases h : a.isReading with
    | true => simp [h]
    | false => simp [h, actAll]

end Session

/-- After any calls, closings and readings, a derived value is read as it would be computed from the
values in force, and these are the same as if nothing had been read. -/
theorem derived_never_stale {α : Type} (f : Supplier α) (explicit : OrderedMap Nat Value)
    (actions : List Action) :
    let start : Session α := { explicit := explicit }
    let s := start.actAll f actions
    (s.read f).1 = f s.value ∧
      s.value = (start.actAll f (actions.filter (!·.isReading))).value := by
  intro start s
  have fresh : Session.Coherent f start := ⟨nofun, nofun⟩
  refine ⟨(fresh.actAll actions).read_eq, ?_⟩
  rw [← Session.value_bare s, Session.actAll_bare]
  rfl

end CompilerKit.Options
