import CompilerKit.Options.Session
import CompilerKit.Proofs.Collections.Ordered
import CompilerKit.Proofs.Result

/-! # Overrides are scoped

A session is used by opening scopes with overrides and closing the innermost one. What such a sequence
leaves behind depends on the overrides that are still open only, and an option has the value that the
innermost of them gives it. There is one exception. An override that gives an option the value it
already has is not recorded, so a nested option that nothing else holds goes on following its master.
-/
namespace CompilerKit.Options

open Result

/-! ## Opening and closing scopes -/

/-- A call that opens a scope, in one of its three forms. -/
inductive Call where
  | single (o : Declaration) (v : Value)
  | map (changes : List (Declaration × Value))
  | array (changes : List (Declaration × Value))

namespace Call

variable {α : Type}

def changes : Call → List (Declaration × Value)
  | .single o v => [(o, v)]
  | .map changes | .array changes => changes

def run (s : Session α) : Call → Result (Session α)
  | .single o v => s.override o v
  | .map changes => s.overrideMap changes
  | .array changes => s.overrideArray changes

def given? (c : Call) (o : Declaration) : Option Value := c.changes.lookup o

end Call

inductive Event where
  | opening (c : Call)
  | closing

/-- The calls whose scopes are open after some events, the innermost first. There are none if a scope
is closed that was not opened. -/
def stillOpen : List Event → List Call → Option (List Call)
  | [], calls => some calls
  | .opening c :: events, calls => stillOpen events (c :: calls)
  | .closing :: events, _ :: calls => stillOpen events calls
  | .closing :: _, [] => none

def innermost? (calls : List Call) (o : Declaration) : Option Value := calls.findSome? (·.given? o)

namespace Declaration

def master? : Declaration → Option Declaration
  | .nested _ master _ => some master
  | _ => none

end Declaration

namespace Session

variable {α : Type} (s : Session α)

def perform : Event → Result (Session α)
  | .opening c => c.run s
  | .closing => .ok (s.close?.getD s)

def performAll (events : List Event) : Result (Session α) := events.foldlM perform s

/-- The session in which some calls, the innermost first, were made one within the other. -/
def nest : List Call → Result (Session α)
  | [] => .ok s
  | c :: calls => do c.run (← nest calls)

def unoverridden (o : Declaration) : Result Value :=
  match o with
  | .plain .. | .stable .. => .ok (s.base o)
  | .nested _ master initial =>
    if s.base o ≠ .null then .ok (s.base o)
    else if initial then do return .truth (← asTruth (← s.value master))
    else .ok (.truth false)

/-- A nested option without a value of its own follows its master. -/
def Follows (o : Declaration) : Prop := o.master?.isSome ∧ s.base o = .null

/-- One of some calls gave the option another value than it had at that point. -/
def Pinned (o : Declaration) : List Call → Prop
  | [] => False
  | c :: calls => Pinned o calls ∨
    ∃ before v, s.nest calls = .ok before ∧ c.given? o = some v ∧ before.value o ≠ .ok v

end Session

/-! ## Options that fit together -/

/-- A set of options with the masters of the nested ones. -/
structure Family where
  options : Set Declaration
  id_injOn : Set.InjOn Declaration.id options
  master_mem : ∀ o ∈ options, ∀ m ∈ o.master?, m ∈ options

namespace Family

variable (F : Family) {α : Type}

/-- The options whose values are truth values: the nested ones and their masters. -/
def Truth (o : Declaration) : Prop := o.master?.isSome ∨ ∃ p ∈ F.options, p.master? = some o

def Fits (o : Declaration) (v : Value) : Prop := F.Truth o → ∃ b, v = .truth b

structure Allows (c : Call) : Prop where
  nodup : (c.changes.map Prod.fst).Nodup
  mem : ∀ e ∈ c.changes, e.1 ∈ F.options
  unstable : ∀ e ∈ c.changes, e.1.isStable = false
  ne_null : ∀ e ∈ c.changes, e.2 ≠ .null
  fits : ∀ e ∈ c.changes, F.Fits e.1 e.2

/-- Outside of all scopes, an option has no value or one of its type. -/
def Typed (s : Session α) : Prop := ∀ o ∈ F.options, s.base o = .null ∨ F.Fits o (s.base o)

/-- The masters that are not nested themselves have values. -/
def MastersSet (s : Session α) : Prop :=
  ∀ o ∈ F.options, ∀ m ∈ o.master?, m.master? = none → s.base m ≠ .null

end Family

/-! ## What a call records -/

namespace Session

variable {α : Type} {s t : Session α} {o : Declaration} {v : Value}

theorem get?_overrides_of_scopes (hs : s.scopes = []) (k : Nat) : s.overrides.get? k = none := by
  rw [overrides, current?, hs]
  rfl

def recorded (s : Session α) (changes : List (Declaration × Value)) : OrderedMap Nat Value :=
  (changes.filter fun e => s.value e.1 ≠ .ok e.2).foldl (fun m e => m.put e.1.id e.2) s.overrides

theorem agrees_eq (s : Session α) (o : Declaration) (hv : v ≠ .null) :
    s.agrees o v = (fun w => decide (v = w)) <$> s.value o := by
  simp only [agrees, hv, ↓reduceIte]
  cases s.value o <;> rfl

theorem change_eq (s : Session α) (m : OrderedMap Nat Value) (ho : o.isStable = false)
    (hv : v ≠ .null) :
    s.change m o v = (fun w => if v = w then m else m.put o.id v) <$> s.value o := by
  rw [change, refuse, agrees_eq s o hv, ho]
  cases s.value o with
  | error e => rfl
  | ok w =>
    by_cases h : v = w <;> simp [h, bind, Except.bind, pure, Except.pure, Functor.map, Except.map]

theorem foldlM_change_eq_ok {changes : List (Declaration × Value)}
    (unstable : ∀ e ∈ changes, e.1.isStable = false) (ne_null : ∀ e ∈ changes, e.2 ≠ .null)
    (m r : OrderedMap Nat Value) :
    changes.foldlM (fun m (o, v) => s.change m o v) m = .ok r ↔
      (∀ e ∈ changes, ∃ w, s.value e.1 = .ok w) ∧
      r = (changes.filter fun e => s.value e.1 ≠ .ok e.2).foldl (fun m e => m.put e.1.id e.2) m := by
  induction changes generalizing m with
  | nil => simp [pure, Except.pure, eq_comm]
  | cons e changes ih =>
    obtain ⟨o, v⟩ := e
    rw [List.forall_mem_cons] at unstable ne_null
    have head : s.change m o v = _ := change_eq s m unstable.1 ne_null.1
    simp only [List.foldlM_cons, bind_eq_ok, head, List.forall_mem_cons]
    cases ho : s.value o with
    | error f => simp [Functor.map, Except.map]
    | ok w =>
      by_cases hw : v = w
      · simp [Functor.map, Except.map, hw, ih unstable.2 ne_null.2, ho]
      · simp [Functor.map, Except.map, hw, Ne.symm hw, ih unstable.2 ne_null.2, ho]

theorem overrideAll_eq_ok {changes : List (Declaration × Value)}
    (unstable : ∀ e ∈ changes, e.1.isStable = false) (ne_null : ∀ e ∈ changes, e.2 ≠ .null) :
    s.overrideAll changes = .ok t ↔
      (∀ e ∈ changes, ∃ w, s.value e.1 = .ok w) ∧ t = s.enter (s.recorded changes) := by
  rw [overrideAll, bind_eq_ok]
  constructor
  · rintro ⟨m, hm, ht⟩
    obtain ⟨values, rfl⟩ := (foldlM_change_eq_ok unstable ne_null _ _).1 hm
    cases ht
    exact ⟨values, rfl⟩
  · rintro ⟨values, rfl⟩
    exact ⟨_, (foldlM_change_eq_ok unstable ne_null _ _).2 ⟨values, rfl⟩, rfl⟩

theorem overrides_of_current?_eq_none (h : s.current? = none) : s.overrides = {} := by
  simp [overrides, h]

theorem override_eq (ho : o.isStable = false) (hv : v ≠ .null) :
    s.override o v = s.overrideAll [(o, v)] := by
  cases hs : s.current? with
  | some c => simp [override, hs]
  | none =>
    have none_open := overrides_of_current?_eq_none hs
    have agrees := agrees_eq s o hv
    have change := change_eq s {} ho hv
    cases hw : s.value o with
    | error e =>
      rw [hw] at agrees change
      simp [override, hs, agrees, none_open, overrideAll, change, bind, Except.bind, Functor.map,
        Except.map]
    | ok w =>
      rw [hw] at agrees change
      by_cases h : v = w <;>
        simp_all [override, overrideAll, bind, Except.bind, Functor.map, Except.map, pure, Except.pure]

theorem merged_eq {changes : List (Declaration × Value)} (h : (changes.map Prod.fst).Nodup) :
    merged changes = changes :=
  OrderedMap.entries_ofList h

theorem overrideMap_eq_ok_merged {changes : List (Declaration × Value)}
    (unstable : ∀ e ∈ merged changes, e.1.isStable = false)
    (ne_null : ∀ e ∈ merged changes, e.2 ≠ .null) :
    s.overrideMap changes = .ok t ↔ s.overrideAll (merged changes) = .ok t := by
  rw [overrideMap]
  split
  · next _ o v heq =>
    -- the comparison made first fails only where the overrides fail too
    obtain ⟨-, single⟩ := Prod.mk.inj heq
    rw [single] at unstable ne_null ⊢
    rw [bind_eq_ok]
    constructor
    · rintro ⟨_, _, h⟩
      exact h
    · intro h
      obtain ⟨w, hw⟩ := ((overrideAll_eq_ok unstable ne_null).1 h).1 (o, v) (by simp)
      have compared : s.agrees o v = _ := agrees_eq s o (ne_null (o, v) (by simp))
      rw [hw] at compared
      exact ⟨(), by rw [compared]; rfl, h⟩
  · rfl

theorem overrideMap_eq_ok {changes : List (Declaration × Value)}
    (nodup : (changes.map Prod.fst).Nodup) (unstable : ∀ e ∈ changes, e.1.isStable = false)
    (ne_null : ∀ e ∈ changes, e.2 ≠ .null) :
    s.overrideMap changes = .ok t ↔ s.overrideAll changes = .ok t := by
  have same := merged_eq nodup
  rw [overrideMap_eq_ok_merged (by rwa [same]) (by rwa [same]), same]

theorem filterM_agrees_eq_ok {changes l : List (Declaration × Value)}
    (ne_null : ∀ e ∈ changes, e.2 ≠ .null) :
    changes.filterM (fun (o, v) => not <$> s.agrees o v) = .ok l ↔
      (∀ e ∈ changes, ∃ w, s.value e.1 = .ok w) ∧
      l = changes.filter fun e => s.value e.1 ≠ .ok e.2 := by
  have compared : ∀ e ∈ changes,
      (not <$> s.agrees e.1 e.2) = (fun w => decide (e.2 ≠ w)) <$> s.value e.1 := by
    intro e he
    rw [agrees_eq s e.1 (ne_null e he)]
    cases s.value e.1 <;> simp [Functor.map, Except.map]
  have total : (∀ e ∈ changes, ∃ c, (not <$> s.agrees e.1 e.2) = .ok c) ↔
      ∀ e ∈ changes, ∃ w, s.value e.1 = .ok w := by
    refine forall₂_congr fun e he => ?_
    rw [compared e he]
    cases s.value e.1 with
    | error f => simp [Functor.map, Except.map]
    | ok w => exact ⟨fun _ => ⟨w, rfl⟩, fun _ => ⟨_, rfl⟩⟩
  rw [filterM_eq_ok]
  refine (and_congr_left' total).trans (and_congr_right fun values => ?_)
  rw [List.filter_congr fun e he => ?_]
  obtain ⟨w, hw⟩ := values e he
  change decide ((not <$> s.agrees e.1 e.2) = .ok true) = _
  rw [compared e he, hw]
  simp [Functor.map, Except.map, @eq_comm _ w]

theorem overrideArray_eq_ok_merged {changes : List (Declaration × Value)}
    (ne_null : ∀ e ∈ changes, e.2 ≠ .null) :
    s.overrideArray changes = .ok t ↔ (∀ e ∈ changes, ∃ w, s.value e.1 = .ok w) ∧
      s.overrideAll (merged (changes.filter fun e => s.value e.1 ≠ .ok e.2)) = .ok t := by
  rw [overrideArray, bind_eq_ok]
  simp only [filterM_agrees_eq_ok ne_null]
  constructor
  · rintro ⟨l, ⟨values, rfl⟩, h⟩
    exact ⟨values, h⟩
  · rintro ⟨values, h⟩
    exact ⟨_, ⟨values, rfl⟩, h⟩

theorem overrideArray_eq_ok {changes : List (Declaration × Value)}
    (nodup : (changes.map Prod.fst).Nodup) (unstable : ∀ e ∈ changes, e.1.isStable = false)
    (ne_null : ∀ e ∈ changes, e.2 ≠ .null) :
    s.overrideArray changes = .ok t ↔ s.overrideAll changes = .ok t := by
  have sublist := List.filter_sublist (p := fun e => decide (s.value e.1 ≠ .ok e.2)) (l := changes)
  rw [overrideArray_eq_ok_merged ne_null, merged_eq (nodup.sublist (sublist.map _)),
    overrideAll_eq_ok (fun e he => unstable e (sublist.subset he))
      (fun e he => ne_null e (sublist.subset he)), overrideAll_eq_ok unstable ne_null]
  simp only [recorded, List.filter_filter, Bool.and_self]
  constructor
  · rintro ⟨values, -, ht⟩
    exact ⟨values, ht⟩
  · rintro ⟨values, ht⟩
    exact ⟨values, fun e he => values e (sublist.subset he), ht⟩

end Session

namespace Family.Allows

variable {α : Type} {F : Family} {c : Call} {s t : Session α} {o : Declaration}

theorem run_eq_ok (h : F.Allows c) :
    c.run s = .ok t ↔
      (∀ e ∈ c.changes, ∃ w, s.value e.1 = .ok w) ∧ t = s.enter (s.recorded c.changes) := by
  rw [← Session.overrideAll_eq_ok h.unstable h.ne_null]
  cases c with
  | single o v =>
    have named : (o, v) ∈ (Call.single o v).changes := by simp [Call.changes]
    rw [Call.run, Call.changes, Session.override_eq (h.unstable _ named) (h.ne_null _ named)]
  | map changes => exact Session.overrideMap_eq_ok h.nodup h.unstable h.ne_null
  | array changes => exact Session.overrideArray_eq_ok h.nodup h.unstable h.ne_null

end Family.Allows

/-! ## What is recorded after a call -/

section

variable {α : Type} {F : Family} {l : List (Declaration × Value)} {o : Declaration}

theorem lookup_eq_none_of_notMem (h : o ∉ l.map Prod.fst) : l.lookup o = none := by
  rw [List.lookup_eq_none_iff]
  intro e he
  rw [bne_iff_ne]
  rintro rfl
  exact h (List.mem_map_of_mem he)

theorem lookup_filter (h : (l.map Prod.fst).Nodup) (p : Declaration × Value → Bool) :
    (l.filter p).lookup o = (l.lookup o).filter fun v => p (o, v) := by
  induction l with
  | nil => rfl
  | cons e l ih =>
    obtain ⟨o', v⟩ := e
    rw [List.map_cons, List.nodup_cons] at h
    have tail := ih h.2
    by_cases ho : o = o'
    · subst ho
      rw [lookup_eq_none_of_notMem h.1] at tail
      by_cases hp : p (o, v) <;> simp [hp, tail, Option.filter]
    · have ho' := beq_eq_false_iff_ne.2 ho
      by_cases hp : p (o', v) <;> simp [hp, tail, List.lookup_cons, ho']

theorem get?_foldl_put (nodup : (l.map Prod.fst).Nodup) (mem : ∀ e ∈ l, e.1 ∈ F.options)
    (ho : o ∈ F.options) (m : OrderedMap Nat Value) :
    (l.foldl (fun m e => m.put e.1.id e.2) m).get? o.id = (l.lookup o).or (m.get? o.id) := by
  induction l generalizing m with
  | nil => simp
  | cons e l ih =>
    rw [List.map_cons, List.nodup_cons] at nodup
    rw [List.forall_mem_cons] at mem
    rw [List.foldl_cons, ih nodup.2 mem.2, OrderedMap.get?_put, List.lookup_cons]
    by_cases h : o = e.1
    · simp [h, lookup_eq_none_of_notMem nodup.1]
    · have ids : o.id ≠ e.1.id := fun hid => h (F.id_injOn ho mem.1 hid)
      simp [ids, beq_eq_false_iff_ne.2 h]

theorem isEmpty_foldl_put {m : OrderedMap Nat Value}
    (h : (l.foldl (fun m e => m.put e.1.id e.2) m).isEmpty) : m.isEmpty := by
  induction l generalizing m with
  | nil => exact h
  | cons e l ih => simpa [OrderedMap.isEmpty_put] using ih h

theorem Session.overrides_enter (s : Session α) (m : OrderedMap Nat Value) :
    (s.enter m).overrides = if m.isEmpty then s.overrides else m := by
  by_cases h : m.isEmpty <;> simp [Session.overrides, Session.current?, Session.enter, h]

/-- A scope that records nothing is not in force, but then nothing is recorded around it either. -/
theorem Session.get?_overrides_enter (s : Session α) (l : List (Declaration × Value)) (k : Nat) :
    (s.enter (s.recorded l)).overrides.get? k = (s.recorded l).get? k := by
  rw [Session.overrides_enter]
  split
  · next hempty =>
    rw [OrderedMap.get?_of_isEmpty _ (isEmpty_foldl_put hempty)]
    exact (OrderedMap.get?_of_isEmpty _ hempty k).symm
  · rfl

theorem Family.Allows.get?_overrides {c : Call} {s t : Session α} (h : F.Allows c)
    (hrun : c.run s = .ok t) (ho : o ∈ F.options) :
    t.overrides.get? o.id =
      ((c.given? o).filter fun v => s.value o ≠ .ok v).or (s.overrides.get? o.id) := by
  obtain ⟨-, rfl⟩ := h.run_eq_ok.1 hrun
  have sublist := List.filter_sublist (p := fun e => decide (s.value e.1 ≠ .ok e.2)) (l := c.changes)
  have lookup := get?_foldl_put (h.nodup.sublist (sublist.map _))
    (fun e he => h.mem e (sublist.subset he)) ho s.overrides
  rw [lookup_filter h.nodup] at lookup
  rw [Session.get?_overrides_enter, Call.given?, ← lookup]
  rfl

theorem Call.mem_changes {c : Call} {v : Value} (hv : c.given? o = some v) : (o, v) ∈ c.changes := by
  obtain ⟨l₁, l₂, h, -⟩ := List.lookup_eq_some_iff.1 hv
  simp [h]

theorem Family.Allows.explicit_eq {c : Call} {s t : Session α} (h : F.Allows c)
    (hrun : c.run s = .ok t) : t.explicit = s.explicit := by
  obtain ⟨-, rfl⟩ := h.run_eq_ok.1 hrun
  rfl

theorem Family.Allows.close?_eq {c : Call} {s t : Session α} (h : F.Allows c)
    (hrun : c.run s = .ok t) : t.close? = some s := by
  obtain ⟨-, rfl⟩ := h.run_eq_ok.1 hrun
  rfl

end

/-! ## The value in force -/

section

variable {α : Type} {F : Family} {s s₀ : Session α} {o : Declaration} {calls : List Call}

theorem exists_call_of_innermost? {v : Value} (h : innermost? calls o = some v) :
    ∃ c ∈ calls, (o, v) ∈ c.changes := by
  obtain ⟨c, hc, hv⟩ := List.exists_of_findSome?_eq_some h
  exact ⟨c, hc, Call.mem_changes hv⟩

theorem innermost?_cons (c : Call) (o : Declaration) :
    innermost? (c :: calls) o = (c.given? o).or (innermost? calls o) := by
  rw [innermost?, List.findSome?_cons]
  cases c.given? o <;> rfl

theorem Session.pinned_cons {c : Call} (hnest : s₀.nest calls = .ok s) :
    s₀.Pinned o (c :: calls) ↔ s₀.Pinned o calls ∨ ∃ v, c.given? o = some v ∧ s.value o ≠ .ok v := by
  simp [Session.Pinned, hnest]

theorem Session.value_eq_of_recorded {v : Value} (h : s.overrides.get? o.id = some v)
    (ho : o.isStable = false) (hv : v ≠ .null) (hfits : F.Fits o v) : s.value o = .ok v := by
  have own : s.own o = v := by simp [Session.own, ho, h]
  cases o with
  | plain | stable => rw [Session.value, own]
  | nested id master initial =>
    obtain ⟨b, rfl⟩ := hfits (.inl rfl)
    rw [Session.value, own, if_pos hv]
    rfl

theorem Session.value_eq_of_unrecorded (h : s.overrides.get? o.id = none)
    (typed : s.base o = .null ∨ F.Fits o (s.base o)) : s.value o = s.unoverridden o := by
  have own : s.own o = s.base o := by simp [Session.own, h]
  cases o with
  | plain | stable => rw [Session.value, own, Session.unoverridden]
  | nested id master initial =>
    rw [Session.value, own, Session.unoverridden]
    by_cases hb : s.base (.nested id master initial) = .null
    · simp [hb]
    · obtain ⟨b, hb'⟩ := (typed.resolve_left hb) (.inl rfl)
      rw [if_pos hb, if_pos hb, hb']
      rfl

theorem Session.unoverridden_eq_of_not_follows (h : ¬ s.Follows o) :
    s.unoverridden o = .ok (s.base o) := by
  cases o with
  | plain | stable => rfl
  | nested id master initial =>
    have hb : s.base (.nested id master initial) ≠ .null := fun hb => h ⟨rfl, hb⟩
    rw [Session.unoverridden, if_pos hb]

/-- What a session made by nested calls records. -/
structure Accounts (F : Family) (s₀ : Session α) (calls : List Call) (s : Session α) : Prop where
  explicit_eq : s.explicit = s₀.explicit
  recorded : ∀ o ∈ F.options, ∀ v, s.overrides.get? o.id = some v →
    innermost? calls o = some v ∧ s₀.Pinned o calls
  unrecorded : ∀ o ∈ F.options, s.overrides.get? o.id = none →
    ¬ s₀.Pinned o calls ∧ (¬ s₀.Follows o → ∀ v, innermost? calls o = some v → v = s₀.base o)

namespace Accounts

variable (h : Accounts F s₀ calls s)
include h

theorem base_eq (o : Declaration) : s.base o = s₀.base o := by
  simp [Session.base, h.explicit_eq]

theorem follows_iff (o : Declaration) : s.Follows o ↔ s₀.Follows o := by
  simp [Session.Follows, h.base_eq]

theorem value_of_recorded (allowed : ∀ c ∈ calls, F.Allows c) (ho : o ∈ F.options) {v : Value}
    (hv : s.overrides.get? o.id = some v) : s.value o = .ok v := by
  obtain ⟨c, hc, hmem⟩ := exists_call_of_innermost? (h.recorded o ho v hv).1
  have := allowed c hc
  exact Session.value_eq_of_recorded hv (this.unstable _ hmem) (this.ne_null _ hmem) (this.fits _ hmem)

theorem value_of_unrecorded (typed : F.Typed s₀) (ho : o ∈ F.options)
    (hv : s.overrides.get? o.id = none) : s.value o = s.unoverridden o :=
  Session.value_eq_of_unrecorded hv (by rw [h.base_eq]; exact typed o ho)

theorem step (typed : F.Typed s₀) (allowed : ∀ c ∈ calls, F.Allows c) (hnest : s₀.nest calls = .ok s)
    {c : Call} (hc : F.Allows c) {t : Session α} (hrun : c.run s = .ok t) :
    Accounts F s₀ (c :: calls) t where
  explicit_eq := (hc.explicit_eq hrun).trans h.explicit_eq
  recorded := by
    intro o ho v hv
    rw [hc.get?_overrides hrun ho] at hv
    rw [innermost?_cons, Session.pinned_cons hnest]
    cases hg : c.given? o with
    | none =>
      obtain ⟨given, pinned⟩ := h.recorded o ho v (by simpa [hg] using hv)
      exact ⟨by simpa using given, .inl pinned⟩
    | some w =>
      by_cases hw : s.value o = .ok w
      · -- the call repeats the value that is recorded already
        have outer : s.overrides.get? o.id = some v := by simpa [hg, hw, Option.filter] using hv
        have same : w = v := Except.ok.inj (hw.symm.trans (h.value_of_recorded allowed ho outer))
        exact ⟨by simp [same], .inl (h.recorded o ho v outer).2⟩
      · have same : w = v := by simpa [hg, hw, Option.filter] using hv
        exact ⟨by simp [same], .inr ⟨w, rfl, hw⟩⟩
  unrecorded := by
    intro o ho hnone
    rw [hc.get?_overrides hrun ho, Option.or_eq_none_iff] at hnone
    obtain ⟨unpinned, base⟩ := h.unrecorded o ho hnone.2
    have kept : ∀ v, c.given? o = some v → s.value o = .ok v := by
      intro v hv
      simpa [hv, Option.filter] using hnone.1
    rw [innermost?_cons, Session.pinned_cons hnest]
    refine ⟨?_, fun follows v hv => ?_⟩
    · rintro (pinned | ⟨v, hv, hne⟩)
      · exact unpinned pinned
      · exact hne (kept v hv)
    · cases hg : c.given? o with
      | none => exact base follows v (by simpa [hg] using hv)
      | some w =>
        have same : w = v := by simpa [hg] using hv
        have value := h.value_of_unrecorded typed ho hnone.2
        rw [Session.unoverridden_eq_of_not_follows (mt (h.follows_iff o).1 follows), kept w hg,
          h.base_eq] at value
        rw [← same]
        exact Except.ok.inj value

end Accounts

theorem accounts_nest (typed : F.Typed s₀) (hs : s₀.scopes = []) (allowed : ∀ c ∈ calls, F.Allows c)
    (hnest : s₀.nest calls = .ok s) : Accounts F s₀ calls s := by
  induction calls generalizing s with
  | nil =>
    cases hnest
    exact ⟨rfl, by simp [Session.get?_overrides_of_scopes hs], by simp [Session.Pinned, innermost?]⟩
  | cons c calls ih =>
    obtain ⟨before, hbefore, hrun⟩ := bind_eq_ok.1 hnest
    rw [List.forall_mem_cons] at allowed
    exact (ih allowed.2 hbefore).step typed allowed.2 hbefore allowed.1 hrun

end

/-! ## Every option has a value -/

section

variable {α : Type} {F : Family} {s s₀ : Session α} {calls : List Call}

theorem Accounts.own_truth (h : Accounts F s₀ calls s) (typed : F.Typed s₀)
    (allowed : ∀ c ∈ calls, F.Allows c) {o : Declaration} (ho : o ∈ F.options) (htruth : F.Truth o) :
    s.own o = .null ∧ s₀.base o = .null ∨ ∃ b, s.own o = .truth b := by
  have base : s.base o = .null ∨ ∃ b, s.base o = .truth b := by
    rw [h.base_eq]
    exact (typed o ho).imp_right fun fits => fits htruth
  cases hv : s.overrides.get? o.id with
  | none =>
    have own : s.own o = s.base o := by simp [Session.own, hv]
    rw [own, ← h.base_eq]
    exact base.imp_left fun hb => ⟨hb, hb⟩
  | some v =>
    obtain ⟨c, hc, hmem⟩ := exists_call_of_innermost? (h.recorded o ho v hv).1
    have own : s.own o = v := by simp [Session.own, hv, (allowed c hc).unstable _ hmem]
    rw [own]
    exact .inr ((allowed c hc).fits _ hmem htruth)

theorem Accounts.exists_truth (h : Accounts F s₀ calls s) (typed : F.Typed s₀)
    (masters : F.MastersSet s₀) (allowed : ∀ c ∈ calls, F.Allows c) {o : Declaration}
    (ho : o ∈ F.options) (htruth : F.Truth o) :
    ∃ b, s.value o = .ok (.truth b) := by
  -- by induction along the masters
  induction o with
  | plain id v | stable id v =>
    rcases h.own_truth typed allowed ho htruth with ⟨-, hb⟩ | ⟨b, hb⟩
    · obtain hnested | ⟨p, hp, hmaster⟩ := htruth
      · cases hnested
      · exact absurd hb (masters p hp _ hmaster rfl)
    · exact ⟨b, by rw [Session.value, hb]⟩
  | nested id master initial ih =>
    rcases h.own_truth typed allowed ho htruth with ⟨hb, -⟩ | ⟨b, hb⟩
    · obtain ⟨b, hmaster⟩ := ih (F.master_mem _ ho master rfl) (.inr ⟨_, ho, rfl⟩)
      rw [Session.value, hb, hmaster]
      cases initial with
      | true => exact ⟨b, rfl⟩
      | false => exact ⟨false, rfl⟩
    · rw [Session.value, hb]
      exact ⟨b, rfl⟩

theorem Accounts.exists_value (h : Accounts F s₀ calls s) (typed : F.Typed s₀)
    (masters : F.MastersSet s₀) (allowed : ∀ c ∈ calls, F.Allows c) {o : Declaration}
    (ho : o ∈ F.options) :
    ∃ v, s.value o = .ok v := by
  cases o with
  | plain | stable => exact ⟨_, rfl⟩
  | nested =>
    obtain ⟨b, hb⟩ := h.exists_truth typed masters allowed ho (.inl rfl)
    exact ⟨_, hb⟩

end

/-! ## Sequences of events -/

section

variable {α : Type} {F : Family} {s s₀ : Session α} {calls : List Call}

theorem mem_of_stillOpen {events : List Event} {now : List Call}
    (h : stillOpen events calls = some now) {c : Call} (hc : c ∈ now) :
    c ∈ calls ∨ Event.opening c ∈ events := by
  fun_induction stillOpen events calls with
  | case1 calls => cases h; exact .inl hc
  | case2 d events calls ih =>
    obtain hmem | hmem := ih h
    · obtain rfl | hmem := List.mem_cons.1 hmem
      · exact .inr (by simp)
      · exact .inl hmem
    · exact .inr (by simp [hmem])
  | case3 events d calls ih =>
    obtain hmem | hmem := ih h
    · exact .inl (by simp [hmem])
    · exact .inr (by simp [hmem])
  | case4 => cases h

theorem nest_of_performAll {events : List Event} {now : List Call}
    (allowed : ∀ c ∈ calls, F.Allows c) (later : ∀ c, Event.opening c ∈ events → F.Allows c)
    (hnest : s₀.nest calls = .ok s) (hopen : stillOpen events calls = some now) {t : Session α}
    (hrun : s.performAll events = .ok t) : s₀.nest now = .ok t := by
  fun_induction stillOpen events calls generalizing s with
  | case1 calls =>
    cases hopen
    cases hrun
    exact hnest
  | case2 c events calls ih =>
    rw [Session.performAll, List.foldlM_cons, bind_eq_ok] at hrun
    obtain ⟨next, hnext, hrest⟩ := hrun
    have hc := later c (by simp)
    exact ih (List.forall_mem_cons.2 ⟨hc, allowed⟩) (fun d hd => later d (by simp [hd]))
      (bind_eq_ok.2 ⟨s, hnest, hnext⟩) hopen hrest
  | case3 events c calls ih =>
    obtain ⟨before, hbefore, hcall⟩ := bind_eq_ok.1 hnest
    rw [List.forall_mem_cons] at allowed
    rw [Session.performAll, List.foldlM_cons, bind_eq_ok] at hrun
    obtain ⟨next, hnext, hrest⟩ := hrun
    rw [Session.perform, allowed.1.close?_eq hcall] at hnext
    cases hnext
    exact ih allowed.2 (fun d hd => later d (by simp [hd])) hbefore hopen hrest
  | case4 => cases hopen

/-- Where every call opens a scope around the session it is made in, properly nested events succeed,
and leave the session of the calls still open. -/
theorem exists_performAll_nest {P : Call → Prop} (opens : ∀ c calls s, P c → (∀ d ∈ calls, P d) →
      s₀.nest calls = .ok s → ∃ t, c.run s = .ok t ∧ t.close? = some s)
    {events : List Event} {now : List Call} (allowed : ∀ c ∈ calls, P c)
    (later : ∀ c, Event.opening c ∈ events → P c) (hnest : s₀.nest calls = .ok s)
    (hopen : stillOpen events calls = some now) :
    ∃ t, s.performAll events = .ok t ∧ s₀.nest now = .ok t := by
  fun_induction stillOpen events calls generalizing s with
  | case1 calls =>
    cases hopen
    exact ⟨s, rfl, hnest⟩
  | case2 c events calls ih =>
    have hc := later c (by simp)
    obtain ⟨next, hrun, -⟩ := opens c calls s hc allowed hnest
    obtain ⟨t, ht, hnow⟩ := ih (List.forall_mem_cons.2 ⟨hc, allowed⟩)
      (fun d hd => later d (by simp [hd])) (bind_eq_ok.2 ⟨s, hnest, hrun⟩) hopen
    exact ⟨t, bind_eq_ok.2 ⟨next, hrun, ht⟩, hnow⟩
  | case3 events c calls ih =>
    obtain ⟨before, hbefore, hcall⟩ := bind_eq_ok.1 hnest
    rw [List.forall_mem_cons] at allowed
    obtain ⟨_, hrun, hclose⟩ := opens c calls before allowed.1 allowed.2 hbefore
    rw [hcall] at hrun
    cases hrun
    obtain ⟨t, ht, hnow⟩ := ih allowed.2 (fun d hd => later d (by simp [hd])) hbefore hopen
    refine ⟨t, bind_eq_ok.2 ⟨before, ?_, ht⟩, hnow⟩
    rw [Session.perform, hclose]
    rfl
  | case4 => cases hopen

theorem exists_performAll {events : List Event} {now : List Call} (typed : F.Typed s₀)
    (hs : s₀.scopes = []) (masters : F.MastersSet s₀) (allowed : ∀ c ∈ calls, F.Allows c)
    (later : ∀ c, Event.opening c ∈ events → F.Allows c) (hnest : s₀.nest calls = .ok s)
    (hopen : stillOpen events calls = some now) : ∃ t, s.performAll events = .ok t := by
  have opens : ∀ c calls s, F.Allows c → (∀ d ∈ calls, F.Allows d) → s₀.nest calls = .ok s →
      ∃ t, c.run s = .ok t ∧ t.close? = some s := by
    intro c calls s hc allowed hnest
    have accounts := accounts_nest typed hs allowed hnest
    have hrun : c.run s = .ok _ := hc.run_eq_ok.2
      ⟨fun e he => accounts.exists_value typed masters allowed (hc.mem e he), rfl⟩
    exact ⟨_, hrun, hc.close?_eq hrun⟩
  obtain ⟨t, ht, -⟩ := exists_performAll_nest opens allowed later hnest hopen
  exact ⟨t, ht⟩

end

/-- After properly nested events, an option has the value that the innermost open override that names
it gives it, and its un-overridden value if none names it. Only a nested option that follows its
master, and to which no open override gave another value than it had, goes on following. -/
theorem value_of_innermost_override {α : Type} (F : Family) (s₀ : Session α) (hs : s₀.scopes = [])
    (typed : F.Typed s₀) (events : List Event) (allowed : ∀ c, Event.opening c ∈ events → F.Allows c)
    (calls : List Call) (hopen : stillOpen events [] = some calls) :
    (F.MastersSet s₀ → ∃ s, s₀.performAll events = .ok s ∧ ∀ o ∈ F.options, ∃ v, s.value o = .ok v) ∧
    ∀ s, s₀.performAll events = .ok s → s.explicit = s₀.explicit ∧ ∀ o ∈ F.options,
      (innermost? calls o = none → s.value o = s.unoverridden o) ∧
      ∀ v, innermost? calls o = some v →
        (s₀.Follows o ∧ ¬ s₀.Pinned o calls → s.value o = s.unoverridden o) ∧
        (¬ (s₀.Follows o ∧ ¬ s₀.Pinned o calls) → s.value o = .ok v) := by
  have stillAllowed : ∀ c ∈ calls, F.Allows c := by
    intro c hc
    obtain hmem | hmem := mem_of_stillOpen hopen hc
    · cases hmem
    · exact allowed c hmem
  have accounts : ∀ s, s₀.performAll events = .ok s → Accounts F s₀ calls s := fun s hrun =>
    accounts_nest typed hs stillAllowed (nest_of_performAll (by simp) allowed rfl hopen hrun)
  constructor
  · intro masters
    obtain ⟨s, hrun⟩ := exists_performAll typed hs masters (by simp) allowed rfl hopen
    exact ⟨s, hrun, fun o ho => (accounts s hrun).exists_value typed masters stillAllowed ho⟩
  · intro s hrun
    have h := accounts s hrun
    refine ⟨h.explicit_eq, fun o ho => ?_⟩
    cases hv : s.overrides.get? o.id with
    | some w =>
      obtain ⟨given, pinned⟩ := h.recorded o ho w hv
      rw [given]
      refine ⟨by simp, ?_⟩
      rintro v ⟨⟩
      exact ⟨fun unpinned => absurd pinned unpinned.2, fun _ => h.value_of_recorded stillAllowed ho hv⟩
    | none =>
      obtain ⟨unpinned, base⟩ := h.unrecorded o ho hv
      have value := h.value_of_unrecorded typed ho hv
      refine ⟨fun _ => value, fun v given => ⟨fun _ => value, fun exception => ?_⟩⟩
      have follows : ¬ s₀.Follows o := fun follows => exception ⟨follows, unpinned⟩
      rw [value, Session.unoverridden_eq_of_not_follows (mt (h.follows_iff o).1 follows), h.base_eq,
        base follows v given]

def switch : Declaration := .plain 0 (.truth true)

def lamp : Declaration := .nested 1 switch true

def household : Family where
  options := {switch, lamp}
  id_injOn := by
    rintro o (rfl | rfl) p (rfl | rfl) h
    · rfl
    · cases h
    · cases h
    · rfl
  master_mem := by
    rintro o (rfl | rfl) m hm
    · cases hm
    · exact .inl (Option.some.inj hm).symm

theorem typed_household : household.Typed ({} : Session Unit) := by
  rintro o (rfl | rfl)
  · exact .inr fun _ => ⟨true, rfl⟩
  · exact .inl rfl

theorem household_allows {c : Call} (nodup : (c.changes.map Prod.fst).Nodup)
    (h : ∀ e ∈ c.changes, (e.1 = switch ∨ e.1 = lamp) ∧ ∃ b, e.2 = .truth b) : household.Allows c where
  nodup := nodup
  mem := fun e he => (h e he).1
  unstable := by
    intro e he
    obtain ho | ho := (h e he).1 <;> rw [ho] <;> rfl
  ne_null := by
    intro e he
    obtain ⟨b, hb⟩ := (h e he).2
    simp [hb]
  fits := fun e he _ => (h e he).2

/-- A lamp that was turned off is on within an inner scope only. -/
theorem value_of_innermost_override_lamp :
    let events := [Event.opening (.single lamp (.truth false)),
      .opening (.array [(lamp, .truth true), (switch, .truth false)]), .closing,
      .opening (.map [(switch, .truth false), (lamp, .truth false)])]
    household.Typed ({} : Session Unit) ∧ (∀ c, Event.opening c ∈ events → household.Allows c) ∧
    ∃ s, ({} : Session Unit).performAll events = .ok s ∧ s.value lamp = .ok (.truth false) ∧
      s.value switch = .ok (.truth false) := by
  intro events
  have allowed : ∀ c, Event.opening c ∈ events → household.Allows c := by
    intro c hc
    simp only [events, List.mem_cons, Event.opening.injEq, List.not_mem_nil, or_false, reduceCtorEq,
      false_or] at hc
    obtain rfl | rfl | rfl := hc <;> exact household_allows (by decide) (by simp [Call.changes])
  have masters : household.MastersSet ({} : Session Unit) := by
    rintro o (rfl | rfl) m hm
    · cases hm
    · cases hm
      exact fun _ => by decide
  obtain ⟨returns, values⟩ :=
    value_of_innermost_override household ({} : Session Unit) rfl typed_household events allowed _ rfl
  obtain ⟨s, hrun, -⟩ := returns masters
  have turned := (values s hrun).2
  refine ⟨typed_household, allowed, s, hrun, ?_, ?_⟩
  · -- the first call gave the lamp another value than it had
    have pinned : ({} : Session Unit).Pinned lamp [.map [(switch, .truth false), (lamp, .truth false)],
        .single lamp (.truth false)] :=
      .inl (.inr ⟨_, _, rfl, rfl, by decide⟩)
    exact ((turned lamp (.inr rfl)).2 _ rfl).2 fun h => h.2 pinned
  · exact ((turned switch (.inl rfl)).2 _ rfl).2 fun h => nomatch h.1.1

/-- Where the lamp is on already, an override to that value does not keep it on. -/
theorem lamp_follows_switch :
    ∃ s, ({} : Session Unit).performAll
        [.opening (.single lamp (.truth true)), .opening (.single switch (.truth false))] = .ok s ∧
      innermost? [.single switch (.truth false), .single lamp (.truth true)] lamp = some (.truth true) ∧
      s.value lamp = .ok (.truth false) :=
  ⟨_, rfl, rfl, rfl⟩

end CompilerKit.Options
