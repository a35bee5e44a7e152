import CompilerKit.Collections.Ordered
import CompilerKit.Fault
import CompilerKit.Value

/-! # Options and their overrides

An option has the value that it was set to, or its default. Overrides replace values for as long as
their scope is open; scopes are closed in the reverse order. Values derived from the options are kept
for the innermost scope that changes anything.
-/
namespace CompilerKit.Options

inductive Declaration where
  | plain (id : Nat) (default : Value)
  /-- An option that cannot be overridden. -/
  | stable (id : Nat) (default : Value)
  /-- A truth value that is on only if its master is on too, unless it has a value of its own. -/
  | nested (id : Nat) (master : Declaration) (initial : Bool)
  deriving DecidableEq

namespace Declaration

def id : Declaration → Nat
  | .plain id _ | .stable id _ | .nested id _ _ => id

/-- The value from the start; a nested option has none of its own. -/
def default : Declaration → Value
  | .plain _ v | .stable _ v => v
  | .nested .. => .null

def isStable : Declaration → Bool
  | .stable .. => true
  | _ => false

def name (o : Declaration) : String := s!"o{o.id}"

end Declaration

/-- An open scope: the values in force where they differ from outside, and a derived value. -/
structure Scope (α : Type) where
  overrides : OrderedMap Nat Value := {}
  derived? : Option α := none
  deriving DecidableEq

structure Session (α : Type) where
  explicit : OrderedMap Nat Value := {}
  /-- The open scopes, the innermost first. -/
  scopes : List (Scope α) := []
  /-- The derived value outside of all scopes. -/
  derived? : Option α := none
  /-- How often a derived value was computed. -/
  evaluations : Nat := 0
  deriving DecidableEq

namespace Session

variable {α : Type} (s : Session α)

/-- The innermost scope that changes anything. -/
def current? : Option (Scope α) := s.scopes.find? fun c => !c.overrides.isEmpty

def overrides : OrderedMap Nat Value := (s.current?.map (·.overrides)).getD {}

def base (o : Declaration) : Value := (s.explicit.get? o.id).getD o.default

def own (o : Declaration) : Value :=
  if o.isStable then s.base o else (s.overrides.get? o.id).getD (s.base o)

def asTruth : Value → Result Bool
  | .truth b => .ok b
  | .null => .error .absent
  | _ => .error .familyMismatch

/-- The value in force. A nested option without a value of its own looks at its master, unless it is
off from the start. -/
def value (o : Declaration) : Result Value :=
  match o with
  | .plain .. | .stable .. => .ok (s.own o)
  | .nested _ master initial =>
    if s.own o ≠ .null then .truth <$> asTruth (s.own o)
    else if initial then do return .truth (← asTruth (← value master))
    else .ok (.truth false)

/-- The values that an option has had, from the innermost scope outwards. -/
def values (o : Declaration) : List Value :=
  let overridden := if o.isStable then [] else s.scopes.filterMap (·.overrides.get? o.id)
  overridden ++ [s.base o]

def hasDefault (o : Declaration) : Bool :=
  (s.explicit.get? o.id).all (· = o.default)

def render (o : Declaration) : Result String := do return o.name ++ "=" ++ (← s.value o).render

def set (o : Declaration) (v : Value) : Session α := { s with explicit := s.explicit.put o.id v }

/-- Opens a scope. -/
def enter (overrides : OrderedMap Nat Value) : Session α :=
  { s with scopes := { overrides } :: s.scopes }

def close? : Option (Session α) :=
  match s.scopes with
  | [] => none
  | _ :: rest => some { s with scopes := rest }

/-- Whether an override leaves the value in force as it is. Nothing cannot be an override. -/
def agrees (o : Declaration) (v : Value) : Result Bool := do
  let current ← s.value o
  if v = .null then .error .absent else return v = current

def refuse (o : Declaration) : Result Unit := do
  if o.isStable then .error (.invalidArgument ("Cannot override stable option " ++ (← s.render o)))

/-- Adds an override to those of a scope, if it changes the value in force. -/
def change (overrides : OrderedMap Nat Value) (o : Declaration) (v : Value) :
    Result (OrderedMap Nat Value) := do
  s.refuse o
  return if ← s.agrees o v then overrides else overrides.put o.id v

/-- Opens a scope in which some options have other values, besides those overridden already. -/
def overrideAll (changes : List (Declaration × Value)) : Result (Session α) := do
  return s.enter (← changes.foldlM (fun m (o, v) => s.change m o v) s.overrides)

/-- Opens a scope in which one option has another value. Outside of all scopes, an override that
changes nothing is not looked at. -/
def override (o : Declaration) (v : Value) : Result (Session α) := do
  if s.current?.isNone then
    if ← s.agrees o v then return s.enter {}
  s.overrideAll [(o, v)]

/-- The changes as a map: the last one for an option counts. -/
def merged (changes : List (Declaration × Value)) : List (Declaration × Value) :=
  (OrderedMap.ofList changes).entries

/-- Opens a scope for a map of changes. Outside of all scopes, a single one is compared first. -/
def overrideMap (changes : List (Declaration × Value)) : Result (Session α) := do
  if let (none, [(o, v)]) := (s.current?, merged changes) then
    discard (s.agrees o v)
  s.overrideAll (merged changes)

/-- As `overrideMap`, where changes that change nothing are left out first. -/
def overrideArray (changes : List (Declaration × Value)) : Result (Session α) := do
  s.overrideAll (merged (← changes.filterM fun (o, v) => not <$> s.agrees o v))

/-- The derived value kept for the values in force. -/
def kept? : Option α :=
  match s.current? with
  | some c => c.derived?
  | none => s.derived?

/-- Keeps a derived value in the innermost scope that changes anything. -/
def keepIn (a : α) : List (Scope α) → List (Scope α)
  | [] => []
  | c :: rest =>
    if c.overrides.isEmpty then c :: keepIn a rest else { c with derived? := some a } :: rest

def keep (a : α) : Session α :=
  if s.current?.isSome then { s with scopes := keepIn a s.scopes } else { s with derived? := some a }

/-- Reads a derived value; it is computed if none is kept for the values in force. -/
def derive (compute : Session α → Result α) : Result α × Session α :=
  match s.kept? with
  | some a => (.ok a, s)
  | none =>
    let s := { s with evaluations := s.evaluations + 1 }
    match compute s with
    | .ok a => (.ok a, s.keep a)
    | .error e => (.error e, s)

end Session

end CompilerKit.Options
