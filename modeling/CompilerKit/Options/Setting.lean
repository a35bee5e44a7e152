import CompilerKit.Collections.Ordered
import CompilerKit.Fault
import CompilerKit.FloatingPoint.Double
import CompilerKit.FloatingPoint.Reading
import CompilerKit.Text

/-! # Settings of options

A setting `name=value` gives an option a value of its type. Whole numbers may end in a letter that
scales them by a power of 1024.
-/
namespace CompilerKit.Options

inductive OptionType where
  | boolean | float | double | integer | long | string | object
  deriving DecidableEq

namespace OptionType

def named : List (String × OptionType) :=
  [("Boolean", .boolean), ("Float", .float), ("Double", .double), ("Integer", .integer),
    ("Long", .long), ("String", .string), ("Object", .object)]

def ofName? (s : String) : Option OptionType := named.lookup s

def name (t : OptionType) : String := ((named.find? (·.2 = t)).map (·.1)).getD ""

end OptionType

/-- A value read from a setting. -/
inductive Reading where
  | truth (b : Bool)
  /-- A single precision number by its bits. -/
  | single (bits : Nat)
  | double (x : FloatingPoint.Double)
  | int (n : BitVec 32)
  | long (n : Word)
  | text (s : String)
  deriving DecidableEq

/-- The factor that a last letter stands for; the Kelvin sign is a capital K too. -/
def scale? (c : Char) : Option Nat :=
  if c = 'k' ∨ c = 'K' ∨ c = '\u212a' then some (Nat.pow 2 10)
  else if c = 'm' ∨ c = 'M' then some (Nat.pow 2 20)
  else if c = 'g' ∨ c = 'G' then some (Nat.pow 2 30)
  else if c = 't' ∨ c = 'T' then some (Nat.pow 2 40)
  else none

def splitScale (cs : List Char) : List Char × Nat :=
  match cs.getLast?.bind scale? with
  | some n => (cs.dropLast, n)
  | none => (cs, 1)

/-- Reads a scaled number. The number itself has to fit into 64 bits; the product wraps around. -/
def readLong (s : String) : Result Word :=
  let (cs, scale) := splitScale s.toList
  match Text.integer? cs with
  | some n =>
    if -(Nat.pow 2 63 : Int) ≤ n ∧ n < Nat.pow 2 63 then
      .ok (BitVec.ofInt 64 n * BitVec.ofNat 64 scale)
    else .error .malformedNumber
  | none => .error .malformedNumber

def readFloat (f : FloatingPoint.Format) (s : String) : Result Nat :=
  match f.read? s with
  | some bits => .ok bits
  | none => .error .malformedNumber

def OptionType.read (name value : String) : OptionType → Result Reading
  | .boolean =>
    if value = "true" then .ok (.truth true)
    else if value = "false" then .ok (.truth false)
    else .error (.invalidArgument ("Boolean option '" ++ name ++
      "' must have value \"true\" or \"false\", not \"" ++ value ++ "\""))
  | .float => return .single (← readFloat .single value)
  | .double => return .double ⟨BitVec.ofNat 64 (← readFloat .double value)⟩
  | .integer => return .int ((← readLong value).setWidth 32)
  | .long => return .long (← readLong value)
  | .string => .ok (.text value)
  | .object => .error (.invalidArgument ("Wrong value for option '" ++ name ++ "'"))

/-- Divides a setting at the first equality sign. -/
def splitSetting (s : String) : Result (String × String) :=
  match s.toList.span (· ≠ '=') with
  | (name, _ :: value) => .ok (String.ofList name, String.ofList value)
  | (_, []) => .error (.malformedSetting s)

abbrev Declared := OrderedMap String OptionType

def typeOf? (options : Declared) (name : String) : Option OptionType :=
  options.get? name <|> if name = "PrintFlags" ∨ name = "ShowFlags" then some .boolean else none

/-! Two names are similar if they share many pairs of neighbouring characters. -/

/-- The pairs of neighbouring units of a text. -/
def pairs (s : String) : List (Nat × Nat) := (Text.units s).zip (Text.units s).tail

/-- Twice the pairs of the first name that are in the second, by the units of both, in single
precision. -/
def similarity (a b : String) : Nat :=
  let hits := ((pairs a).filter (pairs b).contains).length
  FloatingPoint.Format.single.encode
    ((FloatingPoint.Datum.ofInt (2 * hits)).div (.ofInt (Text.width a + Text.width b)))

/-- The nearest number to 0.7. -/
def threshold : Nat := 0x3f333333

def isSimilar (a b : String) : Bool :=
  let single := FloatingPoint.Format.single
  ((single.decode (similarity a b)).compare (single.decode threshold)).any (·.isGE)

/-- Says that there is no such option, and which ones have a similar name. -/
def unknownOption (options : Declared) (name : String) : Fault :=
  let similar := (options.entries.map (·.1)).filter fun n => isSimilar n name
  let hint := if similar.isEmpty then "" else "\nDid you mean one of the following?"
  .invalidArgument ("Could not find option " ++ name ++ hint ++
    String.join (similar.map fun n => "\n    " ++ n ++ "=<value>"))

def readSetting (options : Declared) (name value : String) : Result Reading :=
  match typeOf? options name with
  | some t => t.read name value
  | none => .error (unknownOption options name)

/-- Reads settings in order, up to the first that is refused. -/
def readSettings (options : Declared) : List (String × String) → List (String × Reading) × Option Fault
  | [] => ([], none)
  | (name, value) :: rest =>
    match readSetting options name value with
    | .error f => ([], some f)
    | .ok r =>
      let (done, fault?) := readSettings options rest
      ((name, r) :: done, fault?)

/-- Divides all settings; of two for one option the later counts, in the place of the first. -/
def collect (settings : List String) : Result (OrderedMap String String) := do
  return .ofList (← settings.mapM splitSetting)

end CompilerKit.Options
