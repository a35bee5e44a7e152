import CompilerKit.Collections.Ordered
import CompilerKit.Fault
import CompilerKit.Options.Setting
import CompilerKit.Text
import CompilerKit.Value

/-! # Listing of options

A line for every option, sorted by name: type, name, value and help. Long help is broken into lines.
-/
namespace CompilerKit.Options

structure Flag where
  type : OptionType
  value : Value
  help : String

/-- The blanks that divide words. -/
def isSpace (c : Char) : Bool := c = ' ' || (9 ≤ c.toNat && c.toNat ≤ 13)

/-- Divides characters at every one of a kind. -/
def splitAtEach (p : Char → Bool) : List Char → List (List Char)
  | [] => [[]]
  | c :: cs =>
    if p c then [] :: splitAtEach p cs
    else match splitAtEach p cs with
      | w :: ws => (c :: w) :: ws
      | [] => [[c]]

/-- The words of a text; blanks at its start count as an empty word in front. -/
def words (s : String) : List String :=
  let found := (splitAtEach isSpace s.toList).filter (!·.isEmpty)
  if found.isEmpty then []
  else
    let front := if s.toList.head?.any isSpace then [""] else []
    front ++ found.map String.ofList

/-- Divides a word at the marks `%n`. -/
def splitAtMarks : List Char → List (List Char)
  | [] => [[]]
  | '%' :: 'n' :: cs => [] :: splitAtMarks cs
  | c :: cs => match splitAtMarks cs with
    | w :: ws => (c :: w) :: ws
    | [] => [[c]]

/-- Lines that are done and the one that is being filled. -/
structure Filling where
  done : List String := []
  line : String := ""

namespace Filling

def finish (f : Filling) : Filling := { done := f.done ++ [f.line] }

def add (f : Filling) (s : String) : Filling := { f with line := f.line ++ s }

def addParts (f : Filling) : List String → Filling
  | [] => f
  | [p] => f.add p
  | p :: ps => addParts (f.add p).finish ps

/-- Adds a word. A word that does not fit behind what is on the line starts a new one. -/
def addWord (limit : Nat) (f : Filling) (word : String) : Filling :=
  let f := if limit < Text.width f.line + Text.width word then f.finish else f
  let f := if f.line.isEmpty then f else f.add " "
  f.addParts ((splitAtMarks word.toList).map String.ofList)

end Filling

/-- The lines of a text; a text within the limit is one line. -/
def wrap (limit : Nat) (s : String) : List String :=
  if Text.width s ≤ limit then [s]
  else
    let f := (words s).foldl (Filling.addWord limit) {}
    if f.line.isEmpty then f.done else f.done ++ [f.line]

def padding (n : Nat) (s : String) : String := String.ofList (List.replicate (n - Text.width s) ' ')

def padLeft (n : Nat) (s : String) : String := padding n s ++ s

def padRight (n : Nat) (s : String) : String := s ++ padding n s

/-- The lines of one option. Help of blanks only has no line to show. -/
def Flag.render (isExplicit : Bool) (name : String) (f : Flag) : Result String :=
  match wrap 70 f.help with
  | [] => .error .outside
  | first :: rest =>
    let assign := if isExplicit then ":=" else " ="
    .ok (padLeft 9 f.type.name ++ " " ++ padRight 40 name ++ " " ++ assign ++ " " ++
      padRight 14 f.value.render ++ " " ++ first ++ "\n" ++
      String.join (rest.map fun line => padLeft 67 "" ++ " " ++ line ++ "\n"))

def listing (title : String) (flags : List (String × Flag)) (explicit : List String) :
    Result String := do
  let sorted := (OrderedMap.ofList flags).entries.mergeSort fun a b => Text.le a.1 b.1
  let lines ← sorted.mapM fun (name, f) => f.render (explicit.contains name) name
  return "[List of " ++ title ++ " options]\n" ++ String.join lines

end CompilerKit.Options
