import CompilerKit.FloatingPoint.Decimal

/-! # Values

Values of any shape, as options and collections hold them, and their text.
-/
namespace CompilerKit

open FloatingPoint (Double)

mutual

inductive Value where
  | null
  | truth (b : Bool)
  | number (n : Int)
  | real (x : Double)
  | text (s : String)
  | list (items : Values)
  | record (keys : List String) (items : Values)
  deriving DecidableEq

inductive Values where
  | nil
  | cons (head : Value) (tail : Values)
  deriving DecidableEq

end

def Values.toList : Values → List Value
  | .nil => []
  | .cons v vs => v :: vs.toList

def Values.ofList : List Value → Values
  | [] => .nil
  | v :: vs => .cons v (.ofList vs)

mutual

def Value.render : Value → String
  | .null => "null"
  | .truth b => if b then "true" else "false"
  | .number n => toString n
  | .real x => x.render
  | .text s => s
  | .list items => "[" ++ String.intercalate ", " items.render ++ "]"
  | .record keys items =>
    "\x7b" ++ String.intercalate ", " (keys.zipWith (fun k s => k ++ "=" ++ s) items.render) ++ "\x7d"

def Values.render : Values → List String
  | .nil => []
  | .cons v vs => v.render :: vs.render

end

/-- Whether all occurrences of a value are one and the same object. -/
def Value.isShared : Value → Bool
  | .null | .truth _ => true
  | .number n => -128 ≤ n && n ≤ 127
  | .text s => s.isEmpty
  | .real _ | .list _ | .record .. => false

end CompilerKit
