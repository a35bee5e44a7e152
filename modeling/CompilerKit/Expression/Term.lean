import CompilerKit.Arithmetic.OnConstants
import CompilerKit.Arithmetic.OnStamps
import CompilerKit.Expression.Shape

/-! # Terms over an expression graph

A term is an expression whose leaves may be nodes of a graph. Rules answer with terms; inserting one
adds the nodes that the graph does not have yet. What is inserted is the tree of a term; trees may also
have empty input slots.
-/

namespace CompilerKit

inductive Term where
  | node (i : NodeId)
  | leaf (l : Leaf) (stamp : Stamp)
  | unary (op : Unary) (stamp : Stamp) (x : Term)
  | binary (op : Binary) (stamp : Stamp) (x y : Term)
  | select (stamp : Stamp) (c t f : Term)
  deriving DecidableEq

/-- An expression in which input slots may be empty. -/
inductive Tree where
  | node (i : NodeId)
  | make (op : Op) (stamp : Stamp) (inputs : List (Option Tree))

namespace Term

def tree : Term → Tree
  | node i => .node i
  | leaf l s => .make (.leaf l) s []
  | unary op s x => .make (.unary op) s [some x.tree]
  | binary op s x y => .make (.binary op) s [some x.tree, some y.tree]
  | select s c t f => .make .select s [some c.tree, some t.tree, some f.tree]

def stamp (g : Graph Label) : Term → Stamp
  | node i => g.stamp i
  | leaf _ s | unary _ s _ | binary _ s _ _ | select s _ _ _ => s

/-! Constants. -/

def constant (s : Stamp) (c : Constant) : Result Term := return leaf (.constant c) (← s.constant c)

def ofInt (i : Int) : Term :=
  let c := Constant.ofInt32 i
  match c with
  | .primitive _ x => leaf (.constant c) (.int (.single 32 x))
  | .null => leaf (.constant c) .void

def ofWord (x : Word) : Term := leaf (.constant (.ofWord x)) (.int (.single 64 x))

/-- A constant as it is computed with: narrow integers are widened. -/
def ofConstant (c : Constant) : Result Term :=
  match c with
  | .primitive k x =>
    if k.stack = .int then .ok (ofInt (Word.lowInt x))
    else return leaf (.constant c) (← Stamp.ofConstant c)
  | .null => return leaf (.constant c) (← Stamp.ofConstant c)

def ofWidth (bits : Nat) (c : Constant) : Result Term :=
  return leaf (.constant c) (.int (.single bits (Word.signExtend (← c.word) bits)))

/-- An integer of a width that some kind has. -/
def ofBits (bits : Nat) (x : Word) : Result Term := do ofWidth bits (← Constant.ofBits bits x)

def primitive (s : Stamp) (c : Constant) : Result Term :=
  match s with
  | .int s => ofWidth s.bits c
  | .float _ => ofConstant c
  | s => constant s c

def ofKind (k : Kind) (x : Word) : Result Term :=
  match k with
  | .byte | .short | .int => .ok (ofInt (Word.lowInt x))
  | .long => .ok (ofWord x)
  | k => .error (.unreachableBecause s!"unknown kind {k.name}")

def integer (s : Stamp) (x : Word) : Result Term :=
  match s with
  | .int s => ofBits s.bits x
  | s => ofKind s.stackKind x

def truth (b : Bool) : Term := leaf (.truth b) .void

/-! Applications, with the stamps that their operands give. -/

def arith1 (g : Graph Label) (op : UnaryOp) (x : Term) : Result Term :=
  return unary (.arith op) (← op.onStamp (x.stamp g)) x

def arith (g : Graph Label) (op : BinaryOp) (x y : Term) : Result Term :=
  return binary (.arith op) (← op.onStamp (x.stamp g) (y.stamp g)) x y

def shift (g : Graph Label) (op : ShiftOp) (x amount : Term) : Result Term :=
  return binary (.shift op) (← op.onStamp (x.stamp g) (amount.stamp g)) x amount

def resize (g : Graph Label) (op : ResizeOp) (inputBits resultBits : Nat) (x : Term) : Result Term :=
  return unary (.resize op inputBits resultBits) (← op.onStamp inputBits resultBits (x.stamp g)) x

def convert (g : Graph Label) (op : FloatConvert) (x : Term) : Result Term :=
  return unary (.convert op) (← op.onStamp (x.stamp g)) x

def compare (c : Comparison) (x y : Term) : Term := binary (.compare c) .void x y

def test (x y : Term) : Term := binary .test .void x y

def negation (x : Term) : Term := unary .negation .void x

def isNull (x : Term) : Term := unary .isNull .void x

def either (xNegated yNegated : Bool) (probability : FloatingPoint.Double) (x y : Term) : Term :=
  binary (.either xNegated yNegated probability) .void x y

def order (unorderedIsLess : Bool) (x y : Term) : Term :=
  binary (.order unorderedIsLess) (.ofKind .int) x y

def meetStamp (g : Graph Label) (t f : Term) : Result Stamp :=
  match t, f with
  | node i, node j => g.met i j
  | t, f => (t.stamp g).meet (f.stamp g)

def choose (g : Graph Label) (c t f : Term) : Result Term :=
  return select (← meetStamp g t f) c t f

def divisionStamp : Division → Stamp → Stamp → Result Stamp
  | .quotient, .int a, .int b => .ok (.int (a.div b))
  | .remainder, .int a, .int b => .ok (.int (a.rem b))
  | .unsignedQuotient, s, _ | .unsignedRemainder, s, _ => .ok s.unrestricted
  | _, _, _ => .error .familyMismatch

def divide (g : Graph Label) (d : Division) (x y : Term) : Result Term :=
  return binary (.divide d) (← divisionStamp d (x.stamp g) (y.stamp g)) x y

end Term

namespace Graph

def takenSource (g : Graph Label) : Op → List (Option NodeId) → Option Source
  | .unary (.resize .narrow inputBits resultBits), [some x] =>
    if inputBits = resultBits then some (g.source x) else none
  | .binary (.arith .mul), [some x, some y] =>
    match g.stamp x, g.stamp y with
    | .int a, .int b =>
      if a.up = 0 then some (g.source x) else if b.up = 0 then some (g.source y) else none
    | _, _ => none
  | .binary (.shift op), [some x, some amount] =>
    if op.takesOver (g.stamp x) (g.stamp amount) then some (g.source x) else none
  | .select, [_, some t, some f] => g.metSource t f
  | _, _ => none

/-- Adds a node, or shares an equal one if it has no place in the flow of control. -/
def place (g : Graph Label) (op : Op) (stamp : Stamp) (inputs : List (Option NodeId)) :
    Graph Label × NodeId :=
  let label : Label := { op, stamp, source := g.takenSource op inputs }
  if op.isFloating then g.unique label inputs else g.add label inputs

mutual

/-- Adds what a tree has beyond the graph, operands first. -/
def insertTree (g : Graph Label) : Tree → Graph Label × NodeId
  | .node i => (g, i)
  | .make op stamp inputs =>
    let (g, inputs) := g.insertInputs inputs
    g.place op stamp inputs

def insertInputs (g : Graph Label) : List (Option Tree) → Graph Label × List (Option NodeId)
  | [] => (g, [])
  | none :: rest =>
    let (g, rest) := g.insertInputs rest
    (g, none :: rest)
  | some x :: rest =>
    let (g, x) := g.insertTree x
    let (g, rest) := g.insertInputs rest
    (g, some x :: rest)

end

def insert (g : Graph Label) (t : Term) : Graph Label × NodeId := g.insertTree t.tree

end Graph

end CompilerKit
