import CompilerKit.Arithmetic.Operator
import CompilerKit.Condition
import CompilerKit.FloatingPoint.Double
import CompilerKit.Graph.Basic

/-! # Labels of expression nodes

What a node of the expression graph computes from its inputs, and the stamp of its value. Logic nodes
compute a truth value; their stamp is void.

A node that takes over the stamp of an operand has the very same stamp: it has one source with that of
the operand. Stamps from one source are not combined, so that bounds and masks that do not fit each
other stay as they are.
-/

namespace CompilerKit

open FloatingPoint (Double)

inductive Leaf where
  | parameter (index : Int)
  | constant (c : Constant)
  | truth (b : Bool)
  deriving DecidableEq

inductive Unary where
  | arith (op : UnaryOp)
  | resize (op : ResizeOp) (inputBits resultBits : Nat)
  | convert (op : FloatConvert)
  /-- The same bits as a value of another family. -/
  | reinterpret (target : Stamp)
  /-- The same value, known to satisfy a stamp. -/
  | refine (declared : Stamp)
  | isNull
  | negation
  deriving DecidableEq

inductive Comparison where
  | intEquals | intLess | intBelow | floatEquals
  | floatLess (unorderedIsTrue : Bool)
  | objectEquals | pointerEquals
  deriving DecidableEq

/-- Divisions that trap on a zero divisor. They stay where they are in the flow of control. -/
inductive Division where
  | quotient | remainder | unsignedQuotient | unsignedRemainder
  deriving DecidableEq

inductive Binary where
  | arith (op : BinaryOp)
  | shift (op : ShiftOp)
  /-- Minus one, zero or one, as the first operand is less, equal or greater. -/
  | order (unorderedIsLess : Bool)
  | compare (c : Comparison)
  /-- Whether the operands have no set bit in common. -/
  | test
  /-- Whether one of two conditions holds; the second is not computed if the first does. -/
  | either (xNegated yNegated : Bool) (probability : Double)
  | divide (d : Division)
  deriving DecidableEq

inductive Op where
  | leaf (l : Leaf)
  | unary (op : Unary)
  | binary (op : Binary)
  /-- The second or the third input, as the first one tells. -/
  | select
  | start
  | ret
  deriving DecidableEq

/-- A stamp's source: the node that made it, and how many stamps that node had made before. -/
structure Source where
  maker : NodeId
  number : Nat
  deriving DecidableEq

structure Label where
  op : Op
  stamp : Stamp
  /-- The source of the stamp, if the node did not make it when it was added. -/
  source : Option Source := none
  /-- How many stamps the node has made. -/
  made : Nat := 1

namespace Comparison

def condition : Comparison → Condition
  | intLess | floatLess _ => .lt
  | intBelow => .below
  | _ => .eq

/-- The truth of a comparison of numbers that have no order. -/
def unorderedIsTrue : Comparison → Bool
  | floatLess b => b
  | _ => false

def isCommutative : Comparison → Bool
  | intEquals | floatEquals | objectEquals | pointerEquals => true
  | _ => false

def name : Comparison → String
  | intEquals => "IntegerEquals"
  | intLess => "IntegerLessThan"
  | intBelow => "IntegerBelow"
  | floatEquals => "FloatEquals"
  | floatLess _ => "FloatLessThan"
  | objectEquals => "ObjectEquals"
  | pointerEquals => "PointerEquals"

end Comparison

namespace Binary

/-- Whether the operands may be exchanged. -/
def isCommutative : Binary → Bool
  | arith op => op.isCommutative
  | compare c => c.isCommutative
  | test => true
  | _ => false

/-- Probabilities are compared as numbers, everything else as it is. -/
def agrees : Binary → Binary → Bool
  | either a b p, either c d q => a == c && b == d && p.beq q
  | op, op' => op = op'

end Binary

namespace Op

/-- Nodes that have no place in the flow of control. -/
def isFloating : Op → Bool
  | binary (.divide _) | start | ret => false
  | _ => true

def isLogic : Op → Bool
  | leaf (.truth _) | unary .isNull | unary .negation => true
  | binary (.compare _) | binary .test | binary (.either _ _ _) => true
  | _ => false

def isReducible : Op → Bool
  | leaf _ | start | ret => false
  | _ => true

def takesValue : Op → Nat → Bool
  | unary .negation, _ | binary (.either _ _ _), _ => false
  | select, slot => slot ≠ 0
  | _, _ => true

def agrees : Op → Op → Bool
  | binary op, binary op' => op.agrees op'
  | op, op' => op = op'

def name : Op → String
  | leaf (.parameter _) => "Parameter"
  | leaf (.constant _) => "Constant"
  | leaf (.truth _) => "LogicConstant"
  | unary (.arith .neg) => "Negate"
  | unary (.arith .not) => "Not"
  | unary (.arith .abs) => "Abs"
  | unary (.arith .sqrt) => "Sqrt"
  | unary (.resize op _ _) => op.symbol
  | unary (.convert _) => "FloatConvert"
  | unary (.reinterpret _) => "Reinterpret"
  | unary (.refine _) => "Pi"
  | unary .isNull => "IsNull"
  | unary .negation => "LogicNegation"
  | binary (.arith .add) => "Add"
  | binary (.arith .sub) => "Sub"
  | binary (.arith .mul) => "Mul"
  | binary (.arith .div) => "Div"
  | binary (.arith .rem) => "Rem"
  | binary (.arith .and) => "And"
  | binary (.arith .or) => "Or"
  | binary (.arith .xor) => "Xor"
  | binary (.shift .shl) => "LeftShift"
  | binary (.shift .shr) => "RightShift"
  | binary (.shift .ushr) => "UnsignedRightShift"
  | binary (.order _) => "NormalizeCompare"
  | binary (.compare c) => c.name
  | binary .test => "IntegerTest"
  | binary (.either _ _ _) => "ShortCircuitOr"
  | binary (.divide .quotient) => "IntegerDiv"
  | binary (.divide .remainder) => "IntegerRem"
  | binary (.divide .unsignedQuotient) => "UnsignedDiv"
  | binary (.divide .unsignedRemainder) => "UnsignedRem"
  | select => "Conditional"
  | start => "Start"
  | ret => "Return"

end Op

/-- Where a stamp came from is no part of what a label says. -/
instance : BEq Label where
  beq a b := a.op.agrees b.op && a.stamp = b.stamp

end CompilerKit
