import CompilerKit.Expression.Flow

/-! # Keywords

The short names under which operators stand in a written graph, and the check that conditions stand
where conditions are taken.
-/
namespace CompilerKit

def Unary.ofKeyword? : String → Option Unary
  | "isnull" => some .isNull
  | "lneg" => some .negation
  | s => (UnaryOp.ofName? s).map .arith

def Binary.keywords : List (String × Binary) :=
  [("test", .test), ("eq", .compare .intEquals), ("lt", .compare .intLess),
    ("below", .compare .intBelow), ("feq", .compare .floatEquals), ("oeq", .compare .objectEquals),
    ("peq", .compare .pointerEquals), ("idiv", .divide .quotient), ("irem", .divide .remainder),
    ("udiv", .divide .unsignedQuotient), ("urem", .divide .unsignedRemainder)]

def Binary.ofKeyword? (s : String) : Option Binary :=
  keywords.lookup s <|> (BinaryOp.ofName? s).map .arith <|> (ShiftOp.ofName? s).map .shift

def ResizeOp.ofKeyword? : String → Option ResizeOp
  | "narrow" => some .narrow
  | "sext" => some .signExtend
  | "zext" => some .zeroExtend
  | _ => none

def Entry.operands : Entry → Option (Op × List NodeId)
  | .unary op x => some (.unary op, [x])
  | .binary op x y => some (.binary op, [x, y])
  | .select c x y => some (.select, [c, x, y])
  | _ => none

/-- Whether all operands that have to be conditions are. -/
def Entry.isWellSorted (g : Graph Label) (e : Entry) : Bool :=
  e.operands.all fun (op, operands) =>
    operands.zipIdx.all fun (x, slot) => op.takesValue slot || (g.op? x).any (·.isLogic)

end CompilerKit
