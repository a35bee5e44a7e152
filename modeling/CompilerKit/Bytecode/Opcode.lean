import CompilerKit.Fault

/-! # Bytecodes

The instructions of the virtual machine: name, length in bytes, effect on the operand stack and
traits. An instruction's number is its place in the table.
-/
namespace CompilerKit.Bytecode

inductive Trait where
  | stop | fallThrough | branch | fieldRead | fieldWrite | trap | commutative | associative
  | load | store | invoke
  deriving DecidableEq

structure Info where
  name : String
  /-- The length in bytes, 0 if it varies. -/
  length : Nat
  /-- By how many slots the operand stack grows. -/
  stackEffect : Int
  traits : List Trait
  deriving DecidableEq

def rows : List (String × Nat × Int × List Trait) :=
  [("nop", 1, 0, []), ("aconst_null", 1, 1, []), ("iconst_m1", 1, 1, []), ("iconst_0", 1, 1, []),
    ("iconst_1", 1, 1, []), ("iconst_2", 1, 1, []), ("iconst_3", 1, 1, []), ("iconst_4", 1, 1, []),
    ("iconst_5", 1, 1, []), ("lconst_0", 1, 2, []), ("lconst_1", 1, 2, []), ("fconst_0", 1, 1, []),
    ("fconst_1", 1, 1, []), ("fconst_2", 1, 1, []), ("dconst_0", 1, 2, []), ("dconst_1", 1, 2, []),
    ("bipush", 2, 1, []), ("sipush", 3, 1, []), ("ldc", 2, 1, [.trap]), ("ldc_w", 3, 1, [.trap]),
    ("ldc2_w", 3, 2, [.trap]), ("iload", 2, 1, [.load]), ("lload", 2, 2, [.load]),
    ("fload", 2, 1, [.load]), ("dload", 2, 2, [.load]), ("aload", 2, 1, [.load]),
    ("iload_0", 1, 1, [.load]), ("iload_1", 1, 1, [.load]), ("iload_2", 1, 1, [.load]),
    ("iload_3", 1, 1, [.load]), ("lload_0", 1, 2, [.load]), ("lload_1", 1, 2, [.load]),
    ("lload_2", 1, 2, [.load]), ("lload_3", 1, 2, [.load]), ("fload_0", 1, 1, [.load]),
    ("fload_1", 1, 1, [.load]), ("fload_2", 1, 1, [.load]), ("fload_3", 1, 1, [.load]),
    ("dload_0", 1, 2, [.load]), ("dload_1", 1, 2, [.load]), ("dload_2", 1, 2, [.load]),
    ("dload_3", 1, 2, [.load]), ("aload_0", 1, 1, [.load]), ("aload_1", 1, 1, [.load]),
    ("aload_2", 1, 1, [.load]), ("aload_3", 1, 1, [.load]), ("iaload", 1, -1, [.trap]),
    ("laload", 1, 0, [.trap]), ("faload", 1, -1, [.trap]), ("daload", 1, 0, [.trap]),
    ("aaload", 1, -1, [.trap]), ("baload", 1, -1, [.trap]), ("caload", 1, -1, [.trap]),
    ("saload", 1, -1, [.trap]), ("istore", 2, -1, [.store]), ("lstore", 2, -2, [.store]),
    ("fstore", 2, -1, [.store]), ("dstore", 2, -2, [.store]), ("astore", 2, -1, [.store]),
    ("istore_0", 1, -1, [.store]), ("istore_1", 1, -1, [.store]), ("istore_2", 1, -1, [.store]),
    ("istore_3", 1, -1, [.store]), ("lstore_0", 1, -2, [.store]), ("lstore_1", 1, -2, [.store]),
    ("lstore_2", 1, -2, [.store]), ("lstore_3", 1, -2, [.store]), ("fstore_0", 1, -1, [.store]),
    ("fstore_1", 1, -1, [.store]), ("fstore_2", 1, -1, [.store]), ("fstore_3", 1, -1, [.store]),
    ("dstore_0", 1, -2, [.store]), ("dstore_1", 1, -2, [.store]), ("dstore_2", 1, -2, [.store]),
    ("dstore_3", 1, -2, [.store]), ("astore_0", 1, -1, [.store]), ("astore_1", 1, -1, [.store]),
    ("astore_2", 1, -1, [.store]), ("astore_3", 1, -1, [.store]), ("iastore", 1, -3, [.trap]),
    ("lastore", 1, -4, [.trap]), ("fastore", 1, -3, [.trap]), ("dastore", 1, -4, [.trap]),
    ("aastore", 1, -3, [.trap]), ("bastore", 1, -3, [.trap]), ("castore", 1, -3, [.trap]),
    ("sastore", 1, -3, [.trap]), ("pop", 1, -1, []), ("pop2", 1, -2, []), ("dup", 1, 1, []),
    ("dup_x1", 1, 1, []), ("dup_x2", 1, 1, []), ("dup2", 1, 2, []), ("dup2_x1", 1, 2, []),
    ("dup2_x2", 1, 2, []), ("swap", 1, 0, []), ("iadd", 1, -1, [.commutative, .associative]),
    ("ladd", 1, -2, [.commutative, .associative]), ("fadd", 1, -1, [.commutative, .associative]),
    ("dadd", 1, -2, [.commutative, .associative]), ("isub", 1, -1, []), ("lsub", 1, -2, []),
    ("fsub", 1, -1, []), ("dsub", 1, -2, []), ("imul", 1, -1, [.commutative, .associative]),
    ("lmul", 1, -2, [.commutative, .associative]), ("fmul", 1, -1, [.commutative, .associative]),
    ("dmul", 1, -2, [.commutative, .associative]), ("idiv", 1, -1, [.trap]),
    ("ldiv", 1, -2, [.trap]), ("fdiv", 1, -1, []), ("ddiv", 1, -2, []), ("irem", 1, -1, [.trap]),
    ("lrem", 1, -2, [.trap]), ("frem", 1, -1, []), ("drem", 1, -2, []), ("ineg", 1, 0, []),
    ("lneg", 1, 0, []), ("fneg", 1, 0, []), ("dneg", 1, 0, []), ("ishl", 1, -1, []),
    ("lshl", 1, -1, []), ("ishr", 1, -1, []), ("lshr", 1, -1, []), ("iushr", 1, -1, []),
    ("lushr", 1, -1, []), ("iand", 1, -1, [.commutative, .associative]),
    ("land", 1, -2, [.commutative, .associative]), ("ior", 1, -1, [.commutative, .associative]),
    ("lor", 1, -2, [.commutative, .associative]), ("ixor", 1, -1, [.commutative, .associative]),
    ("lxor", 1, -2, [.commutative, .associative]), ("iinc", 3, 0, [.load, .store]),
    ("i2l", 1, 1, []), ("i2f", 1, 0, []), ("i2d", 1, 1, []), ("l2i", 1, -1, []),
    ("l2f", 1, -1, []), ("l2d", 1, 0, []), ("f2i", 1, 0, []), ("f2l", 1, 1, []), ("f2d", 1, 1, []),
    ("d2i", 1, -1, []), ("d2l", 1, 0, []), ("d2f", 1, -1, []), ("i2b", 1, 0, []),
    ("i2c", 1, 0, []), ("i2s", 1, 0, []), ("lcmp", 1, -3, []), ("fcmpl", 1, -1, []),
    ("fcmpg", 1, -1, []), ("dcmpl", 1, -3, []), ("dcmpg", 1, -3, []),
    ("ifeq", 3, -1, [.fallThrough, .branch]), ("ifne", 3, -1, [.fallThrough, .branch]),
    ("iflt", 3, -1, [.fallThrough, .branch]), ("ifge", 3, -1, [.fallThrough, .branch]),
    ("ifgt", 3, -1, [.fallThrough, .branch]), ("ifle", 3, -1, [.fallThrough, .branch]),
    ("if_icmpeq", 3, -2, [.commutative, .fallThrough, .branch]),
    ("if_icmpne", 3, -2, [.commutative, .fallThrough, .branch]),
    ("if_icmplt", 3, -2, [.fallThrough, .branch]), ("if_icmpge", 3, -2, [.fallThrough, .branch]),
    ("if_icmpgt", 3, -2, [.fallThrough, .branch]), ("if_icmple", 3, -2, [.fallThrough, .branch]),
    ("if_acmpeq", 3, -2, [.commutative, .fallThrough, .branch]),
    ("if_acmpne", 3, -2, [.commutative, .fallThrough, .branch]), ("goto", 3, 0, [.stop, .branch]),
    ("jsr", 3, 0, [.stop, .branch]), ("ret", 2, 0, [.stop]), ("tableswitch", 0, -1, [.stop]),
    ("lookupswitch", 0, -1, [.stop]), ("ireturn", 1, -1, [.trap, .stop]),
    ("lreturn", 1, -2, [.trap, .stop]), ("freturn", 1, -1, [.trap, .stop]),
    ("dreturn", 1, -2, [.trap, .stop]), ("areturn", 1, -1, [.trap, .stop]),
    ("return", 1, 0, [.trap, .stop]), ("getstatic", 3, 1, [.trap, .fieldRead]),
    ("putstatic", 3, -1, [.trap, .fieldWrite]), ("getfield", 3, 0, [.trap, .fieldRead]),
    ("putfield", 3, -2, [.trap, .fieldWrite]), ("invokevirtual", 3, -1, [.trap, .invoke]),
    ("invokespecial", 3, -1, [.trap, .invoke]), ("invokestatic", 3, 0, [.trap, .invoke]),
    ("invokeinterface", 5, -1, [.trap, .invoke]), ("invokedynamic", 5, 0, [.trap, .invoke]),
    ("new", 3, 1, [.trap]), ("newarray", 2, 0, [.trap]), ("anewarray", 3, 0, [.trap]),
    ("arraylength", 1, 0, [.trap]), ("athrow", 1, -1, [.trap, .stop]),
    ("checkcast", 3, 0, [.trap]), ("instanceof", 3, 0, [.trap]), ("monitorenter", 1, -1, [.trap]),
    ("monitorexit", 1, -1, [.trap]), ("wide", 0, 0, []), ("multianewarray", 4, 1, [.trap]),
    ("ifnull", 3, -1, [.fallThrough, .branch]), ("ifnonnull", 3, -1, [.fallThrough, .branch]),
    ("goto_w", 5, 0, [.stop, .branch]), ("jsr_w", 5, 0, [.stop, .branch]),
    ("breakpoint", 1, 0, [.trap])]

def table : List Info := rows.map fun (name, length, stackEffect, traits) =>
  { name, length, stackEffect, traits }

/-! The instructions that are known by number. -/

def ldc : Nat := 18
def iinc : Nat := 132
def ret : Nat := 169
def tableSwitch : Nat := 170
def lookupSwitch : Nat := 171
def wide : Nat := 196
def gotoWide : Nat := 200
def jsrWide : Nat := 201

/-- What a stream reports after its last instruction. -/
def endOfStream : Nat := 256

/-- The instruction with the given number, which is taken modulo 256. -/
def info? (opcode : Int) : Option Info := table[(opcode % 256).toNat]?

def hasTrait (opcode : Int) (t : Trait) : Bool := (info? opcode).any (·.traits.contains t)

def lengthOf (opcode : Int) : Nat := ((info? opcode).map (·.length)).getD 0

def stackEffectOf (opcode : Int) : Int := ((info? opcode).map (·.stackEffect)).getD 0

def nameOf (opcode : Int) : String :=
  match info? opcode with
  | some i => i.name
  | none => s!"<illegal opcode: {opcode}>"

/-- The name, without the number if there is none. -/
def baseNameOf (opcode : Int) : String :=
  match info? opcode with
  | some i => i.name
  | none => "<illegal opcode>"

/-- The operators of the arithmetic instructions, in blocks of consecutive numbers. -/
def operators : List (Nat × Nat × String) :=
  [(96, 4, "+"), (100, 4, "-"), (104, 4, "*"), (108, 4, "/"), (112, 4, "%"),
    (120, 2, "<<"), (122, 2, ">>"), (124, 2, ">>>"), (126, 2, "&"), (128, 2, "|"), (130, 2, "^")]

/-- The operator of an arithmetic instruction, the name of any other. -/
def operator (opcode : Int) : String :=
  match operators.find? fun (first, count, _) => first ≤ opcode && opcode < first + count with
  | some (_, _, symbol) => symbol
  | none => nameOf opcode

/-- A letter without its case. Four letters beyond ASCII have ASCII letters as their other case. -/
def foldCase (c : Char) : Char :=
  match c.toNat with
  | 0x130 | 0x131 => 'i'
  | 0x17F => 's'
  | 0x212A => 'k'
  | _ => c.toLower

/-- The number of the instruction with the given name, in either case. -/
def ofName? (name : String) : Option Nat :=
  let folded := name.toList.map foldCase
  table.findIdx? fun i => i.name.toList = folded

/-- The number of the instruction with the given name; a name that no instruction has is refused. -/
def ofName (name : String) : Result Nat :=
  match ofName? name with
  | some n => .ok n
  | none => .error (.invalidArgument s!"No opcode for {name}")

end CompilerKit.Bytecode
