import LuaExpr.Operator
/-!
# Instructions

The code of the stack machine. Operands come from the stack and results go there; constants and
names are referred to by their slot in the pool of a chunk, and jumps name the index of the
instruction to go on with.
-/

namespace LuaExpr

/-- What an instruction does. -/
inductive Op where
  /-- Pushes `nil`. -/
  | nil
  /-- Pushes `true`. -/
  | true
  /-- Pushes `false`. -/
  | false
  /-- Pushes the constant of a slot. -/
  | constant (slot : UInt8)
  /-- Pushes the value of the global whose name is the constant of a slot. -/
  | global (slot : UInt8)
  /-- Calls the value below the given number of arguments. -/
  | call (arguments : UInt8)
  /-- Drops the topmost value. -/
  | pop
  /-- Pushes the topmost value again. -/
  | dup
  /-- Replaces the topmost value by the value of an operator. -/
  | unary (op : UnaryOp)
  /-- Replaces the two topmost values by the value of an operator; the right operand is on top. -/
  | binary (op : BinaryOp)
  /-- Drops the topmost value and jumps if it is falsy. -/
  | jumpIfFalse (target : UInt16)
  /-- Jumps. -/
  | jump (target : UInt16)
deriving DecidableEq

/-! ## Names -/

/-- The name of a unary operator in listings and messages. -/
def UnaryOp.name : UnaryOp → String
  | negate => "OP_NEGATE"
  | not => "OP_NOT"
  | length => "OP_LEN"
  | bitNot => "OP_BNOT"

/-- The name of a binary operator in listings and messages. -/
def BinaryOp.name : BinaryOp → String
  | add => "OP_ADD"
  | sub => "OP_SUB"
  | mul => "OP_MUL"
  | div => "OP_DIV"
  | floorDiv => "OP_FLOOR_DIV"
  | mod => "OP_MOD"
  | pow => "OP_POW"
  | bitAnd => "OP_BAND"
  | bitOr => "OP_BOR"
  | bitXor => "OP_BXOR"
  | shiftLeft => "OP_SHL"
  | shiftRight => "OP_SHR"
  | eq => "OP_EQ"
  | ne => "OP_NEQ"
  | lt => "OP_LT"
  | le => "OP_LTE"
  | gt => "OP_GT"
  | ge => "OP_GTE"
  | concat => "OP_CONCAT"

namespace Op

/-- The name of an instruction in listings and messages. -/
def name : Op → String
  | nil => "OP_NIL"
  | true => "OP_TRUE"
  | false => "OP_FALSE"
  | constant _ => "OP_CONSTANT"
  | global _ => "OP_GET_GLOBAL"
  | call _ => "OP_CALL"
  | pop => "OP_POP"
  | dup => "OP_DUP"
  | unary op => op.name
  | binary op => op.name
  | jumpIfFalse _ => "OP_JUMP_IF_FALSE"
  | jump _ => "OP_JUMP"

/-- The operand that is part of an instruction. -/
def operand? : Op → Option Nat
  | constant slot | global slot => some slot.toNat
  | call arguments => some arguments.toNat
  | jumpIfFalse target | jump target => some target.toNat
  | nil | true | false | pop | dup | unary _ | binary _ => none

/-- Whether an instruction is a jump, conditional or not. -/
def isJump : Op → Bool
  | jumpIfFalse _ | jump _ => .true
  | _ => .false

/-- The jump to another target; instructions that are not jumps stay as they are. -/
def withTarget (target : UInt16) : Op → Op
  | jumpIfFalse _ => jumpIfFalse target
  | jump _ => jump target
  | op => op

end Op

/-- An instruction with the offset in the source that it comes from. -/
structure Instruction where
  /-- What it does. -/
  op : Op
  /-- Where it comes from. -/
  offset : Nat
deriving DecidableEq

end LuaExpr
