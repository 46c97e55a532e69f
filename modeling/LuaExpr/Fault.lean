import LuaExpr.Instruction
import LuaExpr.Decimal.Shortest
import LuaExpr.SourceError
/-!
# Faults of a run

What can stop a run before its end, as causes, with one message each; and the faults of a whole
evaluation, which are those of its source and those of its run.
-/

namespace LuaExpr

/-- Why a run stopped before its end. -/
inductive Fault where
  /-- The instruction got operands of kinds that it does not take. -/
  | typeMismatch (op : Op) (kinds : List String)
  /-- A value was needed from an empty stack. -/
  | stackUnderflow
  /-- A value was pushed on a full stack. -/
  | stackOverflow
  /-- The run ended with a number of values other than one. -/
  | stackImbalance (depth : Nat)
  /-- A division or remainder had a divisor of zero. -/
  | divideByZero
  /-- A bitwise operator got a number that is no 64-bit integer. -/
  | noIntegerRepresentation (n : Binary64)
  /-- A value was called; no value can be. -/
  | notCallable (kind : String)
  /-- The run used up the number of steps it was given. -/
  | aborted (steps : Nat)
  /-- A slot holds no constant, or no name where one is needed. -/
  | invalidConstant (slot : Nat)
  /-- A jump leads beyond the end of the code. -/
  | invalidJump (target : Nat)
deriving DecidableEq

namespace Fault

/-- The message for a fault of a run. -/
def message : Fault → String
  | typeMismatch op kinds =>
    let operands := " and ".intercalate kinds
    s!"Attempt to perform '{op.name}' on {operands}."
  | stackUnderflow => "Virtual machine's stack underflows."
  | stackOverflow => "Virtual machine's stack overflows."
  | stackImbalance depth => s!"Virtual machine halted with {depth} values on the stack."
  | divideByZero => "Attempt to perform 'n//0' or 'n%0'."
  | noIntegerRepresentation n => s!"Number {n.shortestText} has no integer representation."
  | notCallable kind => s!"Attempt to call a {kind} value."
  | aborted steps => s!"Execution aborted after {steps} steps."
  | invalidConstant slot => s!"Invalid constant reference {slot}."
  | invalidJump target => s!"Invalid jump target {target}."

/-- The fault of an instruction whose operator has no value at its operands. -/
def ofOperandError (op : Op) (operands : List Value) : OperandError → Fault
  | .kinds => typeMismatch op (operands.map Value.kind)
  | .divideByZero => divideByZero
  | .notInteger n => noIntegerRepresentation n

end Fault

/-- What is wrong with an evaluation: with its source, or with its run. -/
inductive Error where
  /-- A fault of the source. -/
  | source (e : SourceError)
  /-- A fault of the run. -/
  | runtime (f : Fault)
deriving DecidableEq

namespace Error

/-- The message for a fault. -/
def message : Error → String
  | source e => e.message
  | runtime f => f.message

/-- The offset in the source that a fault is about; the faults of a run have none. -/
def offset? : Error → Option Nat
  | source e => some e.offset
  | runtime _ => none

/-- The kind of the token that a fault reports as found, for the faults that report one. -/
def foundKind? : Error → Option TokenKind
  | source e => e.foundKind?
  | runtime _ => none

end Error

end LuaExpr
