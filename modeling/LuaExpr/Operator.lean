import LuaExpr.Value
import LuaExpr.Binary64.Bits
/-!
# Operators

The unary and binary operators and what they compute. A machine and an evaluator of trees share
these definitions.

* `UnaryOp.apply`, `BinaryOp.apply`: the value of an operator at its operands, or why it has none
  (`OperandError`).
* Operands of a wrong kind are reported before anything else that is wrong with them.
-/

namespace LuaExpr

/-! ## The operators -/

/-- The operators with one operand. -/
inductive UnaryOp where
  | negate | not | length | bitNot
deriving DecidableEq, Repr

/-- The operators with two operands. -/
inductive BinaryOp where
  | add | sub | mul | div | floorDiv | mod | pow
  | bitAnd | bitOr | bitXor | shiftLeft | shiftRight
  | eq | ne | lt | le | gt | ge
  | concat
deriving DecidableEq, Repr

/-- Why an operator has no value at its operands. -/
inductive OperandError where
  /-- The operands are of kinds that the operator does not take. -/
  | kinds
  /-- A division or remainder has a divisor of zero. -/
  | divideByZero
  /-- A bitwise operator has a number that is no 64-bit integer. -/
  | notInteger (n : Binary64)
deriving DecidableEq

/-! ## Their values -/

/-- The 64-bit integer that a bitwise operator works on. -/
def Binary64.toWord (n : Binary64) : Except OperandError Int64 :=
  match n.toInt64? with
  | some i => .ok i
  | none => .error (.notInteger n)

/-- The value of a unary operator. The length of a text is counted in bytes. -/
def UnaryOp.apply : UnaryOp → Value → Except OperandError Value
  | negate, .number n => .ok (.number n.negate)
  | negate, _ => .error .kinds
  | not, v => .ok (.bool v.isFalsy)
  | length, .string s => .ok (.number (.ofInt s.utf8ByteSize))
  | length, _ => .error .kinds
  | bitNot, .number n => do
    let i ← n.toWord
    return .number (.ofInt64 (~~~i))
  | bitNot, _ => .error .kinds

namespace BinaryOp

/-- An operator on numbers. -/
def arithmetic (f : Binary64 → Binary64 → Except OperandError Binary64) :
    Value → Value → Except OperandError Value
  | .number a, .number b => do return .number (← f a b)
  | _, _ => .error .kinds

/-- An operator on 64-bit integers; the left operand is converted first. -/
def bitwise (f : Int64 → Int64 → Int64) : Value → Value → Except OperandError Value
  | .number a, .number b => do
    let i ← a.toWord
    let j ← b.toWord
    return .number (.ofInt64 (f i j))
  | _, _ => .error .kinds

/-- An order on numbers and on texts, where texts are ordered by their bytes. -/
def comparison (onNumbers : Binary64 → Binary64 → Bool) (onTexts : String → String → Bool) :
    Value → Value → Except OperandError Value
  | .number a, .number b => .ok (.bool (onNumbers a b))
  | .string a, .string b => .ok (.bool (onTexts a b))
  | _, _ => .error .kinds

/-- A value as a part of a text: texts themselves, and numbers as they are shown. -/
def textPart? : Value → Option String
  | .string s => some s
  | .number n => some n.display
  | .nil | .bool _ => none

/-- A quotient or remainder, which has no value for a divisor of zero. -/
def orDivideByZero (n? : Option Binary64) : Except OperandError Binary64 :=
  match n? with
  | some n => .ok n
  | none => .error .divideByZero

/-- The value of a binary operator. -/
def apply (op : BinaryOp) (a b : Value) : Except OperandError Value :=
  match op with
  | add => arithmetic (fun a b => .ok (a.add b)) a b
  | sub => arithmetic (fun a b => .ok (a.sub b)) a b
  | mul => arithmetic (fun a b => .ok (a.mul b)) a b
  | div => arithmetic (fun a b => .ok (a.div b)) a b
  | floorDiv => arithmetic (fun a b => orDivideByZero (a.floorDiv? b)) a b
  | mod => arithmetic (fun a b => orDivideByZero (a.modulo? b)) a b
  | pow => arithmetic (fun a b => .ok (a.power b)) a b
  | bitAnd => bitwise (· &&& ·) a b
  | bitOr => bitwise (· ||| ·) a b
  | bitXor => bitwise (· ^^^ ·) a b
  | shiftLeft => bitwise Word.shiftLeft a b
  | shiftRight => bitwise Word.shiftRight a b
  | eq => .ok (.bool (a.equals b))
  | ne => .ok (.bool (!a.equals b))
  | lt => comparison (fun a b => a.isLess b) (fun a b => decide (a < b)) a b
  | le => comparison (fun a b => a.isLessOrEqual b) (fun a b => !decide (b < a)) a b
  | gt => comparison (fun a b => b.isLess a) (fun a b => decide (b < a)) a b
  | ge => comparison (fun a b => b.isLessOrEqual a) (fun a b => !decide (a < b)) a b
  | concat =>
    match textPart? a, textPart? b with
    | some s, some t => .ok (.string (s ++ t))
    | _, _ => .error .kinds

end BinaryOp

end LuaExpr
