import LuaExpr.Binary64.Integer
import LuaExpr.Decimal.General
/-!
# Values

What an expression evaluates to. Two values are the same term exactly when they are the same
literal, while `equals` is the equality of the language: the zeros are equal, and a value that is
not a number differs from itself.
-/

namespace LuaExpr

/-- A value of the language. -/
inductive Value where
  /-- The absence of a value. -/
  | nil
  /-- A truth value. -/
  | bool (b : Bool)
  /-- A number. -/
  | number (n : Binary64)
  /-- A text. -/
  | string (s : String)
deriving DecidableEq, Inhabited

namespace Value

/-- Whether a condition fails on the value: only `nil` and `false` count as false. -/
def isFalsy : Value → Bool
  | nil => true
  | bool b => !b
  | number _ | string _ => false

/-- The name of the kind of a value. -/
def kind : Value → String
  | nil => "nil"
  | bool _ => "boolean"
  | number _ => "number"
  | string _ => "string"

/-- The text of a string value. -/
def text? : Value → Option String
  | string s => some s
  | nil | bool _ | number _ => none

/-- The number of a number value. -/
def number? : Value → Option Binary64
  | number n => some n
  | nil | bool _ | string _ => none

/-- Equality of the language. Values of different kinds differ. -/
def equals : Value → Value → Bool
  | nil, nil => true
  | bool a, bool b => a == b
  | number a, number b => a.equals b
  | string a, string b => a == b
  | _, _ => false

/-- How a value is shown. -/
def display : Value → String
  | nil => "nil"
  | bool b => if b then "true" else "false"
  | number n => n.display
  | string s => s

end Value

end LuaExpr
