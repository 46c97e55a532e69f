import LuaExpr.Fault
/-!
# Operand stacks

A stack of values with a limit on their number. What does not fit or is not there is a fault, which
leaves the stack as it is.
-/

namespace LuaExpr

/-- The number of values a stack holds when nothing else is said. -/
def maxStack : Nat := 4096

/-- Values, the topmost one last, and the number of values there is room for. -/
structure Stack where
  /-- The values from the bottom to the top. -/
  values : Array Value := #[]
  /-- The greatest number of values. -/
  capacity : Nat := maxStack
deriving DecidableEq

namespace Stack

/-- The number of values. -/
def size (s : Stack) : Nat := s.values.size

/-- The stack with a value on top. -/
def push (s : Stack) (v : Value) : Except Fault Stack :=
  if s.values.size = s.capacity then .error .stackOverflow
  else .ok { s with values := s.values.push v }

/-- The topmost value and the stack without it. -/
def pop (s : Stack) : Except Fault (Value × Stack) :=
  match s.values.back? with
  | some v => .ok (v, { s with values := s.values.pop })
  | none => .error .stackUnderflow

/-- The value that has `n` values above it. -/
def peek (s : Stack) (n : Nat) : Except Fault Value :=
  if n < s.values.size then
    match s.values[s.values.size - 1 - n]? with
    | some v => .ok v
    | none => .error .stackUnderflow
  else .error .stackUnderflow

/-- The stack without its `n` topmost values. -/
def drop (s : Stack) : Nat → Except Fault Stack
  | 0 => .ok s
  | n + 1 => do
    let (_, s) ← s.pop
    s.drop n

end Stack

end LuaExpr
