import LuaExpr.Binary64.Basic
/-!
# Arithmetic on binary floating-point numbers

Sums, products and quotients are the exact result rounded once. The comparison is the usual partial
one: the two zeros are equal, and a value that is not a number is neither below, equal to, nor above
anything.

* `invalid`: what an operation on numbers gives when it has no result. An operand that is not a
  number is passed on, the first one of two.
* `floor` and `remainder` are exact; `remainder` has the sign of the dividend.
* `power` is the one operation computed by the machine's own library, on the 64-bit pattern of its
  operands.
-/

namespace LuaExpr.Binary64

/-! ## Sign and order -/

/-- The value with the other sign. -/
def negate : Binary64 → Binary64
  | .nan s => .nan (!s)
  | .infinite s => .infinite (!s)
  | .finite s m q h => .finite (!s) m q h

/-- The order of two values, if they have one. -/
def order? : Binary64 → Binary64 → Option Ordering
  | .nan _, _ => none
  | _, .nan _ => none
  | .infinite s, .infinite t => some (compare t.toNat s.toNat)
  | .infinite s, .finite .. => some (if s then .lt else .gt)
  | .finite .., .infinite t => some (if t then .gt else .lt)
  | .finite s m q _, .finite t n p _ =>
    let e := min q p
    some (compare (scaled s m q e) (scaled t n p e))

/-- Numeric equality: the zeros are equal, and a value that is not a number differs from itself. -/
def equals (a b : Binary64) : Bool := order? a b == some .eq

/-- Whether `a` is below `b`. -/
def isLess (a b : Binary64) : Bool := order? a b == some .lt

/-- Whether `a` is below or equal to `b`. -/
def isLessOrEqual (a b : Binary64) : Bool := isLess a b || equals a b

/-! ## Rounded operations -/

/-- What an operation gives that has no result on its operands. Which sign the value has is the
machine's choice; it is set here, as x86-64 sets it. -/
def invalid : Binary64 := .nan true

/-- The rounded sum. A sum of zero is negative only when both operands are. -/
def add : Binary64 → Binary64 → Binary64
  | .nan s, _ => .nan s
  | _, .nan t => .nan t
  | .infinite s, .infinite t => if s = t then .infinite s else invalid
  | .infinite s, .finite .. => .infinite s
  | .finite .., .infinite t => .infinite t
  | .finite s m q _, .finite t n p _ =>
    let e := min q p
    let sum := scaled s m q e + scaled t n p e
    if sum = 0 then zero (s && t) else ofDyadic (decide (sum < 0)) sum.natAbs e

/-- The rounded difference. -/
def sub : Binary64 → Binary64 → Binary64
  | .nan s, _ => .nan s
  | _, .nan t => .nan t
  | a, b => add a (negate b)

/-- The rounded product. -/
def mul : Binary64 → Binary64 → Binary64
  | .nan s, _ => .nan s
  | _, .nan t => .nan t
  | .infinite s, .infinite t => .infinite (s != t)
  | .infinite s, .finite t n _ _ => if n = 0 then invalid else .infinite (s != t)
  | .finite s m _ _, .infinite t => if m = 0 then invalid else .infinite (s != t)
  | .finite s m q _, .finite t n p _ => ofDyadic (s != t) (m * n) (q + p)

/-- The rounded quotient. A finite value over zero is infinite, zero over zero is not a number. -/
def div : Binary64 → Binary64 → Binary64
  | .nan s, _ => .nan s
  | _, .nan t => .nan t
  | .infinite _, .infinite _ => invalid
  | .infinite s, .finite t _ _ _ => .infinite (s != t)
  | .finite s _ _ _, .infinite t => zero (s != t)
  | .finite s m q _, .finite t n p _ =>
    if n = 0 then
      if m = 0 then invalid else .infinite (s != t)
    else
      let e := q - p
      ofRatio (s != t) (m * Nat.pow 2 e.toNat) (n * Nat.pow 2 (-e).toNat)

/-! ## Exact operations -/

/-- The greatest integral value that is not above the argument; its sign is kept where the result is
zero. -/
def floor : Binary64 → Binary64
  | .finite s m q h =>
    if 0 ≤ q then .finite s m q h
    else
      let unit := Nat.pow 2 (-q).toNat
      let whole := m / unit
      ofRatio s (if s ∧ m % unit ≠ 0 then whole + 1 else whole) 1
  | a => a

/-- The remainder of the quotient truncated toward zero. It has the sign of the dividend. -/
def remainder : Binary64 → Binary64 → Binary64
  | .nan s, _ => .nan s
  | _, .nan t => .nan t
  | .infinite _, _ => invalid
  | .finite s m q h, .infinite _ => .finite s m q h
  | .finite s m q _, .finite _ n p _ =>
    if n = 0 then invalid
    else
      let e := min q p
      ofDyadic s ((m * Nat.pow 2 (q - e).toNat) % (n * Nat.pow 2 (p - e).toNat)) e

end LuaExpr.Binary64
