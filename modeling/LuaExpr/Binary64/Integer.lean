import LuaExpr.Binary64.Arithmetic
/-!
# Integers among the numbers

Division toward negative infinity, and the passage to integers of 64 bits and back on which the
bitwise operators rest.

* `toInt64?` succeeds exactly on the integral values from `-2 ^ 63` up to, but not including,
  `2 ^ 63`.
* `shiftLeft` and `shiftRight` are logical: a count of 64 or more clears the word, a negative count
  shifts the other way.
-/

namespace LuaExpr

namespace Binary64

/-! ## Floor division -/

/-- The quotient rounded toward negative infinity, or `none` for a divisor of zero. -/
def floorDiv? (a b : Binary64) : Option Binary64 :=
  if b.isZero then none else some (div a b).floor

/-- The remainder that goes with division toward negative infinity, or `none` for a divisor of zero.
Where the truncated remainder is not zero and its sign differs from the divisor's, the divisor is
added. -/
def modulo? (a b : Binary64) : Option Binary64 :=
  if b.isZero then none
  else
    let r := remainder a b
    if !r.isZero && isLess r (zero false) != isLess b (zero false) then some (add r b) else some r

/-! ## Integers of 64 bits -/

/-- The integer that a value is equal to, if there is one. -/
def toInt? : Binary64 → Option Int
  | .finite s m q _ =>
    let unit := Nat.pow 2 (-q).toNat
    if m % unit = 0 then
      let magnitude : Int := (m / unit * Nat.pow 2 q.toNat : Nat)
      some (if s then -magnitude else magnitude)
    else none
  | _ => none

/-- The 64-bit integer that a value is equal to, if there is one. -/
def toInt64? (a : Binary64) : Option Int64 :=
  match a.toInt? with
  | some i => if -Nat.pow 2 63 ≤ i ∧ i < Nat.pow 2 63 then some (Int64.ofInt i) else none
  | none => none

/-- The value nearest to a 64-bit integer. -/
def ofInt64 (i : Int64) : Binary64 := ofInt i.toInt

end Binary64

namespace Word

/-- The word shifted left by `n` places, or right by `-n` places; vacated places are filled with
zeros. -/
def shiftLeft (a n : Int64) : Int64 :=
  let k := n.toInt
  if k ≤ -64 ∨ 64 ≤ k then 0
  else if 0 ≤ k then Int64.ofBitVec (a.toBitVec <<< k.toNat)
  else Int64.ofBitVec (a.toBitVec >>> (-k).toNat)

/-- The word shifted right by `n` places, or left by `-n` places. The opposite of the least count is
the greatest, which clears the word as well. -/
def shiftRight (a n : Int64) : Int64 :=
  shiftLeft a (if n = Int64.minValue then Int64.maxValue else -n)

end Word

end LuaExpr
