import LuaExpr.Decimal.Digits
/-!
# The general layout of numbers

Numbers are shown with fourteen significant digits in the general style: positional while the
decimal exponent of the rounded value is at least `-4` and less than fourteen, with an exponent
otherwise. Trailing zeros of a fraction are dropped, and so is a point that nothing follows.
-/

namespace LuaExpr

namespace Decimal

/-- The number of significant digits that are shown. -/
def precision : Nat := 14

/-- A text with a point loses the zeros at its end, and then a point at its end. -/
def trimFraction (text : List Char) : List Char :=
  if text.contains '.' then
    let trimmed := text.reverse.dropWhile (· == '0')
    (trimmed.dropWhile (· == '.')).reverse
  else text

/-- The quotient `n / d` with the given number of places after the point. -/
def fixed (places n d : Nat) : List Char :=
  let digits := padded (places + 1) (roundAt (-places) n d)
  let whole := digits.take (digits.length - places)
  if places = 0 then whole else whole ++ '.' :: digits.drop (digits.length - places)

/-- The significand with one digit before the point and `places` after it, and the decimal exponent,
of a positive quotient. A significand that rounds up to ten is one, at the next exponent. -/
def scientific (places n d : Nat) : Nat × Int :=
  let x := exponent n d
  let m := roundAt (x - places) n d
  if m = Nat.pow 10 (places + 1) then (Nat.pow 10 places, x + 1) else (m, x)

/-- A positive or zero quotient in the general style. -/
def general (n d : Nat) : List Char :=
  if n = 0 then ['0']
  else
    let (m, x) := scientific (precision - 1) n d
    if -4 ≤ x ∧ x < precision then trimFraction (fixed ((precision : Int) - 1 - x).toNat n d)
    else
      let sign := if x < 0 then '-' else '+'
      trimFraction (fixed (precision - 1) m (Nat.pow 10 (precision - 1))) ++
        'e' :: sign :: padded 2 x.natAbs

end Decimal

namespace Binary64

/-- The text of a number. -/
def display : Binary64 → String
  | .nan s => if s then "-nan" else "nan"
  | .infinite s => if s then "-inf" else "inf"
  | .finite s m q _ =>
    let (n, d) := ratio m q
    let text := Decimal.general n d
    String.ofList (if s then '-' :: text else text)

end Binary64

end LuaExpr
