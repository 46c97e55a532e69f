import LuaExpr.Binary64.Basic
/-!
# Decimal digits of exact quotients

A finite number is the quotient of two naturals. Here such quotients are rounded on a decimal grid,
and decimal numerals are read as quotients; the layouts of written numbers are built on these.

* `exponent`: the decimal exponent of a positive quotient, exactly.
* `roundAt`: a quotient counted in units of a power of ten, rounded to nearest, ties to even.
* `ofNumeral?`: the number nearest to a numeral.
-/

namespace LuaExpr

namespace Decimal

/-! ## Digits of natural numbers -/

/-- The number of decimal digits; zero has one. -/
def digitCount (n : Nat) : Nat :=
  if n < 10 then 1 else digitCount (n / 10) + 1

/-- The value of a digit character. -/
def digitValue (c : Char) : Nat := c.toNat - '0'.toNat

/-- The number that a run of digit characters denotes; the empty run denotes zero. -/
def ofDigits (digits : List Char) : Nat :=
  digits.foldl (fun n c => 10 * n + digitValue c) 0

/-- The decimal digits of a number, with zeros in front up to the given width. -/
def padded (width n : Nat) : List Char :=
  let digits := Nat.toDigits 10 n
  List.replicate (width - digits.length) '0' ++ digits

/-! ## Quotients on the decimal grid -/

/-- The greatest `x` such that `10 ^ x` is at most `n / d`, for positive `n` and `d`. -/
def exponent (n d : Nat) : Int :=
  if d ≤ n then (digitCount (n / d) : Int) - 1 else -(digitCount ((d - 1) / n) : Int)

/-- The quotient `n / d` in units of `10 ^ unit`, rounded to the nearest natural, a tie going to the
even one. -/
def roundAt (unit : Int) (n d : Nat) : Nat :=
  Binary64.roundQuotient (n * Nat.pow 10 (-unit).toNat) (d * Nat.pow 10 unit.toNat)

/-! ## Numerals -/

/-- The number nearest to a numeral: digits with at most one point among them and at least one
digit. -/
def ofNumeral? (text : List Char) : Option Binary64 :=
  let whole := text.takeWhile Char.isDigit
  match text.dropWhile Char.isDigit with
  | [] => if whole.isEmpty then none else some (Binary64.ofRatio false (ofDigits whole) 1)
  | '.' :: fraction =>
    if fraction.all Char.isDigit && !(whole.isEmpty && fraction.isEmpty) then
      some (Binary64.ofRatio false (ofDigits (whole ++ fraction)) (Nat.pow 10 fraction.length))
    else none
  | _ :: _ => none

end Decimal

namespace Binary64

/-- The magnitude of a finite value as a numerator and a denominator. -/
def ratio (significand : Nat) (power : Int) : Nat × Nat :=
  (significand * Nat.pow 2 power.toNat, Nat.pow 2 (-power).toNat)

end Binary64

end LuaExpr
