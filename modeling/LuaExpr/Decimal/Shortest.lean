import LuaExpr.Decimal.Digits
/-!
# The shortest digits that read back

The fewest decimal digits that still read as the same number, written positionally with no exponent.
Of two such decimals with equally many digits the nearer one is taken, and of two equally near ones
the greater.

* `Interval`: the quotients that round to a given magnitude, between the midpoints to its
  neighbours; the ends belong to it when the significand is even.
* `shortest`: the first decimal grid, from coarse to fine, that has a point in the interval next to
  the magnitude.
-/

namespace LuaExpr

namespace Decimal

/-- The magnitudes that round to the number in the middle, all three counted in `1 / scale`. -/
structure Interval where
  /-- The midpoint to the next number below. -/
  low : Nat
  /-- The magnitude itself. -/
  middle : Nat
  /-- The midpoint to the next number above. -/
  high : Nat
  /-- The common denominator. -/
  scale : Nat
  /-- Whether the ends round to the middle. -/
  closed : Bool

namespace Interval

/-- The interval of a finite nonzero magnitude `m * 2 ^ q`. Below a power of two the numbers lie
twice as close. -/
def ofFinite (m : Nat) (q : Int) : Interval :=
  let step := Nat.pow 2 q.toNat
  { low := (if m = Nat.pow 2 52 ∧ -1074 < q then 4 * m - 1 else 4 * m - 2) * step
    middle := 4 * m * step
    high := (4 * m + 2) * step
    scale := 4 * Nat.pow 2 (-q).toNat
    closed := m % 2 == 0 }

/-- Whether `k * 10 ^ unit` rounds to the middle of the interval. -/
def contains (i : Interval) (unit : Int) (k : Nat) : Bool :=
  let up := Nat.pow 10 unit.toNat
  let down := Nat.pow 10 (-unit).toNat
  let point := k * up * i.scale
  if i.closed then i.low * down ≤ point && point ≤ i.high * down
  else i.low * down < point && point < i.high * down

/-- The multiple of `10 ^ unit` nearest to the middle among its two neighbours that lie in the
interval. -/
def nearest? (i : Interval) (unit : Int) : Option Nat :=
  let n := i.middle * Nat.pow 10 (-unit).toNat
  let d := i.scale * Nat.pow 10 unit.toNat
  let below := n / d
  match i.contains unit below, i.contains unit (below + 1) with
  | true, true => some (if 2 * (n % d) < d then below else below + 1)
  | true, false => some below
  | false, true => some (below + 1)
  | false, false => none

end Interval

/-- A decimal `digits * 10 ^ unit`. -/
structure Shortest where
  /-- The digits as one number. -/
  digits : Nat
  /-- The power of ten of the last digit. -/
  unit : Int

/-- The shortest decimal in the interval. The coarsest grid that can have a point there is that of
the next power of ten above the middle, and seventeen digits always suffice. -/
def shortest (i : Interval) : Shortest :=
  let x := exponent i.middle i.scale
  let found := (List.range 18).findSome? fun (k : Nat) =>
    (i.nearest? (x + 1 - k)).map fun digits => Shortest.mk digits (x + 1 - k)
  found.getD { digits := roundAt (x - 16) i.middle i.scale, unit := x - 16 }

/-- The decimal written with a point where it has a fraction, and no exponent. -/
def Shortest.positional (s : Shortest) : List Char :=
  if 0 ≤ s.unit then Nat.toDigits 10 (s.digits * Nat.pow 10 s.unit.toNat)
  else
    let places := (-s.unit).toNat
    let digits := padded (places + 1) s.digits
    digits.take (digits.length - places) ++ '.' :: digits.drop (digits.length - places)

end Decimal

namespace Binary64

/-- The text of a number with the fewest digits that read back, and never an exponent. -/
def shortestText : Binary64 → String
  | .nan _ => "NaN"
  | .infinite s => if s then "-inf" else "inf"
  | .finite s m q _ =>
    let text := if m = 0 then ['0'] else (Decimal.shortest (.ofFinite m q)).positional
    String.ofList (if s then '-' :: text else text)

end Binary64

end LuaExpr
