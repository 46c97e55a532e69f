/-!
# Binary64: the numbers of the language

A number is a binary floating-point number of 64 bits: a sign, a significand below `2 ^ 53` and a
power of two, or an infinity, or not a number at all, which has a sign as well.

* `Binary64`: each finite value has one representation (`Canonical`), so equality of terms is
  equality of bit patterns, with all patterns of one sign that are not a number taken as one.
* `ofRatio`: the value nearest to a quotient of naturals, a tie going to the even significand. Every
  operation computes its result exactly and rounds it once, through this function.
-/

namespace LuaExpr

/-! ## The type -/

/-- The significand and power of a finite value: the significand has 53 bits, or fewer at the least
power. -/
def Canonical (significand : Nat) (power : Int) : Prop :=
  significand < Nat.pow 2 53 ∧ -1074 ≤ power ∧ power ≤ 971 ∧
    (Nat.pow 2 52 ≤ significand ∨ power = -1074)

instance (m : Nat) (q : Int) : Decidable (Canonical m q) :=
  inferInstanceAs (Decidable
    (m < Nat.pow 2 53 ∧ -1074 ≤ q ∧ q ≤ 971 ∧ (Nat.pow 2 52 ≤ m ∨ q = -1074)))

/-- A binary floating-point number of 64 bits. -/
inductive Binary64 where
  /-- A value that is not a number, but has a sign. -/
  | nan (negative : Bool := false)
  /-- An infinity. -/
  | infinite (negative : Bool)
  /-- The value `± significand * 2 ^ power`. -/
  | finite (negative : Bool) (significand : Nat) (power : Int)
      (canonical : Canonical significand power)
deriving DecidableEq

namespace Binary64

/-- The zero of the given sign. -/
def zero (negative : Bool) : Binary64 :=
  .finite negative 0 (-1074) (by decide)

instance : Inhabited Binary64 := ⟨zero false⟩

/-! ## Rounding -/

/-- The natural number nearest to `n / d`; a tie goes to the even one. -/
def roundQuotient (n d : Nat) : Nat :=
  let q := n / d
  let r := n % d
  if 2 * r < d ∨ (2 * r = d ∧ q % 2 = 0) then q else q + 1

/-- The greatest power of two that is at most `n / d`, for positive `n` and `d`. -/
def floorLog2 (n d : Nat) : Int :=
  let k : Int := (n.log2 : Int) - d.log2
  if d * Nat.pow 2 k.toNat ≤ n * Nat.pow 2 (-k).toNat then k else k - 1

/-- The value `± m * 2 ^ q`, where `m` has at most 53 bits or is `2 ^ 53`; an infinity if the power
is too large. -/
def pack (negative : Bool) (m : Nat) (q : Int) : Binary64 :=
  let carried := m = Nat.pow 2 53
  let m' := if carried then Nat.pow 2 52 else m
  let q' := if carried then q + 1 else q
  if h : Canonical m' q' then .finite negative m' q' h else .infinite negative

/-- The value nearest to `± n / d`, a tie going to the even significand. Quotients that round to
`2 ^ 1024` or more become infinite. -/
def ofRatio (negative : Bool) (n d : Nat) : Binary64 :=
  if n = 0 then zero negative
  else
    let q := max (-1074) (floorLog2 n d - 52)
    pack negative (roundQuotient (n * Nat.pow 2 (-q).toNat) (d * Nat.pow 2 q.toNat)) q

/-- The value nearest to `± n * 2 ^ e`. -/
def ofDyadic (negative : Bool) (n : Nat) (e : Int) : Binary64 :=
  ofRatio negative (n * Nat.pow 2 e.toNat) (Nat.pow 2 (-e).toNat)

/-- The value nearest to an integer. -/
def ofInt (i : Int) : Binary64 :=
  ofRatio (decide (i < 0)) i.natAbs 1

/-! ## Simple questions -/

/-- Whether the value is a zero of either sign. -/
def isZero : Binary64 → Bool
  | .finite _ m _ _ => m == 0
  | _ => false

/-- Whether the value is not a number. -/
def isNan : Binary64 → Bool
  | .nan _ => true
  | _ => false

/-- Whether the sign of the value is the negative one. -/
def isNegative : Binary64 → Bool
  | .nan s => s
  | .infinite s => s
  | .finite s _ _ _ => s

/-- The integer `± m * 2 ^ (q - e)`, for `e ≤ q`: a finite value counted in units of `2 ^ e`. -/
def scaled (negative : Bool) (m : Nat) (q e : Int) : Int :=
  let magnitude : Int := (m * Nat.pow 2 (q - e).toNat : Nat)
  if negative then -magnitude else magnitude

end Binary64

end LuaExpr
