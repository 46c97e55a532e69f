import LuaExpr.Binary64.Arithmetic
/-!
# Bit patterns of binary floating-point numbers

The interchange form: one sign bit, eleven bits of biased exponent, fifty-two bits of fraction. A
value that is not a number is written as the pattern `7ff8000000000000` or `fff8000000000000`, by
its sign, and every pattern that is not a number reads as the one with its sign.
-/

namespace LuaExpr.Binary64

/-- The 64-bit pattern of a value. -/
def toBits : Binary64 → UInt64
  | .nan s => signBit s ||| 0x7ff8000000000000
  | .infinite s => signBit s ||| 0x7ff0000000000000
  | .finite s m q _ =>
    if m < Nat.pow 2 52 then signBit s ||| UInt64.ofNat m
    else signBit s ||| UInt64.ofNat ((q + 1075).toNat * Nat.pow 2 52 + (m - Nat.pow 2 52))
where
  /-- The pattern of a sign alone. -/
  signBit (negative : Bool) : UInt64 := if negative then 0x8000000000000000 else 0

/-- The value of a 64-bit pattern. -/
def ofBits (bits : UInt64) : Binary64 :=
  let negative := decide (Nat.pow 2 63 ≤ bits.toNat)
  let biased : Nat := bits.toNat / Nat.pow 2 52 % Nat.pow 2 11
  let fraction : Nat := bits.toNat % Nat.pow 2 52
  if biased = 2047 then
    if fraction = 0 then .infinite negative else .nan negative
  else if biased = 0 then pack negative fraction (-1074)
  else pack negative (Nat.pow 2 52 + fraction) ((biased : Int) - 1075)

/-- The value as a number of the machine that runs the program. -/
def toFloat (a : Binary64) : Float := Float.ofBits a.toBits

/-- The value of a number of the machine that runs the program; one that is not a number loses its
sign. -/
def ofFloat (x : Float) : Binary64 := ofBits x.toBits

/-- The power `a ^ b`, as the mathematical library of the machine computes it. -/
def power (a b : Binary64) : Binary64 :=
  let c := ofFloat (a.toFloat ^ b.toFloat)
  if c.isNan then if a.isNan then a else if b.isNan then b else invalid
  else c

end LuaExpr.Binary64
