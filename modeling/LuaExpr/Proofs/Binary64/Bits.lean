import LuaExpr.Binary64.Bits
import Mathlib
/-!
# Bit patterns tell numbers apart

A pattern is a sign bit in front of the pattern of the absolute value, which is below `2 ^ 63`. The
pattern of a finite absolute value holds its power and its significand side by side, so that neither
is lost.

* `Binary64.toNat_toBits`: the two parts of a pattern.
* `Binary64.ofBits_toBits`: a number reads back from its pattern.
* `Binary64.toBits_injective`: numbers with the same pattern are the same.
-/

namespace LuaExpr.Binary64

/-- The pattern of the absolute value, as a natural number. -/
def magnitude : Binary64 → Nat
  | .nan _ => 0x7ff8000000000000
  | .infinite _ => 0x7ff0000000000000
  | .finite _ m q _ =>
    if m < Nat.pow 2 52 then m else (q + 1075).toNat * Nat.pow 2 52 + (m - Nat.pow 2 52)

theorem pow_fiftyTwo : Nat.pow 2 52 = 4503599627370496 := rfl

theorem pow_fiftyThree : Nat.pow 2 53 = 9007199254740992 := rfl

/-- Finite absolute values stand below the infinite one. -/
theorem magnitude_finite_lt {s : Bool} {m : Nat} {q : Int} (h : Canonical m q) :
    magnitude (.finite s m q h) < 0x7ff0000000000000 := by
  obtain ⟨hm, hlow, hhigh, -⟩ := h
  rw [pow_fiftyThree] at hm
  simp only [magnitude, pow_fiftyTwo]
  split <;> omega

theorem magnitude_lt (a : Binary64) : a.magnitude < 2 ^ 63 := by
  cases a with
  | nan s => simp [magnitude]
  | infinite s => simp [magnitude]
  | finite s m q h => exact Nat.lt_trans (magnitude_finite_lt h) (by norm_num)

/-- **The pattern of a value** is its sign bit in front of the pattern of its absolute value. -/
theorem toNat_toBits (a : Binary64) :
    a.toBits.toNat = (if a.isNegative then 2 ^ 63 else 0) + a.magnitude := by
  have hor : ∀ (s : Bool) (n : Nat), n < 2 ^ 63 →
      (toBits.signBit s ||| UInt64.ofNat n).toNat = (if s then 2 ^ 63 else 0) + n := by
    intro s n hn
    have hmod : n % 2 ^ 64 = n := Nat.mod_eq_of_lt (by omega)
    rw [UInt64.toNat_or, UInt64.toNat_ofNat', hmod]
    cases s with
    | false => simp [toBits.signBit]
    | true => exact (Nat.two_pow_add_eq_or_of_lt hn 1).symm
  cases a with
  | nan s => exact hor s 0x7ff8000000000000 (by norm_num)
  | infinite s => exact hor s 0x7ff0000000000000 (by norm_num)
  | finite s m q h =>
    have hlt := magnitude_lt (.finite s m q h)
    by_cases hsmall : m < Nat.pow 2 52
    · simp only [magnitude, toBits, isNegative, if_pos hsmall] at hlt ⊢
      exact hor s m hlt
    · simp only [magnitude, toBits, isNegative, if_neg hsmall] at hlt ⊢
      exact hor s _ hlt

theorem pack_of_canonical {s : Bool} {m : Nat} {q : Int} (h : Canonical m q) :
    pack s m q = .finite s m q h := by
  have hm : m ≠ Nat.pow 2 53 := Nat.ne_of_lt h.1
  simp [pack, hm, h]

/-- The three fields of a pattern. -/
theorem fields_toBits (a : Binary64) :
    decide (Nat.pow 2 63 ≤ a.toBits.toNat) = a.isNegative ∧
      a.toBits.toNat / Nat.pow 2 52 % Nat.pow 2 11 = a.magnitude / Nat.pow 2 52 ∧
      a.toBits.toNat % Nat.pow 2 52 = a.magnitude % Nat.pow 2 52 := by
  have hlt := a.magnitude_lt
  rw [toNat_toBits]
  cases a.isNegative <;> simp <;> omega

/-- **A number reads back from its pattern.** -/
theorem ofBits_toBits (a : Binary64) : ofBits a.toBits = a := by
  cases a with
  | nan s => cases s <;> rfl
  | infinite s => cases s <;> rfl
  | finite s m q h =>
    obtain ⟨hsign, hbiased, hfraction⟩ := fields_toBits (.finite s m q h)
    have hlt := magnitude_finite_lt (s := s) h
    rw [pow_fiftyTwo] at hbiased hfraction
    simp only [ofBits, hsign, hbiased, hfraction, isNegative, pow_fiftyTwo]
    rw [if_neg (by omega)]
    obtain ⟨hm, hlow, -, hnormal⟩ := id h
    rw [pow_fiftyThree] at hm
    rw [pow_fiftyTwo] at hnormal
    by_cases hsmall : m < 4503599627370496
    · -- all powers but the least one have the leading bit
      have hmag : magnitude (.finite s m q h) = m := if_pos hsmall
      obtain rfl : q = -1074 := by omega
      rw [hmag, Nat.div_eq_of_lt hsmall, Nat.mod_eq_of_lt hsmall, if_pos rfl, pack_of_canonical h]
    · have hmag : magnitude (.finite s m q h) =
          (q + 1075).toNat * 4503599627370496 + (m - 4503599627370496) := if_neg hsmall
      have hdiv : magnitude (.finite s m q h) / 4503599627370496 = (q + 1075).toNat := by omega
      have hmod : magnitude (.finite s m q h) % 4503599627370496 = m - 4503599627370496 := by omega
      have hm' : 4503599627370496 + (m - 4503599627370496) = m := by omega
      have hq' : ((q + 1075).toNat : Int) - 1075 = q := by omega
      rw [hdiv, hmod, if_neg (by omega), hm', hq', pack_of_canonical h]

/-- **Numbers with the same bit pattern are the same.** -/
theorem toBits_injective : Function.Injective toBits := Function.LeftInverse.injective ofBits_toBits

end LuaExpr.Binary64
