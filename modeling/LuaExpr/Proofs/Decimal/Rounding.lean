import LuaExpr.Decimal.General
import LuaExpr.Proofs.Binary64.Rounding
/-!
# Rounding to significant digits

A shown number is rounded on the decimal grid, in the unit of the last digit that is shown. Which
unit that is depends on the decimal exponent, and this may be one more after the rounding than
before. It does no harm then to round again in the new unit: the value has become a power of ten,
and it is so near to that that the other unit changes nothing.

* `Decimal.exponent_eq`: the decimal exponent of a quotient.
* `RoundsTo`: a value is rounded to a number of significant digits.
* `Decimal.roundAt_succ`: the second rounding after a carry.
* `Decimal.scientific_spec`: the significand and the exponent of a rounded quotient, and the second
  rounding.
-/

namespace LuaExpr

/-! ## Significant digits -/

/-- The exponent of the last of some significant digits of a value. The first digit of zero counts
the ones. -/
def lastPlace (digits : ℕ) (v : ℚ) : ℤ := Int.log 10 v + 1 - digits

/-- The value `w` is `v`, which is not negative, rounded to some significant digits. -/
def RoundsTo (digits : ℕ) (v w : ℚ) : Prop :=
  ∃ m : ℕ, IsNearest (v / 10 ^ lastPlace digits v) m ∧ w = m * 10 ^ lastPlace digits v

theorem RoundsTo.unique {digits : ℕ} {v w x : ℚ} (hw : RoundsTo digits v w)
    (hx : RoundsTo digits v x) : w = x := by
  obtain ⟨m, hm, rfl⟩ := hw
  obtain ⟨n, hn, rfl⟩ := hx
  rw [hm.unique hn]

theorem roundsTo_zero (digits : ℕ) : RoundsTo digits 0 0 :=
  ⟨0, by simpa using IsNearest.natCast 0, by simp⟩

/-- The exponent of a significand with some digits and a power of ten. -/
theorem log_mul_zpow {places m : ℕ} {x : ℤ} (hlow : 10 ^ places ≤ m)
    (hhigh : m < 10 ^ (places + 1)) :
    Int.log 10 ((m : ℚ) * 10 ^ (x - places)) = x := by
  have hpow : ∀ k : ℕ, (10 : ℚ) ^ k * 10 ^ (x - places) = 10 ^ (x + k - places) := by
    intro k
    rw [← zpow_natCast, ← zpow_add₀ (by norm_num)]
    congr 1
    ring
  have hlow : (10 : ℚ) ^ places ≤ m := by exact_mod_cast hlow
  have hhigh : (m : ℚ) < 10 ^ (places + 1) := by exact_mod_cast hhigh
  refine log_eq (b := 10) (by norm_num) ?_ ?_
  · calc ((10 : ℕ) : ℚ) ^ x = 10 ^ places * 10 ^ (x - places) := by
          rw [hpow, add_sub_cancel_right]
          rfl
      _ ≤ m * 10 ^ (x - places) := by gcongr
  · calc (m : ℚ) * 10 ^ (x - places) < 10 ^ (places + 1) * 10 ^ (x - places) := by gcongr
      _ = ((10 : ℕ) : ℚ) ^ (x + 1) := by
          rw [hpow, Nat.cast_succ]
          congr 1
          ring

namespace Decimal

/-! ## Exponents -/

theorem digitCount_eq (n : ℕ) : digitCount n = Nat.log 10 n + 1 := by
  induction n using digitCount.induct with
  | case1 n h => rw [digitCount, if_pos h, Nat.log_of_lt h]
  | case2 n h ih =>
    have hlog : Nat.log 10 n = Nat.log 10 (n / 10) + 1 :=
      Nat.log_of_one_lt_of_le (by norm_num) (by omega)
    rw [digitCount, if_neg h, ih, hlog]

/-- The exponent of a quotient. -/
theorem exponent_eq {n d : ℕ} (hn : 0 < n) (hd : 0 < d) :
    exponent n d = Int.log 10 ((n : ℚ) / d) := by
  have hdq : (0 : ℚ) < d := by exact_mod_cast hd
  rw [exponent, digitCount_eq, digitCount_eq]
  split
  · rename_i hle
    have hone : 1 ≤ (n : ℚ) / d := (one_le_div hdq).mpr (by exact_mod_cast hle)
    rw [Int.log_of_one_le_right _ hone, Nat.floor_div_eq_div]
    omega
  · rename_i hlt
    generalize hk : Nat.log 10 ((d - 1) / n) = k
    -- the powers with `k` and one more places after the point are on either side
    have hbelow : d ≤ n * 10 ^ (k + 1) := by
      have hpow := Nat.lt_pow_succ_log_self (b := 10) (by norm_num) ((d - 1) / n)
      rw [hk, Nat.div_lt_iff_lt_mul hn, mul_comm, Nat.succ_eq_add_one] at hpow
      omega
    have habove : n * 10 ^ k < d := by
      rcases Nat.eq_zero_or_pos ((d - 1) / n) with hzero | hpos
      · rw [hzero, Nat.log_zero_right] at hk
        rw [← hk]
        omega
      · have hpow := Nat.pow_log_le_self 10 hpos.ne'
        rw [hk, Nat.le_div_iff_mul_le hn, mul_comm] at hpow
        omega
    refine (log_eq (b := 10) (by norm_num) ?_ ?_).symm
    · rw [le_div_iff₀ hdq, zpow_neg, inv_mul_le_iff₀ (by positivity), mul_comm]
      exact_mod_cast hbelow
    · have hexp : -((k + 1 : ℕ) : ℤ) + 1 = -(k : ℤ) := by omega
      rw [hexp, div_lt_iff₀ hdq, zpow_neg,
        ← mul_lt_mul_iff_right₀ (by positivity : (0 : ℚ) < (10 : ℕ) ^ (k : ℤ)),
        mul_inv_cancel_left₀ (by positivity), mul_comm]
      exact_mod_cast habove

/-! ## Roundings -/

theorem isNearest_roundAt (unit : ℤ) (n : ℕ) {d : ℕ} (hd : 0 < d) :
    IsNearest ((n : ℚ) / d / 10 ^ unit) (roundAt unit n d) := by
  have hnearest := isNearest_scaled (b := 10) (by norm_num) unit n hd
  rwa [Nat.cast_ofNat] at hnearest

section Scientific

variable {n d : ℕ} (places : ℕ)

/-- The significand of a quotient has the digits that it is rounded to, or it is the least number
with one digit more. -/
theorem roundAt_exponent_bounds (hn : 0 < n) (hd : 0 < d) :
    10 ^ places ≤ roundAt (exponent n d - places) n d ∧
    roundAt (exponent n d - places) n d ≤ 10 ^ (places + 1) := by
  have hpos : (0 : ℚ) < (n : ℚ) / d := by positivity
  have hlow := Int.zpow_log_le_self (b := 10) (by norm_num) hpos
  have hhigh := Int.lt_zpow_succ_log_self (b := 10) (by norm_num) ((n : ℚ) / d)
  rw [← exponent_eq hn hd] at hlow hhigh
  have hnearest := isNearest_scaled (b := 10) (by norm_num) (exponent n d - places) n hd
  refine ⟨hnearest.pow_le (by norm_num) ?_, hnearest.le_pow (by norm_num) (hhigh.le.trans_eq ?_)⟩
  · rwa [sub_add_cancel]
  · congr 1
    push_cast
    ring

theorem roundsTo_roundAt (hn : 0 < n) (hd : 0 < d) : RoundsTo (places + 1) ((n : ℚ) / d)
    (roundAt (exponent n d - places) n d * 10 ^ (exponent n d - places)) := by
  have hplace : exponent n d - places = lastPlace (places + 1) ((n : ℚ) / d) := by
    rw [lastPlace, ← exponent_eq hn hd]
    push_cast
    ring
  rw [hplace]
  exact ⟨_, isNearest_roundAt _ n hd, rfl⟩

/-- A quotient that is rounded up to a power of ten is rounded to it in the next unit too. -/
theorem roundAt_succ (hd : 0 < d) {unit : ℤ} (h : roundAt unit n d = 10 ^ (places + 1)) :
    roundAt (unit + 1) n d = 10 ^ places := by
  refine (isNearest_roundAt _ n hd).unique (IsNearest.of_lt ?_)
  have hsplit : (n : ℚ) / d / 10 ^ (unit + 1) - (10 ^ places : ℕ) =
      ((n : ℚ) / d / 10 ^ unit - roundAt unit n d) / 10 := by
    rw [h, zpow_add_one₀ (by norm_num), ← div_div, sub_div]
    push_cast [pow_succ]
    ring
  have hnear := (isNearest_roundAt unit n hd).1
  rw [hsplit, abs_div]
  norm_num
  linarith

/-- **The significand and the exponent** of a positive quotient that is rounded to some significant
digits. A second rounding, in the unit that belongs to this exponent, finds the same significand. -/
theorem scientific_spec (hn : 0 < n) (hd : 0 < d) :
    ∃ m x, scientific places n d = (m, x) ∧
      RoundsTo (places + 1) ((n : ℚ) / d) (m * 10 ^ (x - places)) ∧
      10 ^ places ≤ m ∧ m < 10 ^ (places + 1) ∧ roundAt (x - places) n d = m := by
  obtain ⟨hge, hle⟩ := roundAt_exponent_bounds places hn hd
  have hrounds := roundsTo_roundAt places hn hd
  rw [scientific]
  generalize exponent n d = x at hge hle hrounds
  by_cases hcarry : roundAt (x - places) n d = Nat.pow 10 (places + 1)
  · have hnext : x + 1 - places = x - places + 1 := by ring
    refine ⟨10 ^ places, x + 1, by simp only [if_pos hcarry]; rfl, ?_, le_rfl,
      Nat.pow_lt_pow_right (by norm_num) (by omega), by rw [hnext, roundAt_succ places hd hcarry]⟩
    have hsame : ((10 ^ places : ℕ) : ℚ) * 10 ^ (x + 1 - places) =
        roundAt (x - places) n d * 10 ^ (x - places) := by
      rw [hcarry, hnext, zpow_add_one₀ (by norm_num)]
      push_cast [Nat.pow_eq, pow_succ]
      ring
    rwa [hsame]
  · exact ⟨_, x, by simp only [if_neg hcarry], hrounds, hge, lt_of_le_of_ne hle hcarry, rfl⟩

end Scientific

end Decimal

end LuaExpr
