import LuaExpr.Binary64.Basic
import Mathlib
/-!
# Rounding of quotients

A number is an exact quotient that is rounded once. Here the rounding is compared with rational
numbers: which natural number is nearest to a quotient, in which unit it is counted, and which
number the outcome stands for.

* `IsNearest`: the natural number nearest to a rational one, the even one of two that are equally
  near; `isNearest_roundQuotient`: `roundQuotient` finds it; `isNearest_scaled`: also in units of a
  power.
* `Binary64.floorLog2_eq`: the greatest power of two below a quotient.
* `Binary64.toRat?`: the rational number that a finite value stands for.
* `Binary64.Rounds`: a value is rounded to the nearest multiple of its unit, which is 52 binary
  places below the value, or the least unit there is; `Rounds.le_of_le`, `Rounds.eq_of_eq`: no
  number is passed, and numbers are kept.
* `Binary64.exists_toRat?_ofRatio_of_le`: a quotient that is no greater than some number is rounded
  so.
-/

namespace LuaExpr

/-! ## Nearest natural numbers -/

/-- The natural number is nearest to the rational one; if another one is as near, it is the even one
of both. -/
def IsNearest (x : ℚ) (n : ℕ) : Prop := |x - n| ≤ 1 / 2 ∧ (|x - n| = 1 / 2 → Even n)

namespace IsNearest

variable {x : ℚ} {m n a b k : ℕ} {q : ℤ}

theorem bounds (h : IsNearest x n) : x - 1 / 2 ≤ n ∧ (n : ℚ) ≤ x + 1 / 2 := by
  obtain ⟨hlow, hhigh⟩ := abs_le.mp h.1
  constructor <;> linarith

theorem natCast (n : ℕ) : IsNearest n n := by
  constructor
  · norm_num
  · intro h
    norm_num at h

/-- A natural number that is nearer than by a half is the nearest one. -/
theorem of_lt (h : |x - n| < 1 / 2) : IsNearest x n := ⟨h.le, fun heq => absurd heq h.ne⟩

theorem unique (hm : IsNearest x m) (hn : IsNearest x n) : m = n := by
  wlog hlt : m < n generalizing m n
  · rcases Nat.lt_trichotomy m n with h | h | h
    · exact absurd h hlt
    · exact h
    · exact (this hn hm h).symm
  -- both are half away, so that both are even, but they are neighbours
  obtain ⟨hm1, hm2⟩ := hm.bounds
  obtain ⟨hn1, hn2⟩ := hn.bounds
  have hle : n ≤ m + 1 := by
    have : (n : ℚ) ≤ m + 1 := by linarith
    exact_mod_cast this
  obtain rfl : n = m + 1 := by omega
  push_cast at hn1 hn2
  have hme : Even m := hm.2 (by rw [abs_of_nonneg] <;> linarith)
  have hne : Even (m + 1) := hn.2 (by push_cast; rw [abs_of_nonpos] <;> linarith)
  exact absurd hne (Nat.not_even_iff_odd.mpr hme.add_one)

theorem le_of_le (h : IsNearest x n) (hx : x ≤ b) : n ≤ b := by
  have hb : (n : ℚ) < b + 1 := by linarith [h.bounds.2]
  exact Nat.lt_succ_iff.mp (by exact_mod_cast hb)

theorem ge_of_ge (h : IsNearest x n) (hx : (a : ℚ) ≤ x) : a ≤ n := by
  have ha : (a : ℚ) < n + 1 := by linarith [h.bounds.1]
  exact Nat.lt_succ_iff.mp (by exact_mod_cast ha)

/-- What is counted in units of a power is no less than a power that the value reaches. -/
theorem pow_le (hb : 0 < b) (h : IsNearest (x / (b : ℚ) ^ q) n) (hx : (b : ℚ) ^ (q + k) ≤ x) :
    b ^ k ≤ n := by
  have hbq : (0 : ℚ) < b := by exact_mod_cast hb
  refine h.ge_of_ge ?_
  rwa [le_div_iff₀ (zpow_pos hbq q), Nat.cast_pow, ← zpow_natCast, ← zpow_add₀ hbq.ne', add_comm]

theorem le_pow (hb : 0 < b) (h : IsNearest (x / (b : ℚ) ^ q) n) (hx : x ≤ (b : ℚ) ^ (q + k)) :
    n ≤ b ^ k := by
  have hbq : (0 : ℚ) < b := by exact_mod_cast hb
  refine h.le_of_le ?_
  rwa [div_le_iff₀ (zpow_pos hbq q), Nat.cast_pow, ← zpow_natCast, ← zpow_add₀ hbq.ne', add_comm]

end IsNearest

theorem isNearest_iff {x : ℚ} {n : ℕ} :
    IsNearest x n ↔ |x - n| < 1 / 2 ∨ |x - n| = 1 / 2 ∧ Even n := by
  rw [IsNearest, le_iff_lt_or_eq]
  constructor
  · rintro ⟨hlt | heq, heven⟩
    · exact .inl hlt
    · exact .inr ⟨heq, heven heq⟩
  · rintro (hlt | ⟨heq, heven⟩)
    · exact ⟨.inl hlt, fun heq => absurd heq hlt.ne⟩
    · exact ⟨.inr heq, fun _ => heven⟩

/-- `roundQuotient` finds the nearest natural number. -/
theorem isNearest_roundQuotient (n : ℕ) {d : ℕ} (hd : 0 < d) :
    IsNearest ((n : ℚ) / d) (Binary64.roundQuotient n d) := by
  have hdq : (0 : ℚ) < d := by exact_mod_cast hd
  have hsplit : (n : ℚ) / d = (n / d : ℕ) + ((n % d : ℕ) : ℚ) / d := by
    rw [div_eq_iff hdq.ne', add_mul, div_mul_cancel₀ _ hdq.ne']
    exact_mod_cast (Nat.div_add_mod' n d).symm
  have hlt : ((n % d : ℕ) : ℚ) / d < 1 := (div_lt_one hdq).mpr (by exact_mod_cast Nat.mod_lt n hd)
  have hnonneg : 0 ≤ ((n % d : ℕ) : ℚ) / d := by positivity
  have hhalf : ((n % d : ℕ) : ℚ) / d < 1 / 2 ↔ 2 * (n % d) < d := by
    rw [div_lt_div_iff₀ hdq two_pos, one_mul, mul_comm]
    exact_mod_cast Iff.rfl
  have htie : ((n % d : ℕ) : ℚ) / d = 1 / 2 ↔ 2 * (n % d) = d := by
    rw [div_eq_div_iff hdq.ne' two_ne_zero, one_mul, mul_comm]
    exact_mod_cast Iff.rfl
  rw [hsplit, IsNearest]
  simp only [Binary64.roundQuotient]
  generalize ((n % d : ℕ) : ℚ) / d = r at hlt hnonneg hhalf htie
  split
  · rename_i hdown
    rw [← hhalf, ← htie] at hdown
    rw [add_sub_cancel_left, abs_of_nonneg hnonneg]
    rcases hdown with hdown | ⟨rfl, heven⟩
    · exact ⟨hdown.le, fun h => absurd h hdown.ne⟩
    · exact ⟨le_rfl, fun _ => Nat.even_iff.mpr heven⟩
  · rename_i hup
    rw [← hhalf, ← htie, not_or, not_lt, not_and] at hup
    have hdist : |((n / d : ℕ) : ℚ) + r - (n / d + 1 : ℕ)| = 1 - r := by
      push_cast
      rw [abs_of_nonpos] <;> linarith
    rw [hdist]
    refine ⟨by linarith [hup.1], fun h => ?_⟩
    have hodd := hup.2 (by linarith)
    exact Nat.even_iff.mpr (by omega)

/-! ## Powers and logarithms -/

/-- A power with an integer exponent as the quotient of two with natural ones. -/
theorem zpow_eq_div (b : ℕ) (k : ℤ) :
    (b : ℚ) ^ k = ((b ^ k.toNat : ℕ) : ℚ) / ((b ^ (-k).toNat : ℕ) : ℚ) := by
  rcases Int.eq_nat_or_neg k with ⟨n, rfl | rfl⟩
  · simp
  · simp

/-- A significand and a power as the quotient that is rounded for them. -/
theorem dyadic_eq (n : ℕ) (e : ℤ) :
    ((n * Nat.pow 2 e.toNat : ℕ) : ℚ) / (Nat.pow 2 (-e).toNat : ℕ) = n * 2 ^ e := by
  have hpower := zpow_eq_div 2 e
  rw [Nat.cast_ofNat] at hpower
  rw [hpower, Nat.cast_mul, mul_div_assoc]
  rfl

/-- A quotient counted in units of a power is a quotient of natural numbers. -/
theorem div_div_zpow (n d b : ℕ) (k : ℤ) :
    (n : ℚ) / d / (b : ℚ) ^ k =
      ((n * Nat.pow b (-k).toNat : ℕ) : ℚ) / ((d * Nat.pow b k.toNat : ℕ) : ℚ) := by
  rw [zpow_eq_div, div_div_div_eq]
  push_cast [Nat.pow_eq]
  rfl

/-- A quotient that is rounded in units of a power. -/
theorem isNearest_scaled {b : ℕ} (hb : 0 < b) (k : ℤ) (n : ℕ) {d : ℕ} (hd : 0 < d) :
    IsNearest ((n : ℚ) / d / (b : ℚ) ^ k)
    (Binary64.roundQuotient (n * Nat.pow b (-k).toNat) (d * Nat.pow b k.toNat)) := by
  rw [div_div_zpow]
  exact isNearest_roundQuotient _ (Nat.mul_pos hd (Nat.pow_pos hb))

/-- The logarithm is the exponent of the two powers on either side. -/
theorem log_eq {b : ℕ} (hb : 1 < b) {x : ℚ} {k : ℤ} (hlow : (b : ℚ) ^ k ≤ x)
    (hhigh : x < (b : ℚ) ^ (k + 1)) :
    Int.log b x = k := by
  have hpos : 0 < x := lt_of_lt_of_le (zpow_pos (by exact_mod_cast (by omega : 0 < b)) k) hlow
  have h1 := (Int.zpow_le_iff_le_log hb hpos).mp hlow
  have h2 := (Int.lt_zpow_iff_log_lt hb hpos).mp hhigh
  omega

namespace Binary64

/-- `floorLog2` is the exponent of the greatest power of two that is at most the quotient. -/
theorem floorLog2_eq {n d : ℕ} (hn : 0 < n) (hd : 0 < d) :
    floorLog2 n d = Int.log 2 ((n : ℚ) / d) := by
  have hdq : (0 : ℚ) < d := by exact_mod_cast hd
  have hle : ∀ k : ℤ, d * Nat.pow 2 k.toNat ≤ n * Nat.pow 2 (-k).toNat ↔
      (2 : ℚ) ^ k ≤ (n : ℚ) / d := by
    intro k
    have h := zpow_eq_div 2 k
    rw [Nat.cast_ofNat] at h
    rw [h, div_le_div_iff₀ (by positivity) hdq, mul_comm d]
    exact_mod_cast Iff.rfl
  -- the quotient lies between the neighbours of the power with the difference of the two logarithms
  have hn1 : (2 : ℚ) ^ n.log2 ≤ n := by exact_mod_cast Nat.log2_self_le hn.ne'
  have hn2 : (n : ℚ) < 2 ^ (n.log2 + 1) := by exact_mod_cast Nat.lt_log2_self
  have hd1 : (2 : ℚ) ^ d.log2 ≤ d := by exact_mod_cast Nat.log2_self_le hd.ne'
  have hd2 : (d : ℚ) < 2 ^ (d.log2 + 1) := by exact_mod_cast Nat.lt_log2_self
  have hlow : (2 : ℚ) ^ ((n.log2 : ℤ) - d.log2 - 1) ≤ (n : ℚ) / d := by
    rw [le_div_iff₀ hdq]
    calc (2 : ℚ) ^ ((n.log2 : ℤ) - d.log2 - 1) * d ≤
      2 ^ ((n.log2 : ℤ) - d.log2 - 1) * 2 ^ ((d.log2 + 1 : ℕ) : ℤ) := by
          rw [zpow_natCast]
          exact mul_le_mul_of_nonneg_left hd2.le (by positivity)
      _ = 2 ^ n.log2 := by
          rw [← zpow_add₀ two_ne_zero, ← zpow_natCast]
          congr 1
          push_cast
          ring
      _ ≤ n := hn1
  have hhigh : (n : ℚ) / d < 2 ^ ((n.log2 : ℤ) - d.log2 + 1) := by
    rw [div_lt_iff₀ hdq]
    calc (n : ℚ) < 2 ^ (n.log2 + 1) := hn2
      _ = 2 ^ ((n.log2 : ℤ) - d.log2 + 1) * 2 ^ ((d.log2 : ℕ) : ℤ) := by
          rw [← zpow_add₀ two_ne_zero, ← zpow_natCast]
          congr 1
          push_cast
          ring
      _ ≤ 2 ^ ((n.log2 : ℤ) - d.log2 + 1) * d := by
          rw [zpow_natCast]
          exact mul_le_mul_of_nonneg_left hd1 (by positivity)
  rw [floorLog2]
  split
  · rename_i h
    exact (log_eq one_lt_two (by exact_mod_cast (hle _).mp h) (by exact_mod_cast hhigh)).symm
  · rename_i h
    rw [hle, not_le] at h
    refine (log_eq one_lt_two (by exact_mod_cast hlow) ?_).symm
    rw [sub_add_cancel]
    exact_mod_cast h

/-! ## The number that a value stands for -/

/-- A magnitude with a sign. -/
def signedRat (negative : Bool) (v : ℚ) : ℚ := if negative then -v else v

/-- The rational number that a finite value stands for. -/
def toRat? : Binary64 → Option ℚ
  | .finite s m q _ => some (signedRat s (m * 2 ^ q))
  | _ => none

@[simp] theorem signedRat_zero (s : Bool) : signedRat s 0 = 0 := by
  cases s <;> simp [signedRat]

@[simp] theorem abs_signedRat {s : Bool} {v : ℚ} : |signedRat s v| = |v| := by
  cases s <;> simp [signedRat]

theorem abs_signedRat_mul_zpow (s : Bool) (m : ℕ) (q : ℤ) :
    |signedRat s (m * 2 ^ q)| = m * 2 ^ q := by
  rw [abs_signedRat, abs_of_nonneg (by positivity)]

/-- What is packed stands for the significand and the power that it is packed from, unless the power
is too large. -/
theorem toRat?_pack {s : Bool} {m : ℕ} {q : ℤ} (hm : m ≤ 2 ^ 53) (hlow : -1074 ≤ q)
    (hhigh : q ≤ 970 ∨ q = 971 ∧ m < 2 ^ 53) (hnormal : 2 ^ 52 ≤ m ∨ q = -1074) :
    toRat? (pack s m q) = some (signedRat s (m * 2 ^ q)) := by
  by_cases hcarry : m = Nat.pow 2 53
  · have hroom : q ≤ 970 := hhigh.resolve_right fun h => h.2.ne hcarry
    have hcanonical : Canonical (Nat.pow 2 52) (q + 1) :=
      ⟨by norm_num, by omega, by omega, .inl le_rfl⟩
    have hvalue : ((Nat.pow 2 52 : ℕ) : ℚ) * 2 ^ (q + 1) = (m : ℚ) * 2 ^ q := by
      rw [hcarry, zpow_add_one₀ two_ne_zero]
      norm_num
      ring
    simp only [pack, hcarry, if_true, dif_pos hcanonical, toRat?]
    rw [hvalue, hcarry]
  · have hcanonical : Canonical m q := ⟨lt_of_le_of_ne hm hcarry, hlow, by omega, hnormal⟩
    simp only [pack, if_neg hcarry, dif_pos hcanonical, toRat?]

/-! ## Rounded values -/

/-- The power of two of the last place of a rounded value: 52 binary places below the first one, or
the least power there is. -/
def lastPower (v : ℚ) : ℤ := max (-1074) (Int.log 2 v - 52)

/-- The value `w` is `v`, which is positive, rounded to its last place. -/
def Rounds (v w : ℚ) : Prop := ∃ k : ℕ, IsNearest (v / 2 ^ lastPower v) k ∧ w = k * 2 ^ lastPower v

section Rounds

variable {v w : ℚ} {m n d : ℕ} {q e : ℤ}

/-- The first place of a value is at most that of a power times a significand. -/
theorem log_lt_of_le (hv : 0 < v) (hm : m < 2 ^ 53) (hle : v ≤ m * 2 ^ q) :
    Int.log 2 v < 53 + q := by
  have hlow := Int.zpow_log_le_self one_lt_two hv
  rw [Nat.cast_ofNat] at hlow
  refine (zpow_lt_zpow_iff_right₀ (one_lt_two (α := ℚ))).mp ?_
  calc (2 : ℚ) ^ Int.log 2 v ≤ m * 2 ^ q := hlow.trans hle
    _ < 2 ^ 53 * 2 ^ q := by
        refine mul_lt_mul_of_pos_right ?_ (by positivity)
        exact_mod_cast hm
    _ = 2 ^ (53 + q) := by
        rw [zpow_add₀ two_ne_zero]
        norm_num

/-- Numbers up to a finite one have no greater last place than it. -/
theorem lastPower_le (hv : 0 < v) (hm : m < 2 ^ 53) (hq : -1074 ≤ q) (hle : v ≤ m * 2 ^ q) :
    lastPower v ≤ q := by
  have := log_lt_of_le hv hm hle
  rw [lastPower]
  omega

theorem lastPower_eq (hv : 0 < v) (he : -1074 ≤ e) (hlow : 2 ^ 52 * 2 ^ e ≤ v ∨ e = -1074)
    (hhigh : v < 2 ^ 53 * 2 ^ e) :
    lastPower v = e := by
  have hlog : Int.log 2 v < 53 + e := by
    rw [← Int.lt_zpow_iff_log_lt one_lt_two hv, zpow_add₀ (by norm_num)]
    exact_mod_cast hhigh
  have hfirst : 2 ^ 52 * 2 ^ e ≤ v → 52 + e ≤ Int.log 2 v := by
    intro hle
    rw [← Int.zpow_le_iff_le_log one_lt_two hv, zpow_add₀ (by norm_num)]
    exact_mod_cast hle
  rw [lastPower]
  rcases hlow with hlow | hlow
  · have := hfirst hlow
    omega
  · omega

/-- A significand and a power, counted in a smaller power. -/
theorem exists_multiple (m : ℕ) (h : e ≤ q) :
    (m : ℚ) * 2 ^ q = (m * 2 ^ (q - e).toNat : ℕ) * 2 ^ e := by
  obtain ⟨j, rfl⟩ : ∃ j : ℕ, q = e + j := ⟨(q - e).toNat, by omega⟩
  rw [add_sub_cancel_left, Int.toNat_natCast, zpow_add₀ two_ne_zero, zpow_natCast]
  push_cast
  ring

/-- Rounding does not go beyond a number. -/
theorem Rounds.le_of_le (h : Rounds v w) (hv : 0 < v) (hm : m < 2 ^ 53) (hq : -1074 ≤ q)
    (hle : v ≤ m * 2 ^ q) :
    w ≤ m * 2 ^ q := by
  obtain ⟨k, hnearest, rfl⟩ := h
  have hunit : (0 : ℚ) < 2 ^ lastPower v := by positivity
  have hlast := lastPower_le hv hm hq hle
  rw [exists_multiple m hlast] at hle ⊢
  have hk := hnearest.le_of_le ((div_le_iff₀ hunit).mpr hle)
  exact mul_le_mul_of_nonneg_right (by exact_mod_cast hk) hunit.le

/-- A value that has 53 binary digits is kept as it is. -/
theorem Rounds.eq_of_eq (h : Rounds v w) (hv : 0 < v) (hm : m < 2 ^ 53) (hq : -1074 ≤ q)
    (hvalue : v = m * 2 ^ q) :
    w = v := by
  obtain ⟨k, hnearest, rfl⟩ := h
  have hunit : (2 : ℚ) ^ lastPower v ≠ 0 := by positivity
  -- the unit divides the value
  have hmultiple := hvalue.trans (exists_multiple m (lastPower_le hv hm hq hvalue.le))
  rw [← div_eq_iff hunit] at hmultiple
  rw [hmultiple] at hnearest
  rw [hnearest.unique (.natCast _), ← hmultiple, div_mul_cancel₀ _ hunit]

/-- A quotient is counted in the unit of its last place. -/
theorem exists_ofRatio (s : Bool) (hn : 0 < n) (hd : 0 < d) :
    ∃ k, IsNearest ((n : ℚ) / d / 2 ^ lastPower ((n : ℚ) / d)) k ∧
      ofRatio s n d = pack s k (lastPower ((n : ℚ) / d)) := by
  have hnearest := isNearest_scaled two_pos (lastPower ((n : ℚ) / d)) n hd
  rw [Nat.cast_ofNat] at hnearest
  refine ⟨_, hnearest, ?_⟩
  rw [ofRatio, if_neg hn.ne', floorLog2_eq hn hd]
  rfl

/-- **A rounded quotient** that is no greater than a finite number stands for the nearest multiple
of its unit. -/
theorem exists_toRat?_ofRatio_of_le (s : Bool) (hn : 0 < n) (hd : 0 < d) (hc : Canonical m q)
    (hle : (n : ℚ) / d ≤ m * 2 ^ q) :
    ∃ w, Rounds ((n : ℚ) / d) w ∧ toRat? (ofRatio s n d) = some (signedRat s w) := by
  have hpos : (0 : ℚ) < (n : ℚ) / d := by positivity
  obtain ⟨hm, hqlow, hqhigh, -⟩ := hc
  obtain ⟨k, hnearest, hpack⟩ := exists_ofRatio s hn hd
  have hrounds : Rounds ((n : ℚ) / d) (k * 2 ^ lastPower ((n : ℚ) / d)) := ⟨k, hnearest, rfl⟩
  refine ⟨_, hrounds, ?_⟩
  have hbound := hrounds.le_of_le hpos hm hqlow hle
  have hunit := lastPower_le hpos hm hqlow hle
  have hlow := Int.zpow_log_le_self one_lt_two hpos
  have hhigh := Int.lt_zpow_succ_log_self one_lt_two ((n : ℚ) / d)
  have hbase : (1 : ℚ) ≤ (2 : ℕ) := by norm_num
  rw [hpack]
  rw [lastPower] at hnearest hbound hunit ⊢
  rw [← Nat.cast_ofNat (R := ℚ) (n := 2)] at hnearest
  generalize Int.log 2 ((n : ℚ) / d) = l at hlow hhigh hnearest hbound hunit ⊢
  generalize hp : max (-1074) (l - 52) = p at hnearest hbound hunit ⊢
  have hplaces :=
    hnearest.le_pow two_pos
      (hhigh.le.trans (zpow_le_zpow_right₀ hbase (by omega : l + 1 ≤ p + (53 : ℕ))))
  refine toRat?_pack hplaces (by omega) ?_ ?_
  · -- the greatest unit is that of the finite number itself, and nothing is carried there
    rcases lt_or_ge p 971 with hlt | hge
    · exact .inl (by omega)
    · obtain rfl : q = p := by omega
      have hkm := le_of_mul_le_mul_right hbound (by positivity)
      exact .inr ⟨by omega, Nat.lt_of_le_of_lt (by exact_mod_cast hkm) hm⟩
  · rcases le_or_gt (l - 52) (-1074) with hsmall | hlarge
    · exact .inr (by omega)
    · exact .inl (hnearest.pow_le two_pos
        ((zpow_le_zpow_right₀ hbase (by omega : p + (52 : ℕ) ≤ l)).trans hlow))

/-- A rounded quotient, bounded by its first place. -/
theorem exists_toRat?_ofRatio (s : Bool) (hn : 0 < n) (hd : 0 < d)
    (hlog : Int.log 2 ((n : ℚ) / d) ≤ 1022) :
    ∃ w, Rounds ((n : ℚ) / d) w ∧ toRat? (ofRatio s n d) = some (signedRat s w) := by
  have hhigh := Int.lt_zpow_succ_log_self one_lt_two ((n : ℚ) / d)
  have hbase : (1 : ℚ) ≤ (2 : ℕ) := by norm_num
  refine exists_toRat?_ofRatio_of_le (m := 2 ^ 52) (q := 971) s hn hd (by decide) ?_
  calc (n : ℚ) / d ≤ ((2 : ℕ) : ℚ) ^ (52 + 971 : ℤ) :=
    hhigh.le.trans (zpow_le_zpow_right₀ hbase (by omega))
    _ = (2 ^ 52 : ℕ) * 2 ^ (971 : ℤ) := by
        rw [zpow_add₀ (by norm_num)]
        norm_num

/-- A rounded significand and power, no greater than a finite number. -/
theorem exists_toRat?_ofDyadic (s : Bool) (hn : 0 < n) (hc : Canonical m q)
    (hle : (n : ℚ) * 2 ^ e ≤ m * 2 ^ q) :
    ∃ w, Rounds (n * 2 ^ e) w ∧ toRat? (ofDyadic s n e) = some (signedRat s w) := by
  have hpow : ∀ k : ℕ, 0 < Nat.pow 2 k := fun k => Nat.two_pow_pos k
  rw [← dyadic_eq] at hle ⊢
  exact exists_toRat?_ofRatio_of_le s (Nat.mul_pos hn (hpow _)) (hpow _) hc hle

/-- A quotient that has 53 binary digits is kept as it is. -/
theorem toRat?_ofRatio_of_eq (s : Bool) (hn : 0 < n) (hd : 0 < d) (hm : m < 2 ^ 53) (he : -1074 ≤ e)
    (hlog : Int.log 2 ((n : ℚ) / d) ≤ 1022) (hvalue : (n : ℚ) / d = m * 2 ^ e) :
    toRat? (ofRatio s n d) = some (signedRat s ((n : ℚ) / d)) := by
  obtain ⟨w, hrounds, hw⟩ := exists_toRat?_ofRatio s hn hd hlog
  rw [hw, hrounds.eq_of_eq (by positivity) hm he hvalue]

end Rounds

/-- The error of a rounded quotient in the range of normal numbers is at most half the unit of its
last place. -/
theorem exists_toRat?_ofRatio_of_normal (s : Bool) {n d : ℕ} (hn : 0 < n) (hd : 0 < d)
    (hlow : -1022 ≤ Int.log 2 ((n : ℚ) / d)) (hhigh : Int.log 2 ((n : ℚ) / d) ≤ 1022) :
    ∃ v : ℚ, toRat? (ofRatio s n d) = some (signedRat s v) ∧ 0 ≤ v ∧
      |v - (n : ℚ) / d| * 2 ^ 53 ≤ (n : ℚ) / d := by
  have hpos : (0 : ℚ) < (n : ℚ) / d := by positivity
  have hlog := Int.zpow_log_le_self one_lt_two hpos
  rw [Nat.cast_ofNat] at hlog
  obtain ⟨w, ⟨k, hnearest, rfl⟩, hround⟩ := exists_toRat?_ofRatio s hn hd hhigh
  rw [lastPower] at hnearest hround
  generalize Int.log 2 ((n : ℚ) / d) = l at hlow hlog hnearest hround
  rw [max_eq_right (by omega)] at hnearest hround
  refine ⟨_, hround, by positivity, ?_⟩
  have hunit : (0 : ℚ) < 2 ^ (l - 52) := by positivity
  have herror : |(k : ℚ) * 2 ^ (l - 52) - (n : ℚ) / d| =
      |(n : ℚ) / d / 2 ^ (l - 52) - k| * 2 ^ (l - 52) := by
    rw [abs_sub_comm, ← abs_of_pos hunit, ← abs_mul, abs_of_pos hunit, sub_mul,
      div_mul_cancel₀ _ hunit.ne']
  calc |(k : ℚ) * 2 ^ (l - 52) - (n : ℚ) / d| * 2 ^ 53 ≤ 1 / 2 * 2 ^ (l - 52) * 2 ^ 53 := by
        rw [herror]
        gcongr
        exact hnearest.1
    _ = 2 ^ l := by
        rw [zpow_sub₀ two_ne_zero]
        norm_num
        ring
    _ ≤ (n : ℚ) / d := hlog

end Binary64

end LuaExpr
