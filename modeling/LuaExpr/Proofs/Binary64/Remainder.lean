import LuaExpr.Binary64.Integer
import LuaExpr.Proofs.Binary64.Rounding
/-!
# Remainders of floor division

The remainder that goes with the quotient rounded toward negative infinity lies between zero and the
divisor, and never reaches the divisor. The truncated remainder is computed exactly, but where the
divisor is added to it, the sum is rounded, and then it can reach the divisor: this is so if the
exact remainder is nearer to the divisor than half the way to the next number toward zero.

* `Binary64.exists_toRat?_remainder`: the truncated remainder is exact.
* `Binary64.exists_toRat?_add`: a sum is rounded.
* `Binary64.stepBelow`: the distance to the next number toward zero, by
  `Binary64.isGreatest_sub_stepBelow`.
* `Binary64.Absorbs`: the values toward zero that are rounded to a number;
  `Binary64.Rounds.eq_iff_absorbs` says so.
* `Binary64.exists_modulo?`: the sign and the size of a remainder of floor division.
-/

namespace LuaExpr

namespace Binary64

variable {a b : Binary64} {x y v w : ℚ} {m n : ℕ} {p q e : ℤ} {s t : Bool}

/-! ## Numbers and the rational numbers they stand for -/

/-- The numbers that stand for a rational number. -/
theorem exists_finite (h : a.toRat? = some x) :
    ∃ s m q hc, a = .finite s m q hc ∧ x = signedRat s (m * 2 ^ q) := by
  cases a with
  | nan => cases h
  | infinite s => cases h
  | finite s m q hc => exact ⟨s, m, q, hc, rfl, (Option.some.inj h).symm⟩

theorem cast_scaled (s : Bool) (m : ℕ) (h : e ≤ q) :
    (scaled s m q e : ℚ) * 2 ^ e = signedRat s (m * 2 ^ q) := by
  rw [exists_multiple m h]
  cases s <;> simp [scaled, signedRat]

theorem signedRat_eq_zero : signedRat s v = 0 ↔ v = 0 := by
  cases s <;> simp [signedRat]

theorem isZero_iff (h : a.toRat? = some x) : a.isZero = true ↔ x = 0 := by
  obtain ⟨s, m, q, hc, rfl, rfl⟩ := exists_finite h
  have hpow : (2 : ℚ) ^ q ≠ 0 := by positivity
  rw [signedRat_eq_zero, mul_eq_zero_iff_right hpow, isZero, beq_iff_eq, Nat.cast_eq_zero]

/-- The order of two numbers is that of the rational numbers. -/
theorem isLess_iff (ha : a.toRat? = some x) (hb : b.toRat? = some y) :
    a.isLess b = true ↔ x < y := by
  obtain ⟨s, m, q, hc, rfl, rfl⟩ := exists_finite ha
  obtain ⟨t, n, p, hd, rfl, rfl⟩ := exists_finite hb
  rw [← cast_scaled s m (min_le_left q p), ← cast_scaled t n (min_le_right q p),
    mul_lt_mul_iff_left₀ (by positivity), Int.cast_lt, ← compare_lt_iff_lt]
  simp [isLess, order?]

/-! ## Rounded values -/

/-- **A sum** that is not zero and no greater than a finite number is the rounded sum. -/
theorem exists_toRat?_add (ha : a.toRat? = some x) (hb : b.toRat? = some y) (hne : x + y ≠ 0)
    (hc : Canonical m q) (hle : |x + y| ≤ m * 2 ^ q) :
    ∃ w, Rounds |x + y| w ∧ (add a b).toRat? = some (signedRat (decide (x + y < 0)) w) := by
  obtain ⟨s, k, r, hk, rfl, rfl⟩ := exists_finite ha
  obtain ⟨t, n, p, hn, rfl, rfl⟩ := exists_finite hb
  have hunit : (0 : ℚ) < 2 ^ min r p := by positivity
  have hsum : signedRat s (k * 2 ^ r) + signedRat t (n * 2 ^ p) =
      ((scaled s k r (min r p) + scaled t n p (min r p) : ℤ) : ℚ) * 2 ^ min r p := by
    rw [← cast_scaled s k (min_le_left r p), ← cast_scaled t n (min_le_right r p),
      Int.cast_add, add_mul]
  rw [hsum] at hne hle ⊢
  simp only [add]
  generalize scaled s k r (min r p) + scaled t n p (min r p) = sum at hne hle ⊢
  have hzero : sum ≠ 0 := by
    rintro rfl
    simp at hne
  have habs : |(sum : ℚ) * 2 ^ min r p| = (sum.natAbs : ℕ) * 2 ^ min r p := by
    rw [abs_mul, abs_of_pos hunit, Nat.cast_natAbs, Int.cast_abs]
  have hsign : (sum : ℚ) * 2 ^ min r p < 0 ↔ sum < 0 := by
    simp [mul_neg_iff, hunit, hunit.le.not_gt]
  rw [habs] at hle ⊢
  rw [if_neg hzero]
  simp only [hsign]
  exact exists_toRat?_ofDyadic _ (Int.natAbs_pos.mpr hzero) hc hle

/-! ## The truncated remainder -/

/-- What is left of a division in the smaller unit of both numbers has 53 digits: it is at most the
one number, and less than the other one, and one of them is counted in that unit. -/
theorem mod_lt_significand (q p : ℤ) (hm : m < 2 ^ 53) (hn : n < 2 ^ 53) (hpos : 0 < n) :
    m * 2 ^ (q - min q p).toNat % (n * 2 ^ (p - min q p).toNat) < 2 ^ 53 := by
  have hmod :=
    Nat.mod_lt (m * 2 ^ (q - min q p).toNat)
      (Nat.mul_pos hpos (Nat.two_pow_pos (p - min q p).toNat))
  rcases min_choice q p with hmin | hmin
  · rw [hmin, sub_self, Int.toNat_zero, pow_zero, mul_one]
    exact Nat.lt_of_le_of_lt (Nat.mod_le m _) hm
  · rw [hmin, sub_self, Int.toNat_zero, pow_zero, mul_one] at hmod ⊢
    exact hmod.trans hn

/-- **The truncated remainder is exact**: what is taken away is a multiple of the divisor, and less
than the divisor is left. -/
theorem exists_toRat?_remainder (ha : a.toRat? = some x) (hb : b.toRat? = some y) (hy : y ≠ 0) :
    ∃ (z : ℚ) (k : ℤ), (remainder a b).toRat? = some z ∧ x = z + y * k ∧ |z| < |y| := by
  obtain ⟨s, m, q, hm, rfl, rfl⟩ := exists_finite ha
  obtain ⟨t, n, p, hn, rfl, rfl⟩ := exists_finite hb
  have hpos : 0 < n := Nat.pos_of_ne_zero fun h => hy (by simp [h])
  have hx := exists_multiple m (min_le_left q p)
  have hyunit := exists_multiple n (min_le_right q p)
  have hunit : (0 : ℚ) < 2 ^ min q p := by positivity
  have hleast : -1074 ≤ min q p := le_min hm.2.1 hn.2.1
  rw [hx, hyunit]
  simp only [remainder, if_neg hpos.ne', Nat.pow_eq]
  have hsmall := mod_lt_significand q p hm.1 hn.1 hpos
  have hdivisor : 0 < n * 2 ^ (p - min q p).toNat := Nat.mul_pos hpos (Nat.two_pow_pos _)
  generalize m * 2 ^ (q - min q p).toNat = M at hsmall ⊢
  generalize hD : n * 2 ^ (p - min q p).toNat = D at hsmall hdivisor hyunit ⊢
  have hlt : ((M % D : ℕ) : ℚ) * 2 ^ min q p < (D : ℚ) * 2 ^ min q p :=
    mul_lt_mul_of_pos_right (by exact_mod_cast Nat.mod_lt M hdivisor) hunit
  refine ⟨signedRat s ((M % D : ℕ) * 2 ^ min q p),
    (if s = t then 1 else -1) * (M / D : ℕ), ?_, ?_, ?_⟩
  · rcases Nat.eq_zero_or_pos (M % D) with hzero | hrest
    · rw [hzero]
      simp [ofDyadic, ofRatio, zero, toRat?]
    · have hle := hlt.le
      rw [← hyunit] at hle
      obtain ⟨w, hrounds, hw⟩ := exists_toRat?_ofDyadic s hrest hn hle
      rw [hw, hrounds.eq_of_eq (by positivity) hsmall hleast rfl]
  · have hsplit : (M : ℚ) = (M % D : ℕ) + D * (M / D : ℕ) := by
      exact_mod_cast (Nat.mod_add_div M D).symm
    generalize M / D = k at hsplit ⊢
    rw [hsplit]
    cases s <;> cases t <;> simp [signedRat] <;> ring
  · rw [abs_signedRat_mul_zpow, abs_signedRat_mul_zpow]
    exact hlt

/-! ## Values that are rounded to a number -/

/-- How far the next number toward zero is away. Below a power of two the numbers lie twice as
close. -/
def stepBelow : Binary64 → ℚ
  | .finite _ m q _ => if m = 2 ^ 52 ∧ -1074 < q then 2 ^ (q - 1) else 2 ^ q
  | _ => 0

/-- Whether the last binary digit of a finite number is zero. -/
def HasEvenSignificand : Binary64 → Prop
  | .finite _ m _ _ => Even m
  | _ => False

/-- A value that is so far from a number, toward zero, is rounded to it: it is less than half the
way to the next number, or half the way if the number has the even significand of both. -/
def Absorbs (b : Binary64) (distance : ℚ) : Prop :=
  2 * distance < b.stepBelow ∨ 2 * distance = b.stepBelow ∧ b.HasEvenSignificand

theorem stepBelow_pos (hb : b.toRat? = some y) : 0 < b.stepBelow := by
  obtain ⟨t, n, p, hn, rfl, -⟩ := exists_finite hb
  rw [stepBelow]
  split <;> positivity

/-- A number is counted in the step below it. A power of two has 54 digits then, and is even either
way. -/
theorem exists_stepBelow (hb : b.toRat? = some y) :
    ∃ (n : ℕ) (e : ℤ), b.stepBelow = 2 ^ e ∧ |y| = n * 2 ^ e ∧
    n ≤ 2 ^ 53 ∧ (-1074 ≤ e ∧ e ≤ 971) ∧ (2 ^ 52 < n ∨ e = -1074) ∧
    (b.HasEvenSignificand ↔ Even n) := by
  obtain ⟨t, n, p, ⟨hsize, hleast, hgreatest, hnormal⟩, rfl, rfl⟩ := exists_finite hb
  rw [abs_signedRat_mul_zpow]
  simp only [stepBelow, HasEvenSignificand]
  split
  · rename_i hpower
    obtain ⟨rfl, hp⟩ := hpower
    refine ⟨2 ^ 53, p - 1, rfl, ?_, le_rfl, by omega, .inl (by norm_num), by decide⟩
    rw [zpow_sub_one₀ two_ne_zero]
    norm_num
    ring
  · rename_i hpower
    have hlarge : 2 ^ 52 ≤ n ∨ p = -1074 := hnormal
    exact ⟨n, p, rfl, rfl, hsize.le, ⟨hleast, hgreatest⟩, by omega, Iff.rfl⟩

/-- No number lies between a number and the next one toward zero. -/
theorem abs_le_sub_stepBelow (ha : a.toRat? = some x) (hb : b.toRat? = some y) (h : |x| < |y|) :
    |x| ≤ |y| - b.stepBelow := by
  obtain ⟨s, m, q, ⟨hm, hq, -, -⟩, rfl, rfl⟩ := exists_finite ha
  obtain ⟨n, e, hstep, hy, -, ⟨he, -⟩, hlarge, -⟩ := exists_stepBelow hb
  have hunit : (0 : ℚ) < 2 ^ e := by positivity
  rw [abs_signedRat_mul_zpow] at h ⊢
  rw [hy] at h ⊢
  rw [hstep]
  rcases le_or_gt e q with hle | hgt
  · rw [exists_multiple m hle] at h ⊢
    have hlt : m * 2 ^ (q - e).toNat < n := by exact_mod_cast lt_of_mul_lt_mul_right h hunit.le
    have hsucc : ((m * 2 ^ (q - e).toNat : ℕ) : ℚ) + 1 ≤ n := by exact_mod_cast hlt
    linarith [mul_le_mul_of_nonneg_right hsucc hunit.le]
  · -- the unit is smaller, so that 53 digits do not reach the power of two
    have hn : (2 ^ 52 : ℚ) + 1 ≤ n := by exact_mod_cast hlarge.resolve_right (by omega)
    have hm' : (m : ℚ) ≤ 2 ^ 53 := by exact_mod_cast hm.le
    calc (m : ℚ) * 2 ^ q ≤ 2 ^ 53 * 2 ^ (e - 1) :=
          mul_le_mul hm' (zpow_le_zpow_right₀ one_le_two (by omega)) (by positivity) (by positivity)
      _ = 2 ^ 52 * 2 ^ e := by
          rw [zpow_sub_one₀ two_ne_zero]
          ring
      _ ≤ (n - 1) * 2 ^ e := mul_le_mul_of_nonneg_right (by linarith) hunit.le
      _ = n * 2 ^ e - 2 ^ e := by ring

/-- The magnitude of the next number toward zero. -/
theorem isGreatest_sub_stepBelow (hb : b.toRat? = some y) (hy : y ≠ 0) :
    IsGreatest {v | v < |y| ∧ ∃ a : Binary64, a.toRat? = some v} (|y| - b.stepBelow) := by
  have hnext : 0 ≤ |y| - b.stepBelow ∧ ∃ a : Binary64, a.toRat? = some (|y| - b.stepBelow) := by
    obtain ⟨n, e, hstep, hmagnitude, hsize, ⟨hleast, hgreatest⟩, hlarge, -⟩ := exists_stepBelow hb
    have hpos : 0 < n :=
      Nat.pos_of_ne_zero fun hzero => hy (abs_eq_zero.mp (by simp [hmagnitude, hzero]))
    have hcanonical : Canonical (n - 1) e :=
      ⟨Nat.sub_one_lt_of_le hpos hsize, hleast, hgreatest, hlarge.imp_left Nat.le_sub_one_of_lt⟩
    have hvalue : |y| - b.stepBelow = (n - 1 : ℕ) * 2 ^ e := by
      rw [hmagnitude, hstep, Nat.cast_pred hpos]
      ring
    rw [hvalue]
    exact ⟨by positivity, .finite false (n - 1) e hcanonical, rfl⟩
  refine ⟨⟨sub_lt_self _ (stepBelow_pos hb), hnext.2⟩, ?_⟩
  rintro v ⟨hlt, a, ha⟩
  rcases le_or_gt v 0 with hneg | hpos
  · exact hneg.trans hnext.1
  · rw [← abs_of_pos hpos] at hlt ⊢
    exact abs_le_sub_stepBelow ha hb hlt

/-- **Values that are rounded to a number** from the side of zero are those that it absorbs. -/
theorem Rounds.eq_iff_absorbs (hb : b.toRat? = some y) (h : Rounds v w) (hv : 0 < v)
    (hlt : v < |y|) :
    w = |y| ↔ b.Absorbs (|y| - v) := by
  obtain ⟨n, e, hstep, hy, hsize, ⟨he, -⟩, hlarge, heven⟩ := exists_stepBelow hb
  have hunit : (0 : ℚ) < 2 ^ e := by positivity
  rw [Absorbs, hstep, heven, hy]
  rw [hy] at hlt
  have hpos : 0 < n := Nat.pos_of_ne_zero fun hzero => by simp [hzero, hv.not_gt] at hlt
  have hpred : ((n - 1 : ℕ) : ℚ) * 2 ^ e = n * 2 ^ e - 2 ^ e := by
    rw [Nat.cast_pred hpos]
    ring
  rcases le_or_gt v ((n - 1 : ℕ) * 2 ^ e) with hfar | hnear
  · -- the next number toward zero is not passed
    have hw := h.le_of_le hv (by omega) he hfar
    rw [hpred] at hw hfar
    constructor
    · intro heq
      linarith
    · rintro (hless | ⟨htie, -⟩) <;> linarith
  · -- the value is counted in the step
    have hlast : lastPower v = e := by
      refine lastPower_eq hv he (hlarge.imp_left fun hn => ?_) ?_
      · have hn' : (2 ^ 52 : ℚ) ≤ (n - 1 : ℕ) := by exact_mod_cast Nat.le_sub_one_of_lt hn
        exact (mul_le_mul_of_nonneg_right hn' hunit.le).trans hnear.le
      · have hn' : (n : ℚ) ≤ 2 ^ 53 := by exact_mod_cast hsize
        exact hlt.trans_le (mul_le_mul_of_nonneg_right hn' hunit.le)
    obtain ⟨k, hnearest, rfl⟩ := h
    rw [hlast] at hnearest ⊢
    have hdist : n * 2 ^ e - v = |v / 2 ^ e - n| * 2 ^ e := by
      rw [abs_sub_comm, ← abs_of_pos hunit, ← abs_mul, abs_of_pos hunit, sub_mul,
        div_mul_cancel₀ _ hunit.ne', abs_of_pos (sub_pos.mpr hlt)]
    have hless : 2 * (n * 2 ^ e - v) < 2 ^ e ↔ |v / 2 ^ e - n| < 1 / 2 := by
      rw [hdist, ← mul_assoc, mul_lt_iff_lt_one_left hunit, lt_div_iff₀' two_pos]
    have htie : 2 * (n * 2 ^ e - v) = 2 ^ e ↔ |v / 2 ^ e - n| = 1 / 2 := by
      rw [hdist, ← mul_assoc, mul_eq_right₀ hunit.ne', eq_div_iff two_ne_zero, mul_comm]
    calc (k : ℚ) * 2 ^ e = n * 2 ^ e ↔ k = n := by rw [mul_left_inj' hunit.ne', Nat.cast_inj]
      _ ↔ IsNearest (v / 2 ^ e) n := ⟨fun heq => heq ▸ hnearest, fun hn => hnearest.unique hn⟩
      _ ↔ 2 * (n * 2 ^ e - v) < 2 ^ e ∨ 2 * (n * 2 ^ e - v) = 2 ^ e ∧ Even n := by
        rw [hless, htie, isNearest_iff]

/-- A number does not absorb another one. -/
theorem not_absorbs (ha : a.toRat? = some x) (hb : b.toRat? = some y) (h : |x| < |y|) :
    ¬ b.Absorbs (|y| - |x|) := by
  have hstep := abs_le_sub_stepBelow ha hb h
  have hpos := stepBelow_pos hb
  rintro (hless | ⟨htie, -⟩) <;> linarith

/-! ## Remainders of floor division -/

/-- A remainder is that of floor division if it lies between zero and the divisor. -/
theorem eq_sub_mul_floor {z : ℚ} {k : ℤ} (hx : x = z + y * k) (hlow : 0 ≤ z / y) (hhigh : z / y < 1)
    (hy : y ≠ 0) :
    x - y * ⌊x / y⌋ = z := by
  have hfloor : ⌊x / y⌋ = k := by
    rw [hx, add_div, mul_div_cancel_left₀ _ hy, Int.floor_add_intCast,
      Int.floor_eq_zero_iff.mpr ⟨hlow, hhigh⟩, zero_add]
  rw [hfloor, hx, add_sub_cancel_right]

theorem sign_eq_of_div_nonneg (hy : y ≠ 0) (h : 0 ≤ v / y) :
    v = 0 ∨ SignType.sign v = SignType.sign y := by
  rw [or_iff_not_imp_left]
  intro hv
  rcases div_nonneg_iff.mp h with ⟨hv', hy'⟩ | ⟨hv', hy'⟩
  · rw [sign_pos (lt_of_le_of_ne hv' (Ne.symm hv)), sign_pos (lt_of_le_of_ne hy' (Ne.symm hy))]
  · rw [sign_neg (lt_of_le_of_ne hv' hv), sign_neg (lt_of_le_of_ne hy' hy)]

/-- When the divisor is added: the truncated remainder has the other sign. -/
theorem needsDivisor_iff (ha : a.toRat? = some x) (hb : b.toRat? = some y) (hy : y ≠ 0) :
    (!a.isZero && isLess a (zero false) != isLess b (zero false)) = true ↔ x / y < 0 := by
  have hzero : (zero false).toRat? = some 0 := by simp [zero, toRat?]
  have hneg : (isLess a (zero false) != isLess b (zero false)) = true ↔ ¬ (x < 0 ↔ y < 0) := by
    rw [bne_iff_ne, ne_eq, Bool.eq_iff_iff, isLess_iff ha hzero, isLess_iff hb hzero]
  rw [Bool.and_eq_true, hneg, Bool.not_eq_true', ← Bool.not_eq_true, isZero_iff ha, div_neg_iff]
  grind

/-- Where the divisor is added to a truncated remainder, the sum lies between zero and the divisor,
and so does the rounded sum, which can be the divisor itself. -/
theorem exists_toRat?_add_divisor (ha : a.toRat? = some x) (hb : b.toRat? = some y)
    (hlow : 0 < (x + y) / y) (hhigh : (x + y) / y < 1) :
    ∃ v, (add a b).toRat? = some v ∧ (v = 0 ∨ SignType.sign v = SignType.sign y) ∧ |v| ≤ |y| ∧
      (|v| = |y| ↔ b.Absorbs (|y| - |x + y|)) := by
  have hy : y ≠ 0 := by
    rintro rfl
    simp at hlow
  have hne : x + y ≠ 0 := fun h => by simp [h] at hlow
  have hpos : 0 < |x + y| := abs_pos.mpr hne
  have hlt : |x + y| < |y| := by
    rw [← div_lt_one (abs_pos.mpr hy), ← abs_div, abs_of_pos hlow]
    exact hhigh
  obtain ⟨t, n, p, hn, rfl, hvalue⟩ := exists_finite hb
  have hmagnitude : |y| = n * 2 ^ p := by rw [hvalue, abs_signedRat_mul_zpow]
  obtain ⟨w, hrounds, hw⟩ := exists_toRat?_add ha hb hne hn (hlt.le.trans_eq hmagnitude)
  have hwpos : 0 ≤ w := by
    obtain ⟨j, -, rfl⟩ := hrounds
    positivity
  refine ⟨_, hw, sign_eq_of_div_nonneg hy ?_, ?_, ?_⟩
  · rcases div_pos_iff.mp hlow with ⟨hsum, hy'⟩ | ⟨hsum, hy'⟩
    · rw [decide_eq_false hsum.not_gt]
      exact div_nonneg hwpos hy'.le
    · rw [decide_eq_true hsum]
      exact div_nonneg_of_nonpos (neg_nonpos.mpr hwpos) hy'.le
  · rw [abs_signedRat, abs_of_nonneg hwpos, hmagnitude]
    exact hrounds.le_of_le hpos hn.1 hn.2.1 (hlt.le.trans_eq hmagnitude)
  · rw [abs_signedRat, abs_of_nonneg hwpos]
    exact hrounds.eq_iff_absorbs hb hpos hlt

/-- **Remainders of floor division.** The remainder of two finite numbers, the divisor not zero, is
a finite number that is zero or has the sign of the divisor, and its magnitude is not greater than
that of the divisor. Both magnitudes are equal if and only if the exact remainder is so near to the
divisor that it is rounded to it. -/
theorem exists_modulo? (ha : a.toRat? = some x) (hb : b.toRat? = some y) (hy : y ≠ 0) :
    ∃ r v, modulo? a b = some r ∧ r.toRat? = some v ∧
      (v = 0 ∨ SignType.sign v = SignType.sign y) ∧ |v| ≤ |y| ∧
      (|v| = |y| ↔ b.Absorbs (|y| - |x - y * ⌊x / y⌋|)) := by
  obtain ⟨z, k, hz, hsplit, hlt⟩ := exists_toRat?_remainder ha hb hy
  have hbzero : ¬ b.isZero = true := fun h => hy ((isZero_iff hb).mp h)
  have hsize : |z / y| < 1 := by rwa [abs_div, div_lt_one (abs_pos.mpr hy)]
  rw [modulo?, if_neg hbzero]
  simp only [needsDivisor_iff hz hb hy]
  split
  · rename_i hneg
    have hquotient : (z + y) / y = z / y + 1 := by rw [add_div, div_self hy]
    have hlow : 0 < (z + y) / y := by linarith [(abs_lt.mp hsize).1]
    have hhigh : (z + y) / y < 1 := by linarith
    -- with the divisor added, the quotient is one less
    have hexact : x - y * ⌊x / y⌋ = z + y := by
      refine eq_sub_mul_floor (k := k - 1) ?_ hlow.le hhigh hy
      rw [hsplit]
      push_cast
      ring
    obtain ⟨v, hv, hsign, hle, habsorbs⟩ := exists_toRat?_add_divisor hz hb hlow hhigh
    rw [hexact]
    exact ⟨_, v, rfl, hv, hsign, hle, habsorbs⟩
  · rename_i hnonneg
    rw [not_lt] at hnonneg
    rw [eq_sub_mul_floor hsplit hnonneg (abs_lt.mp hsize).2 hy]
    exact ⟨_, z, rfl, hz, sign_eq_of_div_nonneg hy hnonneg, hlt.le,
      iff_of_false hlt.ne (not_absorbs hz hb hlt)⟩

/-- The remainder of `-7` and `3` is less than `3`, as the exact remainder is `2`. -/
theorem exists_modulo?_seven :
    ∃ r v, modulo? (.finite true (7 * 2 ^ 50) (-50) (by decide))
        (.finite false (3 * 2 ^ 51) (-51) (by decide)) = some r ∧
      r.toRat? = some v ∧ 0 ≤ v ∧ v < 3 := by
  obtain ⟨r, v, hr, hv, hsign, hle, habsorbs⟩ := exists_modulo? (x := -7) (y := 3)
    (a := .finite true (7 * 2 ^ 50) (-50) (by decide))
    (b := .finite false (3 * 2 ^ 51) (-51) (by decide))
    (by norm_num [toRat?, signedRat]) (by norm_num [toRat?, signedRat]) (by norm_num)
  have hfloor : ⌊(-7 / 3 : ℚ)⌋ = -3 := by norm_num [Int.floor_eq_iff]
  have hnonneg : 0 ≤ v := by
    rcases hsign with rfl | hsign
    · exact le_rfl
    · exact (sign_eq_one_iff.mp (hsign.trans (sign_pos (by norm_num)))).le
  refine ⟨r, v, hr, hv, hnonneg, ?_⟩
  rw [abs_of_nonneg hnonneg] at hle habsorbs
  rw [abs_of_pos (by norm_num)] at hle habsorbs
  refine lt_of_le_of_ne hle fun heq => ?_
  have := habsorbs.mp heq
  norm_num [Absorbs, stepBelow, hfloor] at this

/-- The remainder need not be less than the divisor: that of `-2 ^ -60` and `1` is `1`. -/
theorem not_abs_modulo?_lt :
    ¬ ∀ (a b : Binary64) (x y : ℚ), a.toRat? = some x → b.toRat? = some y → y ≠ 0 →
    ∃ r v, modulo? a b = some r ∧ r.toRat? = some v ∧ (v = 0 ∨ SignType.sign v = SignType.sign y) ∧
      |v| < |y| := by
  intro hall
  obtain ⟨r, v, hr, hv, -, hlt⟩ :=
    hall (.finite true (2 ^ 52) (-112) (by decide)) (.finite false (2 ^ 52) (-52) (by decide))
    _ _ rfl rfl (by norm_num [signedRat])
  have hone : modulo? (.finite true (2 ^ 52) (-112) (by decide))
      (.finite false (2 ^ 52) (-52) (by decide)) =
      some (.finite false (2 ^ 52) (-52) (by decide)) := by decide +kernel
  rw [hone] at hr
  obtain rfl := Option.some.inj hr
  obtain rfl := Option.some.inj hv
  exact hlt.false

end Binary64

end LuaExpr
