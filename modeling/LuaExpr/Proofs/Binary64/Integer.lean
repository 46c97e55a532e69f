import LuaExpr.Operator
import LuaExpr.Proofs.Binary64.Rounding
/-!
# Integers as numbers

The passage from numbers to integers is exact, and the passage back is a rounding. The integers that
come back as they were are those with at most 53 significant bits.

* `Binary64.toInt?_eq_some_iff`: the integer of a number is the rational number that it stands for.
* `IsShort`: integers with at most 53 significant bits; `Binary64.isShort_of_toInt?`: all integers
  of numbers are short.
* `Binary64.toInt64?_ofInt64_iff`: a 64-bit integer is kept by the passage to numbers and back
  exactly if it is short.
* `BinaryOp.bitwise_eq`: a binary operator on words, at numbers that are words.
-/

namespace LuaExpr

/-- An integer with at most 53 significant bits: zeros may follow them. -/
def IsShort (i : ℤ) : Prop := ∃ m e : ℕ, m < 2 ^ 53 ∧ i.natAbs = m * 2 ^ e

theorem isShort_of_natAbs_lt {i : ℤ} (h : i.natAbs < 2 ^ 53) : IsShort i :=
  ⟨i.natAbs, 0, h, by simp⟩

/-- The power of two itself is short as well. -/
theorem isShort_of_natAbs_le {i : ℤ} (h : i.natAbs ≤ 2 ^ 53) : IsShort i := by
  rcases Nat.lt_or_eq_of_le h with hlt | heq
  · exact isShort_of_natAbs_lt hlt
  · exact ⟨1, 53, by norm_num, by rw [heq, one_mul]⟩

namespace Binary64

variable {a : Binary64} {i : ℤ} {w : Int64}

/-! ## From numbers to integers -/

/-- A magnitude without a fraction is the natural number that `toInt?` computes. -/
theorem cast_eq_of_mod_eq_zero {m : ℕ} {q : ℤ} (h : m % Nat.pow 2 (-q).toNat = 0) :
    (m : ℚ) * 2 ^ q = (m / Nat.pow 2 (-q).toNat * Nat.pow 2 q.toNat : ℕ) := by
  rcases Int.eq_nat_or_neg q with ⟨n, rfl | rfl⟩
  · simp
  · rw [neg_neg, Int.toNat_natCast] at h ⊢
    obtain ⟨c, rfl⟩ := Nat.dvd_of_mod_eq_zero h
    have hpos : 0 < 2 ^ n := Nat.two_pow_pos n
    simp only [Nat.pow_eq, Nat.mul_div_cancel_left c hpos, Int.toNat_neg_natCast, pow_zero,
      mul_one, zpow_neg, zpow_natCast]
    push_cast
    rw [mul_comm, ← mul_assoc, inv_mul_cancel₀ (by positivity), one_mul]

theorem mod_eq_zero_of_cast_eq {m k : ℕ} {q : ℤ} (h : (m : ℚ) * 2 ^ q = k) :
    m % Nat.pow 2 (-q).toNat = 0 := by
  rcases Int.eq_nat_or_neg q with ⟨n, rfl | rfl⟩
  · simp [Nat.mod_one]
  · rw [zpow_neg, zpow_natCast, mul_inv_eq_iff_eq_mul₀ (by positivity)] at h
    have hm : m = k * 2 ^ n := by exact_mod_cast h
    rw [neg_neg, Int.toNat_natCast, hm]
    exact Nat.mul_mod_left k _

/-- **The integer of a number** is the rational number that it stands for. -/
theorem toInt?_eq_some_iff : a.toInt? = some i ↔ a.toRat? = some (i : ℚ) := by
  cases a with
  | nan => simp [toInt?, toRat?]
  | infinite s => simp [toInt?, toRat?]
  | finite s m q h =>
    have hcast : ∀ k : ℕ, ((if s then -(k : ℤ) else (k : ℤ) : ℤ) : ℚ) = signedRat s k := by
      intro k
      cases s <;> simp [signedRat]
    by_cases hmod : m % Nat.pow 2 (-q).toNat = 0
    · simp only [toInt?, toRat?, if_pos hmod, Option.some.injEq, cast_eq_of_mod_eq_zero hmod,
        ← hcast, Int.cast_inj]
    · simp only [toInt?, toRat?, if_neg hmod, reduceCtorEq, Option.some.injEq, false_iff]
      intro hvalue
      have habs := congrArg abs hvalue
      rw [abs_signedRat_mul_zpow] at habs
      exact hmod (mod_eq_zero_of_cast_eq (k := i.natAbs)
        (by rw [habs, Nat.cast_natAbs, Int.cast_abs]))

/-- All integers of numbers are short. -/
theorem isShort_of_toInt? (h : a.toInt? = some i) : IsShort i := by
  have hvalue := toInt?_eq_some_iff.mp h
  cases a with
  | nan => cases h
  | infinite s => cases h
  | finite s m q hcanonical =>
    have hm : m < 2 ^ 53 := hcanonical.1
    have habs := congrArg abs (Option.some.inj hvalue)
    rw [abs_signedRat_mul_zpow, ← Int.cast_abs, ← Nat.cast_natAbs] at habs
    rcases Int.eq_nat_or_neg q with ⟨n, rfl | rfl⟩
    · refine ⟨m, n, hm, ?_⟩
      rw [zpow_natCast] at habs
      exact_mod_cast habs.symm
    · rw [zpow_neg, zpow_natCast, mul_inv_eq_iff_eq_mul₀ (by positivity)] at habs
      have hle : i.natAbs * 2 ^ n < 2 ^ 53 := by
        have heq : m = i.natAbs * 2 ^ n := by exact_mod_cast habs
        exact heq ▸ hm
      exact isShort_of_natAbs_lt
        (lt_of_le_of_lt (Nat.le_mul_of_pos_right _ (Nat.two_pow_pos n)) hle)

/-! ## From integers to numbers and back -/

/-- A short integer is a number. -/
theorem toInt?_ofInt_of_isShort (h : IsShort i) (hsize : i.natAbs < 2 ^ 64) :
    (ofInt i).toInt? = some i := by
  obtain ⟨m, e, hm, hi⟩ := h
  rw [toInt?_eq_some_iff, ofInt]
  have hsigned : signedRat (decide (i < 0)) (i.natAbs : ℚ) = i := by
    rw [signedRat, Nat.cast_natAbs]
    by_cases hneg : i < 0
    · rw [decide_eq_true hneg, if_pos rfl, abs_of_neg hneg]
      push_cast
      ring
    · rw [decide_eq_false hneg, if_neg Bool.false_ne_true, abs_of_nonneg (not_lt.mp hneg)]
  rcases Nat.eq_zero_or_pos i.natAbs with hzero | hpos
  · rw [ofRatio, if_pos hzero]
    rw [Int.natAbs_eq_zero] at hzero
    simp [zero, toRat?, hzero]
  · have hlog : Int.log 2 ((i.natAbs : ℚ) / (1 : ℕ)) ≤ 1022 := by
      have hlt : (i.natAbs : ℚ) / (1 : ℕ) < (2 : ℕ) ^ (64 : ℤ) := by
        rw [Nat.cast_one, div_one]
        exact_mod_cast hsize
      have := (Int.lt_zpow_iff_log_lt one_lt_two (by positivity)).mp hlt
      omega
    rw [toRat?_ofRatio_of_eq _ hpos one_pos hm (e := (e : ℤ)) (by omega) hlog
      (by rw [hi]; push_cast; simp), Nat.cast_one, div_one, hsigned]

theorem toInt64?_eq_some_iff : a.toInt64? = some w ↔ a.toInt? = some w.toInt := by
  have hlow := w.le_toInt
  have hhigh := w.toInt_lt
  rw [toInt64?]
  cases a.toInt? with
  | none => simp
  | some i =>
    simp only [Option.some.injEq]
    constructor
    · intro h
      split at h
      · rename_i hrange
        rw [← Option.some.inj h,
          Int64.toInt_ofInt_of_le (by simpa using hrange.1) (by simpa using hrange.2)]
      · cases h
    · rintro rfl
      rw [if_pos ⟨by simpa using hlow, by simpa using hhigh⟩, Int64.ofInt_toInt]

/-- **A 64-bit integer is kept** by the passage to numbers and back exactly if it has at most 53
significant bits. -/
theorem toInt64?_ofInt64_iff (w : Int64) : (ofInt64 w).toInt64? = some w ↔ IsShort w.toInt := by
  rw [toInt64?_eq_some_iff]
  refine ⟨isShort_of_toInt?, fun h => toInt?_ofInt_of_isShort h ?_⟩
  have hlow := w.le_toInt
  have hhigh := w.toInt_lt
  omega

end Binary64

/-- A binary operator on words, at numbers that are words. -/
theorem BinaryOp.bitwise_eq {f : Int64 → Int64 → Int64} {a b : Binary64} {w x : Int64}
    (ha : a.toInt64? = some w) (hb : b.toInt64? = some x) :
    bitwise f (.number a) (.number b) = .ok (.number (.ofInt64 (f w x))) := by
  simp only [bitwise, Binary64.toWord, ha, hb]
  rfl

end LuaExpr
