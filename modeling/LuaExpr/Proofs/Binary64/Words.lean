import LuaExpr.Binary64.Integer
import LuaExpr.Proofs.Binary64.Rounding
/-!
# Shifts multiply by powers of two

A shift of a word multiplies it, read without a sign, by a power of two, drops the fraction and
keeps the lowest 64 bits. One formula holds for all counts, of which there are as many as words.

* `Word.toInt_shiftLeft`, `Word.toInt_shiftRight`: the formula, with the balanced remainder as the
  signed reading.
* `Word.checkedShiftLeft`, `Word.checkedShiftRight`: the shifts by operations of a machine, which
  have no result for some counts.
* `Word.shift_eq`: they have the same results as the shifts, and the formula gives these.
-/

namespace LuaExpr

/-- A natural number times a power of two, without its fraction. -/
theorem floor_mul_zpow (u : ℕ) (k : ℤ) :
    ⌊(u : ℚ) * 2 ^ k⌋ = (u * 2 ^ k.toNat / 2 ^ (-k).toNat : ℕ) := by
  rw [← dyadic_eq, Rat.floor_natCast_div_natCast, Int.natCast_ediv]
  rfl

namespace Word

variable {a n : Int64} {k : ℤ}

/-! ## Readings of words -/

/-- The bits of a word as a natural number. -/
theorem toNat_cases (i : Int64) :
    (0 ≤ i.toInt ∧ i.toInt = i.toBitVec.toNat) ∨
      (i.toInt < 0 ∧ i.toInt = i.toBitVec.toNat - (2 : ℤ) ^ 64 ∧ 2 ^ 63 ≤ i.toBitVec.toNat) := by
  have hlt := i.toBitVec.isLt
  have hint := i.toBitVec.toInt_eq_toNat_cond
  rw [Int64.toInt_toBitVec] at hint
  split at hint <;> omega

/-- The opposite of a word is its opposite as a number, but for the least word. -/
theorem toInt_neg_of_ne (h : n ≠ Int64.minValue) : (-n).toInt = -n.toInt := by
  have hlow := n.le_toInt
  have hhigh := n.toInt_lt
  have hne : n.toInt ≠ -2 ^ 63 :=
    fun heq => h (Int64.toInt_inj.mp (heq.trans Int64.toInt_minValue.symm))
  rw [Int64.toInt_neg, Int.bmod_eq_of_le (by omega) (by omega)]

/-! ## The formula -/

/-- The number that is the floor of a word, read without a sign, times a power of two. -/
def scaledFloor (a : Int64) (k : ℤ) : ℤ := ⌊(a.toUInt64.toNat : ℚ) * 2 ^ k⌋

theorem scaledFloor_of_le (h : k ≤ -64) : scaledFloor a k = 0 := by
  obtain ⟨j, rfl⟩ : ∃ j : ℕ, k = -((64 + j : ℕ) : ℤ) := ⟨(-k - 64).toNat, by omega⟩
  have hlt : a.toUInt64.toNat < 2 ^ (64 + j) :=
    Nat.lt_of_lt_of_le a.toUInt64.toNat_lt (Nat.pow_le_pow_right two_pos (Nat.le_add_right 64 j))
  rw [scaledFloor, floor_mul_zpow, neg_neg, Int.toNat_neg_natCast, Int.toNat_natCast,
    pow_zero, mul_one, Nat.div_eq_of_lt hlt]
  rfl

/-- All bits are lost by a shift to the left by 64 places or more. -/
theorem bmod_scaledFloor_of_ge (h : 64 ≤ k) : (scaledFloor a k).bmod (2 ^ 64) = 0 := by
  obtain ⟨j, rfl⟩ : ∃ j : ℕ, k = ((64 + j : ℕ) : ℤ) := ⟨(k - 64).toNat, by omega⟩
  have hdvd : ((2 ^ 64 : ℕ) : ℤ) ∣ scaledFloor a ((64 + j : ℕ) : ℤ) := by
    rw [scaledFloor, floor_mul_zpow, Int.toNat_neg_natCast, Int.toNat_natCast, pow_zero,
      Nat.div_one]
    exact_mod_cast ((Nat.pow_dvd_pow 2 (Nat.le_add_right 64 j)).mul_left _)
  rw [← Int.emod_bmod, Int.emod_eq_zero_of_dvd hdvd]
  rfl

/-- **The left shift** is the product with a power of two, modulo `2 ^ 64` and with the sign of the
highest bit. -/
theorem toInt_shiftLeft (a n : Int64) :
    (shiftLeft a n).toInt = (scaledFloor a n.toInt).bmod (2 ^ 64) := by
  by_cases hclear : n.toInt ≤ -64 ∨ 64 ≤ n.toInt
  · rw [shiftLeft, if_pos hclear]
    rcases hclear with hright | hleft
    · rw [scaledFloor_of_le hright]
      rfl
    · rw [bmod_scaledFloor_of_ge hleft]
      rfl
  · rw [shiftLeft, if_neg hclear, scaledFloor, floor_mul_zpow]
    by_cases hleft : 0 ≤ n.toInt
    · have hzero : (-n.toInt).toNat = 0 := by omega
      rw [if_pos hleft, Int64.toInt_ofBitVec, BitVec.toInt_shiftLeft, Nat.shiftLeft_eq, hzero,
        pow_zero, Nat.div_one]
      rfl
    · have hzero : n.toInt.toNat = 0 := by omega
      rw [if_neg hleft, Int64.toInt_ofBitVec, BitVec.toInt_eq_toNat_bmod, BitVec.toNat_ushiftRight,
        Nat.shiftRight_eq_div_pow, hzero, pow_zero, mul_one]
      rfl

/-- **The right shift** is the product with the power of two of the opposite count, also for the
least count, whose opposite is no word. -/
theorem toInt_shiftRight (a n : Int64) :
    (shiftRight a n).toInt = (scaledFloor a (-n.toInt)).bmod (2 ^ 64) := by
  rw [shiftRight, toInt_shiftLeft]
  by_cases hmin : n = Int64.minValue
  · have hmax : 64 ≤ Int64.maxValue.toInt := by decide
    have hneg : 64 ≤ -Int64.minValue.toInt := by decide
    rw [if_pos hmin, hmin, bmod_scaledFloor_of_ge hmax, bmod_scaledFloor_of_ge hneg]
  · rw [if_neg hmin, toInt_neg_of_ne hmin]

/-! ## Shifts by operations of a machine -/

/-- A shift of a machine to the left, which takes the counts below 64 only. -/
def machineLeft? (w : UInt64) (n : Int64) : Option UInt64 :=
  if 0 ≤ n ∧ n < 64 then some (w <<< n.toUInt64) else none

/-- A shift of a machine to the right, which takes the counts below 64 only. -/
def machineRight? (w : UInt64) (n : Int64) : Option UInt64 :=
  if 0 ≤ n ∧ n < 64 then some (w >>> n.toUInt64) else none

/-- The opposite of a word, which the least one does not have. -/
def opposite? (n : Int64) : Option Int64 := if n = Int64.minValue then none else some (-n)

/-- The left shift by operations of a machine; `none` if one of them is executed where it has no
result. -/
def checkedShiftLeft (a n : Int64) : Option Int64 :=
  if n ≤ -64 ∨ 64 ≤ n then some 0
  else if 0 ≤ n then (machineLeft? a.toUInt64 n).map UInt64.toInt64
  else (opposite? n).bind fun k => (machineRight? a.toUInt64 k).map UInt64.toInt64

/-- The right shift by operations of a machine. The opposite count is only computed where there is
one. -/
def checkedShiftRight (a n : Int64) : Option Int64 :=
  if n = Int64.minValue then checkedShiftLeft a Int64.maxValue
  else (opposite? n).bind (checkedShiftLeft a)

theorem toNat_count (hlow : 0 ≤ n.toInt) (hhigh : n.toInt < 64) :
    (n.toUInt64.toBitVec % 64).toNat = n.toInt.toNat := by
  rcases toNat_cases n with ⟨-, hn⟩ | ⟨hneg, -⟩
  · rw [BitVec.toNat_umod, Int64.toBitVec_toUInt64, hn, Int.toNat_natCast]
    exact Nat.mod_eq_of_lt (by simpa [hn] using hhigh)
  · omega

theorem machineLeft?_eq (w : UInt64) (hlow : 0 ≤ n.toInt) (hhigh : n.toInt < 64) :
    (machineLeft? w n).map UInt64.toInt64 =
      some (Int64.ofBitVec (w.toBitVec <<< n.toInt.toNat)) := by
  have hcount : 0 ≤ n ∧ n < 64 := ⟨Int64.le_iff_toInt_le.mpr hlow, Int64.lt_iff_toInt_lt.mpr hhigh⟩
  rw [machineLeft?, if_pos hcount, ← toNat_count hlow hhigh]
  rfl

theorem machineRight?_eq (w : UInt64) (hlow : 0 ≤ n.toInt) (hhigh : n.toInt < 64) :
    (machineRight? w n).map UInt64.toInt64 =
      some (Int64.ofBitVec (w.toBitVec >>> n.toInt.toNat)) := by
  have hcount : 0 ≤ n ∧ n < 64 := ⟨Int64.le_iff_toInt_le.mpr hlow, Int64.lt_iff_toInt_lt.mpr hhigh⟩
  rw [machineRight?, if_pos hcount, ← toNat_count hlow hhigh]
  rfl

theorem opposite?_eq (h : n ≠ Int64.minValue) : opposite? n = some (-n) := if_neg h

/-- No operation of the left shift is executed where it has no result. -/
theorem checkedShiftLeft_eq (a n : Int64) : checkedShiftLeft a n = some (shiftLeft a n) := by
  have hclear : n ≤ -64 ∨ 64 ≤ n ↔ n.toInt ≤ -64 ∨ 64 ≤ n.toInt := by
    rw [Int64.le_iff_toInt_le, Int64.le_iff_toInt_le]
    rfl
  have hleft : 0 ≤ n ↔ 0 ≤ n.toInt := Int64.le_iff_toInt_le
  rw [checkedShiftLeft, shiftLeft]
  simp only [hclear, hleft]
  split
  · rfl
  split
  · rw [machineLeft?_eq _ (by omega) (by omega), Int64.toBitVec_toUInt64]
  · have hmin : n ≠ Int64.minValue := by
      rintro rfl
      exact absurd (.inl (by decide)) ‹¬(Int64.minValue.toInt ≤ -64 ∨ _)›
    have hneg := toInt_neg_of_ne hmin
    rw [opposite?_eq hmin, Option.bind_some, machineRight?_eq _ (by omega) (by omega), hneg,
      Int64.toBitVec_toUInt64]

theorem checkedShiftRight_eq (a n : Int64) : checkedShiftRight a n = some (shiftRight a n) := by
  rw [checkedShiftRight, shiftRight]
  split
  · exact checkedShiftLeft_eq a Int64.maxValue
  · rw [opposite?_eq ‹_›, Option.bind_some, checkedShiftLeft_eq]

/-- **Shifts are unbounded.** For all words and all counts, the left shift is the floor of the word,
read without a sign, times a power of two, modulo `2 ^ 64` and read with a sign; the right shift is
that for the opposite count. A machine has a result for every operation that they are made of: no
shift is by 64 places or more, and no opposite is taken of the least word. -/
theorem shift_eq (a n : Int64) :
    (shiftLeft a n).toInt = ⌊(a.toUInt64.toNat : ℚ) * 2 ^ n.toInt⌋.bmod (2 ^ 64) ∧
      (shiftRight a n).toInt = ⌊(a.toUInt64.toNat : ℚ) * 2 ^ (-n.toInt)⌋.bmod (2 ^ 64) ∧
      checkedShiftLeft a n = some (shiftLeft a n) ∧ checkedShiftRight a n = some (shiftRight a n) :=
  ⟨toInt_shiftLeft a n, toInt_shiftRight a n, checkedShiftLeft_eq a n, checkedShiftRight_eq a n⟩

/-- A negative word is shifted without its sign, and the least count shifts all bits out. -/
example : shiftRight (-1) 60 = 15 ∧ shiftLeft 16 (-2) = 4 ∧ shiftRight 1 Int64.minValue = 0 := by
  decide +kernel

end Word

end LuaExpr
