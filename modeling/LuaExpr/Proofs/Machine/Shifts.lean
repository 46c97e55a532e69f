import LuaExpr.Proofs.Binary64.Integer
import LuaExpr.Proofs.Binary64.Words
import LuaExpr.Proofs.Machine.Instructions
/-!
# Shifts and numbers

A shift computes a 64-bit integer, which is pushed as a number. A number holds it if it is short.
The operands are short, as they come from numbers, and most shifts keep that: what is shifted to the
left loses bits at the top and gets zeros at the bottom. Only the sign bit of a negative integer
that is shifted to the right by a few places stands too far from the bits below it.

* `isShort_of_modEq`: shifts to the left; `isShort_div_iff`: shifts of negative integers to the
  right.
* `Word.Loses`: the shifts whose result is not short; `ShiftOp.isShort_apply_iff`: they are all of
  them.
* `ShiftOp.exists_step`: what a shift pushes, and when it can be read back.
-/

namespace LuaExpr

/-! ## Shifts of integers -/

section Integers

variable {i t : ℤ} {k u : ℕ}

/-- Multiples of `2 ^ 11` with 64 bits are short. -/
theorem isShort_of_dvd (hdvd : (2 : ℤ) ^ 11 ∣ t) (h : t.natAbs ≤ 2 ^ 63) : IsShort t := by
  obtain ⟨c, rfl⟩ := hdvd
  rw [Int.natAbs_mul] at h
  have hpow : ((2 : ℤ) ^ 11).natAbs = 2 ^ 11 := by norm_num
  rw [hpow] at h
  exact ⟨c.natAbs, 11, by omega, by rw [Int.natAbs_mul, hpow, mul_comm]⟩

/-- What is left of a short integer that is shifted to the left is short. If it loses bits at the
top, it has zeros enough at the bottom. -/
theorem isShort_of_modEq (h : IsShort i) (hmod : t ≡ i * 2 ^ k [ZMOD 2 ^ 64]) (hlow : -2 ^ 63 ≤ t)
    (hhigh : t < 2 ^ 63) :
    IsShort t := by
  obtain ⟨m, e, hm, hi⟩ := h
  rcases Nat.lt_or_ge (e + k) 11 with hfew | hmany
  · -- nothing is lost
    have habs : (i * 2 ^ k).natAbs = m * 2 ^ (e + k) := by
      rw [Int.natAbs_mul, Int.natAbs_pow, hi, pow_add]
      ring
    have hsmall : m * 2 ^ (e + k) < 2 ^ 63 := by
      calc m * 2 ^ (e + k) ≤ m * 2 ^ 10 :=
        Nat.mul_le_mul_left m (Nat.pow_le_pow_right two_pos (by omega))
        _ < 2 ^ 63 := by omega
    obtain ⟨c, hc⟩ := hmod.dvd
    have heq : t = i * 2 ^ k := by omega
    exact ⟨m, e + k, hm, by rw [heq, habs]⟩
  · refine isShort_of_dvd ?_ (by omega)
    have hnat : 2 ^ 11 ∣ (i * 2 ^ k).natAbs := by
      have hpow : ((2 : ℤ) ^ k).natAbs = 2 ^ k := by rw [Int.natAbs_pow]; rfl
      rw [Int.natAbs_mul, hi, hpow, mul_assoc, ← pow_add]
      exact (pow_dvd_pow 2 hmany).mul_left m
    have hint : (2 : ℤ) ^ 11 ∣ i * 2 ^ k := by exact_mod_cast Int.natCast_dvd.mpr hnat
    obtain ⟨c, hc⟩ := hmod.dvd
    omega

/-- A short natural number that is shifted to the right is short. -/
theorem isShort_div (h : IsShort u) (k : ℕ) : IsShort ((u / 2 ^ k : ℕ) : ℤ) := by
  obtain ⟨m, e, hm, hu⟩ := h
  rw [Int.natAbs_natCast] at hu
  rcases Nat.le_total k e with hle | hle
  · refine ⟨m, e - k, hm, ?_⟩
    obtain ⟨j, rfl⟩ := Nat.exists_eq_add_of_le hle
    rw [Int.natAbs_natCast, hu, pow_add, mul_left_comm,
      Nat.mul_div_cancel_left _ (Nat.two_pow_pos k), Nat.add_sub_cancel_left]
  · refine isShort_of_natAbs_lt ?_
    obtain ⟨j, rfl⟩ := Nat.exists_eq_add_of_le hle
    rw [Int.natAbs_natCast, hu, pow_add, mul_comm m, Nat.mul_div_mul_left _ _ (Nat.two_pow_pos e)]
    exact lt_of_le_of_lt (Nat.div_le_self _ _) hm

/-- A natural number that has `53 + j` bits is short exactly if it ends in `j` zeros. -/
theorem isShort_iff_dvd {v j : ℕ} (hlow : 2 ^ 53 * 2 ^ j ≤ 2 * v) (hhigh : v < 2 ^ 53 * 2 ^ j) :
    IsShort (v : ℤ) ↔ 2 ^ j ∣ v := by
  constructor
  · rintro ⟨m, e, hm, hv⟩
    rw [Int.natAbs_natCast] at hv
    have hje : j ≤ e := by
      by_contra hlt
      have hle : 2 * 2 ^ e ≤ 2 ^ j := by
        rw [← pow_succ']
        exact Nat.pow_le_pow_right two_pos (by omega)
      have hmul : m * 2 ^ e < 2 ^ 53 * 2 ^ e := Nat.mul_lt_mul_of_pos_right hm (Nat.two_pow_pos e)
      omega
    rw [hv]
    exact (pow_dvd_pow 2 hje).mul_left m
  · rintro ⟨c, rfl⟩
    rw [mul_comm] at hhigh
    exact ⟨c, j, Nat.lt_of_mul_lt_mul_right hhigh, by rw [Int.natAbs_natCast, mul_comm]⟩

/-- The bits above the lowest `k` ones, up to the eleventh, are zeros. -/
theorem dvd_div_iff {j : ℕ} (hj : k + j = 11) : 2 ^ j ∣ u / 2 ^ k ↔ u % 2 ^ 11 < 2 ^ k := by
  rw [Nat.dvd_iff_mod_eq_zero, ← Nat.mod_mul_right_div_self, ← pow_add, hj,
    Nat.div_eq_zero_iff_lt (Nat.two_pow_pos k)]

/-- A word with its top bit that is shifted to the right stays short unless one of the bits that
would follow the 53 topmost ones is set and is not shifted out. -/
theorem isShort_div_iff (hlow : 2 ^ 63 ≤ u) (hhigh : u < 2 ^ 64) :
    IsShort ((u / 2 ^ k : ℕ) : ℤ) ↔ ¬ (k ≤ 10 ∧ 2 ^ k ≤ u % 2 ^ 11) := by
  have hpos := Nat.two_pow_pos k
  rcases Nat.lt_or_ge 10 k with hmany | hfew
  · -- at most 53 bits are left
    refine iff_of_true (isShort_of_natAbs_lt ?_) (fun h => absurd h.1 (by omega))
    rw [Int.natAbs_natCast, Nat.div_lt_iff_lt_mul hpos]
    calc u < 2 ^ 53 * 2 ^ 11 := by omega
      _ ≤ 2 ^ 53 * 2 ^ k := Nat.mul_le_mul_left _ (Nat.pow_le_pow_right two_pos hmany)
  · obtain ⟨j, hj⟩ : ∃ j, k + j = 11 := ⟨11 - k, by omega⟩
    have hpow : 2 ^ 52 * 2 ^ j * 2 ^ k = 2 ^ 63 := by
      rw [mul_assoc, ← pow_add, add_comm j, hj]
      norm_num
    have hge : 2 ^ 52 * 2 ^ j ≤ u / 2 ^ k := by rwa [Nat.le_div_iff_mul_le hpos, hpow]
    have hlt : u / 2 ^ k < 2 ^ 53 * 2 ^ j := by
      rw [Nat.div_lt_iff_lt_mul hpos]
      calc u < 2 * (2 ^ 52 * 2 ^ j * 2 ^ k) := by omega
        _ = 2 ^ 53 * 2 ^ j * 2 ^ k := by ring
    rw [isShort_iff_dvd (by omega) hlt, dvd_div_iff hj, not_and, not_le]
    exact ⟨fun h _ => h, fun h => h hfew⟩

end Integers

/-! ## Shifts of words -/

namespace Word

/-- A negative word loses bits as a number when it is shifted so many places to the right: the shift
is by one to ten places, and one of the bits up to the eleventh that are not shifted out is set. -/
def Loses (i : Int64) (places : ℤ) : Prop :=
  i.toInt < 0 ∧ 1 ≤ places ∧ places ≤ 10 ∧ (2 : ℤ) ^ places.toNat ≤ i.toInt % 2 ^ 11

instance (i : Int64) (places : ℤ) : Decidable (Loses i places) :=
  inferInstanceAs (Decidable (_ ∧ _))

variable {i n : Int64}

theorem toInt_shiftLeft_modEq (k : ℕ) :
    (i.toBitVec <<< k).toInt ≡ i.toInt * 2 ^ k [ZMOD 2 ^ 64] := by
  have hbits : (i.toBitVec.toNat : ℤ) ≡ i.toInt [ZMOD 2 ^ 64] := by
    rcases toNat_cases i with ⟨-, h⟩ | ⟨-, h, -⟩
    · rw [h]
    · rw [h]
      exact Int.modEq_iff_dvd.mpr ⟨-1, by ring⟩
  rw [BitVec.toInt_shiftLeft, Nat.shiftLeft_eq, Nat.cast_mul, Nat.cast_pow, Nat.cast_ofNat]
  exact (Int.bmod_emod).trans (hbits.mul_right _)

/-- The left shift of a short word is short, unless it is a shift to the right that loses bits. -/
theorem isShort_shiftLeft_iff (h : IsShort i.toInt) :
    IsShort (shiftLeft i n).toInt ↔ ¬ Loses i (-n.toInt) := by
  by_cases hclear : n.toInt ≤ -64 ∨ 64 ≤ n.toInt
  · rw [shiftLeft, if_pos hclear]
    refine iff_of_true (isShort_of_natAbs_lt (by decide)) fun hloses => ?_
    obtain ⟨-, h1, h2, -⟩ := hloses
    omega
  by_cases hleft : 0 ≤ n.toInt
  · have hword : shiftLeft i n = Int64.ofBitVec (i.toBitVec <<< n.toInt.toNat) := by
      rw [shiftLeft, if_neg hclear, if_pos hleft]
    refine iff_of_true ?_ fun hloses => ?_
    · refine isShort_of_modEq (k := n.toInt.toNat)
        h ?_ (shiftLeft i n).le_toInt (shiftLeft i n).toInt_lt
      rw [hword, Int64.toInt_ofBitVec]
      exact toInt_shiftLeft_modEq _
    · obtain ⟨-, h1, -⟩ := hloses
      omega
  · obtain ⟨k, hk⟩ : ∃ k : ℕ, n.toInt = -(k : ℤ) := ⟨(-n.toInt).toNat, by omega⟩
    rw [shiftLeft, if_neg hclear, if_neg hleft, Int64.toInt_ofBitVec, hk, neg_neg,
      Int.toNat_natCast, BitVec.toInt_ushiftRight_of_lt (by omega), Nat.shiftRight_eq_div_pow]
    rcases toNat_cases i with ⟨hsign, hint⟩ | ⟨hsign, hint, htop⟩
    · rw [hint] at h
      exact iff_of_true (isShort_div h k) fun hloses => absurd hloses.1 (not_lt.mpr hsign)
    · have hlow : i.toInt % 2 ^ 11 = (i.toBitVec.toNat % 2 ^ 11 : ℕ) := by omega
      rw [isShort_div_iff htop i.toBitVec.isLt, Loses, Int.toNat_natCast, hlow]
      refine not_congr ⟨fun hboth => ⟨hsign, by omega, by omega, by exact_mod_cast hboth.2⟩,
        fun hloses => ?_⟩
      obtain ⟨-, -, h2, h3⟩ := hloses
      exact ⟨by omega, by exact_mod_cast h3⟩

end Word

/-! ## Shifts on the machine -/

/-- The operators that shift. -/
inductive ShiftOp where
  /-- `<<`. -/
  | left
  /-- `>>`. -/
  | right

namespace ShiftOp

/-- The operator of the machine. -/
def op : ShiftOp → BinaryOp
  | left => .shiftLeft
  | right => .shiftRight

/-- What the operator computes of words. -/
def word : ShiftOp → Int64 → Int64 → Int64
  | left => Word.shiftLeft
  | right => Word.shiftRight

/-- The number of places that a count shifts to the right; a negative one is a shift to the left. -/
def places : ShiftOp → Int64 → ℤ
  | left, n => -n.toInt
  | right, n => n.toInt

/-- A shift of a short word is short, unless it loses bits. -/
theorem isShort_word_iff {i : Int64} (h : IsShort i.toInt) (s : ShiftOp) (n : Int64) :
    IsShort (s.word i n).toInt ↔ ¬ Word.Loses i (s.places n) := by
  cases s with
  | left => exact Word.isShort_shiftLeft_iff h
  | right =>
    rw [word, Word.shiftRight, Word.isShort_shiftLeft_iff h, places]
    by_cases hmin : n = Int64.minValue
    · -- the opposite of the least count is no word, but both clear the word
      subst hmin
      rw [if_pos rfl, Word.Loses, Word.Loses, Int64.toInt_maxValue, Int64.toInt_minValue]
      omega
    · rw [if_neg hmin, Word.toInt_neg_of_ne hmin, neg_neg]

/-- The word that a shift computes is pushed as a number. -/
theorem apply_eq {a b : Binary64} {i n : Int64} (ha : a.toInt64? = some i)
    (hb : b.toInt64? = some n) (s : ShiftOp) :
    s.op.apply (.number a) (.number b) = .ok (.number (.ofInt64 (s.word i n))) := by
  cases s <;> exact BinaryOp.bitwise_eq ha hb

/-- **A shift and its result.** A shift of two numbers that are 64-bit integers pushes the number
nearest to the shifted word. This number can be read back as that very word, unless a negative word
is shifted to the right by one to ten places, and one of its eleven lowest bits is set and is not
shifted out. -/
theorem exists_step {a b : Binary64} {i n : Int64} (ha : a.toInt64? = some i)
    (hb : b.toInt64? = some n) (s : ShiftOp) {chunk : Chunk} {globals : Globals}
    {instruction : Instruction} (hop : instruction.op = .binary s.op) {next : Nat}
    {below : Stack} (hroom : below.size < below.capacity) :
    ∃ r, Machine.step chunk globals instruction ⟨next, (below.put (.number a)).put (.number b)⟩ =
        .ok ⟨next + 1, below.put (.number r)⟩ ∧
      r = .ofInt64 (s.word i n) ∧
      (r.toInt64? = some (s.word i n) ↔ ¬ Word.Loses i (s.places n)) := by
  refine ⟨_, ?_, rfl, ?_⟩
  · rw [Machine.step_binary hop, apply_eq ha hb, Machine.pushResult_eq hroom]
    rfl
  · rw [Binary64.toInt64?_ofInt64_iff]
    exact isShort_word_iff (Binary64.isShort_of_toInt? (Binary64.toInt64?_eq_some_iff.mp ha)) s n

/-- Three places to the right: the eight bits of zeros that are left at the bottom are enough. -/
theorem exists_step_negative : ∃ r, Machine.step {} {} ⟨.binary .shiftRight, 0⟩
    ⟨0, ((Stack.put {} (.number (.ofInt (-2048)))).put (.number (.ofInt 3)))⟩ =
        .ok ⟨1, Stack.put {} (.number r)⟩ ∧
      r.toInt64? = some 2305843009213693696 := by
  have hword : right.word (-2048) 3 = 2305843009213693696 := by decide +kernel
  obtain ⟨r, hstep, -, hread⟩ := @exists_step (.ofInt (-2048)) (.ofInt 3) (-2048)
    3 (by decide) (by decide) right {} {}
    ⟨.binary .shiftRight, 0⟩ rfl 0 {} (by decide)
  rw [hword] at hread
  exact ⟨r, hstep, hread.mpr (by decide)⟩

/-- Minus one is shifted to the right by one place to `2 ^ 63 - 1`, but what is pushed is `2 ^ 63`,
which is no 64-bit integer; and by ten places to `2 ^ 54 - 1`, but what is pushed is `2 ^ 54`, which
is another one. -/
theorem shiftRight_minusOne_lost :
    (Binary64.ofInt (-1)).toInt64? = some (-1) ∧ (Binary64.ofInt 1).toInt64? = some 1 ∧
      (Binary64.ofInt 10).toInt64? = some 10 ∧
      Machine.step {} {} ⟨.binary .shiftRight, 0⟩
        ⟨0, (Stack.put {} (.number (.ofInt (-1)))).put (.number (.ofInt 1))⟩ =
          .ok ⟨1, Stack.put {} (.number (.ofInt (2 ^ 63)))⟩ ∧
      (Binary64.ofInt (2 ^ 63)).toInt64? = none ∧ Word.shiftRight (-1) 1 = 2 ^ 63 - 1 ∧
      Machine.step {} {} ⟨.binary .shiftRight, 0⟩
        ⟨0, (Stack.put {} (.number (.ofInt (-1)))).put (.number (.ofInt 10))⟩ =
          .ok ⟨1, Stack.put {} (.number (.ofInt (2 ^ 54)))⟩ ∧
      (Binary64.ofInt (2 ^ 54)).toInt64? = some (2 ^ 54) ∧
      Word.shiftRight (-1) 10 = 2 ^ 54 - 1 := by
  exact ⟨rfl, rfl, rfl, rfl, rfl, by decide +kernel, rfl, by decide +kernel, by decide +kernel⟩

end ShiftOp

end LuaExpr
