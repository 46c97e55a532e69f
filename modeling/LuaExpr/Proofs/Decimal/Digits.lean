import LuaExpr.Decimal.Digits
import Mathlib
/-!
# Digits

The number that a run of digit characters denotes, and the digits of a number, with zeros in front
up to some width.

* `Decimal.ofDigits_append`, `Decimal.ofDigits_lt`, `Decimal.pow_le_ofDigits`: numbers by the places
  of their digits.
* `Decimal.ofDigits_inj`: digits of one length that denote the same number are the same.
* `Decimal.ofDigits_padded`, `Decimal.length_of_padded_eq_cons`: the digits of a number.
-/

namespace LuaExpr

namespace Decimal

variable {c d : Char} {xs ys : List Char}

theorem ofDigits_eq (digits : List Char) : ofDigits digits = Nat.ofDigitChars 10 digits 0 :=
  Nat.ofDigitChars_eq_foldl.symm

theorem ofDigits_append (xs ys : List Char) :
    ofDigits (xs ++ ys) = 10 ^ ys.length * ofDigits xs + ofDigits ys := by
  rw [ofDigits_eq, Nat.ofDigitChars_append, Nat.ofDigitChars_eq_ofDigitChars_zero, ofDigits_eq,
    ofDigits_eq]

theorem ofDigits_cons (c : Char) (xs : List Char) :
    ofDigits (c :: xs) = 10 ^ xs.length * digitValue c + ofDigits xs := by
  have hsingle : ofDigits [c] = digitValue c := Nat.zero_add _
  rw [← hsingle, ← ofDigits_append]
  rfl

theorem ofDigits_concat (xs : List Char) (c : Char) :
    ofDigits (xs ++ [c]) = 10 * ofDigits xs + digitValue c := by
  rw [ofDigits_append, ofDigits_cons]
  simp [ofDigits]

theorem ofDigits_replicate (n : ℕ) : ofDigits (List.replicate n '0') = 0 := by
  rw [ofDigits_eq, Nat.ofDigitChars_replicate_zero, Nat.mul_zero]

/-- Zeros in front do not count. -/
theorem ofDigits_dropWhile (xs : List Char) : ofDigits (xs.dropWhile (· == '0')) = ofDigits xs := by
  induction xs with
  | nil => rfl
  | cons c xs ih =>
    by_cases hc : c = '0'
    · rw [List.dropWhile_cons_of_pos (by simpa using hc), ih, ofDigits_cons, hc]
      exact (Nat.zero_add _).symm
    · rw [List.dropWhile_cons_of_neg (by simpa using hc)]

theorem ofDigits_toDigits (n : ℕ) : ofDigits (Nat.toDigits 10 n) = n := by
  rw [ofDigits_eq, Nat.ofDigitChars_ten_toDigits]

theorem ofDigits_padded (width n : ℕ) : ofDigits (padded width n) = n := by
  rw [padded, ofDigits_append, ofDigits_replicate, ofDigits_toDigits, Nat.mul_zero, Nat.zero_add]

theorem isDigit_of_mem_padded {width n : ℕ} (h : c ∈ padded width n) : c.isDigit = true := by
  rcases List.mem_append.mp h with h | h
  · obtain ⟨-, rfl⟩ := List.mem_replicate.mp h
    rfl
  · exact Nat.isDigit_of_mem_toDigits (by decide) (by decide) h

theorem length_padded (width n : ℕ) :
    (padded width n).length = max width (Nat.toDigits 10 n).length := by
  rw [padded, List.length_append, List.length_replicate]
  omega

theorem digitValue_lt (hc : c.isDigit = true) : digitValue c < 10 := by
  have hbounds := Char.isDigit_iff_toNat.mp hc
  have hnine : '9'.toNat = 57 := rfl
  have hzero : '0'.toNat = 48 := rfl
  rw [digitValue]
  omega

theorem digitValue_inj (hc : c.isDigit = true) (hd : d.isDigit = true)
    (h : digitValue c = digitValue d) : c = d := by
  have hc := Char.isDigit_iff_toNat.mp hc
  have hd := Char.isDigit_iff_toNat.mp hd
  rw [digitValue, digitValue] at h
  exact Char.toNat_inj.mp (by omega)

theorem ofDigits_lt (h : ∀ c ∈ xs, c.isDigit = true) : ofDigits xs < 10 ^ xs.length := by
  induction xs with
  | nil => exact Nat.one_pos
  | cons c xs ih =>
    have hrest := ih fun d hd => h d (by simp [hd])
    have hc : digitValue c ≤ 9 := Nat.lt_succ_iff.mp (digitValue_lt (h c (by simp)))
    rw [ofDigits_cons, List.length_cons, pow_succ]
    nlinarith

theorem pow_le_ofDigits (hc : c.isDigit = true) (hne : c ≠ '0') (xs : List Char) :
    10 ^ xs.length ≤ ofDigits (c :: xs) := by
  have hpos : 0 < digitValue c := Nat.pos_of_ne_zero fun h => hne (digitValue_inj hc rfl h)
  rw [ofDigits_cons]
  exact (Nat.le_mul_of_pos_right _ hpos).trans (Nat.le_add_right _ _)

/-- Digits of one length that denote the same number are the same. -/
theorem ofDigits_inj (hx : ∀ c ∈ xs, c.isDigit = true) (hy : ∀ c ∈ ys, c.isDigit = true)
    (hlen : xs.length = ys.length) (h : ofDigits xs = ofDigits ys) : xs = ys := by
  induction xs generalizing ys with
  | nil => exact (List.length_eq_zero_iff.mp hlen.symm).symm
  | cons c xs ih =>
    cases ys with
    | nil => cases hlen
    | cons d ys =>
      have hlen : xs.length = ys.length := Nat.succ.inj hlen
      have hx' : ∀ c ∈ xs, c.isDigit = true := fun a ha => hx a (by simp [ha])
      have hy' : ∀ c ∈ ys, c.isDigit = true := fun a ha => hy a (by simp [ha])
      rw [ofDigits_cons, ofDigits_cons, hlen] at h
      have hxlt := ofDigits_lt hx'
      have hylt := ofDigits_lt hy'
      rw [hlen] at hxlt
      -- the first digits are the quotients, what follows are the remainders
      have hfirst : digitValue c = digitValue d := by
        have hdiv := congrArg (· / 10 ^ ys.length) h
        simpa [Nat.mul_add_div (Nat.pow_pos (n := ys.length) (by norm_num : 0 < 10)),
          Nat.div_eq_of_lt hxlt, Nat.div_eq_of_lt hylt] using hdiv
      rw [digitValue_inj (hx c (by simp)) (hy d (by simp)) hfirst,
        ih hx' hy' hlen (by rw [hfirst] at h; omega)]

/-- Padded digits have a zero in front only where they are padded. -/
theorem length_of_padded_eq_cons {width n : ℕ} {digits : List Char} (hpos : 0 < digits.length)
    (h : padded width n = '0' :: digits) : digits.length + 1 = width := by
  have hlen := length_padded width n
  have hvalue := ofDigits_padded width n
  have hdigit : ∀ c ∈ padded width n, c.isDigit = true := fun c => isDigit_of_mem_padded
  rw [h] at hlen hvalue hdigit
  have hshort : (Nat.toDigits 10 n).length ≤ digits.length := by
    rw [Nat.length_toDigits_le_iff (by norm_num) hpos, ← hvalue, ofDigits_cons]
    simpa [digitValue] using ofDigits_lt fun c hc => hdigit c (by simp [hc])
  rw [List.length_cons] at hlen
  omega

end Decimal

end LuaExpr
