import LuaExpr.Decimal.General
import LuaExpr.Proofs.Decimal.Digits
/-!
# Decimal numerals

A decimal fraction has one shortest numeral: no zero in front that could be left out, none at the
end of the fraction, and a point only before a fraction. The layout with a fixed number of places,
once its zeros are trimmed, is this numeral.

* `Numeral`: the shortest numerals; `Numeral.eq_of_value_eq`: each value has at most one.
* `Decimal.exists_numeral`: what a trimmed layout with a fixed number of places is.
-/

namespace LuaExpr

/-! ## Numerals -/

/-- A shortest decimal numeral. -/
structure Numeral where
  /-- The digits before the point. -/
  whole : List Char
  /-- The digits after the point. -/
  fraction : List Char
  isDigit : ∀ c ∈ whole ++ fraction, c.isDigit = true
  whole_ne_nil : whole ≠ []
  /-- No zero stands in front of other digits. -/
  leading : ∀ digits, whole = '0' :: digits → digits = []
  /-- No zero stands at the end of the fraction. -/
  trailing : ∀ digits, fraction ≠ digits ++ ['0']

namespace Numeral

/-- The text: a point stands only before a fraction. -/
def text (t : Numeral) : List Char :=
  if t.fraction = [] then t.whole else t.whole ++ '.' :: t.fraction

/-- The value. -/
def value (t : Numeral) : ℚ := Decimal.ofDigits (t.whole ++ t.fraction) / 10 ^ t.fraction.length

variable {t u : Numeral}

theorem ext_iff : t = u ↔ t.whole = u.whole ∧ t.fraction = u.fraction := by
  cases t
  cases u
  simp

theorem length_whole_le (hlen : t.fraction.length = u.fraction.length)
    (h : Decimal.ofDigits (t.whole ++ t.fraction) = Decimal.ofDigits (u.whole ++ u.fraction)) :
    u.whole.length ≤ t.whole.length := by
  by_contra hlt
  obtain ⟨c, digits, hwhole⟩ := List.exists_cons_of_ne_nil u.whole_ne_nil
  have hpos := List.length_pos_of_ne_nil t.whole_ne_nil
  have hne : c ≠ '0' := by
    rintro rfl
    rw [hwhole, u.leading digits hwhole, List.length_singleton] at hlt
    omega
  have hlow := Decimal.pow_le_ofDigits (u.isDigit c (by simp [hwhole])) hne (digits ++ u.fraction)
  have hhigh := Decimal.ofDigits_lt t.isDigit
  rw [h, hwhole, List.cons_append] at hhigh
  rw [hwhole, List.length_cons] at hlt
  have hpow : 10 ^ (t.whole ++ t.fraction).length ≤ 10 ^ (digits ++ u.fraction).length := by
    refine Nat.pow_le_pow_right (by norm_num) ?_
    rw [List.length_append, List.length_append]
    omega
  omega

/-- **A value has one shortest numeral.** -/
theorem eq_of_value_eq (h : t.value = u.value) : t = u := by
  wlog hle : t.fraction.length ≤ u.fraction.length generalizing t u
  · exact (this h.symm (by omega)).symm
  obtain ⟨k, hk⟩ := Nat.exists_eq_add_of_le hle
  have hcross : 10 ^ k * Decimal.ofDigits (t.whole ++ t.fraction) =
      Decimal.ofDigits (u.whole ++ u.fraction) := by
    have hne : (10 : ℚ) ^ t.fraction.length ≠ 0 := by positivity
    rw [value, value, hk, pow_add, div_eq_div_iff hne (by positivity)] at h
    have hq : (10 : ℚ) ^ k * Decimal.ofDigits (t.whole ++ t.fraction) =
        Decimal.ofDigits (u.whole ++ u.fraction) :=
      mul_left_cancel₀ hne (by linear_combination h)
    exact_mod_cast hq
  obtain rfl : k = 0 := by
    by_contra hpos
    rcases u.fraction.eq_nil_or_concat' with hnil | ⟨digits, c, hfraction⟩
    · rw [hnil, List.length_nil] at hk
      omega
    -- the last digit of the longer fraction is a zero
    have hc : c.isDigit = true := u.isDigit c (by simp [hfraction])
    rw [hfraction, ← List.append_assoc, Decimal.ofDigits_concat] at hcross
    obtain ⟨j, rfl⟩ := Nat.exists_eq_succ_of_ne_zero hpos
    rw [pow_succ', mul_assoc] at hcross
    have hlt := Decimal.digitValue_lt hc
    have hzero : Decimal.digitValue c = Decimal.digitValue '0' := by
      show Decimal.digitValue c = 0
      omega
    exact u.trailing digits (Decimal.digitValue_inj hc rfl hzero ▸ hfraction)
  rw [Nat.pow_zero, Nat.one_mul] at hcross
  have hwhole : t.whole.length = u.whole.length :=
    Nat.le_antisymm (length_whole_le hk hcross.symm) (length_whole_le hk.symm hcross)
  have hdigits : t.whole ++ t.fraction = u.whole ++ u.fraction :=
    Decimal.ofDigits_inj t.isDigit u.isDigit
      (by rw [List.length_append, List.length_append, hwhole, hk, Nat.add_zero])
      hcross
  exact ext_iff.mpr (List.append_inj hdigits hwhole)

end Numeral

/-! ## Layouts with a fixed number of places -/

namespace Decimal

theorem ne_point_of_isDigit {c : Char} (h : c.isDigit = true) : c ≠ '.' := by
  rintro rfl
  exact absurd h (by decide)

theorem exists_append_zeros (digits : List Char) :
    ∃ kept zeros, digits = kept ++ List.replicate zeros '0' ∧
    ∀ rest, kept ≠ rest ++ ['0'] := by
  induction digits using List.reverseRecOn with
  | nil => exact ⟨[], 0, rfl, by simp⟩
  | append_singleton digits c ih =>
    by_cases hc : c = '0'
    · obtain ⟨kept, zeros, rfl, hlast⟩ := ih
      exact ⟨kept, zeros + 1, by rw [hc, List.replicate_succ', List.append_assoc], hlast⟩
    · refine ⟨digits ++ [c], 0, (List.append_nil _).symm, fun rest heq => hc ?_⟩
      exact List.singleton_inj.mp (List.append_inj' heq rfl).2

/-- Zeros at the end of a fraction are trimmed, and the point if nothing else is after it. -/
theorem trimFraction_eq (t : Numeral) (zeros : ℕ) :
    trimFraction (t.whole ++ '.' :: (t.fraction ++ List.replicate zeros '0')) = t.text := by
  have hzeros : ∀ c ∈ List.replicate zeros '0', (c == '0') = true := by simp
  have hwhole : t.whole.reverse.dropWhile (· == '.') = t.whole.reverse := by
    cases hw : t.whole.reverse with
    | nil => rfl
    | cons c digits =>
      have hc : c ∈ t.whole := List.mem_reverse.mp (by simp [hw])
      exact List.dropWhile_cons_of_neg
        (by simpa using ne_point_of_isDigit (t.isDigit c (by simp [hc])))
  rw [trimFraction, if_pos (by simp), Numeral.text]
  simp only [List.reverse_append, List.reverse_cons, List.reverse_replicate, List.append_assoc,
    List.singleton_append]
  rw [List.dropWhile_append_of_pos hzeros]
  rcases t.fraction.eq_nil_or_concat' with hnil | ⟨digits, c, hfraction⟩
  · rw [if_pos hnil, hnil, List.reverse_nil, List.nil_append,
      List.dropWhile_cons_of_neg (by decide), List.dropWhile_cons_of_pos (by decide), hwhole,
      List.reverse_reverse]
  · have hc : c ≠ '0' := fun h => t.trailing digits (h ▸ hfraction)
    have hp : c ≠ '.' := ne_point_of_isDigit (t.isDigit c (by simp [hfraction]))
    rw [if_neg (by simp [hfraction]), hfraction, List.reverse_append, List.reverse_singleton,
      List.singleton_append, List.cons_append, List.dropWhile_cons_of_neg (by simpa using hc),
      List.dropWhile_cons_of_neg (by simpa using hp)]
    simp

theorem trimFraction_of_forall_isDigit {text : List Char} (h : ∀ c ∈ text, c.isDigit = true) :
    trimFraction text = text := by
  refine if_neg fun hpoint => ?_
  exact ne_point_of_isDigit (h '.' (List.contains_iff_mem.mp hpoint)) rfl

/-- The digits of a number with some places after the point: no zero that could be left out stands
before it. -/
theorem exists_padded_eq_append (places k : ℕ) :
    ∃ whole fraction, padded (places + 1) k = whole ++ fraction ∧
    fraction.length = places ∧ whole ≠ [] ∧ ∀ rest, whole = '0' :: rest → rest = [] := by
  have hpadded := length_padded (places + 1) k
  obtain ⟨whole, fraction, hsplit, hplaces⟩ : ∃ whole fraction,
      padded (places + 1) k = whole ++ fraction ∧
      fraction.length = places := by
    refine ⟨_, _, (List.take_append_drop ((padded (places + 1) k).length - places) _).symm, ?_⟩
    rw [List.length_drop]
    omega
  refine ⟨whole, fraction, hsplit, hplaces, ?_, fun rest hwhole => ?_⟩
  · rintro rfl
    rw [hsplit, List.nil_append] at hpadded
    omega
  · by_contra hne
    have hpos := List.length_pos_of_ne_nil hne
    rw [hwhole, List.cons_append] at hsplit
    have hlen := length_of_padded_eq_cons (by rw [List.length_append]; omega) hsplit
    rw [List.length_append, hplaces] at hlen
    omega

/-- **The layout with a fixed number of places**, once it is trimmed, is the shortest numeral of the
rounded value. -/
theorem exists_numeral (places n d : ℕ) :
    ∃ t : Numeral, t.value = roundAt (-places) n d / 10 ^ places ∧
      trimFraction (fixed places n d) = t.text := by
  simp only [fixed]
  generalize roundAt (-places) n d = k
  obtain ⟨whole, fraction, hsplit, hplaces, hne, hleading⟩ := exists_padded_eq_append places k
  obtain ⟨kept, zeros, rfl, hlast⟩ := exists_append_zeros fraction
  have hvalue := ofDigits_padded (places + 1) k
  have hkept : ∀ c ∈ whole ++ kept, c.isDigit = true := by
    intro c hc
    have hmem : c ∈ padded (places + 1) k := by
      rw [hsplit, ← List.append_assoc]
      exact List.mem_append_left _ hc
    exact isDigit_of_mem_padded hmem
  have hlen : (padded (places + 1) k).length - places = whole.length := by
    rw [hsplit, List.length_append, hplaces, Nat.add_sub_cancel]
  rw [hlen, hsplit, List.take_left, List.drop_left]
  rw [List.length_append, List.length_replicate] at hplaces
  refine ⟨⟨whole, kept, hkept, hne, hleading, hlast⟩, ?_, ?_⟩
  · rw [hsplit, ← List.append_assoc, ofDigits_append, ofDigits_replicate, List.length_replicate,
      Nat.add_zero] at hvalue
    rw [Numeral.value, ← hvalue, ← hplaces, pow_add, Nat.cast_mul, mul_comm (10 ^ kept.length),
      Nat.cast_pow, Nat.cast_ofNat, mul_div_mul_left _ _ (by positivity)]
  · split
    · rename_i hzero
      obtain rfl : kept = [] := List.length_eq_zero_iff.mp (by omega)
      rw [trimFraction_of_forall_isDigit fun c hc => hkept c (List.mem_append_left _ hc)]
      rfl
    · exact trimFraction_eq ⟨whole, kept, hkept, hne, hleading, hlast⟩ zeros

end Decimal

end LuaExpr
