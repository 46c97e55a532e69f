import LuaExpr.Proofs.Binary64.Integer
import LuaExpr.Proofs.Decimal.Numerals
import LuaExpr.Proofs.Decimal.Rounding
/-!
# The general style

A finite number is shown with fourteen significant digits. The style depends on the decimal exponent
of the rounded value, and in either style the digits are a shortest numeral: of the rounded value
itself, or of its significand.

* `twoDigits`: the digits of an exponent, of which there are two at least.
* `Shows`: the text of a rounded value.
* `Binary64.display_eq_iff`: the text of a finite number.
-/

namespace LuaExpr

/-! ## The text of a rounded value -/

/-- The decimal digits of a number, with a zero in front if there is only one. -/
def twoDigits (n : ℕ) : List Char := if n < 10 then '0' :: Nat.toDigits 10 n else Nat.toDigits 10 n

/-- `Shows w text`: a value `w` with fourteen significant digits at most has the text. While the
exponent is at least `-4` and less than fourteen, this is its numeral; otherwise the numeral of its
significand, which has one digit before the point, and the exponent with its sign. -/
inductive Shows (w : ℚ) : List Char → Prop
  | positional (t : Numeral) (hlow : -4 ≤ Int.log 10 w) (hhigh : Int.log 10 w < 14)
      (ht : t.value = w) : Shows w t.text
  | exponential (t : Numeral) (hout : Int.log 10 w < -4 ∨ 14 ≤ Int.log 10 w)
      (ht : t.value = w / 10 ^ Int.log 10 w)
      (hwhole : t.whole.length = 1) :
      Shows w (t.text ++ 'e' :: (if Int.log 10 w < 0 then '-'
        else '+') :: twoDigits (Int.log 10 w).natAbs)

theorem Shows.unique {w : ℚ} {text other : List Char} (h : Shows w text) (h' : Shows w other) :
    text = other := by
  cases h with
  | positional t hlow hhigh ht =>
    cases h' with
    | positional u _ _ hu => rw [Numeral.eq_of_value_eq (ht.trans hu.symm)]
    | exponential u hout => omega
  | exponential t hout ht =>
    cases h' with
    | positional u hlow hhigh => omega
    | exponential u _ hu => rw [Numeral.eq_of_value_eq (ht.trans hu.symm)]

/-- A numeral whose value is less than ten has one digit before the point. -/
theorem Numeral.length_whole_eq_one {t : Numeral} (h : t.value < 10) : t.whole.length = 1 := by
  obtain ⟨c, digits, hwhole⟩ := List.exists_cons_of_ne_nil t.whole_ne_nil
  rw [hwhole, List.length_cons, Nat.add_eq_right, List.length_eq_zero_iff]
  by_contra hne
  have hc : c ≠ '0' := by
    rintro rfl
    exact hne (t.leading digits hwhole)
  have hlow := Decimal.pow_le_ofDigits (t.isDigit c (by simp [hwhole])) hc (digits ++ t.fraction)
  rw [value, div_lt_iff₀ (by positivity), hwhole, ← pow_succ'] at h
  have hpow : 10 ^ (t.fraction.length + 1) ≤ 10 ^ (digits ++ t.fraction).length := by
    have hpos := List.length_pos_of_ne_nil hne
    rw [List.length_append]
    exact Nat.pow_le_pow_right (by norm_num) (by omega)
  have hlt : Decimal.ofDigits (c :: digits ++ t.fraction) < 10 ^ (t.fraction.length + 1) := by
    exact_mod_cast h
  rw [List.cons_append] at hlt
  omega

namespace Decimal

theorem padded_two (n : ℕ) : padded 2 n = twoDigits n := by
  have hle := Nat.length_toDigits_le_iff (b := 10) (n := n) (k := 1) (by norm_num) (by norm_num)
  have hpos := Nat.length_toDigits_pos (b := 10) (n := n)
  rw [padded, twoDigits]
  split
  · rename_i h
    have hone : (Nat.toDigits 10 n).length = 1 := by omega
    rw [hone]
    rfl
  · rename_i h
    have htwo : 2 - (Nat.toDigits 10 n).length = 0 := by omega
    rw [htwo]
    rfl

section Styles

variable {n d m : ℕ} {x : ℤ}

/-- The positional layout, with the places that the exponent leaves to the second rounding. -/
theorem shows_fixed (hlog : Int.log 10 ((m : ℚ) * 10 ^ (x - 13)) = x)
    (hagain : roundAt (x - 13) n d = m) (hx : -4 ≤ x ∧ x < 14) :
    Shows (m * 10 ^ (x - 13)) (trimFraction (fixed (13 - x).toNat n d)) := by
  obtain ⟨t, ht, htext⟩ := exists_numeral (13 - x).toNat n d
  have hplaces : -(((13 - x).toNat : ℕ) : ℤ) = x - 13 := by omega
  rw [hplaces, hagain, div_eq_mul_inv, ← zpow_natCast, ← zpow_neg, hplaces] at ht
  rw [htext]
  exact .positional t (by rw [hlog]; exact hx.1) (by rw [hlog]; exact hx.2) ht

/-- The layout with an exponent, whose significand is exact in the places that it has. -/
theorem shows_significand (hlog : Int.log 10 ((m : ℚ) * 10 ^ (x - 13)) = x) (hhigh : m < 10 ^ 14)
    (hx : x < -4 ∨ 14 ≤ x) : Shows (m * 10 ^ (x - 13)) (trimFraction (fixed 13 m (Nat.pow 10 13)) ++
      'e' :: (if x < 0 then '-' else '+') :: padded 2 x.natAbs) := by
  obtain ⟨t, ht, htext⟩ := exists_numeral 13 m (Nat.pow 10 13)
  have hm : roundAt (-(13 : ℕ)) m (Nat.pow 10 13) = m := by
    refine (isNearest_roundAt _ m (Nat.pow_pos (by norm_num))).unique ?_
    convert IsNearest.natCast m using 1
    norm_num
    field_simp
  rw [hm] at ht
  have hvalue : t.value = m * 10 ^ (x - 13) / 10 ^ x := by
    rw [ht, zpow_sub₀ (by norm_num), div_eq_div_iff (by norm_num) (by positivity)]
    field_simp
  have hten : t.value < 10 := by
    rw [ht, div_lt_iff₀ (by norm_num)]
    exact_mod_cast hhigh
  have hshows := Shows.exponential (w := m * 10 ^ (x - 13))
    t (by rwa [hlog]) (by rw [hlog]; exact hvalue)
    (Numeral.length_whole_eq_one hten)
  rwa [hlog, ← htext, ← padded_two] at hshows

/-- The text of a quotient is the text of its rounded value. -/
theorem exists_general (n : ℕ) (hd : 0 < d) :
    ∃ w, RoundsTo 14 ((n : ℚ) / d) w ∧ Shows w (general n d) := by
  rcases Nat.eq_zero_or_pos n with rfl | hn
  · refine ⟨0, by simpa using roundsTo_zero 14, ?_⟩
    have hvalue : (Numeral.mk ['0'] [] (by simp) (by simp) (by simp) (by simp)).value = 0 := by
      simp [Numeral.value, ofDigits, digitValue]
    exact .positional _ (by simp) (by simp) hvalue
  obtain ⟨m, x, hscientific, hrounds, hlow, hhigh, hagain⟩ := scientific_spec 13 hn hd
  have hlog : Int.log 10 ((m : ℚ) * 10 ^ (x - (13 : ℕ))) = x := log_mul_zpow hlow hhigh
  refine ⟨_, hrounds, ?_⟩
  rw [Nat.cast_ofNat] at hrounds hagain hlog ⊢
  have hgeneral : general n d = if -4 ≤ x ∧ x < 14 then trimFraction (fixed (13 - x).toNat n d) else
      trimFraction (fixed 13 m (Nat.pow 10 13)) ++ 'e' :: (if x < 0 then '-'
        else '+') :: padded 2 x.natAbs := by
    simp only [general, if_neg hn.ne', precision, hscientific, Nat.cast_ofNat]
    rfl
  rw [hgeneral]
  split
  · exact shows_fixed hlog hagain ‹_›
  · exact shows_significand hlog hhigh (by omega)

end Styles

end Decimal

/-! ## The text of a number -/

namespace Binary64

/-- A number as a sign and a quotient. -/
theorem exists_display {n : Binary64} {v : ℚ} (h : n.toRat? = some v) :
    ∃ w text, RoundsTo 14 |v| w ∧ Shows w text ∧
    n.display = String.ofList (if n.isNegative then '-' :: text else text) := by
  cases n with
  | nan => cases h
  | infinite s => cases h
  | finite s m q hcanonical =>
    obtain rfl := Option.some.inj h
    have hquotient : |signedRat s (m * 2 ^ q)| =
        ((m * Nat.pow 2 q.toNat : ℕ) : ℚ) / ((Nat.pow 2 (-q).toNat : ℕ) : ℚ) := by
      rw [abs_signedRat_mul_zpow, dyadic_eq]
    have hd : 0 < Nat.pow 2 (-q).toNat := Nat.pow_pos two_pos
    obtain ⟨w, hrounds, hshows⟩ := Decimal.exists_general (m * Nat.pow 2 q.toNat) hd
    rw [← hquotient] at hrounds
    exact ⟨w, _, hrounds, hshows, rfl⟩

/-- What a number shows is the text of its rounded magnitude, after a minus sign if the number has
that sign. -/
theorem display_eq_of_shows {n : Binary64} {v w : ℚ} {text : List Char} (h : n.toRat? = some v)
    (hrounds : RoundsTo 14 |v| w) (hshows : Shows w text) :
    n.display = String.ofList (if n.isNegative then '-' :: text else text) := by
  obtain ⟨w', text', hrounds', hshows', hdisplay⟩ := exists_display h
  obtain rfl := hrounds.unique hrounds'
  rw [hdisplay, hshows.unique hshows']

/-- **The text of a finite number.** The magnitude is rounded to fourteen significant digits, to the
nearest and of two equally near ones to the even one. The text is that of the rounded value, with a
minus sign in front if the number has that sign; there is one such text. -/
theorem display_eq_iff {n : Binary64} {v : ℚ} (h : n.toRat? = some v) (shown : String) :
    n.display = shown ↔ ∃ w text, RoundsTo 14 |v| w ∧ Shows w text ∧
      shown = String.ofList (if n.isNegative then '-' :: text else text) := by
  constructor
  · rintro rfl
    exact exists_display h
  · rintro ⟨w, text, hrounds, hshows, rfl⟩
    exact display_eq_of_shows h hrounds hshows

/-- Fifteen nines are rounded up to a power of ten, which needs an exponent. -/
theorem display_eq_iff_nines :
    ∃ w text, RoundsTo 14 |((-999999999999999 : ℤ) : ℚ)| w ∧ Shows w text ∧
    "-1e+15" = String.ofList (if (ofInt (-999999999999999)).isNegative then '-' :: text
      else text) :=
  (display_eq_iff (toInt?_eq_some_iff.mp rfl) "-1e+15").mp (by decide +kernel)

end Binary64

end LuaExpr
