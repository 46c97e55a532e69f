import LuaExpr.Proofs.Decimal.General
import LuaExpr.Proofs.Lexeme.Printing
import LuaExpr.Proofs.Lexeme.Spelling
/-!
# Numerals that are shown as they are written

The number that a numeral is read as is nearer to the value of the numeral than one part in
`2 ^ 53`, and that is less than a half in the unit of the fourteenth digit. So a numeral with no
more digits is what the number is rounded to when it is shown, also next to a power of ten, where
the number and the numeral may have different exponents.

* `roundsTo_of_near`: a value that is very near to a short decimal fraction is rounded to it.
* `Numeral.display_eq`: the number that a short numeral is read as shows this numeral.
* `interpret?_of_numeral`: the same for whole sources.
-/

namespace LuaExpr

/-! ## Rounding back -/

section Near

variable {y v : ℚ} {m f : ℕ}

/-- A decimal fraction counted in a smaller unit. -/
theorem exists_eq_mul_zpow {p : ℤ} (hy : y = m / 10 ^ f) (hp : p ≤ -f) :
    ∃ k : ℕ, y = k * 10 ^ p := by
  obtain ⟨j, hj⟩ : ∃ j : ℕ, -(f : ℤ) = p + j := ⟨(-f - p).toNat, by omega⟩
  refine ⟨m * 10 ^ j, ?_⟩
  rw [hy, div_eq_mul_inv, ← zpow_natCast, ← zpow_neg, hj, zpow_add₀ (by norm_num), zpow_natCast]
  push_cast
  ring

/-- A positive decimal fraction with fourteen digits has no more places than its exponent leaves. -/
theorem log_add_lt (hy : y = m / 10 ^ f) (hm : m < 10 ^ 14) (hpos : 0 < y) :
    Int.log 10 y + f < 14 := by
  have hlt : y < ((10 : ℕ) : ℚ) ^ (14 - f : ℤ) := by
    rw [hy, zpow_sub₀ (by norm_num), zpow_natCast, Nat.cast_ofNat]
    gcongr
    exact_mod_cast hm
  have := (Int.lt_zpow_iff_log_lt (by norm_num) hpos).mp hlt
  omega

/-- A value that is near to a decimal fraction with fourteen digits does not reach the power of ten
above it, of which the fraction falls short by one in its last digit at least. -/
theorem log_le_of_near (hy : y = m / 10 ^ f) (hm : m < 10 ^ 14) (hpos : 0 < y) (hv : 0 < v)
    (hnear : v ≤ y + y / 2 ^ 53) : Int.log 10 v ≤ Int.log 10 y := by
  have hplaces := log_add_lt hy hm hpos
  have habove := Int.lt_zpow_succ_log_self (b := 10) (by norm_num) y
  obtain ⟨k, hk⟩ := exists_eq_mul_zpow (p := Int.log 10 y - 13) hy (by omega)
  generalize Int.log 10 y = l at hplaces habove hk
  have hunit : (0 : ℚ) < 10 ^ (l - 13) := by positivity
  have hsplit : ((10 : ℕ) : ℚ) ^ (l + 1) = 10 ^ 14 * 10 ^ (l - 13) := by
    rw [← zpow_natCast, Nat.cast_ofNat, ← zpow_add₀ (by norm_num)]
    congr 1
    push_cast
    ring
  rw [hk, hsplit] at habove
  have hlast : (k : ℚ) + 1 ≤ 10 ^ 14 := by exact_mod_cast lt_of_mul_lt_mul_right habove hunit.le
  have hlt : v < ((10 : ℕ) : ℚ) ^ (l + 1) := by
    rw [hsplit]
    nlinarith
  exact Int.lt_add_one_iff.mp ((Int.lt_zpow_iff_log_lt (by norm_num) hv).mp hlt)

/-- A value that is near to another one has an exponent that is less by one at most. -/
theorem log_le_log_add_one (hpos : 0 < y) (hv : 0 < v) (hnear : y - y / 2 ^ 53 ≤ v) :
    Int.log 10 y ≤ Int.log 10 v + 1 := by
  have hbelow := Int.zpow_log_le_self (b := 10) (by norm_num) hpos
  have hle : ((10 : ℕ) : ℚ) ^ (Int.log 10 y - 1) ≤ v := by
    rw [zpow_sub_one₀ (by norm_num), Nat.cast_ofNat]
    rw [Nat.cast_ofNat] at hbelow
    linarith
  have := (Int.zpow_le_iff_le_log (by norm_num) hv).mp hle
  omega

/-- **Rounding back.** A value that differs from a decimal fraction with fourteen digits by no more
than its part in `2 ^ 53` is rounded to it. -/
theorem roundsTo_of_near (hy : y = m / 10 ^ f) (hm : m < 10 ^ 14) (hpos : 0 < y)
    (hnear : |v - y| * 2 ^ 53 ≤ y) :
    RoundsTo 14 v y := by
  have hdist : |v - y| ≤ y / 2 ^ 53 := (le_div_iff₀ (by norm_num)).mpr hnear
  obtain ⟨hlow, hhigh⟩ := abs_le.mp hdist
  have hv : 0 < v := by linarith
  have hplaces := log_add_lt hy hm hpos
  have hle := log_le_of_near hy hm hpos hv (by linarith)
  have hge := log_le_log_add_one hpos hv (by linarith)
  have habove := Int.lt_zpow_succ_log_self (b := 10) (by norm_num) y
  obtain ⟨k, hk⟩ :=
    exists_eq_mul_zpow (p := lastPlace 14 v) hy (by rw [lastPlace]; push_cast; omega)
  refine ⟨k, IsNearest.of_lt ?_, hk⟩
  have hunit : (0 : ℚ) < 10 ^ lastPlace 14 v := by positivity
  have hbound : y < 10 ^ 15 * 10 ^ lastPlace 14 v := by
    rw [← zpow_natCast, ← zpow_add₀ (by norm_num)]
    refine habove.trans_le ?_
    rw [Nat.cast_ofNat]
    exact zpow_le_zpow_right₀ (by norm_num) (by rw [lastPlace]; push_cast; omega)
  have hquotient : |v / 10 ^ lastPlace 14 v - k| = |v - y| / 10 ^ lastPlace 14 v := by
    rw [← abs_of_pos hunit, ← abs_div, abs_of_pos hunit, sub_div, hk,
      mul_div_cancel_right₀ _ hunit.ne']
  rw [hquotient, div_lt_iff₀ hunit]
  linarith

end Near

theorem Binary64.isNegative_ofRatio (s : Bool) (n d : ℕ) : (ofRatio s n d).isNegative = s := by
  simp only [ofRatio, pack]
  split
  · rfl
  · split <;> split <;> rfl

/-! ## Numerals as numbers -/

namespace Numeral

/-- The number of significant digits, which begin with the first one that is not zero. -/
def precision (t : Numeral) : ℕ := ((t.whole ++ t.fraction).dropWhile (· == '0')).length

/-- The number that a numeral is read as. -/
def number (t : Numeral) : Binary64 :=
  .ofRatio false (Decimal.ofDigits (t.whole ++ t.fraction)) (Nat.pow 10 t.fraction.length)

variable {t : Numeral}

theorem ofDigits_lt (h : t.precision ≤ 14) :
    Decimal.ofDigits (t.whole ++ t.fraction) < 10 ^ 14 := by
  rw [← Decimal.ofDigits_dropWhile]
  refine (Decimal.ofDigits_lt fun c hc => t.isDigit c
    ((List.dropWhile_suffix _).subset hc)).trans_le ?_
  exact Nat.pow_le_pow_right (by norm_num) h

theorem ofNumeral?_text (t : Numeral) : Decimal.ofNumeral? t.text = some t.number := by
  have hwhole : ∀ c ∈ t.whole, c.isDigit = true :=
    fun c hc => t.isDigit c (List.mem_append_left _ hc)
  have hfraction : ∀ c ∈ t.fraction, c.isDigit = true :=
    fun c hc => t.isDigit c (List.mem_append_right _ hc)
  rw [text, number]
  split
  · rename_i hnil
    rw [Decimal.ofNumeral?_digits hwhole t.whole_ne_nil, hnil, List.append_nil]
    rfl
  · exact Decimal.ofNumeral?_point hwhole hfraction (.inl t.whole_ne_nil)

theorem value_eq (t : Numeral) :
    t.value = (Decimal.ofDigits (t.whole ++ t.fraction) : ℚ) /
      (Nat.pow 10 t.fraction.length : ℕ) := by
  rw [value]
  norm_cast

/-- The number of a numeral is near to its value. -/
theorem exists_toRat?_number (hlow : 1 / 10 ^ 4 ≤ t.value) (hhigh : t.value < 10 ^ 14) :
    ∃ v, t.number.toRat? = some v ∧ 0 ≤ v ∧ |v - t.value| * 2 ^ 53 ≤ t.value := by
  have hd : 0 < Nat.pow 10 t.fraction.length := Nat.pow_pos (by norm_num)
  have hpos : 0 < t.value := by linarith
  have hn : 0 < Decimal.ofDigits (t.whole ++ t.fraction) := by
    refine Nat.pos_of_ne_zero fun hzero => hpos.ne' ?_
    rw [value, hzero, Nat.cast_zero, zero_div]
  have hlog : -14 ≤ Int.log 2 t.value ∧ Int.log 2 t.value < 47 := by
    constructor
    · refine (Int.zpow_le_iff_le_log (by norm_num) hpos).mp (le_trans ?_ hlow)
      norm_num
    · refine (Int.lt_zpow_iff_log_lt (by norm_num) hpos).mp (hhigh.trans ?_)
      norm_num
  rw [value_eq] at hlog ⊢
  exact Binary64.exists_toRat?_ofRatio_of_normal false hn hd (by omega) (by omega)

/-- A short numeral of zero, or of a value that is shown without an exponent, is the text of its
value. -/
theorem shows_text (h : t.value = 0 ∨ 1 / 10 ^ 4 ≤ t.value ∧ t.value < 10 ^ 14) :
    Shows t.value t.text := by
  refine .positional t ?_ ?_ rfl
  · rcases h with h | ⟨hlow, -⟩
    · simp [h]
    · refine (Int.zpow_le_iff_le_log (by norm_num) (by linarith)).mp ?_
      norm_num at hlow ⊢
      exact hlow
  · rcases h with h | ⟨hlow, hhigh⟩
    · simp [h]
    · refine (Int.lt_zpow_iff_log_lt (by norm_num) (by linarith)).mp ?_
      exact_mod_cast hhigh

/-- **A short numeral is shown as it is written.** -/
theorem display_number (hdigits : t.precision ≤ 14)
    (h : t.value = 0 ∨ 1 / 10 ^ 4 ≤ t.value ∧ t.value < 10 ^ 14) :
    t.number.display = String.ofList t.text := by
  obtain ⟨v, hread, hrounds⟩ : ∃ v, t.number.toRat? = some v ∧ RoundsTo 14 |v| t.value := by
    rcases h with hzero | ⟨hlow, hhigh⟩
    · have hn : Decimal.ofDigits (t.whole ++ t.fraction) = 0 := by
        rw [value, div_eq_zero_iff] at hzero
        exact_mod_cast hzero.resolve_right (by positivity)
      refine ⟨0, ?_, ?_⟩
      · rw [number, hn]
        simp [Binary64.ofRatio, Binary64.zero, Binary64.toRat?]
      · rw [hzero, abs_zero]
        exact roundsTo_zero 14
    · obtain ⟨v, hread, hnonneg, hnear⟩ := exists_toRat?_number hlow hhigh
      refine ⟨v, hread, ?_⟩
      rw [abs_of_nonneg hnonneg]
      exact roundsTo_of_near rfl (ofDigits_lt hdigits) (by linarith) hnear
  have hdisplay := Binary64.display_eq_of_shows hread hrounds (shows_text h)
  rwa [number, Binary64.isNegative_ofRatio, if_neg Bool.false_ne_true, ← number] at hdisplay

theorem isLexeme_text (t : Numeral) : IsLexeme .number t.text := by
  have hwhole : ∀ c ∈ t.whole, c.isDigit = true :=
    fun c hc => t.isDigit c (List.mem_append_left _ hc)
  have hfraction : ∀ c ∈ t.fraction, c.isDigit = true :=
    fun c hc => t.isDigit c (List.mem_append_right _ hc)
  rw [text]
  split
  · exact .whole t.whole_ne_nil hwhole
  · exact .point t.whole_ne_nil hwhole hfraction

/-! ## Whole sources -/

/-- A numeral that the empty string is appended to. -/
def words (t : Numeral) : List Word :=
  [⟨.number, String.ofList t.text, " "⟩, ⟨.symbol .doubleDot, "..", " "⟩, ⟨.string, "''", ""⟩]

theorem printed_words (t : Numeral) : Word.printed t.words = t.text ++ " .. ''".toList := by
  simp [words, Word.printed]

theorem printable_words (t : Numeral) : Word.Printable t.words := by
  refine ⟨?_, by simp [words], by simp [words, Reading.isBlank], by simp [words]⟩
  simp only [words, List.forall_mem_cons, String.toList_ofList]
  exact ⟨t.isLexeme_text, .symbol .doubleDot, .string (.inr rfl) .nil, by simp⟩

/-- The numeral as a leaf. -/
def lexeme (t : Numeral) : Lexeme := ⟨.number, 0, t.text⟩

/-- The empty string as a leaf, after the numeral and the operator. -/
def emptyLexeme (t : Numeral) : Lexeme := ⟨.string, Text.utf8Length t.text + 4, ['\'', '\'']⟩

/-- The operator between both. -/
def dotsLexeme (t : Numeral) : Lexeme :=
  ⟨.symbol .doubleDot, Text.utf8Length t.text + 1, ['.', '.']⟩

theorem lexemes_words (t : Numeral) :
    Word.lexemes 0 t.words = [t.lexeme, t.dotsLexeme, t.emptyLexeme] := by
  have hblank : Text.utf8Length " ".toList = 1 := rfl
  have hdots : Text.utf8Length "..".toList = 2 := rfl
  simp only [words, Word.lexemes_cons, String.toList_ofList, hblank, hdots, Nat.zero_add,
    Nat.add_assoc]
  rfl

/-- The tree of the words. -/
def tree (t : Numeral) : Expr :=
  .join (.binary .concat) t.dotsLexeme (.leaf t.lexeme) (.leaf t.emptyLexeme)

theorem denotes_tree (t : Numeral) :
    Denotes (String.ofList (t.text ++ " .. ''".toList)) [t.lexeme, t.dotsLexeme, t.emptyLexeme]
      [t.tree] := by
  refine ⟨?_, ?_⟩
  · rw [Cursor.ofSource, String.toList_ofList, ← printed_words, ← lexemes_words]
    exact Cursor.outcomes_printed t.printable_words 0
  · have hnumber : Derives .term [t.lexeme] (.leaf t.lexeme) := Derives.mono (.leaf rfl) (by decide)
    have hstring : Derives .concat [t.emptyLexeme] (.leaf t.emptyLexeme) :=
      Derives.mono (.leaf rfl) (by decide)
    have hmark : t.dotsLexeme.kind = (Connective.binary .concat).kind := rfl
    have hconcat : Derives .or _ t.tree :=
      Derives.mono (Derives.join hmark hnumber hstring) (by decide)
    exact @Program.cons [] _ [] _ _ (by simp) hconcat (by simp) (.nil (by simp))

theorem constant?_lexeme (t : Numeral) : t.lexeme.constant? = some (.number t.number) := by
  show (Decimal.ofNumeral? t.text).map Value.number = _
  rw [ofNumeral?_text]
  rfl

theorem constant?_emptyLexeme (t : Numeral) : t.emptyLexeme.constant? = some (.string "") := by
  have hdecode :=
    StringLiteral.decode_of_spells (Text.utf8Length t.text + 4) (Spells.nil : Spells '\'' [] [])
  show (StringLiteral.decode (Text.utf8Length t.text + 4) ['\'',
    '\'']).toOption.map Value.string = _
  rw [List.nil_append] at hdecode
  rw [hdecode]
  rfl

theorem acceptable_tree (t : Numeral) : Expr.Acceptable [t.tree] := by
  refine ⟨?_, ?_, ?_, ?_⟩
  · simp only [tree, Expr.leavesAll, Expr.leaves, List.append_nil, List.singleton_append,
      List.forall_mem_cons]
    exact ⟨⟨rfl, fun _ => by rw [constant?_lexeme]; rfl⟩,
      ⟨rfl, fun _ => by rw [constant?_emptyLexeme]; rfl⟩, by simp⟩
  · simp [tree, Expr.nesting]
  · rw [Pool.length_addAll_nil]
    refine (List.dedup_sublist _).length_le.trans ?_
    simp [tree, constant?_lexeme, constant?_emptyLexeme, Chunk.maxConstants]
  · simp [tree, Expr.programParts, Expr.partsNext, Expr.parts, Expr.Fits]

end Numeral

/-- **Short decimals survive a round trip.** A shortest numeral with fourteen significant digits at
most, of zero or of a value from `0.0001` up to, but not including, `10 ^ 14`, is read as a number
that is shown as this numeral. -/
theorem interpret?_of_numeral (t : Numeral) (hdigits : t.precision ≤ 14)
    (h : t.value = 0 ∨ 1 / 10 ^ 4 ≤ t.value ∧ t.value < 10 ^ 14) :
    interpret? (String.ofList (t.text ++ " .. ''".toList)) =
      some (.ok (.string (String.ofList t.text))) := by
  have hsize : (Chunk.ofProgram [t.tree]).code.size ≤ maxStack := by
    rw [size_ofProgram]
    show 3 ≤ 4096
    omega
  have hnumber : t.lexeme.value (Globals.value {}) = .number t.number := by
    show t.lexeme.constant?.getD .nil = _
    rw [t.constant?_lexeme]
    rfl
  have hstring : t.emptyLexeme.value (Globals.value {}) = .string "" := by
    show t.emptyLexeme.constant?.getD .nil = _
    rw [t.constant?_emptyLexeme]
    rfl
  have hvalue : Expr.evalProgram (Globals.value {}) [t.tree] =
      .ok (.string (t.number.display ++ "")) := by
    show t.tree.eval _ = _
    simp only [Numeral.tree, Expr.eval, hnumber, hstring]
    rfl
  rw [interpret?_of_denotes t.denotes_tree t.acceptable_tree hsize, hvalue, String.append_empty,
    t.display_number hdigits h]
  rfl

/-- A tenth, which no number is. -/
theorem interpret?_of_numeral_tenth : interpret? "0.1 .. ''" = some (.ok (.string "0.1")) := by
  obtain ⟨t, hwhole, hfraction⟩ : ∃ t : Numeral, t.whole = ['0'] ∧ t.fraction = ['1'] :=
    ⟨⟨['0'], ['1'], by simp, by simp, by simp,
      fun digits h => by simpa using congrArg List.getLast? h⟩, rfl, rfl⟩
  have htext : t.text = ['0', '.', '1'] := by simp [Numeral.text, hwhole, hfraction]
  have hdigits : t.precision ≤ 14 := by simp [Numeral.precision, hwhole, hfraction]
  have hvalue : t.value = 1 / 10 := by
    simp [Numeral.value, hwhole, hfraction, Decimal.ofDigits, Decimal.digitValue]
  have h := interpret?_of_numeral t hdigits (.inr (by rw [hvalue]; norm_num))
  rw [htext] at h
  exact h

end LuaExpr
