import LuaExpr.Decimal.Digits
import LuaExpr.Lexeme.Basic
import Mathlib
/-!
# Lexemes of a source

What is true of every lexeme that is read from a source, whatever stands around it.

* `Cursor.exists_ofFront_of_mem_outcomes`: each lexeme is a reading of the front of some text.
* `Cursor.kind_ne_eof_of_mem_outcomes`: the end of the source is not among its lexemes.
* `Cursor.ofNumeral?_isSome_of_mem_outcomes`: each number is a numeral, so that it has a value.
-/

namespace LuaExpr

/-! ## Numerals -/

namespace Decimal

variable {whole fraction : List Char}

theorem ofNumeral?_digits (hw : ∀ c ∈ whole, c.isDigit = true) (hne : whole ≠ []) :
    ofNumeral? whole = some (.ofRatio false (ofDigits whole) 1) := by
  have htake : whole.takeWhile Char.isDigit = whole := List.takeWhile_eq_self_iff.mpr hw
  have hdrop : whole.dropWhile Char.isDigit = [] := List.dropWhile_eq_nil_iff.mpr hw
  have hempty : whole.isEmpty = false := by simpa using hne
  simp [ofNumeral?, htake, hdrop, hempty]

theorem ofNumeral?_point (hw : ∀ c ∈ whole, c.isDigit = true)
    (hf : ∀ c ∈ fraction, c.isDigit = true) (hne : whole ≠ [] ∨ fraction ≠ []) :
    ofNumeral? (whole ++ '.' :: fraction) =
      some (.ofRatio false (ofDigits (whole ++ fraction)) (Nat.pow 10 fraction.length)) := by
  have htake : (whole ++ '.' :: fraction).takeWhile Char.isDigit = whole := by
    rw [List.takeWhile_append_of_pos hw]
    simp [Char.isDigit]
  have hdrop : (whole ++ '.' :: fraction).dropWhile Char.isDigit = '.' :: fraction := by
    rw [List.dropWhile_append_of_pos hw]
    simp [Char.isDigit]
  have hempty : (whole.isEmpty && fraction.isEmpty) = false := by
    rcases hne with h | h <;> simp [h]
  have hall : fraction.all Char.isDigit = true := by simpa using hf
  simp only [ofNumeral?, htake, hdrop, hempty, hall]
  rfl

end Decimal

namespace Reading

theorem take_run (p : Char → Bool) (text : List Char) : text.take (run p text) = text.takeWhile p :=
  (List.prefix_iff_eq_take.mp (List.takeWhile_prefix p)).symm

theorem drop_run (p : Char → Bool) (text : List Char) :
    text.drop (run p text) = text.dropWhile p := by
  have h : (text.takeWhile p ++ text.dropWhile p).drop (run p text) = text.dropWhile p :=
    List.drop_left
  rwa [List.takeWhile_append_dropWhile] at h

/-- What a number that began with a digit goes on with: digits, and perhaps a point and digits. -/
theorem take_numberTail (text : List Char) :
    ∃ whole fraction : List Char, (∀ c ∈ whole, c.isDigit = true) ∧
      (∀ c ∈ fraction, c.isDigit = true) ∧
      (text.take (numberTail text) = whole ∨
        text.take (numberTail text) = whole ++ '.' :: fraction) := by
  have hdigits : ∀ t : List Char, ∀ c ∈ t.takeWhile Char.isDigit, c.isDigit = true :=
    fun t c hc => List.mem_takeWhile_imp hc
  rw [numberTail, drop_run]
  split
  case h_1 fraction hdrop =>
    refine ⟨text.takeWhile Char.isDigit, fraction.takeWhile Char.isDigit, hdigits _,
      hdigits _, .inr ?_⟩
    have htext : text = text.takeWhile Char.isDigit ++ '.' :: fraction := by
      rw [← hdrop, List.takeWhile_append_dropWhile]
    rw [Nat.add_assoc]
    calc text.take (run Char.isDigit text + (1 + run Char.isDigit fraction))
      _ = (text.takeWhile Char.isDigit ++ '.' :: fraction).take
            ((text.takeWhile Char.isDigit).length + (1 + run Char.isDigit fraction)) := by
        rw [← htext]; rfl
      _ = text.takeWhile Char.isDigit ++ '.' :: fraction.take (run Char.isDigit fraction) := by
        rw [List.take_length_add_append, Nat.add_comm 1, List.take_succ_cons]
      _ = _ := by rw [take_run]
  case h_2 => exact ⟨_, [], hdigits text, by simp, .inl (take_run _ _)⟩

/-- The kinds that a front of a text may have, with the way in which a number may begin. -/
theorem ofFront_eq_lexeme {c : Char} {rest : List Char} {kind : TokenKind} {more : Nat}
    (h : ofFront c rest = .lexeme kind more) :
    kind = .line ∨ kind = .name ∨ kind = .string ∨ kind = .comment ∨ (∃ k, kind = .keyword k) ∨
      (∃ s, kind = .symbol s) ∨
      kind = .number ∧ ((c.isDigit = true ∧ more = numberTail rest) ∨
        (c = '.' ∧ rest.head?.any Char.isDigit = true ∧ more = run Char.isDigit rest)) := by
  unfold ofFront at h
  split at h
  · simp [← (lexeme.inj h).1]
  split at h
  · simp [← (lexeme.inj h).1]
  split at h
  · have hk := (lexeme.inj h).1
    unfold TokenKind.ofName at hk
    split at hk <;> simp [← hk]
  split at h
  · obtain ⟨rfl, rfl⟩ := lexeme.inj h
    simp_all
  split at h
  · obtain ⟨rfl, rfl⟩ := lexeme.inj h
    simp_all
  split at h
  · unfold string at h
    split at h
    · simp [← (lexeme.inj h).1]
    · cases h
  split at h
  · simp [← (lexeme.inj h).1]
  split at h
  · simp [← (lexeme.inj h).1]
  · cases h

theorem kind_ne_eof_of_ofFront {c : Char} {rest : List Char} {kind : TokenKind} {more : Nat}
    (h : ofFront c rest = .lexeme kind more) : kind ≠ .eof := by
  rcases ofFront_eq_lexeme h with rfl | rfl | rfl | rfl | ⟨_, rfl⟩ | ⟨_, rfl⟩ | ⟨rfl, -⟩ <;> simp

/-- The text of a number is a numeral. -/
theorem ofNumeral?_isSome_of_ofFront {c : Char} {rest : List Char} {more : Nat}
    (h : ofFront c rest = .lexeme .number more) :
    (Decimal.ofNumeral? (c :: rest.take more)).isSome = true := by
  rcases ofFront_eq_lexeme h with hk | hk | hk | hk | ⟨_, hk⟩ | ⟨_, hk⟩ | ⟨-,
    ⟨hc, rfl⟩ | ⟨rfl, hhead, rfl⟩⟩
  iterate 6 cases hk
  · obtain ⟨whole, fraction, hw, hf, htake⟩ := take_numberTail rest
    have hw' : ∀ d ∈ c :: whole, d.isDigit = true := by
      intro d hd
      rcases List.mem_cons.mp hd with rfl | hd
      · exact hc
      · exact hw d hd
    rcases htake with htake | htake <;> rw [htake]
    · exact Option.isSome_of_eq_some (Decimal.ofNumeral?_digits hw' (List.cons_ne_nil _ _))
    · exact Option.isSome_of_eq_some (Decimal.ofNumeral?_point hw' hf (.inl (List.cons_ne_nil _ _)))
  · rw [take_run]
    have hwhole : ∀ d ∈ ([] : List Char), d.isDigit = true := by simp
    refine Option.isSome_of_eq_some (Decimal.ofNumeral?_point hwhole
      (fun d hd => List.mem_takeWhile_imp hd) (.inr ?_))
    cases rest with
    | nil => cases hhead
    | cons d rest =>
      have hd : d.isDigit = true := hhead
      simp [hd]

end Reading

/-! ## Sequences of outcomes -/

namespace Cursor

section Sequences

variable {c d : Cursor} {r : Except LexError Lexeme} {seen : List (Except LexError Lexeme)}

theorem outcomes_go_of_none (h : c.next? = none) : outcomes.go c seen = seen.reverse := by
  rw [outcomes.go]
  split
  · rfl
  · rename_i h'
    rw [h] at h'
    cases h'

theorem outcomes_go_of_some (h : c.next? = some (r, d)) :
    outcomes.go c seen = outcomes.go d (r :: seen) := by
  rw [outcomes.go]
  split
  · rename_i h'
    rw [h] at h'
    cases h'
  · rename_i h'
    obtain ⟨rfl, rfl⟩ := Prod.mk.inj (Option.some.inj (h.symm.trans h'))
    rfl

theorem outcomes_go_eq (c : Cursor) (seen : List (Except LexError Lexeme)) :
    outcomes.go c seen = seen.reverse ++ c.outcomes := by
  induction hn : c.rest.length using Nat.strong_induction_on generalizing c seen with
  | _ n ih =>
    cases h : c.next? with
    | none =>
      rw [outcomes, outcomes_go_of_none h, outcomes_go_of_none h, List.reverse_nil, List.append_nil]
    | some rd =>
      obtain ⟨r, d⟩ := rd
      have hlt := hn ▸ rest_length_lt_of_next?_eq_some h
      rw [outcomes, outcomes_go_of_some h, outcomes_go_of_some h, ih _ hlt d (r :: seen) rfl,
        ih _ hlt d [r] rfl]
      simp

theorem outcomes_of_none (h : c.next? = none) : c.outcomes = [] := outcomes_go_of_none h

theorem outcomes_of_some (h : c.next? = some (r, d)) : c.outcomes = r :: d.outcomes := by
  rw [outcomes, outcomes_go_of_some h, outcomes_go_eq]
  rfl

theorem next?_of_outcomes_eq_nil (h : c.outcomes = []) : c.next? = none := by
  cases hn : c.next? with
  | none => rfl
  | some rd => rw [outcomes_of_some hn] at h; cases h

theorem exists_next?_of_outcomes_eq_cons {rs : List (Except LexError Lexeme)}
    (h : c.outcomes = r :: rs) :
    ∃ d, c.next? = some (r, d) ∧ d.outcomes = rs := by
  cases hn : c.next? with
  | none => rw [outcomes_of_none hn] at h; cases h
  | some rd =>
    rw [outcomes_of_some hn] at h
    obtain ⟨rfl, rfl⟩ := List.cons_eq_cons.mp h
    exact ⟨rd.2, rfl, rfl⟩

end Sequences

/-! ## Lexemes of a source -/

theorem exists_next?_of_mem_outcomes_go {c : Cursor} {seen : List (Except LexError Lexeme)}
    {o : Except LexError Lexeme} (h : o ∈ outcomes.go c seen) :
    o ∈ seen ∨ ∃ c' d, next? c' = some (o, d) := by
  fun_induction outcomes.go c seen with
  | case1 c seen _ => exact .inl (by simpa using h)
  | case2 c seen r d hd ih =>
    rcases ih h with hmem | hnext
    · rcases List.mem_cons.mp hmem with rfl | hmem
      · exact .inr ⟨c, d, hd⟩
      · exact .inl hmem
    · exact .inr hnext

/-- Each lexeme is a reading of the front of some text. -/
theorem exists_ofFront_of_mem_outcomes {c : Cursor} {l : Lexeme} (h : .ok l ∈ c.outcomes) :
    ∃ first rest more, Reading.ofFront first rest = .lexeme l.kind more ∧
      l.text = first :: rest.take more := by
  rcases exists_next?_of_mem_outcomes_go h with hmem | ⟨c', d, hd⟩
  · cases hmem
  · simp only [next?] at hd
    split at hd
    · cases hd
    · rename_i first rest _
      obtain ⟨ho, -⟩ := Prod.mk.inj (Option.some.inj hd)
      cases hr : Reading.ofFront first rest with
      | lexeme kind more =>
        rw [hr, outcome] at ho
        cases ho
        exact ⟨first, rest, more, hr, rfl⟩
      | unterminated more => rw [hr, outcome] at ho; cases ho
      | unexpected => rw [hr, outcome] at ho; cases ho

theorem kind_ne_eof_of_mem_outcomes {c : Cursor} {l : Lexeme} (h : .ok l ∈ c.outcomes) :
    l.kind ≠ .eof := by
  obtain ⟨first, rest, more, hr, -⟩ := exists_ofFront_of_mem_outcomes h
  exact Reading.kind_ne_eof_of_ofFront hr

theorem ofNumeral?_isSome_of_mem_outcomes {c : Cursor} {l : Lexeme} (h : .ok l ∈ c.outcomes)
    (hk : l.kind = .number) : (Decimal.ofNumeral? l.text).isSome = true := by
  obtain ⟨first, rest, more, hr, ht⟩ := exists_ofFront_of_mem_outcomes h
  rw [ht]
  exact Reading.ofNumeral?_isSome_of_ofFront (hk ▸ hr)

end Cursor

end LuaExpr
