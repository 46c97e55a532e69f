import LuaExpr.Proofs.Lexeme.Insertion
/-!
# Texts that go on

What is read of a text that ends with a line feed is read of it also if more text comes after it:
the line feed ends all lexemes. Only a string without an end may go on, if the line feed has a
backslash before it.

* `IsLongestLexeme.extended`: a lexeme in front of the line feed, or with it, stays the longest one.
* `Reading.ofFront_eq_unexpected_of`: what follows a character that no lexeme begins with does not
  matter.
* `Continues`: some lexemes and faults begin others, up to a string without an end.
* `Cursor.continues_outcomes`: a text that ends with a line feed and goes on.
-/

namespace LuaExpr

/-! ## Lexemes -/

/-- The first character of a lexeme is a lexeme by itself, if it is not the quote of a string. -/
theorem IsLexeme.exists_singleton {kind : TokenKind} {c : Char} {rest : List Char}
    (h : IsLexeme kind (c :: rest)) (hq : Reading.isQuote c = false) :
    ∃ kind', IsLexeme kind' [c] := by
  have hword : ∀ {d : Char}, Reading.isNameStart d = true → ∃ kind', IsLexeme kind' [d] :=
    fun hd => ⟨_, (Reading.isLexeme_of_ofFront (Reading.ofFront_of_isNameStart hd [])).1⟩
  have hdigit : ∀ {whole : List Char}, whole ≠ [] → (∀ d ∈ whole, d.isDigit = true) →
      ∀ d ∈ whole.head?, ∃ kind', IsLexeme kind' [d] := fun _ hw d hd =>
    ⟨_, .whole (List.cons_ne_nil _ _) (by simpa using hw d (List.mem_of_mem_head? hd))⟩
  generalize htext : c :: rest = text at h
  cases h with
  | symbol s =>
    have hall : ∀ s ∈ Symbol.all, ∃ t ∈ Symbol.all, t.text.toList = s.text.toList.take 1 := by
      decide
    obtain ⟨t, -, ht⟩ := hall s s.mem_all
    rw [← htext] at ht
    have := IsLexeme.symbol t
    rw [ht] at this
    exact ⟨_, this⟩
  | keyword k =>
    obtain ⟨d, t, htk, hd, -⟩ := k.exists_text_eq_cons
    obtain ⟨rfl, -⟩ := List.cons_eq_cons.mp (htext.trans htk)
    exact hword hd
  | name hc _ _ =>
    obtain ⟨rfl, -⟩ := List.cons_eq_cons.mp htext
    exact hword (by simpa [Reading.isNameStart] using hc)
  | whole hne hw => exact hdigit hne hw c (by rw [← htext]; rfl)
  | @point whole fraction hne hw _ =>
    obtain ⟨d, whole, rfl⟩ := List.exists_cons_of_ne_nil hne
    obtain ⟨rfl, -⟩ := List.cons_eq_cons.mp htext
    exact hdigit hne hw c rfl
  | string hq' _ =>
    obtain ⟨rfl, -⟩ := List.cons_eq_cons.mp htext
    rw [Reading.isQuote_iff.mpr hq'] at hq
    cases hq
  | lineFeed =>
    obtain ⟨rfl, -⟩ := List.cons_eq_cons.mp htext
    exact ⟨_, .lineFeed⟩
  | carriageReturn =>
    obtain ⟨rfl, -⟩ := List.cons_eq_cons.mp htext
    exact ⟨_, .carriageReturn⟩
  | carriageReturnLineFeed =>
    obtain ⟨rfl, -⟩ := List.cons_eq_cons.mp htext
    exact ⟨_, .carriageReturn⟩
  | comment _ =>
    obtain ⟨rfl, -⟩ := List.cons_eq_cons.mp htext
    exact ⟨_, .symbol .minus⟩
  | fraction _ _ =>
    obtain ⟨rfl, -⟩ := List.cons_eq_cons.mp htext
    exact ⟨_, .symbol .dot⟩

/-- What follows a character that no lexeme begins with does not matter. -/
theorem Reading.ofFront_eq_unexpected_of {c : Char} {rest : List Char}
    (h : ofFront c rest = .unexpected) (rest' : List Char) : ofFront c rest' = .unexpected := by
  have hq : isQuote c = false := by
    rw [← Bool.not_eq_true]
    intro hq
    rw [ofFront_of_isQuote hq, string] at h
    split at h <;> cases h
  refine ofFront_eq_unexpected hq fun kind text hlexeme hp => ?_
  obtain ⟨d, text, rfl, -⟩ := hlexeme.exists_eq_cons
  obtain rfl := (List.cons_prefix_cons.mp hp).1
  obtain ⟨kind', hd⟩ := hlexeme.exists_singleton hq
  obtain ⟨_, _, hof, -⟩ := covers_of_isLexeme hd (List.cons_prefix_cons.mpr ⟨rfl, List.nil_prefix⟩)
  rw [h] at hof
  cases hof

/-- A lexeme that ends with a line feed is a line break. -/
theorem IsLexeme.line_of_concat {kind : TokenKind} {source : List Char}
    (h : IsLexeme kind (source ++ ['\n'])) :
    kind = .line ∧ (source = [] ∨ source = ['\r']) := by
  by_cases hne : source = []
  · subst hne
    have hof : Reading.ofFront '\n' [] = _ :=
      (Reading.ofFront_of_isLongestLexeme h.isLongestLexeme).1
    exact ⟨(Reading.lexeme.inj (hof.symm.trans (Reading.ofFront_lineFeed []))).1, .inl rfl⟩
  rcases h.gap_inside (.inl rfl) hne with ⟨rfl, -⟩ | ⟨text, htext, heq⟩ | ⟨quote, body, hq, -, heq⟩
  · have hof : Reading.ofFront '\r' ['\n'] = _ :=
      (Reading.ofFront_of_isLongestLexeme h.isLongestLexeme).1
    exact ⟨(Reading.lexeme.inj (hof.symm.trans (Reading.ofFront_carriageReturn ['\n']))).1,
      .inr rfl⟩
  · have hmem : '\n' ∈ '-' :: '-' :: text := by simp [← heq]
    exact absurd rfl (htext '\n' (by simpa using hmem)).1
  · rw [← List.cons_append] at heq
    have hlast := (List.append_inj' heq rfl).2
    rcases hq with rfl | rfl <;> cases hlast

/-- **A lexeme of a text that ends with a line feed** stays the longest one if the text goes on. -/
theorem IsLongestLexeme.extended {kind : TokenKind} {source text : List Char}
    (h : IsLongestLexeme (source ++ ['\n']) kind text) (more : List Char) :
    IsLongestLexeme (source ++ '\n' :: more) kind text := by
  by_cases hp : text <+: source
  · refine h.interrupted hp (.inl rfl) (fun hboth => ?_) (fun _ _ => rfl) more
    have hle :=
      h.longest .line ['\r', '\n'] .carriageReturnLineFeed (by rw [hboth.1]; exact List.prefix_rfl)
    have := hp.length_le
    rw [hboth.1] at this
    exact absurd (hle.trans this) (by decide)
  · obtain rfl : text = source ++ ['\n'] := by
      rcases List.prefix_concat_iff.mp h.front with heq | hfront
      · exact heq
      · exact absurd hfront hp
    obtain ⟨rfl, rfl | rfl⟩ := h.isLexeme.line_of_concat
    · exact Reading.isLongestLexeme_of_ofFront (Reading.ofFront_lineFeed more)
    · exact Reading.isLongestLexeme_of_ofFront (Reading.ofFront_carriageReturn ('\n' :: more))

/-! ## Sequences of outcomes -/

/-- Some lexemes and faults are the first ones of others, up to a string without an end: it and what
comes after it may be read in another way. -/
inductive Continues : List (Except LexError Lexeme) → List (Except LexError Lexeme) → Prop
  | nil (os : List (Except LexError Lexeme)) : Continues [] os
  | cut (offset : Nat) (os os' : List (Except LexError Lexeme)) :
      Continues (.error (.unterminatedString offset) :: os) os'
  | cons (o : Except LexError Lexeme) {os os' : List (Except LexError Lexeme)}
      (h : Continues os os') :
      Continues (o :: os) (o :: os')

namespace Cursor

theorem skipBlanks_of_head? {source : List Char}
    (hs : ∀ c ∈ source.head?, Reading.isBlank c = false) (offset : Nat) :
    skipBlanks { rest := source, offset } = { rest := source, offset } :=
  skipBlanks_append (List.forall_mem_nil _) hs offset

theorem outcomes_unexpected {c : Char} {rest : List Char} (hc : Reading.isBlank c = false)
    (h : Reading.ofFront c rest = .unexpected) (offset : Nat) :
    outcomes { rest := c :: rest, offset } =
      .error (.unexpectedCharacter c offset) ::
        outcomes { rest, offset := offset + c.utf8Size } := by
  have hskip : skipBlanks { rest := c :: rest, offset } = _ :=
    skipBlanks_of_head? (by simpa using hc) offset
  have hnext := next?_of_cons (c := { rest := c :: rest, offset }) (congrArg Cursor.rest hskip)
  rw [hskip, h] at hnext
  exact outcomes_of_some hnext

/-- **A text that ends with a line feed and goes on.** What is read of it is read also if more text
comes after it. -/
theorem continues_outcomes {text : List Char} (hlast : ∀ c ∈ text.getLast?, c = '\n')
    (more : List Char) (offset : Nat) :
    Continues (outcomes { rest := text, offset }) (outcomes { rest := text ++ more, offset }) := by
  induction hn : text.length using Nat.strong_induction_on generalizing text offset with
  | _ n ih =>
    by_cases hblank : ∀ c ∈ text, Reading.isBlank c = true
    · have hnil := outcomes_blanks hblank [] offset
      rw [List.append_nil] at hnil
      rw [hnil, outcomes_of_none (next?_of_rest_eq_nil (c := { rest := [], offset := _ }) rfl)]
      exact .nil _
    obtain ⟨blanks, source, rfl, hb, hne, hs⟩ := exists_blanks_append hblank
    rw [List.append_assoc, outcomes_blanks hb, outcomes_blanks hb]
    generalize offset + Text.utf8Length blanks = start
    have hlast' : ∀ c ∈ source.getLast?, c = '\n' := fun c hc => hlast c (by
      rw [List.getLast?_append_of_ne_nil _ hne]
      exact hc)
    -- what is left after a lexeme or a character ends with the line feed, too
    have hrest : ∀ k, 0 < k →
        ∀ start, Continues (outcomes { rest := source.drop k, offset := start })
        (outcomes { rest := source.drop k ++ more, offset := start }) := by
      intro k hk start
      refine ih (source.drop k).length ?_ (fun c hc => hlast' c ?_) start rfl
      · have := List.length_pos_of_ne_nil hne
        rw [← hn, List.length_drop, List.length_append]
        omega
      · rw [List.getLast?_drop] at hc
        split at hc
        · cases hc
        · exact hc
    obtain ⟨first, rest, rfl⟩ := List.exists_cons_of_ne_nil hne
    have hfirst : Reading.isBlank first = false := hs first rfl
    cases hof : Reading.ofFront first rest with
    | lexeme kind k =>
      obtain ⟨front, hfront⟩ : ∃ front, first :: rest = front ++ ['\n'] := by
        refine ⟨(first :: rest).dropLast, ?_⟩
        have := hlast' _ (List.getLast?_eq_some_getLast hne)
        rw [← this, List.dropLast_append_getLast]
      have hlongest := Reading.isLongestLexeme_of_ofFront hof
      have hextended : IsLongestLexeme (first :: rest ++ more) kind (first :: rest.take k) := by
        rw [hfront] at hlongest ⊢
        rw [List.append_assoc]
        exact hlongest.extended more
      rw [outcomes_of_some (next?_of_front hlongest start),
        outcomes_of_some (next?_of_front hextended start),
        List.drop_append_of_le_length hlongest.front.length_le]
      exact .cons _ (hrest _ (Nat.succ_pos _) _)
    | unterminated k =>
      have hskip := skipBlanks_of_head? hs start
      have hnext :=
        next?_of_cons (c := { rest := first :: rest, offset := start }) (congrArg Cursor.rest hskip)
      rw [hof, hskip] at hnext
      rw [outcomes_of_some hnext]
      exact .cut _ _ _
    | unexpected =>
      rw [outcomes_unexpected hfirst hof, List.cons_append,
        outcomes_unexpected hfirst (Reading.ofFront_eq_unexpected_of hof _)]
      exact .cons _ (hrest 1 Nat.one_pos _)

end Cursor

end LuaExpr
