import LuaExpr.Proofs.Lexeme.Language
/-!
# The longest lexeme

A lexer takes the longest lexeme at its place, whatever it has read before. If there is none, the
fault says why.

* `IsLongestLexeme`: a text is a lexeme at the front of another one, and no other lexeme there is
  longer.
* `Cursor.IsAt`: a cursor is at a place of a source, between two characters; every reading leaves it
  at one.
* `Lexer.read_longest`: what a lexer reads at any place it comes to.
-/

namespace LuaExpr

/-- A text is a lexeme at the front of another one, and no other lexeme there is longer. -/
structure IsLongestLexeme (source : List Char) (kind : TokenKind) (text : List Char) : Prop where
  front : text <+: source
  isLexeme : IsLexeme kind text
  longest : ∀ kind' text', IsLexeme kind' text' → text' <+: source → text'.length ≤ text.length

/-- A lexeme with nothing after it is read as a whole. -/
theorem IsLexeme.isLongestLexeme {kind : TokenKind} {text : List Char} (h : IsLexeme kind text) :
    IsLongestLexeme text kind text :=
  ⟨List.prefix_rfl, h, fun _ _ _ hp => hp.length_le⟩

/-! ## Readings -/

namespace Reading

variable {c : Char} {rest text : List Char} {kind : TokenKind} {more : Nat}

theorem cons_take_isPrefix (c : Char) (rest : List Char) (n : Nat) :
    c :: rest.take n <+: c :: rest :=
  List.cons_prefix_cons.mpr ⟨rfl, List.take_prefix n rest⟩

theorem isLongestLexeme_of_ofFront (h : ofFront c rest = .lexeme kind more) :
    IsLongestLexeme (c :: rest) kind (c :: rest.take more) := by
  obtain ⟨hlexeme, hmore⟩ := isLexeme_of_ofFront h
  refine ⟨cons_take_isPrefix c rest more, hlexeme, fun kind' text' h' hp => ?_⟩
  obtain ⟨_, _, hof, hlength, -⟩ := covers_of_isLexeme h' hp
  obtain ⟨-, rfl⟩ := lexeme.inj (h.symm.trans hof)
  rw [List.length_cons, List.length_take, Nat.min_eq_left hmore]
  exact hlength

theorem ofFront_of_isLongestLexeme (h : IsLongestLexeme (c :: rest) kind text) :
    ofFront c rest = .lexeme kind (text.length - 1) ∧ text = c :: rest.take (text.length - 1) := by
  obtain ⟨kind', more, hof, hle, hkind⟩ := covers_of_isLexeme h.isLexeme h.front
  obtain ⟨hlexeme, hmore⟩ := isLexeme_of_ofFront hof
  have hlength : (c :: rest.take more).length = more + 1 := by
    rw [List.length_cons, List.length_take, Nat.min_eq_left hmore]
  have hge := h.longest kind' _ hlexeme (cons_take_isPrefix c rest more)
  have heq : text.length = more + 1 := by omega
  obtain rfl := hkind heq
  rw [heq, Nat.add_sub_cancel]
  refine ⟨hof, ?_⟩
  exact (List.prefix_of_prefix_length_le h.front (cons_take_isPrefix c rest more)
    (by omega)).eq_of_length (by omega)

theorem isQuote_of_ofFront_eq_unterminated (h : ofFront c rest = .unterminated more) :
    isQuote c = true := by
  unfold ofFront at h
  split at h
  · cases h
  split at h
  · cases h
  split at h
  · cases h
  split at h
  · cases h
  split at h
  · cases h
  split at h
  · assumption
  split at h
  · cases h
  · split at h <;> cases h

/-- A text that begins with a quote and with no string is a string without an end. -/
theorem exists_ofFront_eq_unterminated (hq : isQuote c = true)
    (h : ∀ text, IsLexeme .string text → ¬ text <+: c :: rest) :
    ∃ more, ofFront c rest = .unterminated more := by
  rw [ofFront_of_isQuote hq]
  unfold string
  split
  · rename_i n hbody
    obtain ⟨body, tail, rfl, hbody, -⟩ := exists_stringBody hbody
    refine absurd ?_ (h _ (.string (isQuote_iff.mp hq) hbody))
    exact List.cons_prefix_cons.mpr ⟨rfl, tail, by simp⟩
  · exact ⟨_, rfl⟩

/-- A text that begins neither with a quote nor with a lexeme begins with a character that no lexeme
begins with. -/
theorem ofFront_eq_unexpected (hq : isQuote c = false)
    (h : ∀ kind text, IsLexeme kind text → ¬ text <+: c :: rest) :
    ofFront c rest = .unexpected := by
  cases hof : ofFront c rest with
  | lexeme kind more =>
    exact absurd (cons_take_isPrefix c rest more) (h kind _ (isLexeme_of_ofFront hof).1)
  | unterminated more =>
    rw [isQuote_of_ofFront_eq_unterminated hof] at hq
    cases hq
  | unexpected => rfl

end Reading

/-- Where there is a lexeme, there is a longest one. -/
theorem exists_isLongestLexeme {source text : List Char} {kind : TokenKind} (h : IsLexeme kind text)
    (hp : text <+: source) : ∃ kind' text', IsLongestLexeme source kind' text' := by
  obtain ⟨c, tail, rfl, -⟩ := h.exists_eq_cons
  obtain ⟨more, rfl⟩ := hp
  obtain ⟨kind', _, hof, -⟩ := Reading.covers_of_isLexeme h (List.prefix_append _ more)
  exact ⟨kind', _, Reading.isLongestLexeme_of_ofFront hof⟩

/-! ## Cursors -/

namespace Cursor

variable {source : String} {c : Cursor} {first : Char} {rest : List Char}

theorem next?_of_nil (h : c.skipBlanks.rest = []) : c.next? = none := by
  simp only [next?, h]

theorem next?_of_cons (h : c.skipBlanks.rest = first :: rest) : c.next? =
    some (outcome c.skipBlanks.offset first rest (Reading.ofFront first rest),
      c.skipBlanks.drop ((Reading.ofFront first rest).more + 1)) := by
  simp only [next?, h]

theorem next_of_none (h : c.next? = none) :
    c.next = (.ok (.eof c.skipBlanks.offset), c.skipBlanks) := by
  rw [next, h]

theorem next_of_some {r : Except LexError Lexeme × Cursor} (h : c.next? = some r) : c.next = r := by
  rw [next, h]

/-- Skipping passes over the blanks at a place and over nothing else. -/
theorem exists_skipBlanks (c : Cursor) : ∃ blanks, c.rest = blanks ++ c.skipBlanks.rest ∧
    c.skipBlanks.offset = c.offset + Text.utf8Length blanks ∧ (∀ d ∈ blanks, d = ' ' ∨ d = '\t') ∧
    ∀ d ∈ c.skipBlanks.rest.head?, d ≠ ' ' ∧ d ≠ '\t' := by
  refine ⟨c.rest.takeWhile Reading.isBlank, ?_, ?_, fun d hd => ?_, fun d hd => ?_⟩
  · rw [skipBlanks, drop, Reading.drop_run, List.takeWhile_append_dropWhile]
  · rw [skipBlanks, drop, Reading.take_run]
  · have := List.mem_takeWhile_imp hd
    simpa [Reading.isBlank] using this
  · rw [skipBlanks, drop, Reading.drop_run] at hd
    have hne : c.rest.dropWhile Reading.isBlank ≠ [] := by
      intro hnil
      rw [hnil] at hd
      cases hd
    have hhead : Reading.isBlank ((c.rest.dropWhile Reading.isBlank).head hne) = false :=
      List.head_dropWhile_not _ hne
    rw [← List.head_eq_iff_head?_eq_some hne |>.mpr hd]
    simpa [Reading.isBlank] using hhead

/-- A cursor is at a place of a source: after some of its characters, the bytes of which it has
counted. -/
def IsAt (source : String) (c : Cursor) : Prop :=
  ∃ passed, source.toList = passed ++ c.rest ∧ c.offset = Text.utf8Length passed

theorem isAt_ofSource (source : String) : (ofSource source).IsAt source := ⟨[], rfl, rfl⟩

theorem IsAt.drop (h : c.IsAt source) (n : Nat) : (c.drop n).IsAt source := by
  obtain ⟨passed, hsource, hoffset⟩ := h
  refine ⟨passed ++ c.rest.take n, ?_, ?_⟩
  · rw [hsource, Cursor.drop, List.append_assoc, List.take_append_drop]
  · rw [Cursor.drop, Text.utf8Length_append, hoffset]

/-- A reading leaves the cursor at a place of its source. -/
theorem IsAt.next (h : c.IsAt source) : c.next.2.IsAt source := by
  have hskip : c.skipBlanks.IsAt source := h.drop _
  cases hrest : c.skipBlanks.rest with
  | nil =>
    rw [next_of_none (next?_of_nil hrest)]
    exact hskip
  | cons first rest =>
    rw [next_of_some (next?_of_cons hrest)]
    exact hskip.drop _

/-- The longest lexeme at a place is what is read there. -/
theorem next?_of_isLongestLexeme {kind : TokenKind} {text : List Char}
    (h : IsLongestLexeme c.skipBlanks.rest kind text) :
    c.next? = some (.ok { kind, start := c.skipBlanks.offset, text },
      c.skipBlanks.drop text.length) := by
  cases hrest : c.skipBlanks.rest with
  | nil =>
    rw [hrest] at h
    obtain ⟨first, more, rfl, -⟩ := h.isLexeme.exists_eq_cons
    exact absurd h.front (by simp)
  | cons first rest =>
    rw [hrest] at h
    obtain ⟨hof, htext⟩ := Reading.ofFront_of_isLongestLexeme h
    have hlength : text.length - 1 + 1 = text.length := by
      rw [htext]
      rfl
    rw [next?_of_cons hrest, hof, outcome, ← htext, Reading.more, hlength]

theorem outcomes_of_isLexeme {kind : TokenKind} {text : List Char} (h : IsLexeme kind text)
    (offset : Nat) :
    outcomes { rest := text, offset } = [.ok { kind, start := offset, text }] := by
  have hskip : skipBlanks { rest := text, offset } = { rest := text, offset } := by
    obtain ⟨c, rest, rfl, hc⟩ := h.exists_eq_cons
    have hrun : Reading.run Reading.isBlank (c :: rest) = 0 := by simp [Reading.run, hc]
    rw [skipBlanks, hrun]
    rfl
  have hlongest : IsLongestLexeme (skipBlanks { rest := text, offset }).rest kind text := by
    rw [hskip]
    exact h.isLongestLexeme
  have hnext := next?_of_isLongestLexeme hlongest
  rw [hskip] at hnext
  rw [outcomes_of_some hnext, outcomes_of_none]
  exact next?_of_nil (by simp [skipBlanks, drop])

end Cursor

/-! ## Lexers -/

namespace Lexer

/-- The lexer of a source after a number of readings. -/
def after (source : String) (n : Nat) : Lexer := (fun l => l.read.2)^[n] (.ofSource source)

theorem after_succ (source : String) (n : Nat) : after source (n + 1) = (after source n).read.2 :=
  Function.iterate_succ_apply' _ _ _

theorem isAt_after (source : String) (n : Nat) : (after source n).cursor.IsAt source := by
  induction n with
  | zero => exact Cursor.isAt_ofSource source
  | succ n ih =>
    rw [after_succ]
    exact ih.next

/-- **The longest lexeme.** After any number of readings a lexer is at a place of its source. The
next reading skips the blanks there. It is the end of the source if nothing else is left, and the
longest lexeme if there is a lexeme; then the lexer is at the place after it. If there is none, it
is a string without an end or a character that no lexeme begins with, and there is nothing else that
it can be. -/
theorem read_longest (source : String) (n : Nat) : ∃ passed blanks rest offset,
    source.toList = passed ++ (blanks ++ rest) ∧
      (after source n).cursor = ⟨blanks ++ rest, Text.utf8Length passed⟩ ∧
    (∀ c ∈ blanks, c = ' ' ∨ c = '\t') ∧ (∀ c ∈ rest.head?, c ≠ ' ' ∧ c ≠ '\t') ∧
    offset = Text.utf8Length (passed ++ blanks) ∧
    (rest = [] → (after source n).read.1 = .ok (.eof offset)) ∧
    (∀ kind text, IsLexeme kind text → text <+: rest →
      ∃ kind' text', IsLongestLexeme rest kind' text') ∧
    (∀ kind text, IsLongestLexeme rest kind text →
      (after source n).read.1 = .ok { kind, start := offset, text } ∧
        (after source (n + 1)).cursor = ⟨rest.drop text.length, offset + Text.utf8Length text⟩) ∧
    (∀ quote more, rest = quote :: more → quote = '"' ∨ quote = '\'' →
      (∀ text, IsLexeme .string text → ¬ text <+: rest) →
      (after source n).read.1 = .error (.unterminatedString offset)) ∧
    (∀ c more, rest = c :: more → c ≠ '"' ∧ c ≠ '\'' →
      (∀ kind text, IsLexeme kind text → ¬ text <+: rest) →
      (after source n).read.1 = .error (.unexpectedCharacter c offset)) := by
  obtain ⟨passed, hsource, hoffset⟩ := isAt_after source n
  obtain ⟨blanks, hrest, hskipped, hblanks, hhead⟩ := (after source n).cursor.exists_skipBlanks
  rw [after_succ]
  generalize (after source n) = l at *
  have hat : l.cursor.skipBlanks.offset = Text.utf8Length (passed ++ blanks) := by
    rw [hskipped, hoffset, Text.utf8Length_append]
  refine ⟨passed, blanks, l.cursor.skipBlanks.rest, _, ?_, ?_, hblanks, hhead, rfl, ?_,
    ?_, ?_, ?_, ?_⟩
  · rw [hsource, hrest]
  · rw [← hrest, ← hoffset]
  · intro hnil
    rw [read, Cursor.next_of_none (Cursor.next?_of_nil hnil), hat]
  · exact fun kind text h hp => exists_isLongestLexeme h hp
  · intro kind text h
    have hnext := Cursor.next_of_some (Cursor.next?_of_isLongestLexeme h)
    rw [hat] at hnext
    obtain ⟨more, hmore⟩ := h.front
    refine ⟨by rw [read, hnext], ?_⟩
    show l.cursor.next.2 = _
    rw [hnext, Cursor.drop, hat, ← hmore, List.take_left]
  · intro quote more hcons hq hnone
    rw [hcons] at hnone
    obtain ⟨k, hof⟩ := Reading.exists_ofFront_eq_unterminated (Reading.isQuote_iff.mpr hq) hnone
    rw [read, Cursor.next_of_some (Cursor.next?_of_cons hcons), hof, hat]
    rfl
  · intro c more hcons hq hnone
    rw [hcons] at hnone
    have hof := Reading.ofFront_eq_unexpected (by simpa [Reading.isQuote] using hq) hnone
    rw [read, Cursor.next_of_some (Cursor.next?_of_cons hcons), hof, hat]
    rfl

end Lexer

end LuaExpr
