import LuaExpr.Proofs.Lexeme.Insertion
/-!
# Places of lexemes and faults

What a lexer yields stands in its source at the offset that it says, between characters of the
source, so that offsets and lengths in bytes find it again.

* `Text.slice?_append`: the bytes of a part of a text are a slice of it.
* `StandsAt`: some characters stand in a source at an offset.
* `Lexer.Yields`: some reading of a source yields a lexeme or a fault;
  `Lexer.yields_of_mem_outcomes`: all that the compiler gets to see is yielded.
* `Lexer.Yields.cases`: what can be yielded, and where it stands.
* `StringLiteral.standsAt_of_decode`: the backslash that a fault in a string literal is about.
-/

namespace LuaExpr

/-! ## Slices -/

namespace Text

variable (s t u : List Char)

theorem utf8Length_toList (source : String) : utf8Length source.toList = source.utf8ByteSize := by
  have h : ∀ text : List Char, utf8Length text = String.utf8Len text := by
    intro text
    induction text with
    | nil => rfl
    | cons c text ih => rw [utf8Length_cons, ih, String.utf8Len, Nat.add_comm]
  rw [h, ← String.utf8ByteSize_ofList, String.ofList_toList]

theorem splitBytes?_go_append (passed : List Char) :
    splitBytes?.go (utf8Length s) passed (s ++ t) = some (passed.reverse ++ s, t) := by
  induction s generalizing passed with
  | nil => cases t <;> simp [splitBytes?.go]
  | cons c s ih =>
    have hpos : c.utf8Size + utf8Length s ≠ 0 := Nat.ne_of_gt (Nat.add_pos_left c.utf8Size_pos _)
    rw [List.cons_append, utf8Length_cons, splitBytes?.go, if_neg hpos,
      if_pos (Nat.le_add_right _ _), Nat.add_sub_cancel_left, ih]
    simp

/-- The bytes of a part of a text are a slice of it. -/
theorem slice?_append : slice? (s ++ (t ++ u)) (utf8Length s) (utf8Length t) = some t := by
  rw [slice?, splitBytes?, splitBytes?_go_append]
  show (splitBytes?.go (utf8Length t) [] (t ++ u)).map (·.1) = some t
  rw [splitBytes?_go_append]
  rfl

end Text

/-! ## Places -/

/-- Some characters stand in a source at an offset. -/
def StandsAt (source : String) (text : List Char) (offset : Nat) : Prop :=
  ∃ before after, source.toList = before ++ (text ++ after) ∧ offset = Text.utf8Length before

namespace StandsAt

variable {source : String} {text s t : List Char} {offset : Nat}

/-- What stands in a source is found again by its offset and its length. -/
theorem slice? (h : StandsAt source text offset) :
    Text.slice? source.toList offset (Text.utf8Length text) = some text := by
  obtain ⟨before, after, hsource, rfl⟩ := h
  rw [hsource, Text.slice?_append]

theorem left (h : StandsAt source (s ++ t) offset) : StandsAt source s offset := by
  obtain ⟨before, after, hsource, rfl⟩ := h
  exact ⟨before, t ++ after, by rw [hsource, List.append_assoc], rfl⟩

theorem right (h : StandsAt source (s ++ t) offset) :
    StandsAt source t (offset + Text.utf8Length s) := by
  obtain ⟨before, after, hsource, rfl⟩ := h
  exact ⟨before ++ s, after, by rw [hsource]; simp, (Text.utf8Length_append _ _).symm⟩

theorem le_size (h : StandsAt source text offset) :
    offset + Text.utf8Length text ≤ source.utf8ByteSize := by
  obtain ⟨before, after, hsource, rfl⟩ := h
  rw [← Text.utf8Length_toList, hsource, Text.utf8Length_append, Text.utf8Length_append,
    ← Nat.add_assoc]
  exact Nat.le_add_right _ _

/-- Nothing stands at the end of a source. -/
theorem nil_size (source : String) : StandsAt source [] source.utf8ByteSize :=
  ⟨source.toList, [], by simp, (Text.utf8Length_toList source).symm⟩

end StandsAt

/-! ## What lexers yield -/

namespace Lexer

variable {source : String} {l : Lexeme} {o : Except LexError Lexeme}

/-- Some reading of a source yields a lexeme or a fault. -/
def Yields (source : String) (o : Except LexError Lexeme) : Prop := ∃ n, (after source n).read.1 = o

theorem isAt_skipBlanks_after (source : String) (n : Nat) :
    (after source n).cursor.skipBlanks.IsAt source :=
  (isAt_after source n).drop _

theorem yields_of_mem_outcomes_after {os : List (Except LexError Lexeme)} {n : Nat}
    (h : (after source n).cursor.outcomes = os) : ∀ o ∈ os, Yields source o := by
  induction os generalizing n with
  | nil =>
    intro o ho
    cases ho
  | cons r os ih =>
    obtain ⟨d, hd, hos⟩ := Cursor.exists_next?_of_outcomes_eq_cons h
    have hnext := Cursor.next_of_some hd
    have hcursor : (after source (n + 1)).cursor = d := by
      rw [after_succ]
      exact congrArg Prod.snd hnext
    intro o ho
    rcases List.mem_cons.mp ho with rfl | ho
    · exact ⟨n, congrArg Prod.fst hnext⟩
    · exact ih (hcursor ▸ hos) o ho

/-- All lexemes and faults of a source are yielded. -/
theorem yields_of_mem_outcomes (h : o ∈ (Cursor.ofSource source).outcomes) : Yields source o :=
  yields_of_mem_outcomes_after (n := 0) rfl o h

/-- The end of a source is yielded, after as many readings as there are lexemes and faults. -/
theorem yields_eof (source : String) : Yields source (.ok (.eof source.utf8ByteSize)) := by
  have hend : ∀ (os : List (Except LexError Lexeme)) (n : Nat),
      (after source n).cursor.outcomes = os →
      ∃ m, (after source m).cursor.next? = none := by
    intro os
    induction os with
    | nil => exact fun n h => ⟨n, Cursor.next?_of_outcomes_eq_nil h⟩
    | cons r os ih =>
      intro n h
      obtain ⟨d, hd, hos⟩ := Cursor.exists_next?_of_outcomes_eq_cons h
      refine ih (n + 1) ?_
      rw [after_succ]
      show (after source n).cursor.next.2.outcomes = os
      rw [Cursor.next_of_some hd, hos]
  obtain ⟨m, hm⟩ := hend _ 0 rfl
  obtain ⟨passed, hsource, hoffset⟩ := isAt_skipBlanks_after source m
  rw [Cursor.rest_skipBlanks_of_none hm, List.append_nil] at hsource
  refine ⟨m, ?_⟩
  show (after source m).cursor.next.1 = _
  rw [Cursor.next_of_none hm, hoffset, ← hsource, Text.utf8Length_toList]

/-- **What a reading yields**: the end of the source, a lexeme that stands there, or a fault about
what stands there. -/
theorem Yields.cases (h : Yields source o) :
    o = .ok (.eof source.utf8ByteSize) ∨
      (∃ l : Lexeme, o = .ok l ∧ IsLexeme l.kind l.text ∧ StandsAt source l.text l.start) ∨
      (∃ c offset, o = .error (.unexpectedCharacter c offset) ∧ StandsAt source [c] offset) ∨
      ∃ c offset, o = .error (.unterminatedString offset) ∧ (c = '"' ∨ c = '\'') ∧
        StandsAt source [c] offset := by
  obtain ⟨n, rfl⟩ := h
  obtain ⟨passed, hsource, hoffset⟩ := isAt_skipBlanks_after source n
  have hread : (after source n).read.1 = (after source n).cursor.next.1 := rfl
  rw [hread]
  cases hrest : (after source n).cursor.skipBlanks.rest with
  | nil =>
    rw [hrest, List.append_nil] at hsource
    rw [Cursor.next_of_none (Cursor.next?_of_nil hrest), hoffset, ← hsource, Text.utf8Length_toList]
    exact .inl rfl
  | cons first rest =>
    have hfirst : StandsAt source [first] (after source n).cursor.skipBlanks.offset :=
      ⟨passed, rest, by rw [hsource, hrest]; rfl, hoffset⟩
    rw [Cursor.next_of_some (Cursor.next?_of_cons hrest)]
    cases hof : Reading.ofFront first rest with
    | lexeme kind more =>
      refine .inr (.inl ⟨_, rfl, (Reading.isLexeme_of_ofFront hof).1, passed, rest.drop more,
        ?_, hoffset⟩)
      rw [hsource, hrest, List.cons_append, List.take_append_drop]
    | unterminated more =>
      have hquote := Reading.isQuote_iff.mp (Reading.isQuote_of_ofFront_eq_unterminated hof)
      exact .inr (.inr (.inr ⟨first, _, rfl, hquote, hfirst⟩))
    | unexpected => exact .inr (.inr (.inl ⟨first, _, rfl, hfirst⟩))

/-- A lexeme that is yielded stands where it says. -/
theorem Yields.standsAt (h : Yields source (.ok l)) : StandsAt source l.text l.start := by
  rcases h.cases with h | ⟨k, h, -, hk⟩ | ⟨c, offset, h, -⟩ | ⟨c, offset, h, -⟩
  · cases h
    exact .nil_size source
  · cases h
    exact hk
  · cases h
  · cases h

/-- A lexeme that is yielded and is not the end of the source is a lexeme of its kind. -/
theorem Yields.isLexeme (h : Yields source (.ok l)) (hk : l.kind ≠ .eof) :
    IsLexeme l.kind l.text := by
  rcases h.cases with h | ⟨k, h, hk, -⟩ | ⟨c, offset, h, -⟩ | ⟨c, offset, h, -⟩
  · cases h
    exact absurd rfl hk
  · cases h
    exact hk
  · cases h
  · cases h

/-- The end of a source is yielded at its end. -/
theorem Yields.eq_eof (h : Yields source (.ok l)) (hk : l.kind = .eof) :
    l = .eof source.utf8ByteSize := by
  rcases h.cases with h | ⟨k, h, hlexeme, -⟩ | ⟨c, offset, h, -⟩ | ⟨c, offset, h, -⟩
  · exact Except.ok.inj h
  · cases h
    rw [hk] at hlexeme
    cases hlexeme
  · cases h
  · cases h

end Lexer

/-! ## Escapes -/

namespace Piece

/-- The pieces of a body are all of it. -/
theorem flatMap_spelled_ofBody (body : List Char) : (ofBody body).flatMap spelled = body := by
  rw [ofBody]
  have h : ∀ found : List Piece, (ofBody.go found body).flatMap spelled =
      found.reverse.flatMap spelled ++ body := by
    intro found
    fun_induction ofBody.go found body with
    | case1 found => simp
    | case2 found rest n ih =>
      rw [ih, List.reverse_cons, List.flatMap_append, List.append_assoc]
      simp [spelled, n]
    | case3 found c rest _ ih =>
      rw [ih, List.reverse_cons, List.flatMap_append, List.append_assoc]
      simp [spelled]
  simpa using h []

/-- The first piece that stands for nothing is a backslash with a mark after it, and the fault is
about them. -/
theorem exists_escape_of_decodeAll_go {offset : Nat} {found : List Char} {pieces : List Piece}
    {e : ParseError} (h : decodeAll.go offset found pieces = .error e) :
    ∃ before mark rest after, pieces = before ++ escape (mark :: rest) :: after ∧
      e = .invalidEscape (offset + Text.utf8Length (before.flatMap spelled)) mark := by
  induction pieces generalizing offset found with
  | nil => cases h
  | cons p pieces ih =>
    cases hp : p.decode? with
    | some c =>
      simp only [decodeAll.go, hp] at h
      obtain ⟨before, mark, rest, after, rfl, rfl⟩ := ih h
      refine ⟨p :: before, mark, rest, after, rfl, ?_⟩
      rw [List.flatMap_cons, Text.utf8Length_append, Nat.add_assoc]
    | none =>
      cases p with
      | plain c => cases hp
      | escape marks =>
        cases marks with
        | nil => cases hp
        | cons mark rest =>
          simp only [decodeAll.go, hp] at h
          cases h
          exact ⟨[], mark, rest, pieces, rfl, rfl⟩

end Piece

/-- Digits at the front of a body can be left out. -/
theorem StringBody.drop_of_digits {quote : Char} {body : List Char} {n : Nat}
    (h : StringBody quote body) (hd : ∀ c ∈ body.take n, c.isDigit = true) :
    StringBody quote (body.drop n) := by
  induction n generalizing body with
  | zero => exact h
  | succ n ih =>
    cases h with
    | nil => exact .nil
    | plain _ _ _ _ h => exact ih h fun c hc => hd c (List.mem_cons_of_mem _ hc)
    | pair _ => exact absurd (hd '\\' List.mem_cons_self) (by decide)
    | lineBreak _ => exact absurd (hd '\\' List.mem_cons_self) (by decide)

/-- An escape that is not a line break of two characters is one character or some digits. -/
theorem Piece.escapeWidth_cons {c : Char} {rest : List Char}
    (hbreak : ¬ (c = '\r' ∧ rest.head? = some '\n')) :
    escapeWidth (c :: rest) = if c.isDigit then (((c :: rest).take 3).takeWhile Char.isDigit).length
      else 1 := by
  unfold escapeWidth
  split
  · rename_i more heq
    obtain ⟨rfl, rfl⟩ := List.cons_eq_cons.mp heq
    exact absurd ⟨rfl, rfl⟩ hbreak
  · rename_i heq
    obtain ⟨rfl, rfl⟩ := List.cons_eq_cons.mp heq
    rfl
  · rename_i heq
    cases heq

/-- Something follows a backslash in a body, and after the escape that it begins there is a body
again. -/
theorem StringBody.drop_escapeWidth {quote : Char} {rest : List Char}
    (h : StringBody quote ('\\' :: rest)) :
    rest.take (Piece.escapeWidth rest) ≠ [] ∧
      StringBody quote (rest.drop (Piece.escapeWidth rest)) := by
  cases h with
  | plain _ hs _ _ _ => exact absurd rfl hs
  | lineBreak h => exact ⟨List.cons_ne_nil _ _, h⟩
  | @pair c body h =>
    by_cases hbreak : c = '\r' ∧ body.head? = some '\n'
    · obtain ⟨rfl, hbody⟩ := hbreak
      obtain ⟨body, rfl⟩ := List.head?_eq_some_iff.mp hbody
      cases h with
      | plain _ _ hn _ _ => exact absurd rfl hn
    · have hwidth := Piece.escapeWidth_cons hbreak
      by_cases hc : c.isDigit = true
      · have hdigits : body.take ((body.take 2).takeWhile Char.isDigit).length =
            (body.take 2).takeWhile Char.isDigit :=
          (List.prefix_iff_eq_take.mp ((List.takeWhile_prefix _).trans
            (List.take_prefix 2 body))).symm
        rw [hwidth, if_pos hc, List.take_succ_cons, List.takeWhile_cons_of_pos hc, List.length_cons]
        refine ⟨List.cons_ne_nil _ _, h.drop_of_digits fun d hd => ?_⟩
        rw [hdigits] at hd
        exact List.mem_takeWhile_imp hd
      · rw [hwidth, if_neg hc]
        exact ⟨List.cons_ne_nil _ _, h⟩

namespace Piece

theorem escape_nil_notMem_ofBody {quote : Char} {body : List Char} (h : StringBody quote body) :
    escape [] ∉ ofBody body := by
  have hgo : ∀ found : List Piece, escape [] ∉ found → escape [] ∉ ofBody.go found body := by
    intro found
    fun_induction ofBody.go found body with
    | case1 found => simp
    | case2 found rest n ih =>
      intro hfound
      obtain ⟨hne, hrest⟩ := h.drop_escapeWidth
      refine ih hrest fun hmem => ?_
      rcases List.mem_cons.mp hmem with heq | hmem
      · exact hne (Piece.escape.inj heq).symm
      · exact hfound hmem
    | case3 found c rest hc ih =>
      intro hfound
      cases h with
      | plain _ _ _ _ h => exact ih h (by simpa using hfound)
      | pair _ => exact absurd rfl hc
      | lineBreak _ => exact absurd rfl hc
  exact hgo [] List.not_mem_nil

end Piece

/-- The body of a string literal is what its quotes enclose. -/
theorem StringLiteral.body_quoted (quote : Char) (inside : List Char) :
    body (quote :: (inside ++ [quote])) = inside := by
  rw [body, List.drop_succ_cons, List.drop_zero, List.dropLast_concat]

/-- The body of a string literal is the slice between its first byte and its last one. -/
theorem StringLiteral.slice?_body {text : List Char} (h : IsLexeme .string text) :
    2 ≤ Text.utf8Length text ∧ Text.slice? text 1 (Text.utf8Length text - 2) =
      some (body text) := by
  cases h with
  | @string quote body hq _ =>
    have hquote : Text.utf8Length [quote] = 1 := by rcases hq with rfl | rfl <;> rfl
    have hlength : Text.utf8Length (quote :: (body ++ [quote])) = Text.utf8Length body + 2 := by
      show Text.utf8Length ([quote] ++ (body ++ [quote])) = _
      rw [Text.utf8Length_append, Text.utf8Length_append, hquote]
      omega
    rw [hlength, body_quoted, Nat.add_sub_cancel, ← hquote]
    exact ⟨Nat.le_add_left _ _, Text.slice?_append [quote] _ _⟩

/-- No body of a string literal ends with a backslash that begins an escape. -/
theorem StringLiteral.escape_nil_notMem {text : List Char} (h : IsLexeme .string text) :
    Piece.escape [] ∉ Piece.ofBody (body text) := by
  cases h with
  | @string quote body hq hbody =>
    rw [body_quoted]
    exact Piece.escape_nil_notMem_ofBody hbody

/-- A fault in a string literal is about a backslash in it, and it names the character after the
backslash. -/
theorem StringLiteral.standsAt_of_decode {source : String} {text : List Char} {offset : Nat}
    {e : ParseError} (hlexeme : IsLexeme .string text) (hat : StandsAt source text offset)
    (h : decode offset text = .error e) :
    ∃ o mark, e = .invalidEscape o mark ∧ StandsAt source ['\\', mark] o := by
  cases hlexeme with
  | @string quote body hq hbody =>
    have hsize : Text.utf8Length [quote] = 1 := by rcases hq with rfl | rfl <;> rfl
    rw [decode, body_quoted, Piece.decodeAll] at h
    obtain ⟨before, mark, rest, after, hpieces, rfl⟩ := Piece.exists_escape_of_decodeAll_go h
    have hspelled := Piece.flatMap_spelled_ofBody body
    rw [hpieces, List.flatMap_append, List.flatMap_cons] at hspelled
    refine ⟨_, mark, rfl, ?_⟩
    rw [← hspelled] at hat
    have hinside := (StandsAt.right (s := [quote]) hat).left
    rw [hsize] at hinside
    exact (hinside.right.left.left (s := ['\\', mark]) (t := rest))

end LuaExpr
