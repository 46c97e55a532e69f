import LuaExpr.Position
import LuaExpr.Proofs.Lexeme.Escapes
import LuaExpr.Proofs.Lexeme.Tiling
/-!
# Lines of lexemes

The lexer takes a line feed, a carriage return and both together for line breaks, between lexemes
and after a backslash in a string. A position only counts line feeds. So the line of a lexeme is
told by the line breaks before it, but those that are a carriage return alone are not among them.

* `Lexeme.breaks`: the line breaks of a lexeme; `IsLexeme.count_lineFeed`: each line feed of a
  lexeme is in one of them.
* `StandsAt.lineAt_add`: how the line changes over a part of a source.
* `Lexer.line_step`: how it changes over one reading.
* `Lexer.line_locate`: the line of every lexeme before the first fault.
-/

namespace LuaExpr

/-! ## Line breaks -/

/-- The line break after the backslash of an escape, if it is one. -/
def Piece.break? : Piece → Option (List Char)
  | plain _ => none
  | escape marks => if marks ∈ lineBreaks then some marks else none

/-- The line breaks of a lexeme, as they are written: the lexeme itself, or those that are escaped
in a string. -/
def Lexeme.breaks (l : Lexeme) : List (List Char) :=
  match l.kind with
  | .line => [l.text]
  | .string => (Piece.ofBody (StringLiteral.body l.text)).filterMap Piece.break?
  | _ => []

/-- The number of line breaks that are not a carriage return alone. -/
def countLineFeeds (breaks : List (List Char)) : Nat := breaks.countP (· ≠ ['\r'])

theorem countLineFeeds_append (breaks breaks' : List (List Char)) :
    countLineFeeds (breaks ++ breaks') = countLineFeeds breaks + countLineFeeds breaks' :=
  List.countP_append

section Counting

variable {kind : TokenKind} {text marks rest body : List Char} {quote : Char}

theorem count_lineFeed_of_digits (hd : ∀ d ∈ text, d.isDigit = true) : text.count '\n' = 0 := by
  refine List.count_eq_zero.mpr fun hmem => ?_
  cases hd _ hmem

/-- The marks of an escape have a line feed if they are a line break with one. -/
theorem Piece.Takes.count_lineFeed (h : Takes marks rest) :
    marks.count '\n' = countLineFeeds (break? (escape marks)).toList := by
  cases h with
  | lineBreak => decide
  | digits hne hd _ _ =>
    have hnot : marks ∉ lineBreaks := by
      intro hmem
      simp only [lineBreaks, List.mem_cons, List.not_mem_nil, or_false] at hmem
      rcases hmem with rfl | rfl | rfl <;> cases hd _ List.mem_cons_self
    rw [count_lineFeed_of_digits hd, break?, if_neg hnot]
    rfl
  | @mark c _ _ _ =>
    by_cases hn : c = '\n'
    · subst hn
      decide
    by_cases hr : c = '\r'
    · subst hr
      decide
    · have hnot : [c] ∉ lineBreaks := by simp [lineBreaks, hn, hr]
      rw [break?, if_neg hnot]
      exact List.count_eq_zero.mpr (by simpa using Ne.symm hn)

/-- The line feeds in the body of a string are those of its escaped line breaks. -/
theorem StringBody.count_lineFeed (h : StringBody quote body) :
    body.count '\n' = countLineFeeds ((Piece.ofBody body).filterMap Piece.break?) := by
  refine h.ofBody_induction (motive := fun body pieces => body.count '\n' =
    countLineFeeds (pieces.filterMap Piece.break?))
    rfl (fun _ hc ih => ?_) fun {marks body pieces} htakes ih => ?_
  · rw [List.count_cons_of_ne hc, ih, List.filterMap_cons]
    rfl
  · rw [List.count_cons_of_ne (by decide), List.count_append, ih, htakes.count_lineFeed,
      ← countLineFeeds_append, List.filterMap_cons]
    cases Piece.break? (.escape marks) <;> rfl

/-- **Line feeds of a lexeme.** Each of them is in one of its line breaks. -/
theorem IsLexeme.count_lineFeed (h : IsLexeme kind text) (start : Nat) :
    text.count '\n' = countLineFeeds (Lexeme.breaks { kind, start, text }) := by
  cases h with
  | symbol s =>
    have hnone : ∀ s ∈ Symbol.all, s.text.toList.count '\n' = 0 := by decide
    exact hnone s s.mem_all
  | keyword k =>
    have hnone : ∀ k : Keyword, k.text.toList.count '\n' = 0 := by
      intro k
      cases k <;> decide
    exact hnone k
  | lineFeed => rfl
  | carriageReturn => rfl
  | carriageReturnLineFeed => rfl
  | comment hc => exact List.count_eq_zero.mpr (by simpa using fun hmem => (hc _ hmem).1 rfl)
  | name hc hd _ =>
    refine List.count_eq_zero.mpr fun hmem => ?_
    rcases List.mem_cons.mp hmem with rfl | hmem
    · rcases hc with hc | hc <;> cases hc
    · rcases hd _ hmem with hd | hd | hd <;> cases hd
  | whole _ hw => exact count_lineFeed_of_digits hw
  | point _ hw hf =>
    rw [List.count_append, List.count_cons_of_ne (by decide), count_lineFeed_of_digits hw,
      count_lineFeed_of_digits hf]
    rfl
  | fraction _ hf =>
    rw [List.count_cons_of_ne (by decide), count_lineFeed_of_digits hf]
    rfl
  | @string quote body hq hbody =>
    have hquote : quote ≠ '\n' := by rcases hq with rfl | rfl <;> decide
    rw [List.count_cons_of_ne hquote, List.count_append, List.count_singleton, hbody.count_lineFeed,
      if_neg (by simpa)]
    show _ = countLineFeeds ((Piece.ofBody (StringLiteral.body _)).filterMap Piece.break?)
    rw [StringLiteral.body_quoted]
    rfl

end Counting

/-! ## Lines -/

/-- The line changes with the line feeds that are passed. -/
theorem Position.line_advance (p : Position) (text rest : List Char) :
    (p.advance (Text.utf8Length text) (text ++ rest)).line = p.line + text.count '\n' := by
  induction text generalizing p with
  | nil => cases rest <;> rfl
  | cons c text ih =>
    have hpos : c.utf8Size + Text.utf8Length text ≠ 0 :=
      Nat.ne_of_gt (Nat.add_pos_left c.utf8Size_pos _)
    have hline : (p.after c).line = p.line + if c = '\n' then 1 else 0 := by
      unfold after
      split <;> rfl
    rw [Text.utf8Length_cons, List.cons_append, advance, if_neg hpos,
      Nat.add_sub_cancel_left, ih, hline, List.count_cons]
    simp only [beq_iff_eq]
    omega

/-- The line at an offset of a source. -/
abbrev lineAt (source : String) (offset : Nat) : Nat := (Position.locate source.toList offset).line

/-- The line after a part of a source is further down by the line feeds in the part. -/
theorem StandsAt.lineAt_add {source : String} {text : List Char} {offset : Nat}
    (h : StandsAt source text offset) :
    lineAt source (offset + Text.utf8Length text) = lineAt source offset + text.count '\n' := by
  obtain ⟨before, after, hsource, rfl⟩ := h
  have hbefore := Position.line_advance {} before (text ++ after)
  have hafter := Position.line_advance {} (before ++ text) after
  rw [Text.utf8Length_append, List.append_assoc] at hafter
  rw [lineAt, lineAt, Position.locate, Position.locate, hsource, hbefore, hafter, List.count_append,
    Nat.add_assoc]

namespace Lexer

variable {source : String} {n : Nat} {l : Lexeme} {before : List Lexeme}

/-- **One reading.** Skipping blanks does not change the line, and a lexeme changes it by its line
breaks with a line feed. -/
theorem line_step (h : outcome source n = .ok l) :
    lineAt source l.start = lineAt source (position source n) ∧
    lineAt source (position source (n + 1)) = lineAt source l.start + countLineFeeds l.breaks := by
  obtain ⟨blanks, -, hblanks, hstart, hat⟩ := exists_blanks source n
  have hnone : blanks.count '\n' = 0 := List.count_eq_zero.mpr fun hmem => by
    rcases hblanks _ hmem with hblank | hblank <;> cases hblank
  have hskip : lineAt source (segmentStart source n) = lineAt source (position source n) := by
    rw [hstart, hat.lineAt_add, hnone, Nat.add_zero]
  have hyields : Yields source (.ok l) := ⟨n, h⟩
  rcases reading_cases source n with ⟨-, hend, -, hsize, hstop⟩ | ⟨-, text, rest, -, -,
    hstop, hsegment⟩
  · obtain rfl : l = .eof source.utf8ByteSize := Except.ok.inj (h.symm.trans hend)
    refine ⟨?_, ?_⟩
    · rw [← hskip, hsize]
      rfl
    · rw [← segmentStop, hstop]
      rfl
  · rw [h] at hsegment
    generalize hstart : segmentStart source n = start at hsegment hskip hstop
    cases hsegment with
    | lexeme hkind =>
      refine ⟨hskip, ?_⟩
      rw [← segmentStop, hstop, hyields.standsAt.lineAt_add,
        (hyields.isLexeme hkind).count_lineFeed l.start]

/-- Several readings change the line by the line breaks with a line feed of all their lexemes. -/
theorem line_position (h : (List.range n).map (outcome source) = before.map .ok) :
    lineAt source (position source n) = 1 + countLineFeeds (before.flatMap Lexeme.breaks) := by
  induction n generalizing before with
  | zero =>
    obtain rfl : before = [] := by simpa using h.symm
    cases hsource : source.toList <;>
      simp [lineAt, hsource, Position.locate, Position.advance, position, after,
      ofSource, Cursor.ofSource, countLineFeeds]
  | succ n ih =>
    rw [List.range_succ, List.map_append] at h
    obtain ⟨front, last, rfl, hfront, hlast⟩ := List.append_eq_map_iff.mp h
    obtain ⟨l, rfl, hl⟩ : ∃ l, last = [l] ∧ outcome source n = .ok l := by
      obtain ⟨l, rfl⟩ := List.length_eq_one_iff.mp (by simpa using congrArg List.length hlast)
      exact ⟨l, rfl, by simpa using hlast.symm⟩
    obtain ⟨hline, hstep⟩ := line_step hl
    rw [hstep, hline, ih hfront.symm, List.flatMap_append, countLineFeeds_append, Nat.add_assoc]
    simp

/-- **The line of a lexeme.** Where all readings before have found lexemes, the line at which a
lexeme begins is one more than the number of line breaks in those lexemes, not counting carriage
returns alone. So it is told by all of the line breaks if and only if there is no carriage return
alone among them. -/
theorem line_locate (hbefore : (List.range n).map (outcome source) = before.map .ok)
    (h : outcome source n = .ok l) :
    (Position.locate source.toList l.start).line =
        1 + (before.flatMap Lexeme.breaks).countP (· ≠ ['\r']) ∧
      ((Position.locate source.toList l.start).line = 1 + (before.flatMap Lexeme.breaks).length ↔
        ['\r'] ∉ before.flatMap Lexeme.breaks) := by
  have hline : (Position.locate source.toList l.start).line =
      1 + (before.flatMap Lexeme.breaks).countP (· ≠ ['\r']) :=
    (line_step h).1.trans (line_position hbefore)
  refine ⟨hline, ?_⟩
  rw [hline, Nat.add_left_cancel_iff, List.countP_eq_length]
  constructor
  · intro hall hmem
    simpa using hall _ hmem
  · intro hnot br hbr
    simpa using fun heq : br = ['\r'] => hnot (heq ▸ hbr)

/-- Two line breaks escaped in a string, three between lexemes, a comment and characters of two
bytes. -/
theorem line_locate_mixed :
    (Position.locate "'é\\\r\n\\\n'\r\n-- é\r\n\t1\r2".toList 21).line = 5 := by
  have hbefore : (List.range 6).map (outcome "'é\\\r\n\\\n'\r\n-- é\r\n\t1\r2") = List.map .ok
      [⟨.string, 0, "'é\\\r\n\\\n'".toList⟩, ⟨.line, 9, ['\r', '\n']⟩,
        ⟨.comment, 11, "-- é".toList⟩,
        ⟨.line, 16, ['\r', '\n']⟩, ⟨.number, 19, ['1']⟩, ⟨.line, 20, ['\r']⟩] := by cbv
  have hlast : outcome "'é\\\r\n\\\n'\r\n-- é\r\n\t1\r2" 6 = .ok ⟨.number, 21, ['2']⟩ := by cbv
  exact (line_locate hbefore hlast).1.trans (by cbv)

/-- Two line breaks stand before a number, one of them escaped in a string, and the number is in the
first line. -/
theorem line_locate_carriageReturns :
    (List.range 2).map (outcome "'\\\r'\r1") =
        List.map .ok [⟨.string, 0, "'\\\r'".toList⟩, ⟨.line, 4, ['\r']⟩] ∧
      outcome "'\\\r'\r1" 2 = .ok ⟨.number, 5, ['1']⟩ ∧
      (Position.locate "'\\\r'\r1".toList 5).line = 1 ∧
      1 + (List.flatMap Lexeme.breaks [⟨.string, 0, "'\\\r'".toList⟩,
        ⟨.line, 4, ['\r']⟩]).length = 3 :=
  ⟨by cbv, by cbv, by cbv, by cbv⟩

end Lexer

end LuaExpr
