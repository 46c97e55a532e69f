import LuaExpr.Proofs.Lexeme.Longest
/-!
# Texts in a row

Two texts with a line feed between them are read one after the other. The line feed can only become
a part of the last lexeme of the first text, and it does so in one case: a carriage return at the
end takes it along.

* `IsLongestLexeme.interrupted`: the longest lexeme of a text stays the longest one in front of a
  blank, a line feed or a closing parenthesis.
* `Cursor.next?_extended`: what that means for a cursor.
* `Cursor.outcomes_continued`: what is read of a text with a line feed and more text after it.
* `Cursor.outcomes_moved`: the offset at which a text begins changes nothing but the offsets of its
  lexemes.
-/

namespace LuaExpr

/-! ## Lexemes in front of other text -/

/-- Whether a character stands between lexemes: a blank or a line feed. -/
def Reading.isGap (c : Char) : Bool := isBlank c || c == '\n'

theorem Reading.isGap_iff {c : Char} : isGap c = true ↔ c = ' ' ∨ c = '\t' ∨ c = '\n' := by
  simp [isGap, isBlank, or_assoc]

/-- A lexeme that has a gap or a closing parenthesis inside is a string or a comment, or there is a
line feed that ends a line break. -/
theorem IsLexeme.gap_inside {kind : TokenKind} {front tail : List Char} {x : Char}
    (hx : Reading.isGap x = true ∨ x = ')') (hne : front ≠ [])
    (h : IsLexeme kind (front ++ x :: tail)) :
    (front = ['\r'] ∧ x = '\n') ∨
      (∃ text, (∀ c ∈ text, c ≠ '\n' ∧ c ≠ '\r') ∧ front ++ x :: tail = '-' :: '-' :: text) ∨
      ∃ quote body, (quote = '"' ∨ quote = '\'') ∧ StringBody quote body ∧
        front ++ x :: tail = quote :: (body ++ [quote]) := by
  obtain ⟨c, front, rfl⟩ := List.exists_cons_of_ne_nil hne
  generalize htext : c :: front ++ x :: tail = text at h
  have hmem : x ∈ text := by simp [← htext]
  have hcases : x = ' ' ∨ x = '\t' ∨ x = '\n' ∨ x = ')' := by
    simpa [Reading.isGap_iff, or_assoc] using hx
  have hend : (Reading.isGap x || x == ')') = true := by simpa using hx
  have hdigit : x.isDigit = false := by
    rcases hcases with rfl | rfl | rfl | rfl <;> rfl
  have hpoint : x ≠ '.' := by
    rintro rfl
    cases hend
  have hdigits : ∀ {digits : List Char}, (∀ d ∈ digits, d.isDigit = true) → x ∉ digits := by
    intro digits hd hm
    rw [hd _ hm] at hdigit
    cases hdigit
  cases h with
  | symbol s =>
    have hnone : ∀ s ∈ Symbol.all, s.text.toList.tail.any (fun y => Reading.isGap y || y == ')') =
        false := by decide
    exact absurd hend (List.any_eq_false.mp (hnone s s.mem_all) x (by simp [← htext]))
  | keyword k =>
    have hnone : ∀ k : Keyword,
        k.text.toList.any (fun y => Reading.isGap y || y == ')') = false := by
      intro k
      cases k <;> decide
    exact absurd hend (List.any_eq_false.mp (hnone k) x hmem)
  | lineFeed => simp at htext
  | carriageReturn => simp at htext
  | carriageReturnLineFeed =>
    obtain ⟨rfl, hrest⟩ := List.cons_eq_cons.mp htext
    cases front with
    | nil => exact .inl ⟨rfl, (List.cons_eq_cons.mp hrest).1⟩
    | cons d front => simp at hrest
  | @comment text h => exact .inr (.inl ⟨text, h, rfl⟩)
  | name hc h _ =>
    have hword : ¬ (x.isAlpha = true ∨ x = '_' ∨ x.isDigit = true) := by
      rcases hcases with rfl | rfl | rfl | rfl <;> decide
    rcases List.mem_cons.mp hmem with rfl | hmem
    · exact absurd (hc.imp_right .inl) hword
    · exact absurd (h _ hmem) hword
  | whole _ hw => exact absurd hmem (hdigits hw)
  | point _ hw hf =>
    rcases List.mem_append.mp hmem with hmem | hmem
    · exact absurd hmem (hdigits hw)
    rcases List.mem_cons.mp hmem with rfl | hmem
    · exact absurd rfl hpoint
    · exact absurd hmem (hdigits hf)
  | fraction _ hf =>
    rcases List.mem_cons.mp hmem with rfl | hmem
    · exact absurd rfl hpoint
    · exact absurd hmem (hdigits hf)
  | string hq hbody => exact .inr (.inr ⟨_, _, hq, hbody, rfl⟩)

/-- A string that is the front of a text ends where it ends in every longer text. -/
theorem StringBody.length_eq {quote : Char} {body body' rest rest' : List Char}
    (hq : quote = '"' ∨ quote = '\'') (h : StringBody quote body) (h' : StringBody quote body')
    (heq : body ++ quote :: rest = body' ++ quote :: rest') :
    body.length = body'.length := by
  have hread := Reading.stringBody_append (Reading.isQuote_iff.mpr hq) h 0 rest
  rw [heq, Reading.stringBody_append (Reading.isQuote_iff.mpr hq) h' 0 rest'] at hread
  have := (Prod.mk.inj hread).2
  omega

/-- A string at the front of a text ends there also if the text goes on in another way. -/
theorem IsLongestLexeme.length_eq_of_string {kind : TokenKind}
    {source back text body tail : List Char} {quote : Char}
    (h : IsLongestLexeme (source ++ back) kind text) (hp : text <+: source)
    (hq : quote = '"' ∨ quote = '\'') (hbody : StringBody quote body)
    (heq : source ++ tail = quote :: (body ++ [quote])) :
    text.length = (source ++ tail).length := by
  obtain ⟨c, rest, rfl⟩ : ∃ c rest, source = c :: rest := by
    obtain ⟨c, more, rfl, -⟩ := h.isLexeme.exists_eq_cons
    obtain ⟨rest, rfl⟩ := hp
    exact ⟨c, _, rfl⟩
  obtain ⟨rfl, hbodies⟩ := List.cons_eq_cons.mp heq
  have hbodies : rest ++ tail = body ++ [c] := hbodies
  have h : IsLongestLexeme (c :: (rest ++ back)) kind text := h
  obtain ⟨hof, -⟩ := Reading.ofFront_of_isLongestLexeme h
  rw [Reading.ofFront_of_isQuote (Reading.isQuote_iff.mpr hq), Reading.string] at hof
  split at hof
  · rename_i n hread
    obtain ⟨body', rest', hrest, hbody', rfl⟩ := Reading.exists_stringBody hread
    have hlength : body'.length + 2 = text.length := by
      have := (Reading.lexeme.inj hof).2
      omega
    have hfront : body' ++ [c] <+: rest := by
      have hbehind : body' ++ [c] <+: rest ++ back := ⟨rest', by rw [hrest]; simp⟩
      refine List.prefix_of_prefix_length_le hbehind (List.prefix_append _ _) ?_
      have := hp.length_le
      simp only [List.length_append, List.length_cons, List.length_nil] at this ⊢
      omega
    obtain ⟨more, rfl⟩ := hfront
    have hsame : body' ++ c :: (more ++ tail) = body ++ c :: [] := by simpa using hbodies
    have hlengths := hbody'.length_eq hq hbody hsame
    have := congrArg List.length hbodies
    simp only [List.length_append, List.length_cons, List.length_nil] at this ⊢
    omega
  · cases hof

/-- A comment at the front of a text goes on to the end of the text, unless there is a line
break. -/
theorem IsLongestLexeme.eq_of_comment {kind : TokenKind}
    {source back text rest tail : List Char} {x : Char}
    (h : IsLongestLexeme (source ++ back) kind text) (hp : text <+: source) (hx : x ≠ '-')
    (hrest : ∀ c ∈ rest, c ≠ '\n' ∧ c ≠ '\r') (heq : source ++ x :: tail = '-' :: '-' :: rest) :
    kind = .comment ∧ text = source := by
  obtain ⟨more, rfl⟩ : ∃ more, source = '-' :: '-' :: more := by
    rcases source with _ | ⟨c, _ | ⟨d, more⟩⟩
    · exact absurd (List.cons_eq_cons.mp heq).1 hx
    · exact absurd (List.cons_eq_cons.mp (List.cons_eq_cons.mp heq).2).1 hx
    · simp only [List.cons_append, List.cons_eq_cons] at heq
      exact ⟨more, by rw [heq.1, heq.2.1]⟩
  have hmore : IsLexeme .comment ('-' :: '-' :: more) := by
    refine .comment fun c hc => hrest c ?_
    simp only [List.cons_append, List.cons_eq_cons] at heq
    rw [← heq.2.2]
    exact List.mem_append_left _ hc
  have h : IsLongestLexeme ('-' :: '-' :: (more ++ back)) kind text := h
  obtain ⟨hof, -⟩ := Reading.ofFront_of_isLongestLexeme h
  rw [Reading.ofFront_hyphens rfl] at hof
  refine ⟨(Reading.lexeme.inj hof).1.symm, hp.eq_of_length_le ?_⟩
  exact h.longest _ _ hmore (List.prefix_append _ _)

/-- **A lexeme in front of a gap** or a closing parenthesis. The longest lexeme at the front of a
text stays the longest one if the text is broken off behind it and goes on with a gap or a closing
parenthesis, unless the lexeme takes it along: a carriage return takes a line feed, and a comment
takes all but that. -/
theorem IsLongestLexeme.interrupted {kind : TokenKind} {source back text : List Char} {x : Char}
    (h : IsLongestLexeme (source ++ back) kind text) (hp : text <+: source)
    (hx : Reading.isGap x = true ∨ x = ')') (hcr : ¬ (source = ['\r'] ∧ x = '\n'))
    (hcomment : kind = .comment → text = source → x = '\n')
    (more : List Char) : IsLongestLexeme (source ++ x :: more) kind text := by
  refine ⟨hp.trans (List.prefix_append _ _), h.isLexeme, fun kind' text' h' hp' => ?_⟩
  by_cases hle : text'.length ≤ source.length
  · exact h.longest kind' text' h'
      ((List.prefix_of_prefix_length_le hp' (List.prefix_append _ _) hle).trans
        (List.prefix_append _ _))
  obtain ⟨w, rfl⟩ :=
    List.prefix_of_prefix_length_le (List.prefix_append _ _) hp' (Nat.le_of_not_le hle)
  obtain ⟨tail, rfl⟩ : ∃ tail, w = x :: tail := by
    cases w with
    | nil => simp at hle
    | cons d w =>
      have := (List.cons_prefix_cons.mp ((List.prefix_append_right_inj source).mp hp')).1
      exact ⟨w, by rw [this]⟩
  have hne : source ≠ [] := by
    rintro rfl
    obtain ⟨c, rest, rfl, -⟩ := h.isLexeme.exists_eq_cons
    simp at hp
  rcases h'.gap_inside hx hne with hsource | ⟨rest, hrest, heq⟩ | ⟨quote, body, hq, hbody, heq⟩
  · exact absurd hsource hcr
  · have hhyphen : x ≠ '-' := by
      rintro rfl
      rcases hx with hx | hx <;> cases hx
    obtain ⟨hkind, htext⟩ := h.eq_of_comment hp hhyphen hrest heq
    obtain rfl := hcomment hkind htext
    have hmem : '\n' ∈ '-' :: '-' :: rest := by simp [← heq]
    exact absurd rfl (hrest '\n' (by simpa using hmem)).1
  · exact (h.length_eq_of_string hp hq hbody heq).ge

/-! ## Texts in front of a line feed -/

namespace Cursor

variable {c d : Cursor} {l : Lexeme}

/-- The offset of the end of what is left to read. -/
def stop (c : Cursor) : Nat := c.offset + Text.utf8Length c.rest

theorem stop_drop (c : Cursor) (n : Nat) : (c.drop n).stop = c.stop := by
  rw [stop, drop, stop, Nat.add_assoc, ← Text.utf8Length_append, List.take_append_drop]

/-- The cursor with more text after its own. -/
def extended (c : Cursor) (back : List Char) : Cursor :=
  { rest := c.rest ++ back, offset := c.offset }

theorem drop_extended {n : Nat} (h : n ≤ c.rest.length) (back : List Char) :
    (c.extended back).drop n = (c.drop n).extended back := by
  simp only [extended, drop, List.drop_append_of_le_length h, List.take_append_of_le_length h]

/-- More text that does not begin with a blank is no concern of the blanks in front of it. -/
theorem skipBlanks_extended {back : List Char} (hback : ∀ d ∈ back.head?, Reading.isBlank d = false)
    (c : Cursor) :
    (c.extended back).skipBlanks = c.skipBlanks.extended back := by
  have hrun : Reading.run Reading.isBlank (c.rest ++ back) =
      Reading.run Reading.isBlank c.rest := by
    rw [Reading.run, Reading.run]
    induction c.rest with
    | nil => cases back with
      | nil => rfl
      | cons d back => simp [hback d rfl]
    | cons e rest ih =>
      rw [List.cons_append, List.takeWhile_cons, List.takeWhile_cons]
      split
      · rw [List.length_cons, List.length_cons, ih]
      · rfl
  rw [skipBlanks, skipBlanks, ← drop_extended (Reading.run_le_length _ _), ← hrun]
  rfl

/-- The cursor with a line feed and more text after its own. -/
def continued (c : Cursor) (more : List Char) : Cursor :=
  { rest := c.rest ++ '\n' :: more, offset := c.offset }

theorem skipBlanks_continued (c : Cursor) (more : List Char) :
    (c.continued more).skipBlanks = c.skipBlanks.continued more :=
  skipBlanks_extended (by simp [Reading.isBlank]) c

/-- What a lexeme that is read says about the text at its place. -/
theorem exists_isLongestLexeme_of_next? (h : c.next? = some (.ok l, d)) :
    IsLongestLexeme c.skipBlanks.rest l.kind l.text ∧ l.start = c.skipBlanks.offset ∧
      d = c.skipBlanks.drop l.text.length := by
  cases hrest : c.skipBlanks.rest with
  | nil => rw [next?_of_nil hrest] at h; cases h
  | cons first rest =>
    rw [next?_of_cons hrest] at h
    obtain ⟨ho, rfl⟩ := Prod.mk.inj (Option.some.inj h)
    cases hof : Reading.ofFront first rest with
    | lexeme kind more =>
      rw [hof, outcome] at ho
      cases ho
      have hmore := (Reading.isLexeme_of_ofFront hof).2
      refine ⟨Reading.isLongestLexeme_of_ofFront hof, rfl, ?_⟩
      rw [List.length_cons, List.length_take, Nat.min_eq_left hmore]
      rfl
    | unterminated more => rw [hof, outcome] at ho; cases ho
    | unexpected => rw [hof, outcome] at ho; cases ho

theorem stop_of_next? (h : c.next? = some (.ok l, d)) : d.stop = c.stop := by
  obtain ⟨-, -, rfl⟩ := exists_isLongestLexeme_of_next? h
  rw [stop_drop, skipBlanks, stop_drop]

theorem next?_of_rest_eq_nil (h : c.rest = []) : c.next? = none :=
  next?_of_nil (by simp [skipBlanks, drop, h])

theorem rest_skipBlanks_of_none (h : c.next? = none) : c.skipBlanks.rest = [] := by
  cases hrest : c.skipBlanks.rest with
  | nil => rfl
  | cons first rest => rw [next?_of_cons hrest] at h; cases h

/-- Where nothing is left to read, the blanks reach to the end. -/
theorem skipBlanks_of_none (h : c.next? = none) :
    c.skipBlanks = { rest := [], offset := c.stop } := by
  have hnil := rest_skipBlanks_of_none h
  have hstop : c.skipBlanks.stop = c.stop := stop_drop c _
  rw [stop, hnil] at hstop
  rw [← hnil, ← hstop]
  rfl

/-- The line feed after a text is a line break by itself, if nothing is left of the text. -/
theorem next?_continued_of_none (h : c.next? = none) (more : List Char) : (c.continued more).next? =
    some (.ok { kind := .line, start := c.stop, text := ['\n'] },
      { rest := more, offset := c.stop + 1 }) := by
  have hplace : (c.continued more).skipBlanks = { rest := '\n' :: more, offset := c.stop } := by
    rw [skipBlanks_continued, skipBlanks_of_none h]
    rfl
  rw [next?_of_cons (congrArg rest hplace), Reading.ofFront_lineFeed, hplace]
  rfl

/-- A lexeme is read in front of a gap or a closing parenthesis as it is without it, unless it takes
the gap along. -/
theorem next?_extended {x : Char} (h : c.next? = some (.ok l, d))
    (hx : Reading.isGap x = true ∨ x = ')') (hblank : Reading.isBlank x = false)
    (hcr : ¬ (c.skipBlanks.rest = ['\r'] ∧ x = '\n'))
    (hcomment : l.kind = .comment → l.text = c.skipBlanks.rest → x = '\n') (more : List Char) :
    (c.extended (x :: more)).next? = some (.ok l, d.extended (x :: more)) := by
  obtain ⟨hlongest, hstart, rfl⟩ := exists_isLongestLexeme_of_next? h
  have hskip : (c.extended (x :: more)).skipBlanks = c.skipBlanks.extended (x :: more) :=
    skipBlanks_extended (by simpa using hblank) c
  have hrest : IsLongestLexeme (c.extended (x :: more)).skipBlanks.rest l.kind l.text := by
    rw [hskip]
    rw [← List.append_nil c.skipBlanks.rest] at hlongest
    exact hlongest.interrupted (by simpa using hlongest.front) hx hcr hcomment more
  rw [next?_of_isLongestLexeme hrest, hskip, drop_extended hlongest.front.length_le,
    extended, ← hstart]

/-- A lexeme is read in front of the line feed as it is without it, unless it takes the line feed
along. -/
theorem next?_continued_of_some (h : c.next? = some (.ok l, d)) (more : List Char) :
    (c.continued more).next? = some (.ok l, d.continued more) ∨
      l.kind = .line ∧ d.next? = none ∧ (c.continued more).next? =
        some (.ok { kind := .line, start := l.start, text := ['\r', '\n'] },
          { rest := more, offset := c.stop + 1 }) := by
  by_cases hcr : c.skipBlanks.rest = ['\r']
  · refine .inr ?_
    obtain ⟨hlongest, hstart, rfl⟩ := exists_isLongestLexeme_of_next? h
    rw [hcr] at hlongest
    obtain ⟨hof, htext⟩ := Reading.ofFront_of_isLongestLexeme hlongest
    obtain ⟨hkind, hmore⟩ := Reading.lexeme.inj (hof.symm.trans (Reading.ofFront_carriageReturn []))
    have hstop : c.skipBlanks.offset + 1 = c.stop := by
      rw [← stop_drop c (Reading.run Reading.isBlank c.rest), ← skipBlanks, stop, hcr]
      rfl
    have hplace : (c.continued more).skipBlanks =
        { rest := '\r' :: '\n' :: more, offset := c.skipBlanks.offset } := by
      rw [skipBlanks_continued, continued, hcr]
      rfl
    refine ⟨hkind, next?_of_rest_eq_nil ?_, ?_⟩
    · rw [drop, hcr, htext]
      simp
    · rw [next?_of_cons (congrArg rest hplace), Reading.ofFront_carriageReturn, hplace,
        hstart, ← hstop]
      rfl
  · exact .inl (next?_extended h (.inl rfl) rfl (fun hboth => hcr hboth.1) (fun _ _ => rfl) more)

/-- What is read of a text with a line feed and more text after it: what is read of the text, apart
from a line break at its end, then a line break, and then what is read of the other text. -/
theorem outcomes_continued {ls : List Lexeme} (h : c.outcomes = ls.map .ok) (more : List Char) :
    ∃ front last br, ls = front ++ last ∧ (∀ l ∈ last, l.kind = .line) ∧ br.kind = .line ∧
      (c.continued more).outcomes =
        (front ++ [br]).map .ok ++ outcomes { rest := more, offset := c.stop + 1 } := by
  induction ls generalizing c with
  | nil =>
    have hnext := next?_continued_of_none (next?_of_outcomes_eq_nil h) more
    exact ⟨[], [], _, rfl, by simp, rfl, outcomes_of_some hnext⟩
  | cons l ls ih =>
    obtain ⟨d, hd, hls⟩ := exists_next?_of_outcomes_eq_cons h
    rcases next?_continued_of_some hd more with hnext | ⟨hkind, hnone, hnext⟩
    · obtain ⟨front, last, br, rfl, hlast, hbr, hout⟩ := ih hls
      refine ⟨l :: front, last, br, rfl, hlast, hbr, ?_⟩
      rw [outcomes_of_some hnext, hout, stop_of_next? hd]
      rfl
    · obtain rfl : ls = [] := by
        rw [outcomes_of_none hnone] at hls
        simpa using hls.symm
      exact ⟨[], [l], _, rfl, by simpa using hkind, rfl, outcomes_of_some hnext⟩

end Cursor

/-! ## Offsets -/

/-- The lexeme a number of bytes later. -/
def Lexeme.moved (bytes : Nat) (l : Lexeme) : Lexeme := { l with start := l.start + bytes }

namespace Cursor

variable {c d : Cursor} {l : Lexeme}

/-- The cursor a number of bytes later. -/
def moved (bytes : Nat) (c : Cursor) : Cursor := { c with offset := c.offset + bytes }

theorem drop_moved (bytes : Nat) (c : Cursor) (n : Nat) :
    (c.moved bytes).drop n = (c.drop n).moved bytes := by
  simp only [moved, drop, Nat.add_right_comm]

theorem skipBlanks_moved (bytes : Nat) (c : Cursor) :
    (c.moved bytes).skipBlanks = c.skipBlanks.moved bytes :=
  drop_moved bytes c _

theorem next?_moved_of_none (h : c.next? = none) (bytes : Nat) : (c.moved bytes).next? = none := by
  refine next?_of_nil ?_
  rw [skipBlanks_moved]
  exact rest_skipBlanks_of_none h

theorem next?_moved_of_some (h : c.next? = some (.ok l, d)) (bytes : Nat) :
    (c.moved bytes).next? = some (.ok (l.moved bytes), d.moved bytes) := by
  obtain ⟨hlongest, hstart, rfl⟩ := exists_isLongestLexeme_of_next? h
  have hrest : IsLongestLexeme (c.moved bytes).skipBlanks.rest l.kind l.text := by
    rw [skipBlanks_moved]
    exact hlongest
  rw [next?_of_isLongestLexeme hrest, skipBlanks_moved, drop_moved, Lexeme.moved, hstart]
  rfl

/-- What is read of a text does not depend on the offset at which it begins, apart from the offsets
of the lexemes. -/
theorem outcomes_moved {ls : List Lexeme} (h : c.outcomes = ls.map .ok) (bytes : Nat) :
    (c.moved bytes).outcomes = (ls.map (Lexeme.moved bytes)).map .ok := by
  induction ls generalizing c with
  | nil => exact outcomes_of_none (next?_moved_of_none (next?_of_outcomes_eq_nil h) bytes)
  | cons l ls ih =>
    obtain ⟨d, hd, hls⟩ := exists_next?_of_outcomes_eq_cons h
    rw [outcomes_of_some (next?_moved_of_some hd bytes), ih hls]
    rfl

end Cursor

end LuaExpr
