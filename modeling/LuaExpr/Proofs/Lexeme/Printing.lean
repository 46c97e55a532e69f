import LuaExpr.Proofs.Lexeme.Places
/-!
# Printing and reading again

Words that are lexemes by themselves can be written one after the other with blanks between them:
they are read as the same lexemes again. A blank ends every lexeme but a comment, and no lexeme
depends on what has been read before it.

* `Lexer.isLexeme_of_toList_eq`: a text that is read as one lexeme is a lexeme.
* `Word`: a text, its kind, and the blanks that are written behind it; `Word.printed`: the words of
  a list in a row.
* `Cursor.outcomes_printed`: what is read of printed words.
* `Word.toList_printed`: reading undoes printing.
-/

namespace LuaExpr

/-! ## Lexemes that are read alone -/

namespace Lexer

variable {l : Lexer} {o : Except LexError Lexeme}

theorem mem_outcomes_of_mem_toList (h : o ∈ l.toList) : o ∈ l.cursor.outcomes := by
  rw [toList] at h
  split at h
  · cases h
  · rcases List.mem_append.mp h with h | h
    · exact (List.takeWhile_prefix _).subset h
    · exact List.mem_of_mem_drop (List.mem_of_mem_take h)

/-- A sequence of lexemes without a fault is read as a whole. -/
theorem toList_of_outcomes_eq {ls : List Lexeme} (hl : l.finished = false)
    (h : l.cursor.outcomes = ls.map .ok) :
    l.toList = ls.map .ok := by
  have hfine : (ls.map Except.ok).takeWhile (fun o : Except LexError Lexeme => o.toBool) =
      ls.map .ok := by
    refine List.takeWhile_eq_self_iff.mpr fun o ho => ?_
    obtain ⟨k, -, rfl⟩ := List.mem_map.mp ho
    rfl
  simp only [toList, hl, Bool.false_eq_true, if_false, h, hfine, List.drop_length, List.take_nil,
    List.append_nil]

/-- A text that is read as one lexeme is a lexeme. -/
theorem isLexeme_of_toList_eq {source : String} {k : Lexeme}
    (h : (ofSource source).toList = [.ok k]) :
    IsLexeme k.kind k.text := by
  have hmem : .ok k ∈ (Cursor.ofSource source).outcomes :=
    mem_outcomes_of_mem_toList (h ▸ List.mem_singleton_self (Except.ok k))
  exact (yields_of_mem_outcomes hmem).isLexeme (Cursor.kind_ne_eof_of_mem_outcomes hmem)

end Lexer

/-! ## Words -/

/-- A word to print. -/
structure Word where
  /-- The kind of the word. -/
  kind : TokenKind
  /-- The text of the word. -/
  text : String
  /-- What is written behind the word. -/
  separator : String

namespace Word

/-- The words of a list in a row. -/
def printed (ws : List Word) : List Char := ws.flatMap fun w => w.text.toList ++ w.separator.toList

/-- The words of a list as lexemes, the first of which is at an offset. -/
def lexemes (offset : Nat) (ws : List Word) : List Lexeme :=
  ws.mapIdx fun i w =>
    { kind := w.kind, start := offset + Text.utf8Length (printed (ws.take i)),
      text := w.text.toList }

variable {w : Word} {ws : List Word}

theorem printed_cons (w : Word) (ws : List Word) :
    printed (w :: ws) = w.text.toList ++ (w.separator.toList ++ printed ws) := by
  rw [printed, List.flatMap_cons, List.append_assoc]
  rfl

theorem lexemes_cons (offset : Nat) (w : Word) (ws : List Word) :
    lexemes offset (w :: ws) = { kind := w.kind, start := offset, text := w.text.toList } ::
      lexemes (offset + Text.utf8Length w.text.toList + Text.utf8Length w.separator.toList) ws := by
  have hstart : ∀ i, offset + Text.utf8Length (printed ((w :: ws).take (i + 1))) =
      offset + Text.utf8Length w.text.toList + Text.utf8Length w.separator.toList +
        Text.utf8Length (printed (ws.take i)) := by
    intro i
    rw [List.take_succ_cons, printed_cons, Text.utf8Length_append, Text.utf8Length_append,
      Nat.add_assoc, Nat.add_assoc]
  rw [lexemes, List.mapIdx_cons, lexemes]
  simp only [hstart]
  rfl

/-- A list of words can be printed: each is a lexeme and no comment, and blanks are written behind
it, which only the last word can do without. -/
structure Printable (ws : List Word) : Prop where
  isLexeme : ∀ w ∈ ws, IsLexeme w.kind w.text.toList
  kind_ne_comment : ∀ w ∈ ws, w.kind ≠ .comment
  isBlank : ∀ w ∈ ws, ∀ c ∈ w.separator.toList, Reading.isBlank c = true
  separator_ne_nil : ∀ w ∈ ws.dropLast, w.separator.toList ≠ []

namespace Printable

theorem tail (h : Printable (w :: ws)) : Printable ws := by
  obtain ⟨hlexeme, hkind, hblank, hne⟩ := h
  refine ⟨fun v hv => hlexeme v (List.mem_cons_of_mem _ hv),
    fun v hv => hkind v (List.mem_cons_of_mem _ hv),
    fun v hv => hblank v (List.mem_cons_of_mem _ hv), fun v hv => hne v ?_⟩
  obtain ⟨u, us, rfl⟩ :=
    List.exists_cons_of_ne_nil (List.ne_nil_of_mem (List.mem_of_mem_dropLast hv))
  exact List.mem_cons_of_mem _ hv

/-- The first word is the longest lexeme at the front of what is printed: there is nothing behind
it, or a blank. -/
theorem isLongestLexeme (h : Printable (w :: ws)) :
    IsLongestLexeme (printed (w :: ws)) w.kind w.text.toList := by
  have hlexeme : IsLongestLexeme (w.text.toList ++ []) w.kind w.text.toList := by
    rw [List.append_nil]
    exact (h.isLexeme w List.mem_cons_self).isLongestLexeme
  rw [printed_cons]
  cases hs : w.separator.toList with
  | cons c blanks =>
    have hc : Reading.isBlank c = true := h.isBlank w List.mem_cons_self c (by simp [hs])
    refine hlexeme.interrupted List.prefix_rfl (.inl (by rw [Reading.isGap, hc]; rfl))
      (fun hboth => ?_) (fun hkind _ => absurd hkind (h.kind_ne_comment w List.mem_cons_self)) _
    exact (Reading.ne_break_of_isBlank hc).1 hboth.2
  | nil =>
    cases ws with
    | cons v ws => exact absurd hs (h.separator_ne_nil w List.mem_cons_self)
    | nil => exact hlexeme

end Printable

end Word

/-! ## Reading what is printed -/

/-- What is read of printed words is the words. -/
theorem Cursor.outcomes_printed {ws : List Word} (h : Word.Printable ws) (offset : Nat) :
    outcomes { rest := Word.printed ws, offset } = (Word.lexemes offset ws).map .ok := by
  induction ws generalizing offset with
  | nil => exact outcomes_of_none (next?_of_rest_eq_nil rfl)
  | cons w ws ih =>
    have hnext := next?_of_front h.isLongestLexeme offset
    have hdrop : (Word.printed (w :: ws)).drop w.text.toList.length =
        w.separator.toList ++ Word.printed ws := by
      rw [Word.printed_cons, List.drop_left]
    rw [hdrop] at hnext
    rw [outcomes_of_some hnext, outcomes_blanks (h.isBlank w List.mem_cons_self), ih h.tail,
      Word.lexemes_cons, List.map_cons]

/-- **Reading undoes printing.** Let words be given each of which, alone, is read as one lexeme that
is not a comment and that is all of the word. If they are written one after the other with one blank
or more between them, they are read as these lexemes, each at the offset at which it was written,
and as nothing else. -/
theorem Word.toList_printed (ws : List Word)
    (halone : ∀ w ∈ ws,
      (Lexer.ofSource w.text).toList =
        [.ok { kind := w.kind, start := 0, text := w.text.toList }] ∧ w.kind ≠ .comment)
    (hblank : ∀ w ∈ ws, ∀ c ∈ w.separator.toList, c = ' ' ∨ c = '\t')
    (hne : ∀ w ∈ ws.dropLast, w.separator ≠ "") :
    (Lexer.ofSource (String.ofList (printed ws))).toList = ws.mapIdx fun i w =>
      .ok
        { kind := w.kind
          start := Text.utf8Length (printed (ws.take i))
          text := w.text.toList } := by
  have hprintable : Printable ws := by
    refine ⟨fun w hw => Lexer.isLexeme_of_toList_eq (halone w hw).1, fun w hw => (halone w hw).2,
      fun w hw c hc => ?_, fun w hw hnil => hne w hw (String.toList_eq_nil_iff.mp hnil)⟩
    rcases hblank w hw c hc with rfl | rfl <;> rfl
  have hread := Cursor.outcomes_printed hprintable 0
  rw [← String.toList_ofList (l := printed ws)] at hread
  rw [Lexer.toList_of_outcomes_eq rfl hread]
  exact List.ext_getElem? fun i => by simp [lexemes, Function.comp_def]

/-- A carriage return and a line feed with a tab between them, a number that ends with a point in
front of two points, and a string with a blank, a quote of the other kind and an escaped line
break. -/
theorem Word.toList_printed_mixed :
    (Lexer.ofSource "\r\t\n 1. .. 'a \"\\\n'").toList =
      [.ok ⟨.line, 0, ['\r']⟩, .ok ⟨.line, 2, ['\n']⟩, .ok ⟨.number, 4, ['1', '.']⟩,
        .ok ⟨.symbol .doubleDot, 7, ['.', '.']⟩,
          .ok ⟨.string, 10, ['\'', 'a', ' ', '"', '\\', '\n', '\'']⟩] := by
  have h := toList_printed
    [⟨.line, "\r", "\t"⟩, ⟨.line, "\n", " "⟩, ⟨.number, "1.", " "⟩, ⟨.symbol .doubleDot, "..", " "⟩,
      ⟨.string, "'a \"\\\n'", ""⟩]
    (by
      simp only [List.forall_mem_cons]
      exact ⟨⟨by cbv, by decide⟩, ⟨by cbv, by decide⟩, ⟨by cbv, by decide⟩, ⟨by cbv, by decide⟩,
        ⟨by cbv, by decide⟩, by simp⟩)
    (by simp) (by decide)
  exact h

end LuaExpr
