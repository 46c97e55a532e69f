import LuaExpr.Proofs.Expr.Erasure
import LuaExpr.Proofs.Lexeme.Continuation
/-!
# Layout between lexemes

Blanks and comments that are put between two lexemes of a text leave the lexemes as they are. There
are two ways in which a lexeme may take some of them along, and neither is seen by the compiler: a
comment in front of them becomes longer, and a carriage return and a line feed become one line
break.

* `Lexeme.stop`: where a lexeme ends; `Cursor.pairwise_outcomes`: lexemes come one after the other.
* `Filler`: what may be put between lexemes; `Filler.outcomes`: it is read as comments and line
  breaks.
* `Cursor.outcomes_filled`: what is read of a text with a filler between two of its lexemes.
-/

namespace LuaExpr

/-! ## Places -/

namespace Text

variable {text source back : List Char}

theorem utf8Length_pos (h : text ≠ []) : 0 < utf8Length text := by
  obtain ⟨c, text, rfl⟩ := List.exists_cons_of_ne_nil h
  rw [utf8Length_cons]
  exact Nat.add_pos_left c.utf8Size_pos _

/-- A front of a text that has no more bytes than another front is a front of it. -/
theorem prefix_of_utf8Length_le (h : text <+: source ++ back)
    (hle : utf8Length text ≤ utf8Length source) :
    text <+: source := by
  rcases Nat.le_total text.length source.length with hlength | hlength
  · exact List.prefix_of_prefix_length_le h (List.prefix_append _ _) hlength
  · obtain ⟨more, rfl⟩ := List.prefix_of_prefix_length_le (List.prefix_append _ _) h hlength
    have hmore : more = [] := by
      by_contra hne
      have := utf8Length_pos hne
      rw [utf8Length_append] at hle
      omega
    rw [hmore, List.append_nil]

end Text

/-- The offset of the end of a lexeme. -/
def Lexeme.stop (l : Lexeme) : Nat := l.start + Text.utf8Length l.text

namespace Cursor

variable {c d : Cursor} {l : Lexeme} {ls : List Lexeme}

theorem offset_of_next? (h : c.next? = some (.ok l, d)) :
    c.offset ≤ l.start ∧ l.start < l.stop ∧ d.offset = l.stop := by
  obtain ⟨hlongest, hstart, rfl⟩ := exists_isLongestLexeme_of_next? h
  refine ⟨by rw [hstart]; exact Nat.le_add_right _ _, ?_, ?_⟩
  · obtain ⟨first, rest, htext, -⟩ := hlongest.isLexeme.exists_eq_cons
    have hne : l.text ≠ [] := by
      rw [htext]
      exact List.cons_ne_nil _ _
    have := Text.utf8Length_pos hne
    rw [Lexeme.stop]
    omega
  · rw [drop, ← List.prefix_iff_eq_take.mp hlongest.front, Lexeme.stop, hstart]

theorem start_of_mem_outcomes (h : c.outcomes = ls.map .ok) :
    ∀ l ∈ ls, c.offset ≤ l.start ∧ l.start < l.stop := by
  induction ls generalizing c with
  | nil =>
    intro l hl
    cases hl
  | cons k ls ih =>
    obtain ⟨d, hd, hls⟩ := exists_next?_of_outcomes_eq_cons h
    obtain ⟨hstart, hstop, hoffset⟩ := offset_of_next? hd
    intro l hl
    rcases List.mem_cons.mp hl with rfl | hl
    · exact ⟨hstart, hstop⟩
    · obtain ⟨hle, hlt⟩ := ih hls l hl
      exact ⟨by omega, hlt⟩

/-- **Lexemes come one after the other.** -/
theorem pairwise_outcomes (h : c.outcomes = ls.map .ok) :
    ls.Pairwise fun l k => l.stop ≤ k.start := by
  induction ls generalizing c with
  | nil => exact .nil
  | cons l ls ih =>
    obtain ⟨d, hd, hls⟩ := exists_next?_of_outcomes_eq_cons h
    refine List.pairwise_cons.mpr ⟨fun k hk => ?_, ih hls⟩
    rw [← (offset_of_next? hd).2.2]
    exact (start_of_mem_outcomes hls k hk).1

/-! ## Blanks -/

theorem outcomes_congr (h : c.skipBlanks = d.skipBlanks) : c.outcomes = d.outcomes := by
  have hnext : c.next? = d.next? := by rw [next?, next?, h]
  cases hd : d.next? with
  | none => rw [outcomes_of_none hd, outcomes_of_none (hnext.trans hd)]
  | some r =>
    rw [outcomes_of_some (r := r.1) (d := r.2) hd,
      outcomes_of_some (r := r.1) (d := r.2) (hnext.trans hd)]

/-- Skipping blanks stops at the first character that is no blank. -/
theorem skipBlanks_append {blanks source : List Char} (hb : ∀ c ∈ blanks, Reading.isBlank c = true)
    (hs : ∀ c ∈ source.head?, Reading.isBlank c = false) (offset : Nat) :
    skipBlanks { rest := blanks ++ source, offset } =
      { rest := source, offset := offset + Text.utf8Length blanks } := by
  have hrun : Reading.run Reading.isBlank (blanks ++ source) = blanks.length := by
    rw [Reading.run_append hb]
    cases source with
    | nil => rfl
    | cons c source => simp [Reading.run, hs c rfl]
  rw [skipBlanks, hrun, drop, List.drop_left, List.take_left]

/-- Blanks at the front of a text are not read. -/
theorem outcomes_blanks {blanks : List Char} (hb : ∀ c ∈ blanks, Reading.isBlank c = true)
    (rest : List Char) (offset : Nat) :
    outcomes { rest := blanks ++ rest, offset } =
      outcomes { rest, offset := offset + Text.utf8Length blanks } := by
  refine outcomes_congr ?_
  have hrun := Reading.run_append hb rest (p := Reading.isBlank)
  rw [skipBlanks, skipBlanks, hrun, drop, drop, List.drop_append, List.take_append,
    Nat.add_sub_cancel_left, List.drop_of_length_le (Nat.le_add_right _ _),
    List.take_of_length_le (Nat.le_add_right _ _), List.nil_append,
    Text.utf8Length_append, Nat.add_assoc]

/-! ## Single lexemes -/

variable {text rest : List Char}

theorem next?_of_front {kind : TokenKind} (h : IsLongestLexeme rest kind text) (offset : Nat) :
    next? { rest, offset } = some (.ok { kind, start := offset, text },
      { rest := rest.drop text.length, offset := offset + Text.utf8Length text }) := by
  have hskip : skipBlanks { rest, offset } = { rest, offset } := by
    refine skipBlanks_append (List.forall_mem_nil _) (fun c hc => ?_) offset
    obtain ⟨first, more, rfl, hfirst⟩ := h.isLexeme.exists_eq_cons
    obtain ⟨tail, rfl⟩ := h.front
    cases hc
    exact hfirst
  rw [next?_of_isLongestLexeme (c := { rest, offset }) (by rw [hskip]; exact h), hskip, drop,
    ← List.prefix_iff_eq_take.mp h.front]

theorem next?_lineFeed (rest : List Char) (offset : Nat) : next? { rest := '\n' :: rest, offset } =
    some (.ok { kind := .line, start := offset, text := ['\n'] }, { rest, offset := offset + 1 }) :=
  next?_of_front (Reading.isLongestLexeme_of_ofFront (Reading.ofFront_lineFeed rest)) offset

theorem next?_carriageReturnLineFeed (rest : List Char) (offset : Nat) :
    next? { rest := '\r' :: '\n' :: rest, offset } =
      some (.ok { kind := .line, start := offset, text := ['\r', '\n'] },
        { rest, offset := offset + 2 }) :=
  next?_of_front (Reading.isLongestLexeme_of_ofFront
    (Reading.ofFront_carriageReturn ('\n' :: rest))) offset

/-- A comment goes as far as its line. -/
theorem next?_comment (ht : ∀ c ∈ text, c ≠ '\n' ∧ c ≠ '\r')
    (hrest : ∀ c ∈ rest.head?, c = '\n' ∨ c = '\r')
    (offset : Nat) : next? { rest := '-' :: '-' :: (text ++ rest), offset } =
      some (.ok { kind := .comment, start := offset, text := '-' :: '-' :: text },
        { rest, offset := offset + Text.utf8Length ('-' :: '-' :: text) }) := by
  have hall : ∀ c ∈ '-' :: text, (!Reading.isBreak c) = true := by
    intro c hc
    rcases List.mem_cons.mp hc with rfl | hc
    · rfl
    · simp [Reading.isBreak, ht c hc]
  have hrun : Reading.run (fun c => !Reading.isBreak c) ('-' :: (text ++ rest)) =
      ('-' :: text).length := by
    rw [← List.cons_append, Reading.run_append hall]
    cases rest with
    | nil => rfl
    | cons c rest =>
      have hc : Reading.isBreak c = true := by simpa [Reading.isBreak] using hrest c rfl
      simp [Reading.run, hc]
  have hof : Reading.ofFront '-' ('-' :: (text ++ rest)) = _ := Reading.ofFront_hyphens rfl
  rw [hrun] at hof
  have hnext := next?_of_front (Reading.isLongestLexeme_of_ofFront hof) offset
  rw [← List.cons_append, List.take_left] at hnext
  rw [← List.cons_append, hnext]
  simp

end Cursor

/-! ## Fillers -/

/-- What may be put between two lexemes, with its line feed apart: a run of blanks, or blanks and
perhaps a comment in front of a line feed. -/
inductive Filler : List Char → List Char → Prop
  | blanks {bs : List Char} (hb : ∀ c ∈ bs, Reading.isBlank c = true) : Filler bs []
  | line {bs : List Char} (hb : ∀ c ∈ bs, Reading.isBlank c = true) : Filler bs ['\n']
  | comment {bs text : List Char} (hne : bs ≠ []) (hb : ∀ c ∈ bs, Reading.isBlank c = true)
      (ht : ∀ c ∈ text, c ≠ '\n' ∧ c ≠ '\r') : Filler (bs ++ '-' :: '-' :: text) ['\n']

section Fillers

variable {fill br source back text : List Char} {kind : TokenKind}

theorem Reading.ne_break_of_isBlank {c : Char} (h : isBlank c = true) : c ≠ '\n' ∧ c ≠ '\r' := by
  constructor <;> (rintro rfl; cases h)

namespace Filler

/-- Apart from its line feed a filler begins with a blank. -/
theorem isBlank_of_head? (h : Filler fill br) : ∀ c ∈ fill.head?, Reading.isBlank c = true := by
  have hhead : ∀ {bs : List Char}, (∀ c ∈ bs, Reading.isBlank c = true) →
      ∀ c ∈ bs.head?, Reading.isBlank c = true :=
    fun hb c hc => hb c (List.mem_of_mem_head? hc)
  cases h with
  | blanks hb => exact hhead hb
  | line hb => exact hhead hb
  | @comment bs text hne hb _ =>
    intro c hc
    rw [List.head?_append_of_ne_nil _ hne] at hc
    exact hhead hb c hc

theorem ne_break (h : Filler fill br) : ∀ c ∈ fill, c ≠ '\n' ∧ c ≠ '\r' := by
  cases h with
  | blanks hb => exact fun c hc => Reading.ne_break_of_isBlank (hb c hc)
  | line hb => exact fun c hc => Reading.ne_break_of_isBlank (hb c hc)
  | comment _ hb ht =>
    intro c hc
    rcases List.mem_append.mp hc with hc | hc
    · exact Reading.ne_break_of_isBlank (hb c hc)
    rcases List.mem_cons.mp hc with rfl | hc
    · decide
    rcases List.mem_cons.mp hc with rfl | hc
    · decide
    · exact ht c hc

theorem eq_nil_or_eq_lineFeed (h : Filler fill br) : br = [] ∨ br = ['\n'] := by
  cases h with
  | blanks _ => exact .inl rfl
  | line _ => exact .inr rfl
  | comment _ _ _ => exact .inr rfl

/-- The line feed of a filler is read as a line break. -/
theorem outcomes_lineFeed (h : Filler fill br) (back : List Char) (offset : Nat) :
    ∃ lexemes : List Lexeme, (∀ l ∈ lexemes, l.kind = .comment ∨ l.kind = .line ∧ br ≠ []) ∧
      Cursor.outcomes { rest := br ++ back, offset } =
        lexemes.map .ok ++
          Cursor.outcomes { rest := back, offset := offset + Text.utf8Length br } := by
  rcases h.eq_nil_or_eq_lineFeed with rfl | rfl
  · exact ⟨[], by simp, rfl⟩
  · exact ⟨[_], by simp, Cursor.outcomes_of_some (Cursor.next?_lineFeed back offset)⟩

/-- A filler is read as comments and line breaks. -/
theorem outcomes (h : Filler fill br) (back : List Char) (offset : Nat) :
    ∃ lexemes : List Lexeme, (∀ l ∈ lexemes, l.kind = .comment ∨ l.kind = .line ∧ br ≠ []) ∧
      Cursor.outcomes { rest := fill ++ (br ++ back), offset } = lexemes.map .ok ++
        Cursor.outcomes
          { rest := back, offset := offset + Text.utf8Length fill + Text.utf8Length br } := by
  obtain ⟨lexemes, hkinds, hread⟩ := h.outcomes_lineFeed back (offset + Text.utf8Length fill)
  cases h with
  | blanks hb => exact ⟨lexemes, hkinds, (Cursor.outcomes_blanks hb _ _).trans hread⟩
  | line hb => exact ⟨lexemes, hkinds, (Cursor.outcomes_blanks hb _ _).trans hread⟩
  | @comment bs text _ hb ht =>
    have hbreak : ∀ c ∈ ('\n' :: back).head?, c = '\n' ∨ c = '\r' := by simp
    have hcomment := Cursor.next?_comment ht hbreak (offset + Text.utf8Length bs)
    refine ⟨{ kind := .comment
              start := offset + Text.utf8Length bs
              text := '-' :: '-' :: text } :: lexemes, ?_, ?_⟩
    · intro l hl
      rcases List.mem_cons.mp hl with rfl | hl
      · exact .inl rfl
      · exact hkinds l hl
    · rw [Text.utf8Length_append, ← Nat.add_assoc] at hread ⊢
      rw [List.append_assoc, Cursor.outcomes_blanks hb]
      exact (Cursor.outcomes_of_some hcomment).trans (congrArg _ hread)

end Filler

/-! ## Lexemes in front of a filler -/

/-- A lexeme is read in front of a filler as it is read without it, apart from two cases. -/
theorem IsLongestLexeme.filled (hfill : Filler fill br)
    (h : IsLongestLexeme (source ++ back) kind text)
    (hp : text <+: source) (hcr : ¬ (source = ['\r'] ∧ fill = []))
    (hcomment : ¬ (kind = .comment ∧ text = source)) :
    IsLongestLexeme (source ++ (fill ++ (br ++ back))) kind text := by
  cases fill with
  | cons x fill =>
    have hx : Reading.isBlank x = true := hfill.isBlank_of_head? x rfl
    have hgap : Reading.isGap x = true := by rw [Reading.isGap, hx]; rfl
    refine h.interrupted hp (.inl hgap) (fun hboth => ?_) (fun hk ht => absurd ⟨hk, ht⟩ hcomment) _
    exact (Reading.ne_break_of_isBlank hx).1 hboth.2
  | nil =>
    rcases hfill.eq_nil_or_eq_lineFeed with rfl | rfl
    · exact h
    · exact h.interrupted hp (.inl rfl) (fun hboth => hcr ⟨hboth.1, rfl⟩) (fun _ _ => rfl) back

/-- Behind a comment there is a line break, or nothing. -/
theorem IsLongestLexeme.break_of_comment (h : IsLongestLexeme (text ++ back) .comment text) :
    ∃ rest, text = '-' :: '-' :: rest ∧ (∀ c ∈ rest, c ≠ '\n' ∧ c ≠ '\r') ∧
      ∀ c ∈ back.head?, c = '\n' ∨ c = '\r' := by
  obtain ⟨rest, rfl, hrest⟩ : ∃ rest,
    text = '-' :: '-' :: rest ∧ ∀ c ∈ rest, c ≠ '\n' ∧ c ≠ '\r' := by
    cases h.isLexeme with
    | comment hrest => exact ⟨_, rfl, hrest⟩
  refine ⟨rest, rfl, hrest, fun c hc => ?_⟩
  obtain ⟨back, rfl⟩ := List.head?_eq_some_iff.mp hc
  by_contra hbreak
  rw [not_or] at hbreak
  have hlonger : IsLexeme .comment ('-' :: '-' :: (rest ++ [c])) := by
    refine .comment fun d hd => ?_
    rcases List.mem_append.mp hd with hd | hd
    · exact hrest d hd
    · rw [List.mem_singleton.mp hd]
      exact hbreak
  have hle := h.longest _ _ hlonger ⟨back, by simp⟩
  simp at hle

/-- A comment takes along what a filler has in front of its line feed. -/
theorem Cursor.next?_comment_filled (hfill : Filler fill br)
    (h : IsLongestLexeme (text ++ back) .comment text)
    (offset : Nat) : next? { rest := text ++ (fill ++ (br ++ back)), offset } =
      some (.ok { kind := .comment, start := offset, text := text ++ fill },
        { rest := br ++ back,
          offset := offset + Text.utf8Length text + Text.utf8Length fill }) := by
  obtain ⟨rest, rfl, hrest, hback⟩ := h.break_of_comment
  have hall : ∀ c ∈ rest ++ fill, c ≠ '\n' ∧ c ≠ '\r' := by
    intro c hc
    rcases List.mem_append.mp hc with hc | hc
    · exact hrest c hc
    · exact hfill.ne_break c hc
  have hbreak : ∀ c ∈ (br ++ back).head?, c = '\n' ∨ c = '\r' := by
    rcases hfill.eq_nil_or_eq_lineFeed with rfl | rfl
    · exact hback
    · rintro c ⟨⟩
      exact .inl rfl
  have hnext := next?_comment hall hbreak offset
  simpa only [List.cons_append, List.append_assoc, Text.utf8Length_cons, Text.utf8Length_append,
    Nat.add_assoc] using hnext

end Fillers

/-! ## Texts with a filler -/

namespace Cursor

variable {fill br back : List Char}

/-- What a filler behind the front of a text makes of the lexemes of the text: those in front of it
look the same, it adds comments and line breaks, and those behind it are read from the same text as
before. -/
structure Filled (fill br front back : List Char) (offset : Nat)
    (before after : List Lexeme) : Prop where
  /-- The lexemes in front end there. -/
  stop_le : ∀ l ∈ before, l.stop ≤ offset + Text.utf8Length front
  /-- The other lexemes are those of the text behind. -/
  rest : outcomes { rest := back, offset := offset + Text.utf8Length front } = after.map .ok
  /-- What is read with the filler. -/
  read : ∃ before' added : List Lexeme, before'.map Lexeme.bare = before.map Lexeme.bare ∧
    (∀ l ∈ added, l.kind = .comment ∨ l.kind = .line ∧ br ≠ []) ∧
    outcomes { rest := front ++ (fill ++ (br ++ back)), offset } = (before' ++ added).map .ok ++
      outcomes { rest := back,
                 offset :=
                   offset + Text.utf8Length front + Text.utf8Length fill + Text.utf8Length br }

/-- A front that has only blanks has no lexemes. -/
theorem filled_blanks (hfill : Filler fill br) {front : List Char} {offset : Nat} {ls : List Lexeme}
    (hb : ∀ c ∈ front, Reading.isBlank c = true)
    (h : outcomes { rest := front ++ back, offset } = ls.map .ok) :
    Filled fill br front back offset [] ls := by
  rw [outcomes_blanks hb] at h
  obtain ⟨added, hkinds, hread⟩ := hfill.outcomes back (offset + Text.utf8Length front)
  refine ⟨by simp, h, [], added, rfl, hkinds, ?_⟩
  rw [outcomes_blanks hb, hread]
  rfl

variable {blanks text rest : List Char} {kind : TokenKind} {offset : Nat}
  {before after : List Lexeme}

/-- A lexeme that is read with the filler as without it. -/
theorem Filled.cons (hb : ∀ c ∈ blanks, Reading.isBlank c = true)
    (hsame : IsLongestLexeme (text ++ rest ++ (fill ++ (br ++ back))) kind text)
    (h : Filled fill br rest back
      (offset + Text.utf8Length blanks + Text.utf8Length text) before after) :
    Filled fill br (blanks ++ (text ++ rest)) back offset
      ({ kind, start := offset + Text.utf8Length blanks, text } :: before) after := by
  have hplace : offset + Text.utf8Length blanks + Text.utf8Length text + Text.utf8Length rest =
      offset + Text.utf8Length (blanks ++ (text ++ rest)) := by
    simp only [Text.utf8Length_append]
    omega
  obtain ⟨hstop, hrest, before', added, hbefore, hkinds, hread⟩ := h
  rw [hplace] at hstop hrest hread
  refine ⟨fun l hl => ?_, hrest,
    { kind, start := offset + Text.utf8Length blanks, text } :: before', added, ?_, hkinds, ?_⟩
  · rcases List.mem_cons.mp hl with rfl | hl
    · rw [Lexeme.stop, ← hplace]
      exact Nat.le_add_right _ _
    · exact hstop l hl
  · rw [List.map_cons, List.map_cons, hbefore]
  · have hnext := next?_of_front hsame (offset + Text.utf8Length blanks)
    rw [List.append_assoc text, List.drop_left] at hnext
    rw [List.append_assoc, List.append_assoc, outcomes_blanks hb, outcomes_of_some hnext, hread]
    rfl

/-- A comment right in front of the filler takes most of it along. -/
theorem filled_comment (hfill : Filler fill br) (hb : ∀ c ∈ blanks, Reading.isBlank c = true)
    (h : IsLongestLexeme (text ++ back) .comment text)
    (hafter : outcomes
        { rest := back, offset := offset + Text.utf8Length blanks + Text.utf8Length text } =
      after.map .ok) :
    Filled fill br (blanks ++ text) back offset
      [{ kind := .comment, start := offset + Text.utf8Length blanks, text }] after := by
  have hplace : offset + Text.utf8Length blanks + Text.utf8Length text =
      offset + Text.utf8Length (blanks ++ text) := by
    rw [Text.utf8Length_append, Nat.add_assoc]
  obtain ⟨added, hkinds, hread⟩ := hfill.outcomes_lineFeed back
    (offset + Text.utf8Length blanks + Text.utf8Length text + Text.utf8Length fill)
  refine ⟨?_, hplace ▸ hafter,
    [{ kind := .comment, start := offset + Text.utf8Length blanks, text := text ++ fill }], added,
    ?_, hkinds, ?_⟩
  · intro l hl
    obtain rfl := List.mem_singleton.mp hl
    exact hplace.le
  · exact congrArg (· :: []) (Lexeme.bare_eq_of_kind rfl rfl)
  · rw [List.append_assoc, outcomes_blanks hb, outcomes_of_some (next?_comment_filled hfill h _),
      hread, hplace]
    rfl

/-- A carriage return right in front of a line feed takes it along. -/
theorem filled_carriageReturn (hfill : Filler [] br) (hb : ∀ c ∈ blanks, Reading.isBlank c = true)
    (hafter : outcomes { rest := back, offset := offset + Text.utf8Length blanks + 1 } =
      after.map .ok)
    (hcr : IsLongestLexeme ('\r' :: back) .line ['\r']) :
    Filled [] br (blanks ++ ['\r']) back offset
      [{ kind := .line, start := offset + Text.utf8Length blanks, text := ['\r'] }] after := by
  have hplace : offset + Text.utf8Length blanks + 1 =
      offset + Text.utf8Length (blanks ++ ['\r']) := by
    rw [Text.utf8Length_append, ← Nat.add_assoc]
    rfl
  rcases hfill.eq_nil_or_eq_lineFeed with rfl | rfl
  · have hrest : Filled [] [] [] back
        (offset + Text.utf8Length blanks + Text.utf8Length ['\r']) [] after :=
      filled_blanks hfill (by simp) hafter
    exact hrest.cons hb hcr
  · have hnext := next?_carriageReturnLineFeed back (offset + Text.utf8Length blanks)
    refine ⟨?_, hplace ▸ hafter,
      [{ kind := .line, start := offset + Text.utf8Length blanks, text := ['\r', '\n'] }], [],
      ?_, by simp, ?_⟩
    · intro l hl
      obtain rfl := List.mem_singleton.mp hl
      exact hplace.le
    · exact congrArg (· :: []) (Lexeme.bare_eq_of_kind rfl rfl)
    · rw [List.append_assoc, outcomes_blanks hb]
      refine (outcomes_of_some hnext).trans ?_
      rw [← hplace]
      rfl

/-- A front of a text that has more than blanks begins with some of them and goes on with something
else. -/
theorem exists_blanks_append {front : List Char} (h : ¬ ∀ c ∈ front, Reading.isBlank c = true) :
    ∃ blanks source, front = blanks ++ source ∧ (∀ c ∈ blanks, Reading.isBlank c = true) ∧
      source ≠ [] ∧
      ∀ c ∈ source.head?, Reading.isBlank c = false := by
  have hne : front.dropWhile Reading.isBlank ≠ [] := by simpa using h
  refine ⟨front.takeWhile Reading.isBlank, front.dropWhile Reading.isBlank,
    List.takeWhile_append_dropWhile.symm, fun c hc => List.mem_takeWhile_imp hc, hne,
    fun c hc => ?_⟩
  rw [List.head?_eq_some_head hne] at hc
  cases hc
  exact List.head_dropWhile_not _ hne

/-- The first lexeme of a text, if its front has more than blanks and the end of the front is not
inside of it. -/
theorem exists_front_lexeme {source : List Char} {l : Lexeme} {ls : List Lexeme}
    (hb : ∀ c ∈ blanks, Reading.isBlank c = true)
    (hs : ∀ c ∈ source.head?, Reading.isBlank c = false)
    (hne : source ≠ []) (h : outcomes { rest := blanks ++ source ++ back, offset } =
      (l :: ls).map .ok)
    (hplace : l.stop ≤ offset + Text.utf8Length (blanks ++ source) ∨
      offset + Text.utf8Length (blanks ++ source) ≤ l.start) :
    ∃ rest, source = l.text ++ rest ∧ IsLongestLexeme (source ++ back) l.kind l.text ∧
      l.start = offset + Text.utf8Length blanks ∧
      outcomes
        { rest := rest ++ back
          offset := offset + Text.utf8Length blanks + Text.utf8Length l.text } =
        ls.map .ok := by
  have hskip : skipBlanks { rest := blanks ++ source ++ back, offset } =
      { rest := source ++ back, offset := offset + Text.utf8Length blanks } := by
    rw [List.append_assoc]
    refine skipBlanks_append hb (fun c hc => hs c ?_) offset
    rwa [List.head?_append_of_ne_nil _ hne] at hc
  obtain ⟨d, hd, hls⟩ := exists_next?_of_outcomes_eq_cons h
  obtain ⟨hlongest, hstart, rfl⟩ := exists_isLongestLexeme_of_next? hd
  rw [hskip] at hlongest hstart hls
  have hstart : l.start = offset + Text.utf8Length blanks := hstart
  have hle : Text.utf8Length l.text ≤ Text.utf8Length source := by
    have hpos := Text.utf8Length_pos hne
    simp only [Lexeme.stop, Text.utf8Length_append, hstart] at hplace
    omega
  obtain ⟨rest, rfl⟩ := Text.prefix_of_utf8Length_le hlongest.front hle
  refine ⟨rest, rfl, hlongest, hstart, ?_⟩
  rw [drop, ← List.prefix_iff_eq_take.mp hlongest.front, List.append_assoc, List.drop_left] at hls
  exact hls

/-- **Reading with a filler.** Let a place in a text not be strictly inside a lexeme. The lexemes of
the text with a filler there are those in front of the place, what the filler is read as, and those
behind the place. -/
theorem outcomes_filled (hfill : Filler fill br) {front : List Char} {ls : List Lexeme}
    (h : outcomes { rest := front ++ back, offset } = ls.map .ok)
    (hplace : ∀ l ∈ ls, l.stop ≤ offset + Text.utf8Length front ∨
      offset + Text.utf8Length front ≤ l.start) :
    ∃ before after, ls = before ++ after ∧ Filled fill br front back offset before after := by
  induction ls generalizing front offset with
  | nil =>
    refine ⟨[], [], rfl, filled_blanks hfill ?_ h⟩
    by_contra hblank
    obtain ⟨blanks, source, rfl, hb, hne, hs⟩ := exists_blanks_append hblank
    have hskip := rest_skipBlanks_of_none (next?_of_outcomes_eq_nil h)
    rw [List.append_assoc,
      skipBlanks_append hb (by rwa [List.head?_append_of_ne_nil _ hne])] at hskip
    exact hne (List.append_eq_nil_iff.mp hskip).1
  | cons l ls ih =>
    by_cases hblank : ∀ c ∈ front, Reading.isBlank c = true
    · exact ⟨[], l :: ls, rfl, filled_blanks hfill hblank h⟩
    obtain ⟨blanks, source, rfl, hb, hne, hs⟩ := exists_blanks_append hblank
    obtain ⟨rest, rfl, hlongest, hstart, hls⟩ :=
      exists_front_lexeme hb hs hne h (hplace l (by simp))
    obtain ⟨kind, start, text⟩ := l
    obtain rfl : start = offset + Text.utf8Length blanks := hstart
    by_cases hcomment : kind = .comment ∧ text = text ++ rest
    · obtain ⟨rfl, hrest⟩ := hcomment
      obtain rfl : rest = [] := by simpa using hrest
      rw [List.append_nil] at hlongest ⊢
      exact ⟨[_], ls, rfl, filled_comment hfill hb hlongest hls⟩
    by_cases hcr : text ++ rest = ['\r'] ∧ fill = []
    · obtain ⟨htext, rfl⟩ := hcr
      obtain ⟨c, more, rfl, -⟩ := hlongest.isLexeme.exists_eq_cons
      obtain ⟨rfl, hnil⟩ := List.cons_eq_cons.mp htext
      obtain ⟨rfl, rfl⟩ := List.append_eq_nil_iff.mp hnil
      have hlongest : IsLongestLexeme ('\r' :: back) kind ['\r'] := hlongest
      obtain ⟨hof, -⟩ := Reading.ofFront_of_isLongestLexeme hlongest
      obtain rfl := (Reading.lexeme.inj (hof.symm.trans (Reading.ofFront_carriageReturn back))).1
      exact ⟨[_], ls, rfl, filled_carriageReturn hfill hb hls hlongest⟩
    have hsame := hlongest.filled hfill (List.prefix_append _ _) hcr hcomment
    obtain ⟨before, after, rfl, hfilled⟩ := ih hls fun k hk => by
      have := hplace k (by simp [hk])
      simpa only [Text.utf8Length_append, Nat.add_assoc] using this
    exact ⟨_ :: before, after, rfl, hfilled.cons hb hsame⟩

end Cursor

end LuaExpr
