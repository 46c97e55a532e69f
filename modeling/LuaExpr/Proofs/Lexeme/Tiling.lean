import LuaExpr.Proofs.Lexeme.Places
/-!
# Segments of a source

Readings cut a source into segments: each lexeme and each fault covers the one that it is about,
with nothing but blanks between one segment and the next, so that every byte of the source is a
blank that was skipped or is covered once.

* `Reading.exists_of_stringBody_eq_false`: how far a string without an end goes.
* `Segment`: what a lexeme or a fault covers; `Cursor.exists_segment_of_next?`: a reading covers
  what it passes over.
* `Lexer.segmentStart`, `Lexer.segmentStop`: the ends of the segments;
  `Lexer.position_le_segmentStart` and `Lexer.segmentStart_le_segmentStop`: they are in order.
* `Lexer.tiles`: the segments and the blanks between them are the source.
-/

namespace LuaExpr

/-! ## Strings without an end -/

namespace Reading

/-- What has been passed over when a string has not ended is a string body, and then a line break or
what is left at the end of the text: nothing, or a backslash. -/
theorem exists_of_stringBody_eq_false {quote : Char} {seen n : Nat} {text : List Char}
    (h : stringBody quote seen text = (false, n)) :
    ∃ body last rest, text = body ++ (last ++ rest) ∧
      StringBody quote body ∧ n = seen + (body ++ last).length ∧
      ((last = ['\n'] ∨ last = ['\r']) ∨ rest = [] ∧ (last = [] ∨ last = ['\\'])) := by
  fun_induction stringBody quote seen text with
  | case1 seen => exact ⟨[], [], [], rfl, .nil, by simpa using h.symm, .inr ⟨rfl, .inl rfl⟩⟩
  | case2 => simp at h
  | case3 seen c rest hq hbreak =>
    refine ⟨[], [c], rest, rfl, .nil, by simpa using h.symm, .inl ?_⟩
    simpa [isBreak] using hbreak
  | case4 seen rest n _ _ ih =>
    obtain ⟨body, last, more, hrest, hbody, rfl, hlast⟩ := ih h
    rcases escapeWidth_cases rest with ⟨rfl, hwidth⟩ | ⟨tail, rfl, hwidth⟩ | ⟨c, tail,
      rfl, -, hwidth⟩
    · obtain ⟨rfl, hnil⟩ : body = [] ∧ last ++ more = [] := by simpa using hrest.symm
      obtain ⟨rfl, rfl⟩ := List.append_eq_nil_iff.mp hnil
      have hn : n = 0 := hwidth
      exact ⟨[], ['\\'], [], rfl, .nil, by simp [hn], .inr ⟨rfl, .inr rfl⟩⟩
    · have hn : n = 2 := hwidth
      rw [hn] at hrest
      obtain rfl : tail = body ++ (last ++ more) := hrest
      refine ⟨'\\' :: '\r' :: '\n' :: body, last, more, rfl, .lineBreak hbody, ?_, hlast⟩
      simp only [List.cons_append, List.length_cons]
      omega
    · have hn : n = 1 := hwidth
      rw [hn] at hrest
      obtain rfl : tail = body ++ (last ++ more) := hrest
      refine ⟨'\\' :: c :: body, last, more, rfl, .pair hbody, ?_, hlast⟩
      simp only [List.cons_append, List.length_cons]
      omega
  | case5 seen c rest hq hbreak hs ih =>
    obtain ⟨body, last, more, rfl, hbody, rfl, hlast⟩ := ih h
    simp only [isBreak, Bool.or_eq_true, beq_iff_eq, not_or] at hbreak
    refine ⟨c :: body, last, more, rfl, .plain hq hs hbreak.1 hbreak.2 hbody, ?_, hlast⟩
    rw [List.cons_append, List.length_cons]
    omega

end Reading

/-! ## Segments -/

/-- `Segment outcome start text rest`: a lexeme or a fault covers a text at an offset, behind which
there is more text. A lexeme covers its own text, an unexpected character covers itself, and a
string without an end covers everything from its quote through the line break that ended it, or up
to the end of the source. -/
inductive Segment : Except LexError Lexeme → Nat → List Char → List Char → Prop
  | lexeme {l : Lexeme} {rest : List Char} (h : l.kind ≠ .eof) : Segment (.ok l) l.start l.text rest
  | unexpected {c : Char} {start : Nat} {rest : List Char} :
      Segment (.error (.unexpectedCharacter c start)) start [c] rest
  | broken {quote br : Char} {start : Nat} {body rest : List Char} (hq : quote = '"' ∨ quote = '\'')
      (h : StringBody quote body) (hbr : br = '\n' ∨ br = '\r') :
      Segment (.error (.unterminatedString start)) start (quote :: (body ++ [br])) rest
  | ended {quote : Char} {start : Nat} {body last : List Char} (hq : quote = '"' ∨ quote = '\'')
      (h : StringBody quote body) (hlast : last = [] ∨ last = ['\\']) :
      Segment (.error (.unterminatedString start)) start (quote :: (body ++ last)) []

theorem Segment.kind_ne_eof {l : Lexeme} {start : Nat} {text rest : List Char}
    (h : Segment (.ok l) start text rest) :
    l.kind ≠ .eof := by
  generalize hr : (Except.ok l : Except LexError Lexeme) = r at h
  cases h with
  | lexeme h =>
    cases hr
    exact h
  | _ => cases hr

/-- A reading covers its first character and those that it counts. -/
theorem Reading.segment_of_ofFront (first : Char) (rest : List Char) (start : Nat) :
    Segment (Cursor.outcome start first rest (ofFront first rest)) start
      (first :: rest.take (ofFront first rest).more) (rest.drop (ofFront first rest).more) := by
  cases hof : ofFront first rest with
  | lexeme kind more => exact .lexeme (kind_ne_eof_of_ofFront hof)
  | unexpected => exact .unexpected
  | unterminated more =>
    have hquote := isQuote_of_ofFront_eq_unterminated hof
    rw [ofFront_of_isQuote hquote, string] at hof
    split at hof
    · cases hof
    · rename_i n hbody
      cases hof
      obtain ⟨body, last, tail, rfl, hinside, rfl, hlast⟩ := exists_of_stringBody_eq_false hbody
      have hfront : (body ++ (last ++ tail)).take (0 + (body ++ last).length) = body ++ last := by
        rw [Nat.zero_add, ← List.append_assoc, List.take_left]
      have hback : (body ++ (last ++ tail)).drop (0 + (body ++ last).length) = tail := by
        rw [Nat.zero_add, ← List.append_assoc, List.drop_left]
      rw [more, hfront, hback]
      rcases hlast with (rfl | rfl) | ⟨rfl, hlast⟩
      · exact .broken (isQuote_iff.mp hquote) hinside (.inl rfl)
      · exact .broken (isQuote_iff.mp hquote) hinside (.inr rfl)
      · exact .ended (isQuote_iff.mp hquote) hinside hlast

namespace Cursor

variable {source : String} {c d : Cursor} {r : Except LexError Lexeme}

/-- A reading passes over some blanks and over the text that it covers. -/
theorem exists_segment_of_next? (h : c.next? = some (r, d)) :
    ∃ text, text ≠ [] ∧ c.skipBlanks.rest = text ++ d.rest ∧
    d.offset = c.skipBlanks.offset + Text.utf8Length text ∧
    Segment r c.skipBlanks.offset text d.rest := by
  cases hrest : c.skipBlanks.rest with
  | nil => rw [next?_of_nil hrest] at h; cases h
  | cons first rest =>
    rw [next?_of_cons hrest] at h
    obtain ⟨rfl, rfl⟩ := Prod.mk.inj (Option.some.inj h)
    refine ⟨first :: rest.take (Reading.ofFront first rest).more, List.cons_ne_nil _ _, ?_, ?_, ?_⟩
    · rw [drop, hrest, List.drop_succ_cons, List.cons_append, List.take_append_drop]
    · rw [drop, hrest, List.take_succ_cons]
    · rw [drop, hrest, List.drop_succ_cons]
      exact Reading.segment_of_ofFront first rest _

theorem IsAt.offset_le (h : c.IsAt source) : c.offset ≤ source.utf8ByteSize := by
  obtain ⟨passed, hsource, hoffset⟩ := h
  rw [hoffset, ← Text.utf8Length_toList, hsource, Text.utf8Length_append]
  exact Nat.le_add_right _ _

/-- Where nothing is left to read, the end is. -/
theorem IsAt.offset_eq (h : c.IsAt source) (hrest : c.rest = []) :
    c.offset = source.utf8ByteSize := by
  obtain ⟨passed, hsource, hoffset⟩ := h
  rw [hrest, List.append_nil] at hsource
  rw [hoffset, ← Text.utf8Length_toList, hsource]

end Cursor

/-- A blank is a single byte, so that blanks are found at every byte of a run of them. -/
theorem StandsAt.exists_blank {source : String} {blanks : List Char} {start byte : Nat}
    (h : StandsAt source blanks start) (hb : ∀ c ∈ blanks, c = ' ' ∨ c = '\t')
    (hstart : start ≤ byte) (hstop : byte < start + Text.utf8Length blanks) :
    ∃ c, (c = ' ' ∨ c = '\t') ∧ StandsAt source [c] byte := by
  induction blanks generalizing start with
  | nil =>
    rw [Text.utf8Length_nil] at hstop
    omega
  | cons c blanks ih =>
    obtain ⟨hc, hb⟩ := List.forall_mem_cons.mp hb
    have hsize : c.utf8Size = 1 := by rcases hc with rfl | rfl <;> rfl
    have hfirst : StandsAt source [c] start := StandsAt.left (t := blanks) h
    have hmore : StandsAt source blanks (start + 1) := by
      have := StandsAt.right (s := [c]) h
      rwa [Text.utf8Length_cons, hsize, Text.utf8Length_nil] at this
    rw [Text.utf8Length_cons, hsize] at hstop
    rcases hstart.eq_or_lt with rfl | hlt
    · exact ⟨c, hc, hfirst⟩
    · exact ih hmore hb hlt (by omega)

/-! ## The segments of a source -/

namespace Lexer

/-- The offset that a number of readings has come to. -/
def position (source : String) (n : Nat) : Nat := (after source n).cursor.offset

/-- What the reading after a number of readings gives. -/
def outcome (source : String) (n : Nat) : Except LexError Lexeme := (after source n).read.1

/-- Where the segment of a reading begins. -/
def segmentStart (source : String) (n : Nat) : Nat := (after source n).cursor.skipBlanks.offset

/-- Where the segment of a reading ends. -/
def segmentStop (source : String) (n : Nat) : Nat := position source (n + 1)

/-- A byte of the source is in the segment of a reading. -/
def Covers (source : String) (n byte : Nat) : Prop :=
  segmentStart source n ≤ byte ∧ byte < segmentStop source n

/-- A byte of the source is a space or a tab that some reading has skipped. -/
def Skips (source : String) (byte : Nat) : Prop :=
  ∃ n c, (c = ' ' ∨ c = '\t') ∧ StandsAt source [c] byte ∧ position source n ≤ byte ∧
    byte < segmentStart source n

/-- The end of the source has been read. -/
def Ended (source : String) (n : Nat) : Prop := ∃ l, outcome source n = .ok l ∧ l.kind = .eof

variable {source : String} {n k byte : Nat}

/-- What a reading does: it skips blanks and covers a text, or it finds the end. -/
theorem reading_cases (source : String) (n : Nat) :
    (Ended source n ∧ outcome source n = .ok (.eof source.utf8ByteSize) ∧ Ended source (n + 1) ∧
      segmentStart source n = source.utf8ByteSize ∧ segmentStop source n = source.utf8ByteSize) ∨
    ¬ Ended source n ∧ ∃ text rest, text ≠ [] ∧
      (after source n).cursor.skipBlanks.rest = text ++ rest ∧
      segmentStop source n = segmentStart source n + Text.utf8Length text ∧
      Segment (outcome source n) (segmentStart source n) text rest := by
  have hat := isAt_skipBlanks_after source n
  cases hnext : (after source n).cursor.next? with
  | none =>
    have hread := Cursor.next_of_none hnext
    have hrest := Cursor.rest_skipBlanks_of_none hnext
    have hend := hat.offset_eq hrest
    have hout : outcome source n = .ok (.eof source.utf8ByteSize) := by
      rw [← hend]
      exact congrArg Prod.fst hread
    have hcursor : (after source (n + 1)).cursor = (after source n).cursor.skipBlanks := by
      rw [after_succ]
      exact congrArg Prod.snd hread
    have hagain : Ended source (n + 1) := by
      refine ⟨_, congrArg Prod.fst (Cursor.next_of_none (Cursor.next?_of_rest_eq_nil ?_)), rfl⟩
      rw [hcursor, hrest]
    exact .inl ⟨⟨_, hout, rfl⟩, hout, hagain, hend, (congrArg Cursor.offset hcursor).trans hend⟩
  | some rd =>
    obtain ⟨r, d⟩ := rd
    have hread := Cursor.next_of_some hnext
    obtain ⟨text, hne, hrest, hoffset, hsegment⟩ := Cursor.exists_segment_of_next? hnext
    have hout : outcome source n = r := congrArg Prod.fst hread
    have hcursor : (after source (n + 1)).cursor = d := by
      rw [after_succ]
      exact congrArg Prod.snd hread
    refine .inr ⟨?_, text, d.rest, hne, hrest, (congrArg Cursor.offset hcursor).trans hoffset,
      hout ▸ hsegment⟩
    rintro ⟨l, hl, hkind⟩
    rw [← hout, hl] at hsegment
    exact hsegment.kind_ne_eof hkind

/-- Blanks lie between the end of the readings before and the segment of a reading. -/
theorem exists_blanks (source : String) (n : Nat) : ∃ blanks,
    (after source n).cursor.rest = blanks ++ (after source n).cursor.skipBlanks.rest ∧
      (∀ c ∈ blanks, c = ' ' ∨ c = '\t') ∧
      segmentStart source n = position source n + Text.utf8Length blanks ∧
      StandsAt source blanks (position source n) := by
  obtain ⟨blanks, hrest, hoffset, hblanks, -⟩ := (after source n).cursor.exists_skipBlanks
  obtain ⟨passed, hsource, hpassed⟩ := isAt_after source n
  exact ⟨blanks, hrest, hblanks, hoffset, passed, _, hrest ▸ hsource, hpassed⟩

theorem position_le_segmentStart (source : String) (n : Nat) :
    position source n ≤ segmentStart source n :=
  Nat.le_add_right _ _

theorem segmentStart_lt_segmentStop (h : ¬ Ended source n) :
    segmentStart source n < segmentStop source n := by
  rcases reading_cases source n with ⟨hend, -⟩ | ⟨-, text, -, hne, -, hstop, -⟩
  · exact absurd hend h
  · have := Text.utf8Length_pos hne
    omega

theorem segmentStart_le_segmentStop (source : String) (n : Nat) :
    segmentStart source n ≤ segmentStop source n := by
  rcases reading_cases source n with ⟨-, -, -, hstart, hstop⟩ | ⟨hend, -⟩
  · rw [hstart, hstop]
  · exact (segmentStart_lt_segmentStop hend).le

/-- Readings only go forward. -/
theorem monotone_position (source : String) : Monotone (position source) :=
  monotone_nat_of_le_succ fun n => (position_le_segmentStart source n).trans
    (segmentStart_le_segmentStop source n)

theorem Ended.mono (h : Ended source n) (hk : n ≤ k) : Ended source k := by
  induction k, hk using Nat.le_induction with
  | base => exact h
  | succ k _ ih =>
    rcases reading_cases source k with ⟨-, -, hagain, -⟩ | ⟨hnot, -⟩
    · exact hagain
    · exact absurd ih hnot

theorem Ended.outcome_eq (h : Ended source n) :
    outcome source n = .ok (.eof source.utf8ByteSize) := by
  rcases reading_cases source n with ⟨-, hout, -⟩ | ⟨hnot, -⟩
  · exact hout
  · exact absurd h hnot

/-- Up to the end every reading moves on by one byte or more. -/
theorem le_position (h : ∀ k < n, ¬ Ended source k) : n ≤ position source n := by
  induction n with
  | zero => exact Nat.zero_le _
  | succ n ih =>
    have hle := ih fun k hk => h k (hk.trans n.lt_succ_self)
    have hstart := position_le_segmentStart source n
    have hstop := segmentStart_lt_segmentStop (h n n.lt_succ_self)
    rw [segmentStop] at hstop
    omega

/-- The end is found after no more readings than there are bytes. -/
theorem exists_ended (source : String) :
    ∃ m ≤ source.utf8ByteSize, (∀ n < m, ¬ Ended source n) ∧ Ended source m := by
  classical
  have hex : ∃ m, Ended source m := by
    obtain ⟨m, hm⟩ := yields_eof source
    exact ⟨m, _, hm, rfl⟩
  have hbefore : ∀ n < Nat.find hex, ¬ Ended source n := fun n hn => Nat.find_min hex hn
  refine ⟨Nat.find hex, ?_, hbefore, Nat.find_spec hex⟩
  exact (le_position hbefore).trans (isAt_after source _).offset_le

/-- Every byte is passed over by one reading. -/
theorem exists_reading (h : byte < source.utf8ByteSize) :
    ∃ n, position source n ≤ byte ∧ byte < position source (n + 1) := by
  classical
  have hex : ∃ m, byte < position source m := by
    obtain ⟨m, -, -, hm⟩ := exists_ended source
    rcases reading_cases source m with ⟨-, -, -, -, hstop⟩ | ⟨hnot, -⟩
    · exact ⟨m + 1, lt_of_lt_of_eq h hstop.symm⟩
    · exact absurd hm hnot
  have hne : Nat.find hex ≠ 0 := by
    intro hzero
    have := Nat.find_spec hex
    rw [hzero] at this
    exact Nat.not_lt_zero _ this
  obtain ⟨n, hn⟩ := Nat.exists_eq_succ_of_ne_zero hne
  refine ⟨n, Nat.not_lt.mp (Nat.find_min hex (by omega)), ?_⟩
  have hfound := Nat.find_spec hex
  rwa [hn] at hfound

theorem eq_of_position {m : Nat} (hn : position source n ≤ byte ∧ byte < position source (n + 1))
    (hm : position source m ≤ byte ∧ byte < position source (m + 1)) : n = m := by
  have hmono := monotone_position source
  rcases Nat.lt_trichotomy n m with hlt | heq | hlt
  · exact absurd (hn.2.trans_le ((hmono hlt).trans hm.1)) (Nat.lt_irrefl _)
  · exact heq
  · exact absurd (hm.2.trans_le ((hmono hlt).trans hn.1)) (Nat.lt_irrefl _)

/-- The reading that passes over a byte is the only one that can cover it. -/
theorem Covers.eq (h : Covers source k byte)
    (hn : position source n ≤ byte ∧ byte < position source (n + 1)) :
    k = n :=
  eq_of_position ⟨(position_le_segmentStart source k).trans h.1, h.2⟩ hn

/-- Every byte of a source is a blank that was skipped, or it is covered once. -/
theorem skips_or_covers (h : byte < source.utf8ByteSize) :
    (Skips source byte ∧ ∀ n, ¬ Covers source n byte) ∨
      (¬ Skips source byte ∧ ∃! n, Covers source n byte) := by
  obtain ⟨n, hn⟩ := exists_reading h
  by_cases hstart : byte < segmentStart source n
  · obtain ⟨blanks, -, hblanks, hoffset, hat⟩ := exists_blanks source n
    obtain ⟨c, hc, hblank⟩ := hat.exists_blank hblanks hn.1 (hoffset ▸ hstart)
    refine .inl ⟨⟨n, c, hc, hblank, hn.1, hstart⟩, fun k hk => ?_⟩
    obtain rfl := hk.eq hn
    exact Nat.not_lt.mpr hk.1 hstart
  · refine .inr ⟨?_, n, ⟨Nat.not_lt.mp hstart, hn.2⟩, fun k hk => hk.eq hn⟩
    rintro ⟨k, c, -, -, hk, hlt⟩
    obtain rfl := eq_of_position ⟨hk, hlt.trans_le (segmentStart_le_segmentStop source k)⟩ hn
    exact hstart hlt

/-- **The segments of a source.** However often a lexer reads, it is between two characters of its
source. Every reading but the end covers some text, which begins where the one before has stopped or
after some spaces and tabs there. So every byte is a space or a tab that was skipped, or it is in
the segment of one reading. The end comes after no more readings than the source has bytes, and then
there is nothing else. -/
theorem tiles (source : String) :
    (∀ n, (after source n).cursor.IsAt source ∧ position source n ≤ source.utf8ByteSize) ∧
      position source 0 = 0 ∧
    (∀ n, ¬ Ended source n → ∃ blanks text rest, (after source n).cursor.rest =
        blanks ++ (text ++ rest) ∧
      (∀ c ∈ blanks, c = ' ' ∨ c = '\t') ∧
      segmentStart source n = position source n + Text.utf8Length blanks ∧
      text ≠ [] ∧ segmentStop source n = segmentStart source n + Text.utf8Length text ∧
      Segment (outcome source n) (segmentStart source n) text rest) ∧
    (∀ byte < source.utf8ByteSize, (Skips source byte ∧ ∀ n, ¬ Covers source n byte) ∨
      (¬ Skips source byte ∧ ∃! n, Covers source n byte)) ∧
    ∃ m ≤ source.utf8ByteSize, (∀ n < m, ¬ Ended source n) ∧
      ∀ n ≥ m, outcome source n = .ok (.eof source.utf8ByteSize) := by
  refine ⟨fun n => ⟨isAt_after source n, (isAt_after source n).offset_le⟩, rfl, fun n hn => ?_,
    fun byte => skips_or_covers, ?_⟩
  · obtain ⟨blanks, hrest, hblanks, hstart, -⟩ := exists_blanks source n
    rcases reading_cases source n with ⟨hend, -⟩ | ⟨-, text, rest, hne, htext, hstop, hsegment⟩
    · exact absurd hend hn
    · exact ⟨blanks, text, rest, htext ▸ hrest, hblanks, hstart, hne, hstop, hsegment⟩
  · obtain ⟨m, hm, hbefore, hend⟩ := exists_ended source
    exact ⟨m, hm, hbefore, fun n hn => (hend.mono hn).outcome_eq⟩

end Lexer

end LuaExpr
