import LuaExpr.Proofs.Lexeme.Spelling
/-!
# Escapes in string literals

There is one way only to split the body of a string from left to right into plain characters and
escapes. The decoder finds the first escape that stands for nothing, and the backslash and the mark
that it reports stand in the source.

* `Piece.Takes marks rest`: how far an escape goes: a whole line break, as many digits as there are
  up to three, or one other character.
* `Splits body pieces`: the pieces are all of the body, in order.
* `Splits.eq_ofBody`, `StringBody.splits_ofBody`: the body of a string splits in exactly one way.
* `Piece.IsKnown marks`: the escapes that stand for a character.
* `Lexer.Yields.splits_decode`: which strings of a source are decoded, and what is reported about
  the others.
-/

namespace LuaExpr

/-! ## How far an escape goes -/

namespace Piece

variable {c : Char} {marks rest text : List Char}

/-- `Takes marks rest`: a backslash takes these marks with it, and leaves the rest. -/
inductive Takes : List Char → List Char → Prop
  | lineBreak {rest : List Char} : Takes ['\r', '\n'] rest
  | digits {marks rest : List Char} (hne : marks ≠ []) (hd : ∀ d ∈ marks, d.isDigit = true)
      (hlen : marks.length ≤ 3)
      (hnext : marks.length < 3 → ∀ d ∈ rest.head?, d.isDigit = false) : Takes marks rest
  | mark {c : Char} {rest : List Char} (hd : c.isDigit = false)
      (hbreak : c = '\r' → rest.head? ≠ some '\n') :
      Takes [c] rest

theorem Takes.escapeWidth_eq (h : Takes marks rest) :
    escapeWidth (marks ++ rest) = marks.length := by
  cases h with
  | lineBreak => rfl
  | digits hne hd hlen hnext => exact escapeWidth_digits hd hne hlen hnext
  | mark hd hbreak => exact escapeWidth_mark hd hbreak

/-- A run of at most `n` characters ends because it is full or because of the character after it. -/
theorem head?_drop_takeWhile_take (p : Char → Bool) (text : List Char) (n : Nat)
    (h : ((text.take n).takeWhile p).length < n) :
    ∀ d ∈ (text.drop ((text.take n).takeWhile p).length).head?, p d = false := by
  induction n generalizing text with
  | zero => exact absurd h (Nat.not_lt_zero _)
  | succ n ih =>
    cases text with
    | nil => simp
    | cons c text =>
      rw [List.take_succ_cons] at h ⊢
      by_cases hc : p c = true
      · rw [List.takeWhile_cons_of_pos hc, List.length_cons] at h ⊢
        exact ih text (Nat.lt_of_succ_lt_succ h)
      · rw [List.takeWhile_cons_of_neg hc]
        simpa using hc

/-- Something after a backslash is always taken, and in no other way. -/
theorem takes_escapeWidth (hne : text ≠ []) :
    Takes (text.take (escapeWidth text)) (text.drop (escapeWidth text)) := by
  obtain ⟨c, rest, rfl⟩ := List.exists_cons_of_ne_nil hne
  by_cases hbreak : c = '\r' ∧ rest.head? = some '\n'
  · obtain ⟨rfl, hrest⟩ := hbreak
    obtain ⟨more, rfl⟩ := List.head?_eq_some_iff.mp hrest
    exact .lineBreak
  rw [escapeWidth_cons hbreak]
  cases hc : c.isDigit with
  | false => exact .mark hc fun hr hrest => hbreak ⟨hr, hrest⟩
  | true =>
    have hrun : (c :: rest).take (((c :: rest).take 3).takeWhile Char.isDigit).length =
        ((c :: rest).take 3).takeWhile Char.isDigit :=
      (List.prefix_iff_eq_take.mp ((List.takeWhile_prefix _).trans (List.take_prefix 3 _))).symm
    rw [if_pos rfl, hrun]
    refine .digits ?_ (fun d hd => List.mem_takeWhile_imp hd) ?_ (head?_drop_takeWhile_take _ _ 3)
    · rw [List.take_succ_cons, List.takeWhile_cons_of_pos hc]
      exact List.cons_ne_nil _ _
    · exact ((List.takeWhile_prefix _).length_le).trans (List.length_take_le _ _)

end Piece

/-! ## Splitting a body -/

/-- `Splits body pieces`: from left to right the body consists of these pieces. -/
inductive Splits : List Char → List Piece → Prop
  | nil : Splits [] []
  | plain {c : Char} {body : List Char} {pieces : List Piece} (hc : c ≠ '\\')
      (h : Splits body pieces) :
      Splits (c :: body) (.plain c :: pieces)
  | escape {marks body : List Char} {pieces : List Piece} (hm : Piece.Takes marks body)
      (h : Splits body pieces) :
      Splits ('\\' :: (marks ++ body)) (.escape marks :: pieces)

section Splitting

variable {quote : Char} {body marks : List Char} {pieces : List Piece}

/-- There is no other way to split a body. -/
theorem Splits.eq_ofBody (h : Splits body pieces) : pieces = Piece.ofBody body := by
  induction h with
  | nil => rw [Piece.ofBody_nil]
  | plain hc _ ih => rw [Piece.ofBody_plain hc, ih]
  | escape hm _ ih => rw [Piece.ofBody_escape hm.escapeWidth_eq, ih]

theorem Splits.flatMap_spelled (h : Splits body pieces) : pieces.flatMap Piece.spelled = body := by
  rw [h.eq_ofBody, Piece.flatMap_spelled_ofBody]

/-- Each escape has taken what it could. -/
theorem Splits.takes (h : Splits body pieces) (hm : .escape marks ∈ pieces) :
    ∃ rest, Piece.Takes marks rest := by
  induction h with
  | nil => cases hm
  | plain _ _ ih => exact ih (by simpa using hm)
  | @escape _ body _ htakes _ ih =>
    rcases List.mem_cons.mp hm with heq | hm
    · obtain rfl := Piece.escape.inj heq
      exact ⟨body, htakes⟩
    · exact ih hm

/-- What holds of no pieces, and goes on to hold when a plain character or an escape is put in
front, holds of the body of every string. -/
theorem StringBody.ofBody_induction {motive : List Char → List Piece → Prop}
    (h : StringBody quote body) (nil : motive [] [])
    (plain : ∀ {c : Char} {body : List Char} {pieces : List Piece}, c ≠ '\\' → c ≠ '\n' →
      motive body pieces →
      motive (c :: body) (.plain c :: pieces))
    (escape : ∀ {marks body : List Char} {pieces : List Piece}, Piece.Takes marks body →
      motive body pieces →
      motive ('\\' :: (marks ++ body)) (.escape marks :: pieces)) :
    motive body (Piece.ofBody body) := by
  induction hn : body.length using Nat.strong_induction_on generalizing body with
  | _ n ih =>
    cases body with
    | nil => exact Piece.ofBody_nil ▸ nil
    | cons c rest =>
      by_cases hc : c = '\\'
      · subst hc
        obtain ⟨hmarks, hrest⟩ := h.drop_escapeWidth
        have hne : rest ≠ [] := by
          rintro rfl
          exact hmarks List.take_nil
        have htakes := Piece.takes_escapeWidth hne
        have hlt : (rest.drop (Piece.escapeWidth rest)).length < n := by
          rw [← hn, List.length_drop, List.length_cons]
          omega
        have hmotive := escape htakes (ih _ hlt hrest rfl)
        rwa [← Piece.ofBody_escape htakes.escapeWidth_eq, List.take_append_drop] at hmotive
      · cases h with
        | plain _ _ hbreak _ hrest =>
          rw [Piece.ofBody_plain hc]
          exact plain hc hbreak (ih rest.length (hn ▸ Nat.lt_succ_self _) hrest rfl)
        | pair _ => exact absurd rfl hc
        | lineBreak _ => exact absurd rfl hc

/-- The body of a string can be split. -/
theorem StringBody.splits_ofBody (h : StringBody quote body) : Splits body (Piece.ofBody body) :=
  h.ofBody_induction .nil (fun hc _ hsplits => .plain hc hsplits) fun htakes hsplits =>
    .escape htakes hsplits

end Splitting

/-! ## Escapes that stand for a character -/

namespace Piece

variable {c : Char} {marks rest : List Char} {pieces : List Piece}

/-- The characters that stand for one after a backslash, besides digits. -/
def knownMarks : List Char := ['n', 't', 'r', 'a', 'b', 'f', 'v', '\\', '"', '\'', '\n', '\r']

/-- `IsKnown marks`: a backslash with these marks stands for a character. -/
inductive IsKnown : List Char → Prop
  | mark {c : Char} (hc : c ∈ knownMarks) : IsKnown [c]
  | lineBreak : IsKnown ['\r', '\n']
  | code {marks : List Char} (hne : marks ≠ []) (hd : ∀ d ∈ marks, d.isDigit = true)
      (hcode : Decimal.ofDigits marks ≤ 127) : IsKnown marks

theorem isSome_ofMark?_iff : (ofMark? c).isSome ↔ c ∈ knownMarks := by
  constructor
  · intro h
    unfold ofMark? at h
    split at h
    case h_13 => cases h
    all_goals simp [knownMarks]
  · intro h
    have hall : knownMarks.all (ofMark? · |>.isSome) = true := rfl
    exact List.all_eq_true.mp hall c h

theorem not_isDigit_of_mem_knownMarks (h : c ∈ knownMarks) : c.isDigit = false := by
  have hall : knownMarks.all (!·.isDigit) = true := rfl
  simpa using List.all_eq_true.mp hall c h

/-- Digits are known by the code that they name. -/
theorem isKnown_digits_iff (hne : marks ≠ []) (hd : ∀ d ∈ marks, d.isDigit = true) :
    IsKnown marks ↔ Decimal.ofDigits marks ≤ 127 := by
  constructor
  · intro h
    cases h with
    | mark hc =>
      have hdigit := hd _ List.mem_cons_self
      rw [not_isDigit_of_mem_knownMarks hc] at hdigit
      cases hdigit
    | lineBreak => cases hd '\r' List.mem_cons_self
    | code _ _ hcode => exact hcode
  · exact .code hne hd

/-- A single character is known by itself. -/
theorem isKnown_mark_iff (hd : c.isDigit = false) : IsKnown [c] ↔ c ∈ knownMarks := by
  constructor
  · intro h
    cases h with
    | mark hc => exact hc
    | code _ hdigit _ =>
      rw [hdigit c List.mem_cons_self] at hd
      cases hd
  · exact .mark

/-- The decoder knows the escapes that stand for a character. -/
theorem Takes.isSome_decode?_iff (h : Takes marks rest) :
    (decode? (escape marks)).isSome ↔ IsKnown marks := by
  cases h with
  | lineBreak => exact iff_of_true rfl .lineBreak
  | digits hne hd _ _ =>
    rw [isKnown_digits_iff hne hd]
    obtain ⟨d, digits, rfl⟩ := List.exists_cons_of_ne_nil hne
    simp only [decode?, hd d List.mem_cons_self, if_true]
    split <;> simp [*]
  | mark hd _ =>
    rw [isKnown_mark_iff hd, ← isSome_ofMark?_iff]
    simp [decode?, hd]

/-- What stands for nothing is an escape. -/
theorem exists_escape_of_decode?_eq_none {p : Piece} (h : p.decode? = none) :
    ∃ mark more, p = escape (mark :: more) := by
  cases p with
  | plain c => cases h
  | escape marks =>
    cases marks with
    | nil => cases h
    | cons mark more => exact ⟨mark, more, rfl⟩

/-! ## The first escape that stands for nothing -/

/-- The decoder passes over pieces that stand for characters, and reports the first one that does
not. -/
theorem decodeAll_go_eq_error {mark : Char} {offset : Nat} {found more : List Char}
    {before after : List Piece} (hbefore : ∀ p ∈ before, p.decode?.isSome)
    (hmark : decode? (escape (mark :: more)) = none) :
    decodeAll.go offset found (before ++ escape (mark :: more) :: after) =
      .error (.invalidEscape (offset + Text.utf8Length (before.flatMap spelled)) mark) := by
  induction before generalizing offset found with
  | nil =>
    simp only [List.nil_append, decodeAll.go, hmark]
    rfl
  | cons p before ih =>
    obtain ⟨c, hc⟩ := Option.isSome_iff_exists.mp (hbefore p List.mem_cons_self)
    simp only [List.cons_append, decodeAll.go, hc]
    rw [ih fun q hq => hbefore q (List.mem_cons_of_mem p hq), List.flatMap_cons,
      Text.utf8Length_append, Nat.add_assoc]

/-- Pieces that all stand for characters are decoded. -/
theorem exists_decodeAll_go_eq_ok {offset : Nat} {found : List Char}
    (h : ∀ p ∈ pieces, p.decode?.isSome) :
    ∃ text, decodeAll.go offset found pieces = .ok text := by
  induction pieces generalizing offset found with
  | nil => exact ⟨_, rfl⟩
  | cons p pieces ih =>
    obtain ⟨c, hc⟩ := Option.isSome_iff_exists.mp (h p List.mem_cons_self)
    simp only [decodeAll.go, hc]
    exact ih fun q hq => h q (List.mem_cons_of_mem p hq)

/-- The first escape of some pieces that stands for nothing, and the pieces before it. -/
structure FirstUnknown (pieces before : List Piece) (marks : List Char) : Prop where
  split : ∃ after, pieces = before ++ escape marks :: after
  known : ∀ marks, escape marks ∈ before → IsKnown marks
  unknown : ¬ IsKnown marks

end Piece

section Splitting

variable {body : List Char} {pieces : List Piece}

/-- The decoder knows the pieces that have only known escapes among them. -/
theorem Splits.all_decode?_iff (h : Splits body pieces) {before : List Piece}
    (hsub : before ⊆ pieces) :
    (∀ p ∈ before, p.decode?.isSome) ↔ ∀ marks, .escape marks ∈ before → Piece.IsKnown marks := by
  constructor
  · intro hall marks hm
    obtain ⟨rest, htakes⟩ := h.takes (hsub hm)
    exact htakes.isSome_decode?_iff.mp (hall _ hm)
  · intro hall p hp
    cases p with
    | plain c => rfl
    | escape marks =>
      obtain ⟨rest, htakes⟩ := h.takes (hsub hp)
      exact htakes.isSome_decode?_iff.mpr (hall marks hp)

/-- Unless all escapes are known, there is a first one that is not, and it takes something. -/
theorem Splits.exists_firstUnknown (h : Splits body pieces)
    (hnot : ¬ ∀ marks, .escape marks ∈ pieces → Piece.IsKnown marks) :
    ∃ before mark more, Piece.FirstUnknown pieces before (mark :: more) := by
  cases hfind : pieces.find? (·.decode?.isNone) with
  | none =>
    refine absurd ((h.all_decode?_iff (List.Subset.refl _)).mp fun p hp => ?_) hnot
    simpa [Option.isSome_iff_ne_none] using List.find?_eq_none.mp hfind p hp
  | some p =>
    obtain ⟨hp, before, after, rfl, hbefore⟩ := List.find?_eq_some_iff_append.mp hfind
    have hnone : p.decode? = none := Option.isNone_iff_eq_none.mp hp
    obtain ⟨mark, more, rfl⟩ := Piece.exists_escape_of_decode?_eq_none hnone
    refine ⟨before, mark, more, ⟨after, rfl⟩, ?_, fun hknown => ?_⟩
    · refine (h.all_decode?_iff (List.subset_append_left _ _)).mp fun q hq => ?_
      simpa [Option.isSome_iff_ne_none] using hbefore q hq
    · obtain ⟨rest, htakes⟩ := h.takes (List.mem_append_right before List.mem_cons_self)
      have hsome := htakes.isSome_decode?_iff.mpr hknown
      rw [hnone] at hsome
      cases hsome

/-- A body all of whose escapes are known is decoded. -/
theorem Splits.exists_decodeAll_eq_ok (h : Splits body pieces) (offset : Nat)
    (hall : ∀ marks, .escape marks ∈ pieces → Piece.IsKnown marks) :
    ∃ text, Piece.decodeAll offset (Piece.ofBody body) = .ok text := by
  rw [← h.eq_ofBody]
  exact Piece.exists_decodeAll_go_eq_ok ((h.all_decode?_iff (List.Subset.refl _)).mpr hall)

/-- The first escape of a body that is not known is reported. -/
theorem Splits.decodeAll_eq_error (h : Splits body pieces) (offset : Nat) {before : List Piece}
    {mark : Char} {more : List Char} (hfirst : Piece.FirstUnknown pieces before (mark :: more)) :
    Piece.decodeAll offset (Piece.ofBody body) =
      .error (.invalidEscape (offset + Text.utf8Length (before.flatMap Piece.spelled)) mark) := by
  obtain ⟨⟨after, rfl⟩, hknown, hunknown⟩ := hfirst
  rw [← h.eq_ofBody]
  refine Piece.decodeAll_go_eq_error
    ((h.all_decode?_iff (List.subset_append_left _ _)).mpr hknown) ?_
  obtain ⟨rest, htakes⟩ := h.takes (List.mem_append_right before List.mem_cons_self)
  have hnot := mt htakes.isSome_decode?_iff.mp hunknown
  simpa using hnot

/-- The first escape that is not known stands in the body after the pieces before it. -/
theorem Splits.eq_append_of_firstUnknown (h : Splits body pieces) {before : List Piece}
    {marks : List Char} (hfirst : Piece.FirstUnknown pieces before marks) :
    ∃ rest, body = before.flatMap Piece.spelled ++ ('\\' :: marks ++ rest) := by
  obtain ⟨⟨after, rfl⟩, -, -⟩ := hfirst
  refine ⟨after.flatMap Piece.spelled, ?_⟩
  rw [← h.flatMap_spelled, List.flatMap_append, List.flatMap_cons]
  rfl

end Splitting

/-! ## The strings of a source -/

/-- A string literal with a fault in it stops the compiler, and nothing changes. -/
theorem Compiler.stringLiteral_eq_error {s : Compiler} {l : Lexeme} {e : ParseError}
    (hprevious : s.previous = l) (h : StringLiteral.decode l.start l.text = .error e) :
    stringLiteral s = .error (.parse e) s := by
  subst hprevious
  simp only [stringLiteral, get, getThe, MonadStateOf.get, EStateM.get, bind, EStateM.bind, h]
  rfl

/-- **Escapes are judged exactly.** The body of a string of a source splits from left to right in
exactly one way, and the string is decoded if and only if its escapes are all known. Otherwise there
is a first one that is not, and the fault is about the backslash and the mark of that one, where
they stand in the source. -/
theorem Lexer.Yields.splits_decode {source : String} {l : Lexeme} (h : Yields source (.ok l))
    (hk : l.kind = .string) :
    ∃ quote body pieces, l.text = quote :: (body ++ [quote]) ∧ Splits body pieces ∧
      (∀ others, Splits body others → others = pieces) ∧
      ((∃ text, StringLiteral.decode l.start l.text = .ok text) ↔
        ∀ marks, .escape marks ∈ pieces → Piece.IsKnown marks) ∧
      ((¬ ∃ text, StringLiteral.decode l.start l.text = .ok text) →
        ∃ before mark more, Piece.FirstUnknown pieces before (mark :: more)) ∧
      ∀ before mark more, Piece.FirstUnknown pieces before (mark :: more) →
        ∃ offset, offset = l.start + 1 + Text.utf8Length (before.flatMap Piece.spelled) ∧
          StandsAt source ('\\' :: mark :: more) offset ∧
          StringLiteral.decode l.start l.text = .error (.invalidEscape offset mark) ∧
          ∀ s : Compiler, s.previous = l →
            Compiler.stringLiteral s = .error (.parse (.invalidEscape offset mark)) s := by
  have hat := h.standsAt
  have hlexeme := h.isLexeme (by rw [hk]; decide)
  obtain ⟨kind, start, text⟩ := l
  obtain rfl : kind = .string := hk
  cases hlexeme with
  | @string quote body hq hbody =>
    have hsplits := hbody.splits_ofBody
    have hdecode : StringLiteral.decode start (quote :: (body ++ [quote])) =
        Piece.decodeAll (start + 1) (Piece.ofBody body) := by
      rw [StringLiteral.decode, StringLiteral.body_quoted]
    have hiff : (∃ text, StringLiteral.decode start (quote :: (body ++ [quote])) = .ok text) ↔
        ∀ marks, .escape marks ∈ Piece.ofBody body → Piece.IsKnown marks := by
      refine ⟨fun hdecoded => ?_, fun hall => hdecode ▸ hsplits.exists_decodeAll_eq_ok _ hall⟩
      obtain ⟨text, hok⟩ := hdecoded
      by_contra hnot
      obtain ⟨before, mark, more, hfirst⟩ := hsplits.exists_firstUnknown hnot
      rw [hdecode, hsplits.decodeAll_eq_error _ hfirst] at hok
      cases hok
    refine ⟨quote, body, _, rfl, hsplits, fun others hothers => hothers.eq_ofBody, hiff,
      fun hfails => ?_, ?_⟩
    · exact hsplits.exists_firstUnknown fun hall => hfails (hiff.mpr hall)
    · intro before mark more hfirst
      have herror := hdecode.trans (hsplits.decodeAll_eq_error (start + 1) hfirst)
      refine ⟨_, rfl, ?_, herror, fun s hs => Compiler.stringLiteral_eq_error hs herror⟩
      obtain ⟨rest, hrest⟩ := hsplits.eq_append_of_firstUnknown hfirst
      have hquote : Text.utf8Length [quote] = 1 := by rcases hq with rfl | rfl <;> rfl
      have hinside := (StandsAt.right (s := [quote]) hat).left
      rw [hquote, hrest] at hinside
      exact hinside.right.left

/-- A character of two bytes, a backslash that hides another one, a code of three digits and a line
break of two characters stand before the first escape that is not known; another such escape stands
after it. -/
theorem Lexer.Yields.splits_decode_mixed :
    StringLiteral.decode 4 "'é\\\\\\065\\\r\n\\q\\z'".toList = .error (.invalidEscape 16 'q') ∧
      StandsAt "nil 'é\\\\\\065\\\r\n\\q\\z'" ['\\', 'q'] 16 := by
  have hyields : Yields "nil 'é\\\\\\065\\\r\n\\q\\z'"
      (.ok ⟨.string, 4, "'é\\\\\\065\\\r\n\\q\\z'".toList⟩) := ⟨1, by cbv⟩
  obtain ⟨quote, body, pieces, htext, hsplits, -, -, -, hfault⟩ := hyields.splits_decode rfl
  have hbody : body = "é\\\\\\065\\\r\n\\q\\z".toList := by
    rw [← StringLiteral.body_quoted quote body, ← htext]
    cbv
  have hpieces : pieces = [Piece.plain 'é', Piece.escape ['\\'], Piece.escape ['0', '6', '5'],
      Piece.escape ['\r', '\n']] ++ Piece.escape ['q'] :: [Piece.escape ['z']] := by
    rw [hsplits.eq_ofBody, hbody]
    cbv
  have hfirst : Piece.FirstUnknown pieces [.plain 'é', .escape ['\\'], .escape ['0', '6', '5'],
      .escape ['\r', '\n']]
      ['q'] := by
    refine ⟨⟨_, hpieces⟩, fun marks hmarks => ?_, ?_⟩
    · have hthree : marks = ['\\'] ∨ marks = ['0', '6', '5'] ∨ marks = ['\r', '\n'] := by
        simpa using hmarks
      rcases hthree with rfl | rfl | rfl
      · exact .mark (by decide)
      · exact .code (by simp) (by simp) (by decide)
      · exact .lineBreak
    · rw [Piece.isKnown_mark_iff (by decide)]
      decide
  obtain ⟨offset, hoffset, hstands, herror, -⟩ := hfault _ 'q' [] hfirst
  obtain rfl : offset = 16 := hoffset.trans (by cbv)
  exact ⟨herror, hstands⟩

end LuaExpr
