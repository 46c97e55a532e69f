import LuaExpr.Proofs.Lexeme.Outcomes
/-!
# The languages of lexemes

Which texts are lexemes of which kind, said without a reader. The reader is compared with these
languages here: what it takes for a lexeme is one, and it never stops before the end of a lexeme
that it could have read.

* `StringBody`: what may stand between the quotes of a string.
* `IsLexeme kind text`: the text belongs to the language of the kind.
* `Reading.isLexeme_of_ofFront`: a reading is a lexeme.
* `Reading.covers_of_isLexeme`: a reading covers every lexeme at the front of the text.
-/

namespace LuaExpr

/-! ## Languages -/

/-- What may stand between the quotes of a string: characters other than the quote, the backslash
and line breaks, and pairs of a backslash and any character, or of a backslash and a line break of
two characters. -/
inductive StringBody (quote : Char) : List Char → Prop
  | nil : StringBody quote []
  | plain {c : Char} {body : List Char} (hq : c ≠ quote) (hs : c ≠ '\\') (hn : c ≠ '\n')
      (hr : c ≠ '\r')
      (h : StringBody quote body) : StringBody quote (c :: body)
  | pair {c : Char} {body : List Char} (h : StringBody quote body) :
      StringBody quote ('\\' :: c :: body)
  | lineBreak {body : List Char} (h : StringBody quote body) :
      StringBody quote ('\\' :: '\r' :: '\n' :: body)

/-- `IsLexeme kind text`: the text is a lexeme of the kind. -/
inductive IsLexeme : TokenKind → List Char → Prop
  | symbol (s : Symbol) : IsLexeme (.symbol s) s.text.toList
  | lineFeed : IsLexeme .line ['\n']
  | carriageReturn : IsLexeme .line ['\r']
  | carriageReturnLineFeed : IsLexeme .line ['\r', '\n']
  | comment {text : List Char} (h : ∀ c ∈ text, c ≠ '\n' ∧ c ≠ '\r') :
      IsLexeme .comment ('-' :: '-' :: text)
  | keyword (k : Keyword) : IsLexeme (.keyword k) k.text.toList
  | name {c : Char} {text : List Char} (hc : c.isAlpha = true ∨ c = '_')
      (h : ∀ d ∈ text, d.isAlpha = true ∨ d = '_' ∨ d.isDigit = true)
      (hk : ∀ k : Keyword, k.text.toList ≠ c :: text) :
      IsLexeme .name (c :: text)
  | whole {whole : List Char} (hne : whole ≠ []) (hw : ∀ c ∈ whole, c.isDigit = true) :
      IsLexeme .number whole
  | point {whole fraction : List Char} (hne : whole ≠ []) (hw : ∀ c ∈ whole, c.isDigit = true)
      (hf : ∀ c ∈ fraction, c.isDigit = true) : IsLexeme .number (whole ++ '.' :: fraction)
  | fraction {fraction : List Char} (hne : fraction ≠ []) (hf : ∀ c ∈ fraction, c.isDigit = true) :
      IsLexeme .number ('.' :: fraction)
  | string {quote : Char} {body : List Char} (hq : quote = '"' ∨ quote = '\'')
      (h : StringBody quote body) :
      IsLexeme .string (quote :: (body ++ [quote]))

/-- No lexeme is empty, and none begins with a blank. -/
theorem IsLexeme.exists_eq_cons {kind : TokenKind} {text : List Char} (h : IsLexeme kind text) :
    ∃ c rest, text = c :: rest ∧ Reading.isBlank c = false := by
  have hblank : ∀ {c : Char}, c ≠ ' ' → c ≠ '\t' → Reading.isBlank c = false := by
    simp +contextual [Reading.isBlank]
  have hdigits : ∀ {whole : List Char}, whole ≠ [] → (∀ c ∈ whole, c.isDigit = true) →
      ∀ rest, ∃ c tail, whole ++ rest = c :: tail ∧ Reading.isBlank c = false := by
    intro whole hne hw rest
    obtain ⟨c, tail, rfl⟩ := List.exists_cons_of_ne_nil hne
    have hc : c.isDigit = true := hw c (by simp)
    exact ⟨c, tail ++ rest, rfl, hblank (by rintro rfl; cases hc) (by rintro rfl; cases hc)⟩
  cases h with
  | symbol s => cases s <;> exact ⟨_, _, rfl, rfl⟩
  | keyword k => cases k <;> exact ⟨_, _, rfl, rfl⟩
  | name hc _ _ =>
    refine ⟨_, _, rfl, hblank ?_ ?_⟩ <;>
      (rintro rfl; rcases hc with hc | hc <;> cases hc)
  | whole hne hw => simpa using hdigits hne hw []
  | point hne hw _ => exact hdigits hne hw _
  | string hq _ => rcases hq with rfl | rfl <;> exact ⟨_, _, rfl, rfl⟩
  | _ => exact ⟨_, _, rfl, rfl⟩

/-! ## Words -/

theorem Keyword.ofText?_text (k : Keyword) : Keyword.ofText? k.text = some k := by
  cases k <;> decide

theorem Keyword.exists_text_eq_cons (k : Keyword) : ∃ c t, k.text.toList = c :: t ∧
    Reading.isNameStart c = .true ∧ t.all Reading.isNamePart = .true := by
  cases k <;> exact ⟨_, _, rfl, by decide, by decide⟩

/-- A text is the keyword that is spelled so, and else a name. -/
theorem TokenKind.ofName_eq (s : String) :
    (∃ k : Keyword, k.text = s ∧ ofName s = .keyword k) ∨ (∀ k : Keyword, k.text ≠ s) ∧
      ofName s = .name := by
  unfold ofName
  split
  · rename_i k hk
    exact .inl ⟨k, by simpa using List.find?_some hk, rfl⟩
  · rename_i hnone
    refine .inr ⟨?_, rfl⟩
    rintro k rfl
    rw [Keyword.ofText?_text] at hnone
    cases hnone

/-! ## Symbols -/

namespace Symbol

theorem mem_all (s : Symbol) : s ∈ all := by
  cases s <;> decide

theorem pairwise_all : all.Pairwise fun s t => t.text.toList.length ≤ s.text.toList.length := by
  decide

/-- A symbol begins with a character that begins no word, no number that has a digit in front, no
string and no line break. -/
theorem exists_text_eq_cons (s : Symbol) :
    ∃ c t, s.text.toList = c :: t ∧ Reading.isNameStart c = false ∧
    c.isDigit = false ∧ Reading.isQuote c = false ∧ c ≠ '\n' ∧ c ≠ '\r' := by
  cases s <;> exact ⟨_, _, rfl, by decide, by decide, by decide, by decide, by decide⟩

/-- Only a point follows a point in a symbol. -/
theorem getElem?_one_of_point : ∀ s ∈ all, s.text.toList.head? = some '.' →
    s.text.toList.length = 1 ∨ s.text.toList[1]? = some '.' := by
  decide

/-- Nothing follows a hyphen in a symbol. -/
theorem length_of_hyphen :
    ∀ s ∈ all, s.text.toList.head? = some '-' → s.text.toList.length = 1 := by
  decide

theorem text_injective : ∀ {s t : Symbol}, s.text.toList = t.text.toList → s = t := by
  intro s t h
  have hall : ∀ s ∈ all, ∀ t ∈ all, s.text.toList = t.text.toList → s = t := by decide
  exact hall s s.mem_all t t.mem_all h

variable {text : List Char} {s : Symbol}

theorem longest?_eq_some (h : longest? text = some s) :
    s.text.toList <+: text ∧ ∀ s' : Symbol, s'.text.toList <+: text →
      s'.text.toList.length ≤ s.text.toList.length := by
  obtain ⟨hs, before, after, hall, hbefore⟩ := List.find?_eq_some_iff_append.mp h
  refine ⟨List.isPrefixOf_iff_prefix.mp hs, fun s' hs' => ?_⟩
  have hmem : s' ∈ before ++ s :: after := hall ▸ mem_all s'
  rcases List.mem_append.mp hmem with hmem | hmem
  · have := hbefore s' hmem
    rw [List.isPrefixOf_iff_prefix.mpr hs'] at this
    cases this
  · rcases List.mem_cons.mp hmem with rfl | hmem
    · exact Nat.le_refl _
    · have hpair := pairwise_all
      rw [hall] at hpair
      exact (List.pairwise_cons.mp (List.pairwise_append.mp hpair).2.1).1 s' hmem

theorem longest?_eq_none (h : longest? text = none) (s : Symbol) : ¬ s.text.toList <+: text := by
  intro hs
  have := List.find?_eq_none.mp h s (mem_all s)
  rw [List.isPrefixOf_iff_prefix.mpr hs] at this
  exact this rfl

end Symbol

namespace Reading

/-! ## Strings -/

variable {quote c : Char} {seen n : Nat} {text body rest : List Char}

theorem isQuote_iff : isQuote c = true ↔ c = '"' ∨ c = '\'' := by
  simp [isQuote]

/-- What a backslash takes with it: a line break of two characters, or the next character. -/
theorem escapeWidth_cases (text : List Char) :
    (text = [] ∧ escapeWidth text = 0) ∨
      (∃ rest, text = '\r' :: '\n' :: rest ∧ escapeWidth text = 2) ∨
      ∃ c rest, text = c :: rest ∧ ¬ (c = '\r' ∧ rest.head? = some '\n') ∧
        escapeWidth text = 1 := by
  unfold escapeWidth
  split
  case h_1 rest => exact .inr (.inl ⟨rest, rfl, rfl⟩)
  case h_2 c rest hne =>
    refine .inr (.inr ⟨c, rest, rfl, ?_, rfl⟩)
    rintro ⟨rfl, hrest⟩
    obtain ⟨more, rfl⟩ := List.head?_eq_some_iff.mp hrest
    exact hne more rfl rfl
  case h_3 => exact .inl ⟨rfl, rfl⟩

theorem head?_ne_lineFeed_of_stringBody (hq : isQuote quote = true) (h : StringBody quote body)
    (rest : List Char) :
    (body ++ quote :: rest).head? ≠ some '\n' := by
  intro hhead
  cases h with
  | nil =>
    obtain rfl : quote = '\n' := by simpa using hhead
    cases hq
  | plain _ _ hn _ _ => exact hn (by simpa using hhead)
  | pair _ => simp at hhead
  | lineBreak _ => simp at hhead

/-- A string body is passed over up to the quote after it. -/
theorem stringBody_append (hq : isQuote quote = true) (h : StringBody quote body) (seen : Nat)
    (rest : List Char) :
    stringBody quote seen (body ++ quote :: rest) = (true, seen + body.length + 1) := by
  have hbackslash : '\\' ≠ quote := by
    rintro rfl
    cases hq
  induction h generalizing seen with
  | nil =>
    rw [List.nil_append, stringBody, if_pos rfl]
    rfl
  | @plain c body hc hs hn hr h ih =>
    have hbreak : ¬ isBreak c = true := by simp [isBreak, hn, hr]
    rw [List.cons_append, stringBody, if_neg hc, if_neg hbreak, if_neg hs, ih, List.length_cons]
    congr 1
    omega
  | @pair c body h ih =>
    have hwidth : escapeWidth (c :: (body ++ quote :: rest)) = 1 := by
      rcases escapeWidth_cases (c :: (body ++ quote :: rest)) with ⟨hnil, -⟩ | ⟨more, hcons, -⟩
        | ⟨_, _, -, -, hone⟩
      · cases hnil
      · have hhead := head?_ne_lineFeed_of_stringBody hq h rest
        rw [(List.cons_eq_cons.mp hcons).2] at hhead
        exact absurd rfl hhead
      · exact hone
    rw [List.cons_append, stringBody, if_neg hbackslash, if_neg (by decide), if_pos rfl]
    simp only [List.cons_append, hwidth, List.drop_succ_cons, List.drop_zero]
    rw [ih, List.length_cons, List.length_cons]
    congr 1
    omega
  | @lineBreak body h ih =>
    rw [List.cons_append, stringBody, if_neg hbackslash, if_neg (by decide), if_pos rfl]
    simp only [List.cons_append, escapeWidth, List.drop_succ_cons, List.drop_zero]
    rw [ih, List.length_cons, List.length_cons, List.length_cons]
    congr 1
    omega

/-- What has been passed over up to the last quote is a string body. -/
theorem exists_stringBody (h : stringBody quote seen text = (true, n)) :
    ∃ body rest, text = body ++ quote :: rest ∧ StringBody quote body ∧
      n = seen + body.length + 1 := by
  fun_induction stringBody quote seen text with
  | case1 => simp at h
  | case2 seen rest => exact ⟨[], rest, rfl, .nil, by simpa using h.symm⟩
  | case3 => simp at h
  | case4 seen rest n _ _ ih =>
    obtain ⟨body, more, hrest, hbody, rfl⟩ := ih h
    rcases escapeWidth_cases rest with ⟨rfl, -⟩ | ⟨tail, rfl, hwidth⟩ | ⟨c, tail, rfl, -, hwidth⟩
    · simp at hrest
    · have hn : n = 2 := hwidth
      rw [hn] at hrest
      obtain rfl : tail = body ++ quote :: more := hrest
      exact ⟨'\\' :: '\r' :: '\n' :: body, more, rfl,
        .lineBreak hbody, by simp only [List.length_cons]; omega⟩
    · have hn : n = 1 := hwidth
      rw [hn] at hrest
      obtain rfl : tail = body ++ quote :: more := hrest
      exact ⟨'\\' :: c :: body, more, rfl, .pair hbody, by simp only [List.length_cons]; omega⟩
  | case5 seen c rest hq hbreak hs ih =>
    obtain ⟨body, more, rfl, hbody, rfl⟩ := ih h
    simp only [isBreak, Bool.or_eq_true, beq_iff_eq, not_or] at hbreak
    exact ⟨c :: body, more, rfl,
      .plain hq hs hbreak.1 hbreak.2 hbody, by rw [List.length_cons]; omega⟩

/-! ## The front of a text, by its first character -/

theorem ne_break_of_isNameStart (h : isNameStart c = true) : c ≠ '\n' ∧ c ≠ '\r' := by
  constructor <;> (rintro rfl; cases h)

theorem ne_break_of_isDigit (h : c.isDigit = true) : c ≠ '\n' ∧ c ≠ '\r' := by
  constructor <;> (rintro rfl; cases h)

theorem isNameStart_of_isDigit (h : c.isDigit = true) : isNameStart c = false := by
  have hu : c ≠ '_' := by
    rintro rfl
    cases h
  simp only [Char.isDigit, isNameStart, Char.isAlpha, Char.isUpper, Char.isLower, Bool.and_eq_true,
    decide_eq_true_eq, Bool.or_eq_false_iff, Bool.and_eq_false_iff, decide_eq_false_iff_not,
      beq_eq_false_iff_ne] at h ⊢
  grind

theorem ofFront_lineFeed (rest : List Char) : ofFront '\n' rest = .lexeme .line 0 := if_pos rfl

theorem ofFront_carriageReturn (rest : List Char) :
    ofFront '\r' rest = .lexeme .line (if rest.head? = some '\n' then 1 else 0) := by
  rw [ofFront, if_neg (by decide), if_pos rfl]

theorem ofFront_of_isNameStart (h : isNameStart c = true) (rest : List Char) :
    ofFront c rest = .lexeme (.ofName (String.ofList (c :: rest.takeWhile isNamePart)))
      (run isNamePart rest) := by
  obtain ⟨hn, hr⟩ := ne_break_of_isNameStart h
  rw [ofFront, if_neg hn, if_neg hr, if_pos h]
  rfl

theorem ofFront_of_isDigit (h : c.isDigit = true) (rest : List Char) :
    ofFront c rest = .lexeme .number (numberTail rest) := by
  obtain ⟨hn, hr⟩ := ne_break_of_isDigit h
  rw [ofFront, if_neg hn, if_neg hr, if_neg (by simp [isNameStart_of_isDigit h]), if_pos h]

theorem ofFront_point (h : rest.head?.any Char.isDigit = true) :
    ofFront '.' rest = .lexeme .number (run Char.isDigit rest) := by
  rw [ofFront, if_neg (by decide), if_neg (by decide), if_neg (by decide), if_neg (by decide),
    if_pos ⟨rfl, h⟩]

theorem ofFront_of_isQuote (h : isQuote c = true) (rest : List Char) :
    ofFront c rest = string c rest := by
  rcases isQuote_iff.mp h with rfl | rfl <;>
    rw [ofFront, if_neg (by decide), if_neg (by decide), if_neg (by decide), if_neg (by decide),
      if_neg (by simp), if_pos h]

theorem ofFront_hyphens (h : rest.head? = some '-') :
    ofFront '-' rest = .lexeme .comment (run (fun d => !isBreak d) rest) := by
  rw [ofFront, if_neg (by decide), if_neg (by decide), if_neg (by decide), if_neg (by decide),
    if_neg (by simp), if_neg (by decide), if_pos ⟨rfl, h⟩]

/-- A text that begins like no word, number, string, comment or line break begins with a symbol or
with nothing. -/
theorem ofFront_of_symbol {s : Symbol} (hs : s.text.toList <+: c :: rest) :
    (c = '.' ∧ rest.head?.any Char.isDigit = true) ∨ (c = '-' ∧ rest.head? = some '-') ∨
      ∃ t, Symbol.longest? (c :: rest) = some t ∧
        ofFront c rest = .lexeme (.symbol t) (t.text.length - 1) := by
  obtain ⟨d, t, htext, hname, hdigit, hquote, hn, hr⟩ := s.exists_text_eq_cons
  obtain rfl : d = c := by
    rw [htext] at hs
    exact (List.cons_prefix_cons.mp hs).1
  by_cases hpoint : d = '.' ∧ rest.head?.any Char.isDigit = true
  · exact .inl hpoint
  by_cases hhyphen : d = '-' ∧ rest.head? = some '-'
  · exact .inr (.inl hhyphen)
  refine .inr (.inr ?_)
  cases hl : Symbol.longest? (d :: rest) with
  | none => exact absurd hs (Symbol.longest?_eq_none hl s)
  | some t =>
    refine ⟨t, rfl, ?_⟩
    rw [ofFront, if_neg hn, if_neg hr, if_neg (by simp [hname]), if_neg (by simp [hdigit]),
      if_neg hpoint, if_neg (by simp [hquote]), if_neg hhyphen, hl]

/-! ## Readings are lexemes -/

theorem run_le_length (p : Char → Bool) (text : List Char) : run p text ≤ text.length :=
  (List.takeWhile_prefix p).length_le

theorem run_append {p : Char → Bool} (h : ∀ d ∈ body, p d = true) (rest : List Char) :
    run p (body ++ rest) = body.length + run p rest := by
  rw [run, List.takeWhile_append_of_pos h, List.length_append, run]

theorem numberTail_le_length (text : List Char) : numberTail text ≤ text.length := by
  have hwhole := run_le_length Char.isDigit text
  simp only [numberTail]
  split
  · rename_i fraction hdrop
    have hfraction := run_le_length Char.isDigit fraction
    have hlength := congrArg List.length hdrop
    rw [List.length_drop, List.length_cons] at hlength
    omega
  · exact hwhole

theorem isLexeme_name (hc : isNameStart c = true) (h : ∀ d ∈ text, isNamePart d = true) :
    IsLexeme (.ofName (String.ofList (c :: text))) (c :: text) := by
  rcases TokenKind.ofName_eq (String.ofList (c :: text)) with ⟨k, hk, hof⟩ | ⟨hk, hof⟩
  · rw [hof]
    have := IsLexeme.keyword k
    rwa [hk, String.toList_ofList] at this
  · rw [hof]
    refine .name (by simpa [isNameStart] using hc) (fun d hd => ?_) fun k htext => hk k ?_
    · simpa [isNamePart, isNameStart, or_assoc] using h d hd
    · rw [← htext, String.ofList_toList]

theorem isLexeme_number (hc : c.isDigit = true) (rest : List Char) :
    IsLexeme .number (c :: rest.take (numberTail rest)) := by
  obtain ⟨whole, fraction, hw, hf, htake⟩ := take_numberTail rest
  have hw : ∀ d ∈ c :: whole, d.isDigit = true := List.forall_mem_cons.mpr ⟨hc, hw⟩
  rcases htake with htake | htake <;> rw [htake]
  · exact .whole (List.cons_ne_nil _ _) hw
  · exact .point (List.cons_ne_nil _ _) hw hf

theorem isLexeme_fraction (h : rest.head?.any Char.isDigit = true) :
    IsLexeme .number ('.' :: rest.take (run Char.isDigit rest)) := by
  rw [take_run]
  refine .fraction ?_ fun d hd => List.mem_takeWhile_imp hd
  cases rest with
  | nil => cases h
  | cons d rest =>
    have hd : d.isDigit = true := h
    simp [hd]

theorem isLexeme_comment (h : rest.head? = some '-') :
    IsLexeme .comment ('-' :: rest.take (run (fun d => !isBreak d) rest)) := by
  obtain ⟨tail, rfl⟩ := List.head?_eq_some_iff.mp h
  rw [take_run, List.takeWhile_cons_of_pos (by decide)]
  refine .comment fun d hd => ?_
  have := List.mem_takeWhile_imp hd
  simpa [isBreak] using this

theorem isLexeme_of_string {kind : TokenKind} {more : Nat} (hc : isQuote c = true)
    (h : string c rest = .lexeme kind more) :
    IsLexeme kind (c :: rest.take more) ∧ more ≤ rest.length := by
  unfold string at h
  split at h
  · rename_i n hbody
    obtain ⟨rfl, rfl⟩ := lexeme.inj h
    obtain ⟨body, tail, rfl, hbody, hn⟩ := exists_stringBody hbody
    have htake : (body ++ c :: tail).take n = body ++ [c] := by
      rw [show n = body.length + 1 by omega, List.take_length_add_append]
      rfl
    rw [htake]
    refine ⟨.string (isQuote_iff.mp hc) hbody, ?_⟩
    simp only [List.length_append, List.length_cons]
    omega
  · cases h

theorem isLexeme_symbol {s : Symbol} (hs : Symbol.longest? (c :: rest) = some s) :
    IsLexeme (.symbol s) (c :: rest.take (s.text.length - 1)) ∧
      s.text.length - 1 ≤ rest.length := by
  obtain ⟨tail, htail⟩ := (Symbol.longest?_eq_some hs).1
  have hlength := congrArg List.length htail
  have hpos : 0 < s.text.toList.length := by
    obtain ⟨d, t, htext, -⟩ := s.exists_text_eq_cons
    rw [htext]
    exact Nat.succ_pos _
  rw [List.length_append, List.length_cons] at hlength
  have htake : c :: rest.take (s.text.length - 1) = s.text.toList := by
    rw [← List.take_succ_cons, ← htail, ← String.length_toList, Nat.sub_add_cancel hpos,
      List.take_left]
  rw [htake]
  refine ⟨.symbol s, ?_⟩
  rw [← String.length_toList]
  omega

/-- **A reading is a lexeme.** -/
theorem isLexeme_of_ofFront {kind : TokenKind} {more : Nat}
    (h : ofFront c rest = .lexeme kind more) :
    IsLexeme kind (c :: rest.take more) ∧ more ≤ rest.length := by
  unfold ofFront at h
  split at h
  · rename_i hc
    obtain ⟨rfl, rfl⟩ := lexeme.inj h
    subst hc
    exact ⟨.lineFeed, Nat.zero_le _⟩
  split at h
  · rename_i hc
    obtain ⟨rfl, rfl⟩ := lexeme.inj h
    subst hc
    by_cases hhead : rest.head? = some '\n'
    · obtain ⟨tail, rfl⟩ := List.head?_eq_some_iff.mp hhead
      exact ⟨.carriageReturnLineFeed, by simp⟩
    · rw [if_neg hhead]
      exact ⟨.carriageReturn, Nat.zero_le _⟩
  split at h
  · rename_i hc
    obtain ⟨rfl, rfl⟩ := lexeme.inj h
    have htake := take_run isNamePart rest
    rw [run] at htake
    rw [htake]
    exact ⟨isLexeme_name hc fun d hd => List.mem_takeWhile_imp hd, run_le_length _ _⟩
  split at h
  · obtain ⟨rfl, rfl⟩ := lexeme.inj h
    exact ⟨isLexeme_number ‹_› rest, numberTail_le_length rest⟩
  split at h
  · rename_i hc
    obtain ⟨rfl, hhead⟩ := hc
    obtain ⟨rfl, rfl⟩ := lexeme.inj h
    exact ⟨isLexeme_fraction hhead, run_le_length _ _⟩
  split at h
  · exact isLexeme_of_string ‹_› h
  split at h
  · rename_i hc
    obtain ⟨rfl, hhead⟩ := hc
    obtain ⟨rfl, rfl⟩ := lexeme.inj h
    exact ⟨isLexeme_comment hhead, run_le_length _ _⟩
  split at h
  · obtain ⟨rfl, rfl⟩ := lexeme.inj h
    exact isLexeme_symbol ‹_›
  · cases h

/-! ## Readings stop at no shorter lexeme -/

/-- A reading is no shorter than a lexeme, and it is of the same kind if it is as long. -/
def Covers (r : Reading) (kind : TokenKind) (text : List Char) : Prop :=
  ∃ kind' more, r = .lexeme kind' more ∧ text.length ≤ more + 1 ∧
    (text.length = more + 1 → kind' = kind)

/-- Texts of names and keywords. -/
theorem covers_word {kind : TokenKind} (hc : isNameStart c = true)
    (h : ∀ d ∈ text, isNamePart d = true) (hk : TokenKind.ofName (String.ofList (c :: text)) = kind)
    (rest : List Char) :
    Covers (ofFront c (text ++ rest)) kind (c :: text) := by
  refine ⟨_, _, ofFront_of_isNameStart hc _, ?_, fun hlength => ?_⟩
  · rw [run_append h, List.length_cons]
    omega
  · have hnil : rest.takeWhile isNamePart = [] := by
      rw [run_append h, List.length_cons, run] at hlength
      exact List.length_eq_zero_iff.mp (by omega)
    rw [List.takeWhile_append_of_pos h, hnil, List.append_nil, hk]

theorem covers_comment (h : ∀ d ∈ text, d ≠ '\n' ∧ d ≠ '\r') (rest : List Char) :
    Covers (ofFront '-' ('-' :: text ++ rest)) .comment ('-' :: '-' :: text) := by
  have hall : ∀ d ∈ '-' :: text, (!isBreak d) = true := by
    intro d hd
    rcases List.mem_cons.mp hd with rfl | hd
    · rfl
    · simpa [isBreak] using h d hd
  refine ⟨_, _, ofFront_hyphens rfl, ?_, fun _ => rfl⟩
  rw [run_append hall]
  simp only [List.length_cons]
  omega

/-- Numbers that begin with a digit. -/
theorem covers_number (hc : c.isDigit = true) (h : text.length ≤ numberTail rest + 1) :
    Covers (ofFront c rest) .number text :=
  ⟨_, _, ofFront_of_isDigit hc _, h, fun _ => rfl⟩

theorem covers_string {quote : Char} (hq : isQuote quote = true) (h : StringBody quote text)
    (rest : List Char) :
    Covers (ofFront quote (text ++ [quote] ++ rest)) .string (quote :: (text ++ [quote])) := by
  have hof : ofFront quote (text ++ [quote] ++ rest) = .lexeme .string (0 + text.length + 1) := by
    rw [ofFront_of_isQuote hq, string, List.append_assoc, List.singleton_append,
      stringBody_append hq h]
  exact ⟨_, _, hof, by simp, fun _ => rfl⟩

theorem run_le_numberTail (text : List Char) : run Char.isDigit text ≤ numberTail text := by
  simp only [numberTail]
  split <;> omega

theorem numberTail_point {whole fraction : List Char} (hw : ∀ d ∈ whole, d.isDigit = true)
    (hf : ∀ d ∈ fraction, d.isDigit = true) (rest : List Char) :
    whole.length + 1 + fraction.length ≤ numberTail (whole ++ '.' :: (fraction ++ rest)) := by
  have hrun : run Char.isDigit (whole ++ '.' :: (fraction ++ rest)) = whole.length := by
    rw [run_append hw]
    rfl
  simp only [numberTail, hrun, List.drop_left]
  rw [run_append hf]
  omega

theorem covers_symbol {s : Symbol} (h : s.text.toList <+: c :: rest) :
    Covers (ofFront c rest) (.symbol s) s.text.toList := by
  have hhead : ∃ t, s.text.toList = c :: t ∧ t <+: rest := by
    obtain ⟨d, t, htext, -⟩ := s.exists_text_eq_cons
    rw [htext] at h ⊢
    obtain ⟨rfl, ht⟩ := List.cons_prefix_cons.mp h
    exact ⟨t, rfl, ht⟩
  obtain ⟨t, htext, ht⟩ := hhead
  rcases ofFront_of_symbol h with ⟨rfl, hdigit⟩ | ⟨rfl, hhyphen⟩ | ⟨l, hl, hof⟩
  -- a number that begins with a point is longer than the point
  · have hone : s.text.toList.length = 1 := by
      rcases Symbol.getElem?_one_of_point s s.mem_all (by rw [htext]; rfl) with hone | hpoint
      · exact hone
      · rw [htext, List.getElem?_cons_succ, ← List.head?_eq_getElem?] at hpoint
        obtain ⟨u, rfl⟩ := List.head?_eq_some_iff.mp hpoint
        obtain ⟨v, rfl⟩ := ht
        cases hdigit
    have hpos : 0 < run Char.isDigit rest := by
      cases rest with
      | nil => cases hdigit
      | cons d rest =>
        have hd : d.isDigit = true := hdigit
        simp [run, hd]
    exact ⟨_, _, ofFront_point hdigit, by omega, by omega⟩
  -- a comment is longer than a hyphen
  · have hone := Symbol.length_of_hyphen s s.mem_all (by rw [htext]; rfl)
    have hpos : 0 < run (fun d => !isBreak d) rest := by
      obtain ⟨u, rfl⟩ := List.head?_eq_some_iff.mp hhyphen
      exact Nat.succ_pos _
    exact ⟨_, _, ofFront_hyphens hhyphen, by omega, by omega⟩
  -- of two symbols with the same number of characters at the same place there is only one
  · obtain ⟨hfront, hlongest⟩ := Symbol.longest?_eq_some hl
    have hle := hlongest s h
    have hlen : 0 < s.text.toList.length := by
      rw [htext]
      exact Nat.succ_pos _
    have hstring : l.text.toList.length = l.text.length := String.length_toList
    refine ⟨_, _, hof, by omega, fun hlength => ?_⟩
    have hsame : s.text.toList = l.text.toList :=
      (List.prefix_of_prefix_length_le h hfront hle).eq_of_length (by omega)
    rw [Symbol.text_injective hsame]

/-- **A reading covers every lexeme** at the front of the text. -/
theorem covers_of_isLexeme {kind : TokenKind} (h : IsLexeme kind text) (hp : text <+: c :: rest) :
    Covers (ofFront c rest) kind text := by
  cases h with
  | symbol s => exact covers_symbol hp
  | lineFeed =>
    obtain rfl := (List.cons_prefix_cons.mp hp).1
    exact ⟨_, _, ofFront_lineFeed rest, Nat.le_refl _, fun _ => rfl⟩
  | carriageReturn =>
    obtain rfl := (List.cons_prefix_cons.mp hp).1
    exact ⟨_, _, ofFront_carriageReturn rest, Nat.succ_le_succ (Nat.zero_le _), fun _ => rfl⟩
  | carriageReturnLineFeed =>
    obtain ⟨rfl, tail, rfl⟩ := List.cons_prefix_cons.mp hp
    exact ⟨_, _, ofFront_carriageReturn _, Nat.le_refl _, fun _ => rfl⟩
  | @comment text h =>
    obtain ⟨rfl, tail, rfl⟩ := List.cons_prefix_cons.mp hp
    exact covers_comment h tail
  | keyword k =>
    obtain ⟨d, t, htext, hd, ht⟩ := k.exists_text_eq_cons
    rw [htext] at hp ⊢
    obtain ⟨rfl, tail, rfl⟩ := List.cons_prefix_cons.mp hp
    refine covers_word hd (by simpa using ht) ?_ tail
    rw [← htext, String.ofList_toList, TokenKind.ofName, Keyword.ofText?_text]
  | @name d t hd ht hk =>
    obtain ⟨rfl, tail, rfl⟩ := List.cons_prefix_cons.mp hp
    refine covers_word (by simpa [isNameStart] using hd) (fun e he => ?_) ?_ tail
    · simpa [isNamePart, isNameStart, or_assoc] using ht e he
    · rcases TokenKind.ofName_eq (String.ofList (d :: t)) with ⟨k, htext, -⟩ | ⟨-, hof⟩
      · exact absurd (by rw [htext, String.toList_ofList]) (hk k)
      · exact hof
  | @whole whole hne hw =>
    obtain ⟨d, whole, rfl⟩ := List.exists_cons_of_ne_nil hne
    obtain ⟨rfl, tail, rfl⟩ := List.cons_prefix_cons.mp hp
    obtain ⟨hd, hw⟩ := List.forall_mem_cons.mp hw
    refine covers_number hd ?_
    have := run_le_numberTail (whole ++ tail)
    rw [run_append hw] at this
    rw [List.length_cons]
    omega
  | @point whole fraction hne hw hf =>
    obtain ⟨d, whole, rfl⟩ := List.exists_cons_of_ne_nil hne
    obtain ⟨rfl, tail, rfl⟩ := List.cons_prefix_cons.mp hp
    obtain ⟨hd, hw⟩ := List.forall_mem_cons.mp hw
    refine covers_number hd ?_
    show _ ≤ numberTail (whole ++ '.' :: fraction ++ tail) + 1
    have := numberTail_point hw hf tail
    rw [List.append_assoc, List.cons_append]
    simp only [List.cons_append, List.length_append, List.length_cons]
    omega
  | @fraction fraction hne hf =>
    obtain ⟨rfl, tail, rfl⟩ := List.cons_prefix_cons.mp hp
    obtain ⟨d, fraction, rfl⟩ := List.exists_cons_of_ne_nil hne
    refine ⟨_, _, ofFront_point (hf d (by simp)), ?_, fun _ => rfl⟩
    rw [run_append hf, List.length_cons]
    omega
  | @string quote body hq hbody =>
    obtain ⟨rfl, tail, rfl⟩ := List.cons_prefix_cons.mp hp
    exact covers_string (isQuote_iff.mpr hq) hbody tail

end Reading

end LuaExpr
