import LuaExpr.CommandLine
import LuaExpr.Proofs.Decimal.Digits
import LuaExpr.Proofs.Lexeme.Places
import LuaExpr.Proofs.Machine.Simulation
/-!
# Spellings of strings

A string can be written between quotes in many ways: each character as itself, with a letter, after
a backslash, or by its code. The lexer and the decoder of escapes pass over such a text separately;
they agree on where each character ends.

* `Spells quote chars text`: between two of these quotes, the text is a spelling of the characters.
* `Spells.stringBody`: to the lexer a spelling is the inside of one string.
* `Spells.map_decode?_ofBody`: the pieces of a spelling stand for the characters, one by one.
* `interpret?_of_spells`: the value of a string in quotes is the string, however it is spelled.
-/

namespace LuaExpr

/-! ## Spellings -/

/-- The letters that stand for control characters after a backslash. -/
def controlLetters : List (Char × Char) :=
  [('n', '\n'), ('t', '\t'), ('r', '\r'), ('a', '\x07'), ('b', '\x08'), ('f', '\x0c'),
    ('v', '\x0b')]

/-- The decimal numeral of the code of a character, with zeros in front. -/
def codeNumeral (zeros : Nat) (c : Char) : List Char :=
  List.replicate zeros '0' ++ Nat.toDigits 10 c.toNat

/-- The line breaks that stand for a line feed after a backslash. -/
def lineBreaks : List (List Char) := [['\n'], ['\r'], ['\r', '\n']]

/-- `Spells quote chars text`: between two of these quotes, the text is a spelling of the
characters. -/
inductive Spells (quote : Char) : List Char → List Char → Prop
  | nil : Spells quote [] []
  | plain {c : Char} {chars text : List Char} (hq : c ≠ quote) (hs : c ≠ '\\') (hn : c ≠ '\n')
      (hr : c ≠ '\r')
      (h : Spells quote chars text) : Spells quote (c :: chars) (c :: text)
  | letter {mark c : Char} {chars text : List Char} (hm : (mark, c) ∈ controlLetters)
      (h : Spells quote chars text) :
      Spells quote (c :: chars) ('\\' :: mark :: text)
  | itself {c : Char} {chars text : List Char} (hc : c = '\\' ∨ c = '"' ∨ c = '\'')
      (h : Spells quote chars text) :
      Spells quote (c :: chars) ('\\' :: c :: text)
  | lineBreak {br chars text : List Char} (hb : br ∈ lineBreaks) (h : Spells quote chars text) :
      Spells quote ('\n' :: chars) ('\\' :: (br ++ text))
  | code {c : Char} {zeros : Nat} {chars text : List Char} (hc : c.toNat ≤ 127)
      (hlen : (codeNumeral zeros c).length ≤ 3)
      (hnext : (codeNumeral zeros c).length < 3 → ∀ d ∈ text.head?, d.isDigit = false)
      (h : Spells quote chars text) :
      Spells quote (c :: chars) ('\\' :: (codeNumeral zeros c ++ text))

/-! ## Numerals -/

section Numerals

variable {c : Char}

theorem codeNumeral_ne_nil (zeros : Nat) (c : Char) : codeNumeral zeros c ≠ [] := by
  simp [codeNumeral]

theorem isDigit_of_mem_codeNumeral (zeros : Nat) (c : Char) :
    ∀ d ∈ codeNumeral zeros c, d.isDigit = true := by
  intro d h
  rcases List.mem_append.mp h with h | h
  · obtain ⟨-, rfl⟩ := List.mem_replicate.mp h
    rfl
  · exact Nat.isDigit_of_mem_toDigits (by decide) (by decide) h

/-- The numeral of a code has the code for its value. -/
theorem ofDigits_codeNumeral (zeros : Nat) (c : Char) :
    Decimal.ofDigits (codeNumeral zeros c) = c.toNat := by
  rw [codeNumeral, Decimal.ofDigits_append, Decimal.ofDigits_replicate, Decimal.ofDigits_toDigits,
    Nat.mul_zero, Nat.zero_add]

end Numerals

/-! ## The lexer and a spelling -/

section Lexer

variable {quote : Char} {chars text : List Char}

theorem StringBody.digits {digits : List Char} (hq : quote = '"' ∨ quote = '\'')
    (hd : ∀ d ∈ digits, d.isDigit = true) (h : StringBody quote text) :
    StringBody quote (digits ++ text) := by
  induction digits with
  | nil => exact h
  | cons d digits ih =>
    have hdigit : d.isDigit = true := hd d (by simp)
    refine .plain ?_ ?_ ?_ ?_ (ih fun e he => hd e (by simp [he]))
    · rintro rfl
      rcases hq with rfl | rfl <;> cases hdigit
    all_goals
      rintro rfl
      cases hdigit

/-- To the lexer a spelling is the inside of one string. -/
theorem Spells.stringBody (hq : quote = '"' ∨ quote = '\'') (h : Spells quote chars text) :
    StringBody quote text := by
  induction h with
  | nil => exact .nil
  | plain hq hs hn hr _ ih => exact .plain hq hs hn hr ih
  | letter _ _ ih => exact .pair ih
  | itself _ _ ih => exact .pair ih
  | lineBreak hb _ ih =>
    simp only [lineBreaks, List.mem_cons, List.not_mem_nil, or_false] at hb
    rcases hb with rfl | rfl | rfl
    · exact .pair ih
    · exact .pair ih
    · exact .lineBreak ih
  | @code c zeros _ _ _ _ _ _ ih =>
    obtain ⟨d, digits, hcons⟩ := List.exists_cons_of_ne_nil (codeNumeral_ne_nil zeros c)
    have hd : ∀ e ∈ digits, e.isDigit = true := fun e he => by
      refine isDigit_of_mem_codeNumeral zeros c e ?_
      rw [hcons]
      exact List.mem_cons_of_mem d he
    rw [hcons, List.cons_append]
    exact .pair (ih.digits hq hd)

/-- A spelling does not begin with a line feed. -/
theorem Spells.head?_ne_lineFeed (h : Spells quote chars text) : text.head? ≠ some '\n' := by
  cases h with
  | nil => simp
  | plain _ _ hn _ _ => simpa using hn
  | _ => simp

end Lexer

/-! ## The decoder and a spelling -/

namespace Piece

variable {c : Char} {marks rest : List Char}

theorem ofBody_go_eq (found : List Piece) (text : List Char) :
    ofBody.go found text = found.reverse ++ ofBody text := by
  rw [ofBody]
  induction hn : text.length using Nat.strong_induction_on generalizing found text with
  | _ n ih =>
    cases text with
    | nil => rw [ofBody.go, ofBody.go, List.reverse_nil, List.append_nil]
    | cons c rest =>
      have hlt : ∀ k, (rest.drop k).length < n := by
        intro k
        rw [← hn, List.length_drop, List.length_cons]
        omega
      rw [ofBody.go]
      conv_rhs => rw [ofBody.go]
      split
      · rw [ih _ (hlt _) (_ :: found) _ rfl, ih _ (hlt _) [_] _ rfl]
        simp
      · have hrest : rest.length < n := hlt 0
        rw [ih _ hrest (_ :: found) _ rfl, ih _ hrest [_] _ rfl]
        simp

theorem ofBody_nil : ofBody [] = [] := by
  rw [ofBody, ofBody.go]
  rfl

theorem ofBody_plain (hc : c ≠ '\\') : ofBody (c :: rest) = plain c :: ofBody rest := by
  rw [ofBody, ofBody.go, if_neg hc, ofBody_go_eq]
  rfl

theorem ofBody_escape (h : escapeWidth (marks ++ rest) = marks.length) :
    ofBody ('\\' :: (marks ++ rest)) = escape marks :: ofBody rest := by
  rw [ofBody, ofBody.go, if_pos rfl]
  simp only [h, List.take_left, List.drop_left]
  rw [ofBody_go_eq]
  rfl

/-! ### How far an escape goes -/

theorem escapeWidth_mark (hc : c.isDigit = false) (hbreak : c = '\r' → rest.head? ≠ some '\n') :
    escapeWidth (c :: rest) = 1 := by
  unfold escapeWidth
  split
  · rename_i more heq
    obtain ⟨rfl, rfl⟩ := List.cons_eq_cons.mp heq
    exact absurd rfl (hbreak rfl)
  · rename_i heq
    obtain ⟨rfl, rfl⟩ := List.cons_eq_cons.mp heq
    rw [hc]
    rfl
  · rename_i heq
    cases heq

/-- An escape takes all digits there are, but no more than three. -/
theorem escapeWidth_digits (hd : ∀ d ∈ marks, d.isDigit = true) (hne : marks ≠ [])
    (hlen : marks.length ≤ 3) (hnext : marks.length < 3 → ∀ d ∈ rest.head?, d.isDigit = false) :
    escapeWidth (marks ++ rest) = marks.length := by
  have hrun : ((marks ++ rest).take 3).takeWhile Char.isDigit = marks := by
    rw [List.take_append, List.take_of_length_le hlen, List.takeWhile_append_of_pos hd]
    by_cases hfull : marks.length < 3
    · have hstop : (rest.take (3 - marks.length)).takeWhile Char.isDigit = [] := by
        cases rest with
        | nil => simp
        | cons d rest =>
          obtain ⟨k, hk⟩ : ∃ k, 3 - marks.length = k + 1 := ⟨2 - marks.length, by omega⟩
          rw [hk, List.take_succ_cons, List.takeWhile_cons_of_neg]
          simp [hnext hfull d rfl]
      rw [hstop, List.append_nil]
    · have hzero : 3 - marks.length = 0 := by omega
      rw [hzero, List.take_zero, List.takeWhile_nil, List.append_nil]
  obtain ⟨d, digits, rfl⟩ := List.exists_cons_of_ne_nil hne
  have hdigit : d.isDigit = true := hd d (by simp)
  unfold escapeWidth
  split
  · rename_i heq
    obtain ⟨rfl, -⟩ := List.cons_eq_cons.mp heq
    cases hdigit
  · rename_i heq
    obtain ⟨rfl, -⟩ := List.cons_eq_cons.mp heq
    rw [if_pos hdigit, hrun]
  · rename_i heq
    cases heq

/-! ### What pieces stand for -/

theorem decode?_code {zeros : Nat} (hc : c.toNat ≤ 127) :
    decode? (escape (codeNumeral zeros c)) = some c := by
  obtain ⟨d, digits, hcons⟩ := List.exists_cons_of_ne_nil (codeNumeral_ne_nil zeros c)
  have hdigit : d.isDigit = true := by
    refine isDigit_of_mem_codeNumeral zeros c d ?_
    rw [hcons]
    exact List.mem_cons_self
  have hvalue := ofDigits_codeNumeral zeros c
  rw [hcons] at hvalue ⊢
  simp only [decode?, hdigit, if_true, hvalue, if_pos hc, Char.ofNat_toNat]

theorem decodeAll_go_eq {offset : Nat} {found chars : List Char} {pieces : List Piece}
    (h : pieces.map decode? = chars.map some) :
    decodeAll.go offset found pieces = .ok (String.ofList (found.reverse ++ chars)) := by
  induction pieces generalizing offset found chars with
  | nil =>
    obtain rfl : chars = [] := by simpa using h.symm
    rw [decodeAll.go, List.append_nil]
  | cons p pieces ih =>
    cases chars with
    | nil => cases h
    | cons c chars =>
      obtain ⟨hp, hrest⟩ := List.cons_eq_cons.mp h
      unfold decodeAll.go
      simp only [hp]
      rw [ih hrest, List.reverse_cons, List.append_assoc]
      rfl

end Piece

section Decoder

variable {quote : Char} {chars text : List Char}

/-- The pieces of a spelling stand for the characters, one by one. -/
theorem Spells.map_decode?_ofBody (h : Spells quote chars text) :
    (Piece.ofBody text).map Piece.decode? = chars.map some := by
  have hescape : ∀ (marks : List Char) {c : Char} {chars text : List Char},
      Piece.escapeWidth (marks ++ text) = marks.length →
      Piece.decode? (.escape marks) = some c →
      (Piece.ofBody text).map Piece.decode? = chars.map some →
      (Piece.ofBody ('\\' :: (marks ++ text))).map Piece.decode? = (c :: chars).map some := by
    intro marks c chars text hwidth hc htext
    rw [Piece.ofBody_escape hwidth, List.map_cons, List.map_cons, hc, htext]
  induction h with
  | nil => rw [Piece.ofBody_nil]; rfl
  | plain _ hs _ _ _ ih => rw [Piece.ofBody_plain hs, List.map_cons, List.map_cons, ih]; rfl
  | @letter mark c _ _ hm _ ih =>
    have hmark : ∀ p ∈ controlLetters,
        p.1.isDigit = false ∧ p.1 ≠ '\r' ∧ Piece.decode? (.escape [p.1]) = some p.2 := by
      decide
    obtain ⟨hdigit, hbreak, hdecode⟩ := hmark _ hm
    exact hescape [mark] (Piece.escapeWidth_mark hdigit fun h => absurd h hbreak) hdecode ih
  | @itself c _ _ hc _ ih =>
    have hmark : c.isDigit = false ∧ c ≠ '\r' ∧ Piece.decode? (.escape [c]) = some c := by
      rcases hc with rfl | rfl | rfl <;> decide
    obtain ⟨hdigit, hbreak, hdecode⟩ := hmark
    exact hescape [c] (Piece.escapeWidth_mark hdigit fun h => absurd h hbreak) hdecode ih
  | lineBreak hb h ih =>
    simp only [lineBreaks, List.mem_cons, List.not_mem_nil, or_false] at hb
    rcases hb with rfl | rfl | rfl
    · exact hescape ['\n'] (Piece.escapeWidth_mark rfl fun h => absurd h (by decide)) rfl ih
    · exact hescape ['\r'] (Piece.escapeWidth_mark rfl fun _ => h.head?_ne_lineFeed) rfl ih
    · exact hescape ['\r', '\n'] rfl rfl ih
  | @code c zeros _ _ hc hlen hnext _ ih =>
    have hwidth :=
      Piece.escapeWidth_digits (isDigit_of_mem_codeNumeral zeros c)
        (codeNumeral_ne_nil zeros c) hlen hnext
    exact hescape _ hwidth (Piece.decode?_code hc) ih

/-- A spelling in quotes is decoded to the characters. -/
theorem StringLiteral.decode_of_spells (offset : Nat) (h : Spells quote chars text) :
    StringLiteral.decode offset (quote :: (text ++ [quote])) = .ok (String.ofList chars) := by
  rw [decode, body_quoted, Piece.decodeAll, Piece.decodeAll_go_eq h.map_decode?_ofBody]
  rfl

end Decoder

/-! ## The value of a spelling -/

/-- The value of a source whose program is within the limits. -/
theorem interpret?_of_denotes {source : String} {lexemes : List Lexeme} {program : List Expr}
    (hden : Denotes source lexemes program) (hacc : Expr.Acceptable program)
    (hsize : (Chunk.ofProgram program).code.size ≤ maxStack) :
    interpret? source = some ((Expr.evalProgram (Globals.value {}) program).mapError .runtime) := by
  rw [interpret?, compile_eq_ok_iff.mpr ⟨_, _, hden, hacc, rfl⟩]
  simp only [Chunk.evaluate?, Chunk.run?_ofProgram hacc {} {} rfl hsize]
  rfl

/-- The value of a source that is a literal or a name and nothing else. -/
theorem interpret?_of_leaf {source : String} {l : Lexeme}
    (hread : (Cursor.ofSource source).outcomes = [.ok l])
    (hl : l.IsValid) : interpret? source = some (.ok (l.value (Globals.value {}))) := by
  have hkept : Layout.significant [l] = [l] := by
    have hdropped : Layout.isDropped 0 false l.kind = false := by
      refine Layout.isDropped_eq_false ?_ ?_ <;>
      · intro hk
        have hleaf := hl.isLeaf
        rw [Lexeme.isLeaf, hk] at hleaf
        cases hleaf
    exact Layout.significantFrom_cons_of_not_isDropped [] hdropped
  have hden : Denotes source [l] [.leaf l] := by
    refine ⟨hread, ?_⟩
    rw [hkept]
    have hleaf : Derives .or [l] (.leaf l) := Derives.mono (.leaf hl.isLeaf) (by decide)
    have hprogram : Program ([] ++ ([l] ++ [])) [.leaf l] :=
      .cons (by simp) hleaf (by simp) (.nil (by simp))
    exact hprogram
  have hacc : Expr.Acceptable [.leaf l] := by
    refine ⟨fun k hk => ?_, by simp [Expr.nesting],
      ?_, by simp [Expr.programParts, Expr.partsNext, Expr.parts, Expr.Fits]⟩
    · obtain rfl : k = l := by simpa [Expr.leavesAll, Expr.leaves] using hk
      exact hl
    · cases hc : l.constant? <;> simp [hc, Pool.add, Chunk.maxConstants]
  have hsize : (Chunk.ofProgram [.leaf l]).code.size ≤ maxStack := by
    simp [Chunk.ofProgram, Expr.programCode, Expr.size, Expr.sizeNext, maxStack]
  exact interpret?_of_denotes hden hacc hsize

/-- **Every spelling.** The value of a string in quotes is the string, however it is spelled. -/
theorem interpret?_of_spells {quote : Char} {s : String} {text : List Char}
    (hq : quote = '"' ∨ quote = '\'') (h : Spells quote s.toList text) :
    interpret? (String.ofList (quote :: (text ++ [quote]))) = some (.ok (.string s)) := by
  have hread : (Cursor.ofSource (String.ofList (quote :: (text ++ [quote])))).outcomes =
      [.ok { kind := .string, start := 0, text := quote :: (text ++ [quote]) }] := by
    rw [Cursor.ofSource, String.toList_ofList]
    exact Cursor.outcomes_of_isLexeme (.string hq (h.stringBody hq)) 0
  have hconstant : (Lexeme.mk .string 0 (quote :: (text ++ [quote]))).constant? =
      some (.string s) := by
    show (StringLiteral.decode 0 (quote :: (text ++ [quote]))).toOption.map Value.string = _
    rw [StringLiteral.decode_of_spells 0 h, String.ofList_toList]
    rfl
  rw [interpret?_of_leaf hread ⟨rfl, fun _ => by rw [hconstant]; rfl⟩]
  show some (Except.ok ((Lexeme.mk .string 0 (quote :: (text ++ [quote]))).constant?.getD .nil)) = _
  rw [hconstant]
  rfl

/-- A quote of the other kind, a line break, a quote of the same kind, a character of two bytes, and
two codes. -/
theorem interpret?_of_spells_mixed :
    interpret? "'a\"\\\r\n\\'é\\0\\065'" = some (.ok (.string "a\"\n'é\x00A")) := by
  have h : Spells '\'' "a\"\n'é\x00A".toList "a\"\\\r\n\\'é\\0\\065".toList := by
    show Spells '\'' ['a', '"', '\n', '\'', 'é', '\x00', 'A']
      ['a', '"', '\\', '\r', '\n', '\\', '\'', 'é', '\\', '0', '\\', '0', '6', '5']
    have hcodes : Spells '\'' ['\x00', 'A']
        ('\\' :: (codeNumeral 0 '\x00' ++ '\\' :: (codeNumeral 1 'A' ++ []))) :=
      .code (by decide) (by decide) (by simp) (.code (by decide) (by decide) (by decide) .nil)
    refine .plain (by decide) (by decide) (by decide) (by decide) ?_
    refine .plain (by decide) (by decide) (by decide) (by decide) ?_
    refine @Spells.lineBreak _ ['\r', '\n'] _ _ (by decide) ?_
    refine .itself (.inr (.inr rfl)) ?_
    refine .plain (by decide) (by decide) (by decide) (by decide) ?_
    exact hcodes
  have hvalue := interpret?_of_spells (.inr rfl) h
  exact hvalue

end LuaExpr
