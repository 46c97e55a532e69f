import LuaExpr.Proofs.Compiler.Acceptance
import LuaExpr.Proofs.Expr.Enclosure
import LuaExpr.Proofs.Expr.Relocation
import LuaExpr.Proofs.Lexeme.Insertion
/-!
# Sources in parentheses

Parentheses around a source that is one expression leave its code as it is, as deep as expressions
may be nested. They change what the lexer, the layout and the grammar make of the source, step by
step, but each step by no more than a pair of parentheses.

* `Cursor.outcomes_closed`: what is read of a text with a closing parenthesis after it.
* `IsExpression`: a source that is one expression and may be put into parentheses;
  `IsExpression.parenthesized`: so may the source in parentheses.
* `Chunk.ofProgram_group`, `Chunk.ofProgram_moved`: the chunk of an expression in parentheses.
* `compile_parenthesized`: the chunk of a source in any number of parentheses.
-/

namespace LuaExpr

/-! ## Parentheses as lexemes -/

theorem Reading.ofFront_leftParen (rest : List Char) :
    ofFront '(' rest = .lexeme (.symbol .leftParen) 0 := rfl

namespace Cursor

variable {c : Cursor} {ls : List Lexeme}

/-- **A text in front of a closing parenthesis.** What is read of it is what is read without the
parenthesis, unless it ends with a comment. -/
theorem outcomes_closed (h : c.outcomes = ls.map .ok) (hlast : ∀ l ∈ ls.getLast?, l.kind ≠ .comment)
    (more : List Char) : (c.extended (')' :: more)).outcomes =
      ls.map .ok ++ outcomes { rest := ')' :: more, offset := c.stop } := by
  induction ls generalizing c with
  | nil =>
    have hend : (c.extended (')' :: more)).skipBlanks =
        { rest := ')' :: more, offset := c.stop } := by
      rw [skipBlanks_extended (by simp [Reading.isBlank]),
        skipBlanks_of_none (next?_of_outcomes_eq_nil h)]
      rfl
    have hparen : skipBlanks { rest := ')' :: more, offset := c.stop } =
        { rest := ')' :: more, offset := c.stop } :=
      skipBlanks_append (List.forall_mem_nil _) (by simp [Reading.isBlank]) c.stop
    exact outcomes_congr (hend.trans hparen.symm)
  | cons l ls ih =>
    obtain ⟨d, hd, hls⟩ := exists_next?_of_outcomes_eq_cons h
    have hcomment : l.kind = .comment → l.text ≠ c.skipBlanks.rest := by
      intro hk htext
      obtain ⟨-, -, rfl⟩ := exists_isLongestLexeme_of_next? hd
      have hnone : (c.skipBlanks.drop l.text.length).next? = none :=
        next?_of_rest_eq_nil (by rw [drop, htext, List.drop_length])
      obtain rfl : ls = [] := by simpa [outcomes_of_none hnone] using hls.symm
      exact hlast l rfl hk
    have hnext := next?_extended hd (.inr rfl) rfl (fun hboth => by cases hboth.2)
      (fun hk htext => absurd htext (hcomment hk)) more
    have hrest : ∀ k ∈ ls.getLast?, k.kind ≠ .comment := by
      intro k hk
      refine hlast k ?_
      rw [List.getLast?_cons, hk]
      rfl
    rw [outcomes_of_some hnext, ih hls hrest, stop_of_next? hd]
    rfl

/-- A text in parentheses is read as the text, with an opening parenthesis before it and a closing
one after it. -/
theorem outcomes_enclosed {text : List Char} (h : outcomes { rest := text } = ls.map .ok)
    (hlast : ∀ l ∈ ls.getLast?, l.kind ≠ .comment) :
    ∃ stop, outcomes { rest := '(' :: (text ++ [')']) } =
      (⟨.symbol .leftParen, 0, ['(']⟩ ::
        (ls.map (Lexeme.moved 1) ++ [⟨.symbol .rightParen, stop, [')']⟩])).map .ok := by
  have hopen := next?_of_front
    (Reading.isLongestLexeme_of_ofFront (Reading.ofFront_leftParen (text ++ [')']))) 0
  have hmoved : (moved 1 { rest := text }).outcomes = (ls.map (Lexeme.moved 1)).map .ok :=
    outcomes_moved h 1
  have hlast' : ∀ l ∈ (ls.map (Lexeme.moved 1)).getLast?, l.kind ≠ .comment := by
    intro l hl
    rw [List.getLast?_map] at hl
    obtain ⟨k, hk, rfl⟩ := Option.mem_map.mp hl
    exact hlast k hk
  have hclose : outcomes { rest := [')'], offset := (moved 1 { rest := text }).stop } = _ :=
    outcomes_of_isLexeme (.symbol .rightParen) _
  refine ⟨(moved 1 { rest := text }).stop, ?_⟩
  calc outcomes { rest := '(' :: (text ++ [')']) }
    _ = .ok ⟨.symbol .leftParen, 0, ['(']⟩ ::
      ((moved 1 { rest := text }).extended [')']).outcomes :=
      outcomes_of_some hopen
    _ = _ := by
      rw [outcomes_closed hmoved hlast' [], hclose, List.map_cons, List.map_append]
      rfl

end Cursor

/-! ## Expressions in parentheses -/

/-- A source is one expression and may be put into parentheses: no semicolon would come between
them, and no comment would take the closing one along. -/
structure IsExpression (source : String) (lexemes : List Lexeme) (e : Expr) : Prop where
  read : (Cursor.ofSource source).outcomes = lexemes.map .ok
  derives : Program (Layout.significant lexemes) [e]
  semicolon : ∀ l ∈ lexemes, l.kind ≠ .symbol .semicolon
  comment : ∀ l ∈ lexemes.getLast?, l.kind ≠ .comment

/-- A source in a number of parentheses. -/
def parenthesized (n : Nat) (source : String) : String :=
  String.ofList (List.replicate n '(') ++ source ++ String.ofList (List.replicate n ')')

theorem parenthesized_zero (source : String) : parenthesized 0 source = source := by
  rw [← String.toList_inj]
  simp [parenthesized]

/-- One more pair of parentheses is put around all others. -/
theorem toList_parenthesized_succ (n : Nat) (source : String) :
    (parenthesized (n + 1) source).toList = '(' :: ((parenthesized n source).toList ++ [')']) := by
  simp only [parenthesized, String.toList_append, String.toList_ofList, List.replicate_succ,
    List.cons_append, List.append_assoc]
  rw [← List.replicate_succ, List.replicate_succ']

section Sources

variable {source : String} {lexemes : List Lexeme} {e : Expr} {n : Nat}

theorem IsExpression.denotes (h : IsExpression source lexemes e) : Denotes source lexemes [e] :=
  ⟨h.read, h.derives⟩

/-- A source that may be put into parentheses may be put into one more pair of them. -/
theorem IsExpression.enclosed {outer : String} (h : IsExpression source lexemes e)
    (houter : outer.toList = '(' :: (source.toList ++ [')'])) :
    ∃ lexemes' paren, IsExpression outer lexemes' (.group paren (e.moved 1)) := by
  obtain ⟨stop, hread⟩ := Cursor.outcomes_enclosed h.read h.comment
  have hderives := h.derives.moved 1
  rw [← Layout.significant_moved] at hderives
  have hsemicolon : ∀ l ∈ lexemes.map (Lexeme.moved 1), l.kind ≠ .symbol .semicolon := by
    intro l hl
    obtain ⟨k, hk, rfl⟩ := List.mem_map.mp hl
    exact h.semicolon k hk
  refine ⟨_, _, by rw [Cursor.ofSource, houter]; exact hread,
    hderives.enclosed hsemicolon rfl rfl, ?_, ?_⟩
  · intro l hl
    rcases List.mem_cons.mp hl with rfl | hl
    · decide
    rcases List.mem_append.mp hl with hl | hl
    · exact hsemicolon l hl
    · rw [List.mem_singleton.mp hl]
      show TokenKind.symbol .rightParen ≠ .symbol .semicolon
      decide
  · intro l hl
    rw [← List.cons_append, List.getLast?_concat] at hl
    cases hl
    show TokenKind.symbol .rightParen ≠ .comment
    decide

end Sources

/-! ## Chunks -/

section Chunks

variable {paren : Lexeme} {e : Expr} {es : List Expr}

/-- Parentheses leave nothing behind in a chunk. -/
theorem Chunk.ofProgram_group : ofProgram [.group paren e] = ofProgram [e] := rfl

/-- Parentheses open one more operand, and change none of the other limits. -/
theorem Expr.Acceptable.group (h : Acceptable [e]) (hn : e.nesting + 1 ≤ 199) :
    Acceptable [.group paren e] := by
  refine ⟨h.leaves, List.forall_mem_singleton.mpr hn, h.constants, fun part hpart => ?_⟩
  rcases List.mem_cons.mp hpart with rfl | hpart
  · trivial
  · exact h.parts part hpart

theorem Expr.Acceptable.moved (h : Acceptable es) (bytes : Nat) :
    Acceptable (es.map (Expr.moved bytes)) := by
  rw [moved_eq_map]
  exact (acceptable_map_iff (Lexeme.relabelling_moved bytes) es).mpr h

/-- The instructions of a chunk a number of bytes later in its source. -/
def Chunk.movedCode (bytes : Nat) (chunk : Chunk) : Array Instruction :=
  chunk.code.map fun i => { i with offset := i.offset + bytes }

/-- The chunk of a program that stands later in a source. -/
theorem Chunk.ofProgram_moved (h : Expr.Acceptable es) (bytes : Nat) :
    (ofProgram (es.map (Expr.moved bytes))).constants = (ofProgram es).constants ∧
      (ofProgram (es.map (Expr.moved bytes))).code = (ofProgram es).movedCode bytes := by
  have hconstants := Expr.constantsAll_moved bytes es
  refine ⟨by rw [ofProgram, ofProgram, hconstants], ?_⟩
  have hcode : ∀ slot : Value → UInt8,
      Expr.programCode slot (es.map (Expr.map (Lexeme.moved bytes))) =
      (Expr.programCode slot es).map (Instruction.relabelled id 0 (· + bytes)) :=
    fun slot => Expr.programCode_map (Lexeme.relabelling_moved bytes) h.leaves fun _ _ => rfl
  have hrelabelled : ∀ i : Instruction,
      i.relabelled id 0 (· + bytes) = { i with offset := i.offset + bytes } := by
    intro i
    rw [Instruction.relabelled, Op.relocated_id]
  rw [movedCode, ofProgram, ofProgram, hconstants, Expr.moved_eq_map, hcode, List.map_toArray]
  exact congrArg List.toArray (List.map_congr_left fun i _ => hrelabelled i)

end Chunks

/-! ## Sources in any number of parentheses -/

section Main

variable {source : String} {lexemes : List Lexeme} {e : Expr} {n : Nat} {chunk : Chunk}

/-- One more pair of parentheses. -/
theorem IsExpression.compile_enclosed {outer : String} (h : IsExpression source lexemes e)
    (houter : outer.toList = '(' :: (source.toList ++ [')'])) (hc : compile source = .ok chunk)
    (hn : e.nesting + 1 ≤ 199) :
    ∃ chunk', compile outer = .ok chunk' ∧ chunk'.constants = chunk.constants ∧
      chunk'.code = chunk.movedCode 1 := by
  obtain ⟨lexemes₀, program, hden, hacc, rfl⟩ := compile_eq_ok_iff.mp hc
  obtain ⟨rfl, rfl⟩ := h.denotes.unique hden
  obtain ⟨lexemes', paren, h'⟩ := h.enclosed houter
  have hmoved : Expr.Acceptable [e.moved 1] := hacc.moved 1
  have hgroup : Expr.Acceptable [.group paren (e.moved 1)] :=
    hmoved.group (by rwa [Expr.nesting_moved])
  obtain ⟨hconstants, hcode⟩ := Chunk.ofProgram_moved hacc 1
  exact ⟨_, compile_eq_ok_iff.mpr ⟨_, _, h'.denotes, hgroup, Chunk.ofProgram_group.symm⟩,
    hconstants, hcode⟩

/-- What holds of a source holds of it in parentheses, by induction on their number. -/
theorem IsExpression.parenthesized (h : IsExpression source lexemes e)
    (hc : compile source = .ok chunk) (hn : e.nesting + n ≤ 199) :
    ∃ lexemes' e' chunk', IsExpression (parenthesized n source) lexemes' e' ∧
      e'.nesting = e.nesting + n ∧ compile (LuaExpr.parenthesized n source) = .ok chunk' ∧
      chunk'.constants = chunk.constants ∧ chunk'.code = chunk.movedCode n := by
  induction n with
  | zero =>
    rw [parenthesized_zero]
    exact ⟨lexemes, e, chunk, h, rfl, hc, rfl, by simp [Chunk.movedCode]⟩
  | succ n ih =>
    obtain ⟨lexemes', e', chunk', h', hnesting, hc', hconstants, hcode⟩ := ih (by omega)
    have houter := toList_parenthesized_succ n source
    obtain ⟨lexemes'', paren, h''⟩ := h'.enclosed houter
    obtain ⟨chunk'', hc'', hconstants', hcode'⟩ := h'.compile_enclosed houter hc' (by omega)
    refine ⟨lexemes'', _, chunk'', h'', ?_, hc'', hconstants'.trans hconstants, ?_⟩
    · rw [Expr.nesting, Expr.nesting_moved, hnesting, Nat.add_assoc]
    · rw [hcode', Chunk.movedCode, hcode, Chunk.movedCode, Chunk.movedCode, Array.map_map]
      rfl

/-- **Redundant parentheses.** Let a source compile that is one expression, without a semicolon and
without a comment at its end. In parentheses, as long as they are not nested too deeply with what is
nested in the expression, it compiles to the same constants and the same operations, targets
included, at offsets that are later by the number of parentheses. -/
theorem compile_parenthesized (h : compile source = .ok chunk)
    (hread : (Cursor.ofSource source).outcomes = lexemes.map .ok)
    (he : Program (Layout.significant lexemes) [e])
    (hsemicolon : ∀ l ∈ lexemes, l.kind ≠ .symbol .semicolon)
    (hcomment : ∀ l ∈ lexemes.getLast?, l.kind ≠ .comment) (hn : e.nesting + n ≤ 199) :
    ∃ chunk',
      compile (String.ofList (List.replicate n '(') ++ source ++
        String.ofList (List.replicate n ')')) = .ok chunk' ∧
      chunk'.constants = chunk.constants ∧
      chunk'.code = chunk.code.map fun i => { i with offset := i.offset + n } := by
  have hexpression : IsExpression source lexemes e := ⟨hread, he, hsemicolon, hcomment⟩
  obtain ⟨-, -, chunk', -, -, hc, hconstants, hcode⟩ := hexpression.parenthesized h hn
  exact ⟨chunk', hc, hconstants, hcode⟩

/-- Two pairs of parentheses around a conjunction, with line breaks before it, in it and after
it. -/
theorem compile_parenthesized_lines : ∃ chunk', compile "((\nx and\n-y\n))" = .ok chunk' ∧
    chunk'.constants = #[.string "x", .string "y"] ∧
    chunk'.code = #[⟨.global 0, 3⟩, ⟨.dup, 5⟩, ⟨.jumpIfFalse 6, 5⟩, ⟨.pop, 5⟩, ⟨.global 1, 10⟩,
      ⟨.unary .negate, 9⟩] := by
  have h : compile "\nx and\n-y\n" = .ok
      { code := #[⟨.global 0, 1⟩, ⟨.dup, 3⟩, ⟨.jumpIfFalse 6, 3⟩, ⟨.pop, 3⟩, ⟨.global 1, 8⟩,
        ⟨.unary .negate, 7⟩], constants := #[.string "x", .string "y"] } := by cbv
  have hread : (Cursor.ofSource "\nx and\n-y\n").outcomes = List.map Except.ok
      [⟨.line, 0, ['\n']⟩, ⟨.name, 1, ['x']⟩, ⟨.keyword .and, 3, ['a', 'n', 'd']⟩,
        ⟨.line, 6, ['\n']⟩,
        ⟨.symbol .minus, 7, ['-']⟩, ⟨.name, 8, ['y']⟩, ⟨.line, 9, ['\n']⟩] := by cbv
  have hx : Derives .and [⟨.name, 1, ['x']⟩] (.leaf ⟨.name, 1, ['x']⟩) :=
    Derives.mono (.leaf rfl) (by decide)
  have hy : Derives .comparison [⟨.symbol .minus, 7, ['-']⟩, ⟨.name, 8, ['y']⟩]
      (.unary .negate ⟨.symbol .minus, 7, ['-']⟩ (.leaf ⟨.name, 8, ['y']⟩)) :=
    Derives.mono (.unary rfl (Derives.mono (.leaf rfl) (by decide))) (by decide)
  have hmark : (Lexeme.mk (.keyword .and) 3 ['a', 'n', 'd']).kind = Connective.and.kind := rfl
  have hand : Derives .or _ _ := Derives.mono (Derives.join hmark hx hy) (by decide)
  have hbreak : ∀ offset, ∀ s ∈ [Lexeme.mk .line offset ['\n']], s.IsSeparator := by
    simp [Lexeme.IsSeparator]
  have he :=
    Program.cons (hbreak 0) hand (by simpa using hbreak 9 _ List.mem_cons_self) (.nil (hbreak 9))
  obtain ⟨chunk', hc, hconstants, hcode⟩ :=
    compile_parenthesized h hread he (by simp) (by simp) (by decide : _ + 2 ≤ 199)
  exact ⟨chunk', hc, hconstants, hcode.trans (by simp)⟩

end Main

end LuaExpr
