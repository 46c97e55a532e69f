import LuaExpr.Proofs.Compiler.Progress
import LuaExpr.Proofs.Expr.Leaves
import LuaExpr.Proofs.Lexeme.Outcomes
/-!
# Acceptance

Which sources the compiler accepts, and the chunk of each of them.

* `Denotes`: the lexemes of a source and the trees of its expressions, of which there is one
  sequence at most.
* `compile_eq_ok_iff`: a source compiles to a chunk exactly if it denotes an acceptable program,
  whose chunk it is.
-/

namespace LuaExpr

/-! ## Programs of a source -/

/-- A source can be read as lexemes, those of which that mean something are a program. -/
structure Denotes (source : String) (lexemes : List Lexeme) (program : List Expr) : Prop where
  read : (Cursor.ofSource source).outcomes = lexemes.map .ok
  derives : Program (Layout.significant lexemes) program

theorem Denotes.unique {source : String} {ls ls' : List Lexeme} {ds es : List Expr}
    (h : Denotes source ls ds) (h' : Denotes source ls' es) : ls = ls' ∧ ds = es := by
  have hls : ls = ls' := by
    have := congrArg Compiler.legible (h.read.symm.trans h'.read)
    simpa using this
  subst hls
  exact ⟨rfl, h.derives.unique h'.derives⟩

namespace Compiler

variable {source : String} {s s' : Compiler}

/-- The state after the first lexeme of a source has been looked at. -/
structure Opened (source : String) (s : Compiler) : Prop where
  inOrder : s.InOrder
  groups : s.groups = 0
  depth : s.depth = 0
  chunk : s.chunk = {}
  /-- Nothing but comments has been skipped. -/
  read : ∃ comments : List Lexeme, (∀ l ∈ comments, l.kind = .comment) ∧
    (Cursor.ofSource source).outcomes = comments.map .ok ++ s.remaining

theorem opened_of_advance (h : advance (ofSource source) = .ok () s) : Opened source s := by
  obtain ⟨ho, -, hg, hd, hc, -, skipped, hs,
    hu⟩ := look_eq_ok (s := { ofSource source with previous := _ }) rfl
    (fun l hl => Cursor.kind_ne_eof_of_mem_outcomes hl) (advance_eq_ok.mp h)
  refine ⟨ho, hg, hd, hc, skipped, fun l hl => ?_, hu⟩
  simpa [isSkipped, ofSource] using hs l hl

/-- The lexemes ahead are those of the whole source that mean something. Faults among them are left
out. -/
theorem Opened.ahead_eq_significant (h : Opened source s) :
    s.ahead false = Layout.significant (legible (Cursor.ofSource source).outcomes) := by
  obtain ⟨comments, hcomments, hread⟩ := h.read
  have hdropped : ∀ l ∈ comments, Layout.isDropped 0 false l.kind = true := by
    intro l hl
    rw [hcomments l hl]
    rfl
  rw [hread, legible_append, legible_map_ok, Layout.significant,
    Layout.significantFrom_append_of_isDropped _ hdropped, ahead, h.groups]

theorem Opened.ahead_eq {ls : List Lexeme} (h : Opened source s)
    (hls : (Cursor.ofSource source).outcomes = ls.map .ok) :
    s.ahead false = Layout.significant ls ∧ s.Faultless := by
  obtain ⟨comments, -, hread⟩ := h.read
  rw [hls] at hread
  obtain ⟨us, vs, -, -, hvs⟩ := List.map_eq_append_iff.mp hread
  rw [h.ahead_eq_significant, hls, legible_map_ok]
  exact ⟨rfl, vs, hvs.symm⟩

end Compiler

/-! ## Exactness -/

/-- **Exactness of the compiler.** -/
theorem compile_eq_ok_iff {source : String} {chunk : Chunk} :
    compile source = .ok chunk ↔
      ∃ lexemes program, Denotes source lexemes program ∧ Expr.Acceptable program ∧
        chunk = Chunk.ofProgram program := by
  have hrun : compile source = .ok chunk ↔
      ∃ s', Compiler.program (.ofSource source) = .ok () s' ∧ s'.chunk = chunk := by
    rw [compile, EStateM.run]
    cases Compiler.program (.ofSource source) <;> simp
  rw [hrun]
  constructor
  · rintro ⟨s', h, rfl⟩
    obtain ⟨s, hadv, h⟩ := Compiler.program_eq_ok.mp h
    have hopen := Compiler.opened_of_advance hadv
    obtain ⟨es, hp, hacc, hc, hkeeps,
      hend⟩ := Compiler.sound_program (Compiler.length_ahead_le_budget s false)
      (List.cons_ne_nil _ _) hopen.inOrder hopen.groups hopen.depth hopen.chunk h
    obtain ⟨comments, -, hread⟩ := hopen.read
    obtain ⟨ls, hls⟩ := hkeeps.read
    rw [Compiler.remaining_of_eof hend, List.append_nil] at hls
    rw [hls, ← List.map_append] at hread
    exact ⟨_, es, ⟨hread, (hopen.ahead_eq hread).1 ▸ hp⟩, hacc, hc⟩
  · rintro ⟨ls, es, hden, hacc, rfl⟩
    obtain ⟨s, hlook⟩ := Compiler.exists_look
      (s := { Compiler.ofSource source with previous := .eof 0 })
      ⟨ls, hden.read⟩
    have hadv : Compiler.advance (.ofSource source) = .ok () s := Compiler.advance_eq_ok.mpr hlook
    have hopen := Compiler.opened_of_advance hadv
    obtain ⟨hahead, hf⟩ := hopen.ahead_eq hden.read
    obtain ⟨s', hs'⟩ := Compiler.exists_program (.ok s.current :: s.unread)
      hopen.inOrder hf hopen.groups hopen.depth
      hopen.chunk (hahead ▸ hden.derives) hacc
    refine ⟨s', Compiler.program_eq_ok.mpr ⟨s, hadv, hs'⟩, ?_⟩
    obtain ⟨es', hp, -, hc, -⟩ := Compiler.sound_program (Compiler.length_ahead_le_budget s false)
      (List.cons_ne_nil _ _) hopen.inOrder hopen.groups hopen.depth hopen.chunk hs'
    rw [hahead] at hp
    rw [hc, hp.unique hden.derives]

/-- **The compiler implements the grammar.** The lexemes of an accepted source that mean something
are one program of the grammar and no other one, and the code is the postfix code of its trees. -/
theorem existsUnique_program_of_compile_eq_ok {source : String} {chunk : Chunk}
    (h : compile source = .ok chunk) :
    ∃ lexemes, (Cursor.ofSource source).outcomes = lexemes.map .ok ∧
      ∃ program, Program (Layout.significant lexemes) program ∧
        (∀ other, Program (Layout.significant lexemes) other → other = program) ∧
        chunk.constants.toList = Pool.addAll [] (Expr.constantsAll program) ∧
        chunk.code.toList = Expr.programCode (Pool.slot chunk.constants.toList) program := by
  obtain ⟨lexemes, program, hden, -, rfl⟩ := compile_eq_ok_iff.mp h
  exact ⟨lexemes, hden.read, program, hden.derives,
    fun other ho => ho.unique hden.derives, rfl, rfl⟩

/-- Two expressions with a line break between them, the second one a negated call. -/
theorem existsUnique_program_lines :
    ∃ lexemes program, (Cursor.ofSource "x\n-y(nil)").outcomes = lexemes.map .ok ∧
    Program (Layout.significant lexemes) program ∧
    Expr.programCode (Pool.slot [.string "x", .string "y"]) program =
      [⟨.global 0, 0⟩, ⟨.pop, 2⟩, ⟨.global 1, 3⟩, ⟨.nil, 5⟩, ⟨.call 1, 4⟩,
        ⟨.unary .negate, 2⟩] := by
  have h : compile "x\n-y(nil)" = .ok
      { code := #[⟨.global 0, 0⟩, ⟨.pop, 2⟩, ⟨.global 1, 3⟩, ⟨.nil, 5⟩, ⟨.call 1, 4⟩,
        ⟨.unary .negate, 2⟩], constants := #[.string "x", .string "y"] } := by cbv
  obtain ⟨lexemes, hread, program, hprogram, -, -, hcode⟩ := existsUnique_program_of_compile_eq_ok h
  exact ⟨lexemes, program, hread, hprogram, hcode.symm⟩

/-! ## Limits of a source -/

/-- The limits on a program, as limits on the lexemes of its source and on the parts of its
trees. -/
theorem Denotes.acceptable_iff {source : String} {lexemes : List Lexeme} {program : List Expr}
    (h : Denotes source lexemes program) :
    Expr.Acceptable program ↔
      (∀ l ∈ lexemes, l.kind = .string →
        ∀ p ∈ Piece.ofBody (StringLiteral.body l.text), p.decode?.isSome = true) ∧
      (∀ e ∈ program, e.nesting ≤ 199) ∧
      (lexemes.filterMap Lexeme.constant?).dedup.length ≤ 256 ∧
      ∀ part ∈ Expr.programParts program, part.2.Fits part.1 := by
  have hleaves : Expr.leavesAll program = lexemes.filter Lexeme.isLeaf := by
    rw [h.derives.leaves_eq, Layout.filter_isLeaf_significant]
  have hconstants : Expr.constantsAll program = lexemes.filterMap Lexeme.constant? := by
    rw [Expr.constantsAll, hleaves, Lexeme.filterMap_constant?_filter_isLeaf]
  have hnumber : ∀ l ∈ lexemes, l.kind = .number → (Decimal.ofNumeral? l.text).isSome = true := by
    intro l hl
    refine Cursor.ofNumeral?_isSome_of_mem_outcomes (c := .ofSource source) ?_
    rw [h.read]
    exact List.mem_map_of_mem hl
  have hvalid : (∀ l ∈ Expr.leavesAll program, l.IsValid) ↔ ∀ l ∈ lexemes, l.kind = .string →
      ∀ p ∈ Piece.ofBody (StringLiteral.body l.text), p.decode?.isSome = true := by
    rw [hleaves]
    constructor
    · intro hv l hl hk
      have hleaf : l.isLeaf = true := by simp [Lexeme.isLeaf, hk]
      exact (Lexeme.isValid_iff hleaf (hnumber l hl)).mp (hv l (List.mem_filter.mpr ⟨hl, hleaf⟩)) hk
    · intro hv l hl
      obtain ⟨hmem, hleaf⟩ := List.mem_filter.mp hl
      exact (Lexeme.isValid_iff hleaf (hnumber l hmem)).mpr (hv l hmem)
  rw [← hvalid, ← hconstants, ← Pool.length_addAll_nil]
  exact ⟨fun ha => ⟨ha.leaves, ha.nesting, ha.constants, ha.parts⟩,
    fun ha => ⟨ha.1, ha.2.1, ha.2.2.1, ha.2.2.2⟩⟩

/-- What the limits on the operands of instructions come to. -/
theorem Expr.forall_fits_iff {parts : List (Nat × Expr)} :
    (∀ part ∈ parts, part.2.Fits part.1) ↔
      (∀ i f paren args, (i, Expr.call f paren args) ∈ parts → args.length ≤ 255) ∧
      ∀ i k mark l r, (i, Expr.join k mark l r) ∈ parts → k = .and ∨ k = .or →
        i + l.size + k.lead + r.size ≤ 65535 := by
  constructor
  · intro h
    refine ⟨fun i f paren args hmem => h _ hmem, fun i k mark l r hmem hk => ?_⟩
    have hfits := h _ hmem
    rcases hk with rfl | rfl
    all_goals
      simp only [Fits, size, Connective.size, Connective.lead] at hfits ⊢
      omega
  · rintro ⟨hcall, hjoin⟩ ⟨i, e⟩ hmem
    cases e with
    | call f paren args => exact hcall i f paren args hmem
    | join k mark l r =>
      cases k with
      | binary op => trivial
      | and =>
        have := hjoin i .and mark l r hmem (.inl rfl)
        simp only [Fits, size, Connective.size, Connective.lead] at this ⊢
        omega
      | or =>
        have := hjoin i .or mark l r hmem (.inr rfl)
        simp only [Fits, size, Connective.size, Connective.lead] at this ⊢
        omega
    | _ => trivial

/-- **Exactness of acceptance.** A source is accepted exactly if it has no fault in its characters,
its lexemes are a program, all escapes are known, no expression is nested more than 199 operands
deep, there are at most 256 constants and at most 255 arguments of each call, and the code up to the
end of each conjunction and alternative is short enough. -/
theorem exists_compile_eq_ok_iff (source : String) :
    (∃ chunk, compile source = .ok chunk) ↔
      ∃ lexemes program, (Cursor.ofSource source).outcomes = lexemes.map .ok ∧
        Program (Layout.significant lexemes) program ∧
        (∀ l ∈ lexemes, l.kind = .string →
          ∀ p ∈ Piece.ofBody (StringLiteral.body l.text), p.decode?.isSome = true) ∧
        (∀ e ∈ program, e.nesting ≤ 199) ∧
        (lexemes.filterMap Lexeme.constant?).dedup.length ≤ 256 ∧
        (∀ i f paren args, (i, Expr.call f paren args) ∈ Expr.programParts program →
          args.length ≤ 255) ∧
        (∀ i k mark l r, (i, Expr.join k mark l r) ∈ Expr.programParts program →
          k = .and ∨ k = .or →
          i + l.size + k.lead + r.size ≤ 65535) := by
  constructor
  · rintro ⟨chunk, h⟩
    obtain ⟨lexemes, program, hden, hacc, -⟩ := compile_eq_ok_iff.mp h
    obtain ⟨hescapes, hnesting, hconstants, hparts⟩ := hden.acceptable_iff.mp hacc
    exact ⟨lexemes, program, hden.read, hden.derives, hescapes, hnesting, hconstants,
      Expr.forall_fits_iff.mp hparts⟩
  · rintro ⟨lexemes, program, hread, hprogram, hescapes, hnesting, hconstants, hparts⟩
    have hden : Denotes source lexemes program := ⟨hread, hprogram⟩
    have hacc :=
      hden.acceptable_iff.mpr ⟨hescapes, hnesting, hconstants, Expr.forall_fits_iff.mpr hparts⟩
    exact ⟨_, compile_eq_ok_iff.mpr ⟨lexemes, program, hden, hacc, rfl⟩⟩

end LuaExpr
