import LuaExpr.Proofs.Compiler.Acceptance
import LuaExpr.Proofs.Expr.Concatenation
import LuaExpr.Proofs.Expr.Relocation
import LuaExpr.Proofs.Lexeme.Insertion
/-!
# Layout of sources

Layout does not change what a source means. Blanks may be put between any two lexemes, and line
breaks where they mean nothing: inside parentheses, and after an operator.

* `Layout.IsBetween`, `Layout.IsOpen`: places between lexemes, and those of them at which line
  breaks mean nothing.
* `Layout.significant_insert`: comments and such line breaks are dropped wherever they are put.
* `exists_outcomes_filled`: a source with a filler between two of its lexemes looks like the source.
* `compile_insert_layout`: its chunk is the same up to offsets.
-/

namespace LuaExpr

/-! ## Places of line breaks -/

namespace Layout

/-- A place is not strictly inside a lexeme. -/
def IsBetween (lexemes : List Lexeme) (place : Nat) : Prop :=
  ∀ l ∈ lexemes, l.stop ≤ place ∨ place ≤ l.start

/-- An expression is open at a place: a parenthesis in front of it is closed behind it, or an
operator ends there. -/
def IsOpen (lexemes : List Lexeme) (place : Nat) : Prop :=
  0 < depthAfter 0 (lexemes.filter fun l => l.stop ≤ place) ∨
    ∃ l ∈ lexemes, l.kind.awaitsOperand = true ∧ l.stop = place

instance (lexemes : List Lexeme) (place : Nat) : Decidable (IsBetween lexemes place) :=
  inferInstanceAs (Decidable (∀ l ∈ lexemes, l.stop ≤ place ∨ place ≤ l.start))

instance (lexemes : List Lexeme) (place : Nat) : Decidable (IsOpen lexemes place) :=
  inferInstanceAs (Decidable (_ ∨ ∃ l ∈ lexemes, l.kind.awaitsOperand = true ∧ l.stop = place))

variable {depth : Nat} {awaited : Bool} {before added after : List Lexeme} {l : Lexeme}
  {place : Nat}

/-- After an operator an operand is awaited. -/
theorem awaitedAfter_significant_concat (h : l.kind.awaitsOperand = true) :
    awaitedAfter false (significant (before ++ [l])) = true := by
  have hkept : ∀ depth awaited, isDropped depth awaited l.kind = false := by
    refine fun depth awaited => isDropped_eq_false ?_ ?_ <;>
      (intro hk; rw [hk] at h; cases h)
  rw [significant, significantFrom_append, significantFrom_cons_of_not_isDropped _ (hkept _ _),
    awaitedAfter_append]
  exact h

/-- Comments that are put between lexemes are dropped, and so are line breaks where an expression is
open. -/
theorem significant_insert (hadded : ∀ l ∈ added, l.kind = .comment ∨ l.kind = .line ∧
      (0 < depthAfter 0 before ∨ awaitedAfter false (significant before) = true))
    (after : List Lexeme) :
    significant (before ++ (added ++ after)) = significant (before ++ after) := by
  have hdropped : ∀ l ∈ added, isDropped (depthAfter 0 (significantFrom 0 false before))
      (awaitedAfter false (significantFrom 0 false before)) l.kind = true := by
    intro l hl
    simp only [isDropped, Bool.or_eq_true, Bool.and_eq_true, decide_eq_true_eq,
      depthAfter_significantFrom]
    exact hadded l hl
  rw [significant, significantFrom_append, significantFrom_append_of_isDropped _ hdropped,
    significant, significantFrom_append]

/-- The lexemes that end at or in front of a place are those in front of it. -/
theorem filter_stop_le (hb : ∀ l ∈ before, l.stop ≤ place) (ha : ∀ l ∈ after, place < l.stop) :
    (before ++ after).filter (fun l => l.stop ≤ place) = before := by
  rw [List.filter_append, List.filter_eq_self.mpr (by simpa using hb),
    List.filter_eq_nil_iff.mpr (by simpa using ha), List.append_nil]

/-- A lexeme that ends where no other one goes beyond is the last one. -/
theorem exists_eq_concat (hl : l ∈ before) (hpair : before.Pairwise fun l k => l.stop ≤ k.start)
    (hstop : ∀ k ∈ before, k.start < k.stop ∧ k.stop ≤ l.stop) :
    ∃ front, before = front ++ [l] := by
  obtain ⟨front, back, rfl⟩ := List.append_of_mem hl
  cases back with
  | nil => exact ⟨front, rfl⟩
  | cons k back =>
    have hlk := (List.pairwise_cons.mp (List.pairwise_append.mp hpair).2.1).1 k (by simp)
    have := hstop k (by simp)
    omega

/-- Where an expression is open, the layout of the lexemes in front is inside parentheses or awaits
an operand. -/
theorem IsOpen.inside_or_awaited (h : IsOpen (before ++ after) place)
    (hb : ∀ l ∈ before, l.stop ≤ place) (ha : ∀ l ∈ after, place < l.stop)
    (hpair : before.Pairwise fun l k => l.stop ≤ k.start) (hpos : ∀ l ∈ before, l.start < l.stop) :
    0 < depthAfter 0 before ∨ awaitedAfter false (significant before) = true := by
  rcases h with hdepth | ⟨l, hl, hoperator, rfl⟩
  · rw [filter_stop_le hb ha] at hdepth
    exact .inl hdepth
  · have hmem : l ∈ before := by
      rcases List.mem_append.mp hl with hl | hl
      · exact hl
      · exact absurd (ha l hl) (Nat.lt_irrefl _)
    obtain ⟨front, rfl⟩ := exists_eq_concat hmem hpair fun k hk => ⟨hpos k hk, hb k hk⟩
    exact .inr (awaitedAfter_significant_concat hoperator)

end Layout

/-! ## Sources with a filler -/

section Sources

variable {fill br : List Char} {front back : String} {lexemes : List Lexeme} {program : List Expr}
  {chunk : Chunk}

/-- What is read of a source with a filler between two of its lexemes looks like the source, once
what the layout drops is gone. -/
theorem exists_outcomes_filled (hfill : Filler fill br)
    (h : (Cursor.ofSource (front ++ back)).outcomes = lexemes.map .ok)
    (hplace : Layout.IsBetween lexemes (Text.utf8Length front.toList))
    (hopen : br ≠ [] → Layout.IsOpen lexemes (Text.utf8Length front.toList)) :
    ∃ lexemes' : List Lexeme,
      (Cursor.ofSource (front ++ String.ofList (fill ++ br) ++ back)).outcomes = lexemes'.map .ok ∧
        (Layout.significant lexemes').map Lexeme.bare =
          (Layout.significant lexemes).map Lexeme.bare := by
  rw [Cursor.ofSource, String.toList_append] at h
  obtain ⟨before, after, rfl, hfilled⟩ :=
    Cursor.outcomes_filled hfill h (by rw [Nat.zero_add]; exact hplace)
  obtain ⟨before', added, hbefore, hadded, hread⟩ := hfilled.read
  have hstop := hfilled.stop_le
  have hafter := hfilled.rest
  have hmoved := Cursor.outcomes_moved hafter (Text.utf8Length fill + Text.utf8Length br)
  rw [Cursor.moved, ← Nat.add_assoc] at hmoved
  rw [Nat.zero_add] at hstop hafter
  rw [hmoved, ← List.map_append] at hread
  have htext : Cursor.ofSource (front ++ String.ofList (fill ++ br) ++ back) =
      { rest := front.toList ++ (fill ++ (br ++ back.toList)) } := by
    rw [Cursor.ofSource, String.toList_append, String.toList_append, String.toList_ofList,
      List.append_assoc, List.append_assoc fill]
  refine ⟨_, htext ▸ hread, ?_⟩
  have hdropped : ∀ l ∈ added, l.kind = .comment ∨ l.kind = .line ∧
      (0 < Layout.depthAfter 0 before ∨
        Layout.awaitedAfter false (Layout.significant before) = true) := by
    intro l hl
    refine (hadded l hl).imp_right fun hline => ⟨hline.1, ?_⟩
    refine (hopen hline.2).inside_or_awaited hstop (fun k hk => ?_) ?_ ?_
    · have := Cursor.start_of_mem_outcomes hafter k hk
      exact this.1.trans_lt this.2
    · exact (List.pairwise_append.mp (Cursor.pairwise_outcomes h)).1
    · exact fun k hk => (Cursor.start_of_mem_outcomes h k (List.mem_append_left _ hk)).2
  have hbare : (after.map (Lexeme.moved (Text.utf8Length fill + Text.utf8Length br))).map
      Lexeme.bare = after.map Lexeme.bare := by
    rw [List.map_map]
    exact List.map_congr_left fun l _ => Lexeme.bare_congr rfl rfl
  rw [← Layout.significant_insert hdropped, Layout.bare_significant, Layout.bare_significant]
  simp only [List.map_append, hbefore, hbare, List.append_assoc]

/-- Two chunks have the same constants and the same operations; the offsets may differ. -/
structure Chunk.EqUpToOffsets (chunk chunk' : Chunk) : Prop where
  constants : chunk'.constants = chunk.constants
  ops : chunk'.code.map (·.op) = chunk.code.map (·.op)

/-- A filler between two lexemes of a source leaves its chunk the same up to offsets. -/
theorem compile_filled (hfill : Filler fill br) (h : compile (front ++ back) = .ok chunk)
    (hread : (Cursor.ofSource (front ++ back)).outcomes = lexemes.map .ok)
    (hplace : Layout.IsBetween lexemes (Text.utf8Length front.toList))
    (hopen : br ≠ [] → Layout.IsOpen lexemes (Text.utf8Length front.toList)) :
    ∃ chunk', compile (front ++ String.ofList (fill ++ br) ++ back) = .ok chunk' ∧
      chunk.EqUpToOffsets chunk' := by
  obtain ⟨lexemes₀, program, hden, hacc, rfl⟩ := compile_eq_ok_iff.mp h
  obtain rfl : lexemes = lexemes₀ := by
    have := congrArg Compiler.legible (hread.symm.trans hden.read)
    simpa using this
  obtain ⟨lexemes', hread', halike⟩ := exists_outcomes_filled hfill hread hplace hopen
  obtain ⟨program', hprogram, hbare⟩ := hden.derives.exists_of_bare_eq halike
  obtain ⟨hacc', hconstants, hops⟩ := Chunk.ofProgram_of_bare_eq hacc hbare
  exact ⟨_, compile_eq_ok_iff.mpr ⟨lexemes', program', ⟨hread', hprogram⟩, hacc', rfl⟩,
    hconstants, hops⟩

/-- **Layout does not change a program.** Let a source be accepted, and a place in it not be
strictly inside a lexeme. With any blanks there it is accepted too, and its chunk is the same up to
offsets. Inside parentheses and right after an operator the same is true of a line feed, and of a
blank, a comment and a line feed. -/
theorem compile_insert_layout (h : compile (front ++ back) = .ok chunk)
    (hread : (Cursor.ofSource (front ++ back)).outcomes = lexemes.map .ok)
    (hplace : Layout.IsBetween lexemes (Text.utf8Length front.toList)) :
    (∀ blanks : String, (∀ c ∈ blanks.toList, c = ' ' ∨ c = '\t') →
      ∃ chunk', compile (front ++ blanks ++ back) = .ok chunk' ∧ chunk.EqUpToOffsets chunk') ∧
    (Layout.IsOpen lexemes (Text.utf8Length front.toList) →
      (∃ chunk', compile (front ++ "\n" ++ back) = .ok chunk' ∧ chunk.EqUpToOffsets chunk') ∧
      ∀ comment : String, (∀ c ∈ comment.toList, c ≠ '\n' ∧ c ≠ '\r') →
        ∃ chunk', compile (front ++ (" --" ++ comment ++ "\n") ++ back) = .ok chunk' ∧
          chunk.EqUpToOffsets chunk') := by
  refine ⟨fun blanks hblanks => ?_, fun hopen => ⟨?_, fun comment hcomment => ?_⟩⟩
  · have hfill : Filler blanks.toList [] :=
      .blanks fun c hc => by simpa [Reading.isBlank] using hblanks c hc
    have := compile_filled hfill h hread hplace fun hne => absurd rfl hne
    rwa [List.append_nil, String.ofList_toList] at this
  · have hfill : Filler [] ['\n'] := .line (by simp)
    have htext : String.ofList ([] ++ ['\n']) = "\n" := rfl
    rw [← htext]
    exact compile_filled hfill h hread hplace fun _ => hopen
  · have hfill : Filler ([' '] ++ '-' :: '-' :: comment.toList) ['\n'] :=
      .comment (by simp) (by simp [Reading.isBlank]) hcomment
    have := compile_filled hfill h hread hplace fun _ => hopen
    have htext : String.ofList ([' '] ++ '-' :: '-' :: comment.toList ++ ['\n']) =
        " --" ++ comment ++ "\n" := by
      rw [← String.toList_inj]
      simp
    rwa [htext] at this

end Sources

/-- A comment between an operator and its operand, in a call. -/
theorem compile_insert_layout_operator :
    ∃ chunk', compile ("f(a -" ++ (" --" ++ "less" ++ "\n") ++ "b)") = .ok chunk' ∧
    chunk'.constants = #[.string "f", .string "a", .string "b"] ∧
    chunk'.code.map (·.op) = #[.global 0, .global 1, .global 2, .binary .sub, .call 1] := by
  have h : compile ("f(a -" ++ "b)") = .ok
      { code := #[⟨.global 0, 0⟩, ⟨.global 1, 2⟩, ⟨.global 2, 5⟩, ⟨.binary .sub, 4⟩, ⟨.call 1, 1⟩],
        constants := #[.string "f", .string "a", .string "b"] } := by cbv
  have hread : (Cursor.ofSource ("f(a -" ++ "b)")).outcomes = List.map Except.ok
      [⟨.name, 0, ['f']⟩, ⟨.symbol .leftParen, 1, ['(']⟩, ⟨.name, 2, ['a']⟩,
        ⟨.symbol .minus, 4, ['-']⟩,
        ⟨.name, 5, ['b']⟩, ⟨.symbol .rightParen, 6, [')']⟩] := by cbv
  obtain ⟨-, hopen⟩ := compile_insert_layout h hread (by decide)
  obtain ⟨chunk', hchunk, heq⟩ :=
    (hopen (.inr ⟨⟨.symbol .minus, 4, ['-']⟩, by simp, rfl, rfl⟩)).2 "less" (by simp)
  exact ⟨chunk', hchunk, heq.constants, heq.ops.trans (by simp)⟩

end LuaExpr
