import LuaExpr.Proofs.Compiler.Failures
import LuaExpr.Proofs.Compiler.Soundness
import LuaExpr.Proofs.Lexeme.Outcomes
/-!
# What the compiler leaves behind

A compiler can be asked for another expression after a fault, and it goes on with the code of the
expression that it did not finish. That code is not arbitrary: it consists of whole operands and of
conjunctions and alternatives that have been broken off before their right operand.

* `Yields`: the code is made of such pieces, and runs through them leave so many values on the
  stack.
* `Compiler.Abandoned`: what there is to say of the state after a fault.
* `Compiler.abandons_operand`: operands that fail leave such code behind.
* `Compiler.abandons_expression`, `Compiler.compiled_expression`: what any call amounts to, also
  after a fault.
* `Compiler.yields_program`: what the rest of the source adds.
-/

namespace LuaExpr

/-! ## Pieces of code -/

/-- Code that consists of whole expressions and, if there may be gaps, of beginnings of conjunctions
and alternatives. It is written for a stack on which `n` values are left at its end. -/
inductive Yields (gaps : Prop) : Nat → Chunk → Prop
  | empty : Yields gaps 0 {}
  | expression {n : Nat} {c c' : Chunk} {e : Expr} (h : Yields gaps n c) (he : Compiled c c' e) :
      Yields gaps (n + 1) c'
  | drop {n : Nat} {c : Chunk} (h : Yields gaps (n + 1) c) (offset : Nat) :
      Yields gaps n (c.push .pop offset)
  /-- A conjunction without its right operand, the jump over which has no target. -/
  | conjunction (hg : gaps) {n : Nat} {c : Chunk} (h : Yields gaps (n + 1) c) (offset : Nat) :
      Yields gaps n (Compiler.conjunctionOpened c offset)
  /-- An alternative without its right operand. Only the jump over this has no target. -/
  | alternative (hg : gaps) {n : Nat} {c : Chunk} (h : Yields gaps (n + 1) c)
      (hsize : c.code.size + 3 < UInt16.size)
      (offset : Nat) : Yields gaps n (Compiler.alternativeOpened c offset)
  /-- An alternative whose first jump would lead too far. -/
  | refused (hg : gaps) {n : Nat} {c : Chunk} (h : Yields gaps (n + 1) c) (offset : Nat) :
      Yields gaps (n + 1) (Compiler.alternativeBegun c offset)

/-- The code of an alternative up to the jumps, none of which has a target yet. -/
theorem Writes.alternativeBegun (c : Chunk) (offset : Nat) :
    Writes c (Compiler.alternativeBegun c offset) [] fun _ =>
    [⟨.dup, offset⟩, ⟨.jumpIfFalse Compiler.unlanded, offset⟩, ⟨.jump Compiler.unlanded, offset⟩] :=
  ((Writes.push c _ _).trans (Writes.push _ _ _)).trans (Writes.push _ _ _)

/-- The second chunk goes on with pieces where the first one consists of pieces. -/
def Grown (c c' : Chunk) : Prop := ∀ n, Yields True n c → ∃ n', Yields True n' c'

namespace Grown

variable {c c₁ c₂ : Chunk} {e : Expr}

theorem refl (c : Chunk) : Grown c c := fun n h => ⟨n, h⟩

theorem trans (h : Grown c c₁) (h' : Grown c₁ c₂) : Grown c c₂ := by
  intro n hn
  obtain ⟨n', hn'⟩ := h n hn
  exact h' n' hn'

theorem of_compiled (h : Compiled c c₁ e) : Grown c c₁ := fun _ hn => ⟨_, hn.expression h⟩

theorem conjunction (h : Compiled c c₁ e) (offset : Nat) :
    Grown c (Compiler.conjunctionOpened c₁ offset) :=
  fun _ hn => ⟨_, (hn.expression h).conjunction trivial offset⟩

theorem alternative (h : Compiled c c₁ e) (hsize : c₁.code.size + 3 < UInt16.size) (offset : Nat) :
    Grown c (Compiler.alternativeOpened c₁ offset) :=
  fun _ hn => ⟨_, (hn.expression h).alternative trivial hsize offset⟩

theorem refused (h : Compiled c c₁ e) (offset : Nat) :
    Grown c (Compiler.alternativeBegun c₁ offset) :=
  fun _ hn => ⟨_, (hn.expression h).refused trivial offset⟩

end Grown

namespace Compiler

variable {s s' t : Compiler} {c : Chunk}

/-! ## States after a fault -/

/-- The end of the source is read last. Unlike `InOrder` this holds also before the first lexeme and
after a fault. -/
structure EofLast (s : Compiler) : Prop where
  last : s.last.kind = .eof
  unread : ∀ l, .ok l ∈ s.unread → l.kind ≠ .eof

theorem InOrder.eofLast (h : s.InOrder) : s.EofLast := ⟨h.last, h.unread⟩

theorem eofLast_ofSource (source : String) : (ofSource source).EofLast :=
  ⟨rfl, fun _ hl => Cursor.kind_ne_eof_of_mem_outcomes hl⟩

/-- After a fault, the end of the source is still read last, and the chunk `c` has grown. -/
structure Abandoned (c : Chunk) (s' : Compiler) : Prop where
  eofLast : s'.EofLast
  grown : Grown c s'.chunk

theorem Abandoned.of_chunk_eq (h : s'.EofLast) (hc : s'.chunk = c) : Abandoned c s' :=
  ⟨h, hc ▸ .refl _⟩

theorem Abandoned.after {c' : Chunk} (h : Abandoned c' s') (hc : Grown c c') : Abandoned c s' :=
  ⟨h.eofLast, hc.trans h.grown⟩

/-! ## Reading -/

theorem look_go_fails {inside : Bool} {os : List (Except LexError Lexeme)}
    (h : Fails (look.go inside os) s s') :
    s'.last = s.last ∧ s'.chunk = s.chunk ∧ s'.unread <:+ os := by
  induction os generalizing s with
  | nil => exact (modify_fails.mp h).elim
  | cons o os ih =>
    cases o with
    | error e =>
      simp only [look.go, bind_unit_fails, modify_fails, modify_eq_ok, exists_eq_left, false_or,
        throw_fails] at h
      rw [h]
      exact ⟨rfl, rfl, List.suffix_cons _ _⟩
    | ok l =>
      simp only [look.go, bind_unit_fails, modify_fails, modify_eq_ok, exists_eq_left,
        false_or, ite_fails, pure_fails, and_false, or_false] at h
      obtain ⟨hlast, hchunk, hunread⟩ := ih h.2
      exact ⟨hlast, hchunk, hunread.trans (List.suffix_cons _ _)⟩

theorem abandons_advance (hs : s.EofLast) (h : Fails advance s s') : Abandoned s.chunk s' := by
  obtain ⟨hlast, hchunk, hunread⟩ :=
    look_go_fails (s := { s with previous := s.current }) (advance_fails.mp h)
  refine .of_chunk_eq ⟨?_, fun l hl => hs.unread l (hunread.mem hl)⟩ hchunk
  rw [hlast]
  exact hs.last

theorem abandons_repeatWhile {holds : TokenKind → Bool} {α : Type} {rounds : List α}
    (ho : s.InOrder) (h : Fails (repeatWhile holds advance rounds) s s') :
    Abandoned s.chunk s' := by
  induction rounds generalizing s with
  | nil => exact (repeatWhile_nil_fails.mp h).elim
  | cons a rounds ih =>
    rcases (repeatWhile_cons_fails.mp h).2 with h | ⟨t, ht, h⟩
    · exact abandons_advance ho.eofLast h
    · have hadv := advanced_of_advance ho ht
      rw [← hadv.chunk]
      exact ih hadv.keeps.inOrder h

theorem abandons_skipLines (ho : s.InOrder) (h : Fails skipLines s s') : Abandoned s.chunk s' :=
  abandons_repeatWhile ho (skipLines_fails.mp h)

theorem abandons_consume {symbol : Symbol} {expected : String} (ho : s.InOrder)
    (h : Fails (consume symbol expected) s s') : Abandoned s.chunk s' := by
  rcases consume_fails.mp h with ⟨-, h⟩ | ⟨-, rfl⟩
  · exact abandons_advance ho.eofLast h
  · exact .of_chunk_eq ho.eofLast rfl

/-! ## Parts of expressions -/

/-- What a part of the compiler leaves behind when it fails. -/
def Abandons (part : Precedence → CompileM Unit) : Prop :=
  ∀ {p : Precedence} {s s' : Compiler}, p ≤ .exponent → s.InOrder → Fails (part p) s s' →
    Abandoned s.chunk s'

section Parts

variable {levels : Nat} {part : Precedence → CompileM Unit} (hp : Sound levels part)
  (ha : Abandons part)
include hp ha

theorem abandons_leading (ho : s.InOrder) (h : Fails (leading part) s s') :
    Abandoned s.chunk s' := by
  rcases leading_fails h with rfl | ⟨-, h⟩ | ⟨op, -, h⟩
  · exact .of_chunk_eq ho.eofLast rfl
  · rcases group_fails.mp h with h | ⟨t, ht, h⟩
    · exact ha (s := { s with groups := s.groups + 1 }) (by decide) (ho.of_eq rfl rfl rfl) h
    · obtain ⟨ts, e, hr⟩ :=
        hp (s := { s with groups := s.groups + 1 }) (by decide) (ho.of_eq rfl rfl rfl) ht
      have hend :=
        abandons_consume (s := { t with groups := t.groups - 1 })
          (hr.keeps.inOrder.of_eq rfl rfl rfl) h
      exact hend.after (.of_compiled hr.compiled)
  · exact ha (by decide) ho h

theorem abandons_arguments {α : Type} {rounds : List α} {count : Nat} (ho : s.InOrder)
    (h : Fails (arguments (part .or) count rounds) s s') : Abandoned s.chunk s' := by
  induction rounds generalizing s count with
  | nil => exact (arguments_nil_fails.mp h).elim
  | cons a rounds ih =>
    rcases arguments_cons_fails.mp h with h | ⟨t, ht, -, h⟩
    · exact ha (by decide) ho h
    · obtain ⟨ts, e, hr⟩ := hp (by decide) ho ht
      refine Abandoned.after ?_ (.of_compiled hr.compiled)
      rcases h with h | ⟨t', ht', h⟩
      · exact abandons_advance hr.keeps.inOrder.eofLast h
      · have hadv := advanced_of_advance hr.keeps.inOrder ht'
        rw [← hadv.chunk]
        exact ih hadv.keeps.inOrder h

omit ha in
/-- Arguments that have been compiled, but not counted as those of a call. -/
theorem grown_arguments {α : Type} {rounds : List α} {count n : Nat} (ho : s.InOrder)
    (h : arguments (part .or) count rounds s = .ok n s') : s'.InOrder ∧ Grown s.chunk s'.chunk := by
  induction rounds generalizing s count with
  | nil =>
    obtain ⟨-, rfl⟩ := pure_eq_ok.mp h
    exact ⟨ho, .refl _⟩
  | cons a rounds ih =>
    obtain ⟨t, ht, h⟩ := arguments_cons_eq_ok.mp h
    obtain ⟨ts, e, hr⟩ := hp (by decide) ho ht
    rcases h with ⟨-, t', ht', h⟩ | ⟨-, -, rfl⟩
    · have hadv := advanced_of_advance hr.keeps.inOrder ht'
      obtain ⟨ho', hgrown⟩ := ih hadv.keeps.inOrder h
      rw [hadv.chunk] at hgrown
      exact ⟨ho', (Grown.of_compiled hr.compiled).trans hgrown⟩
    · exact ⟨hr.keeps.inOrder, .of_compiled hr.compiled⟩

theorem abandons_call {paren : Token} (ho : s.InOrder) (h : Fails (call (part .or) paren) s s') :
    Abandoned s.chunk s' := by
  have ho' : ({ s with groups := s.groups + 1 } : Compiler).InOrder := ho.of_eq rfl rfl rfl
  rcases call_fails h with h | ⟨t, ht, h⟩
  · exact abandons_skipLines (s := { s with groups := s.groups + 1 }) ho' h
  · obtain ⟨hkeeps, hchunk, -, -⟩ := skipLines_spec ho' ht
    have hchunk : t.chunk = s.chunk := hchunk
    rcases h with h | ⟨n, t', ht', h⟩
    · rw [← hchunk]
      exact abandons_arguments hp ha hkeeps.inOrder h
    · obtain ⟨hot', hgrown⟩ : t'.InOrder ∧ Grown s.chunk t'.chunk := by
        rcases ht' with rfl | ht'
        · exact ⟨hkeeps.inOrder, hchunk ▸ .refl _⟩
        · rw [← hchunk]
          exact grown_arguments hp hkeeps.inOrder ht'
      have hoc : ({ t' with groups := t'.groups - 1 } : Compiler).InOrder := hot'.of_eq rfl rfl rfl
      refine Abandoned.after ?_ hgrown
      rcases h with h | h
      · exact abandons_consume (s := { t' with groups := t'.groups - 1 }) hoc h
      · have hadv := advanced_of_advance hoc (consume_eq_ok.mp h).2
        exact .of_chunk_eq hadv.keeps.inOrder.eofLast hadv.chunk

/-- A right operand that fails, or after which the jump over it leads too far. -/
theorem abandons_right {p : Precedence} {c' : Chunk} (hle : p ≤ .exponent) (ho : s.InOrder)
    (hc : Grown c c') (h : Fails (part p) { s with chunk := c' } s' ∨
      ∃ t, part p { s with chunk := c' } = .ok () t ∧ UInt16.size ≤ t.chunk.code.size ∧ s' = t) :
    Abandoned c s' := by
  have ho' : ({ s with chunk := c' } : Compiler).InOrder := ho.of_eq rfl rfl rfl
  refine Abandoned.after ?_ hc
  rcases h with h | ⟨t, ht, -, rfl⟩
  · exact ha hle ho' h
  · obtain ⟨ts, e, hr⟩ := hp hle ho' ht
    exact ⟨hr.keeps.inOrder.eofLast, .of_compiled hr.compiled⟩

theorem abandons_join {j : Joint} {l : Expr} (ho : s.InOrder) (hc : Compiled c s.chunk l)
    (h : Fails (join part j) s s') : Abandoned c s' := by
  cases j with
  | call => exact (abandons_call hp ha ho (join_call_fails.mp h)).after (.of_compiled hc)
  | binary op =>
    exact (ha (Connective.binary op).rightPrecedence_le ho (join_binary_fails.mp h)).after
      (.of_compiled hc)
  | and =>
    exact abandons_right hp ha Connective.and.rightPrecedence_le ho (.conjunction hc _)
      (conjunction_fails.mp (join_and_fails.mp h))
  | or =>
    rcases alternative_fails.mp (join_or_fails.mp h) with ⟨-, rfl⟩ | ⟨hsize, h⟩
    · exact ⟨⟨ho.last, ho.unread⟩, .refused hc _⟩
    · exact abandons_right hp ha Connective.or.rightPrecedence_le ho (.alternative hc hsize _) h

/-- Joints after an operand `l`, which some of them have made a larger one. -/
theorem abandons_following {p : Precedence} {l : Expr} {α : Type} {rounds : List α} (ho : s.InOrder)
    (hc : Compiled c s.chunk l) (hn : l.nesting < levels + 1)
    (h : Fails (following part p rounds) s s') :
    Abandoned c s' := by
  induction rounds generalizing s l with
  | nil => exact (following_nil_fails.mp h).elim
  | cons a rounds ih =>
    obtain ⟨j, hj, hl, h | ⟨t, ht, h⟩⟩ := following_cons_fails h
    · exact (abandons_advance ho.eofLast h).after (.of_compiled hc)
    · have hadv := advanced_of_advance ho ht
      have hct : Compiled c t.chunk l := hadv.chunk ▸ hc
      rcases h with h | ⟨t', ht', h⟩
      · exact abandons_join hp ha hadv.keeps.inOrder hct h
      · obtain ⟨d, hd⟩ := sound_join hp (by rw [hadv.previous, hj]) hl hadv.keeps.inOrder hct hn ht'
        exact ih hd.keeps.inOrder hd.compiled hd.nesting h

end Parts

/-- **What operands leave behind when they fail**, by induction on the number of operands that may
still be opened. -/
theorem abandons_operand (levels : Nat) : Abandons (operand levels) := by
  induction levels with
  | zero =>
    intro p s s' _ ho h
    rw [operand_zero_fails.mp h]
    exact .of_chunk_eq ⟨ho.last, ho.unread⟩ rfl
  | succ levels ih =>
    intro p s s' hp ho h
    have ho' : ({ s with depth := s.depth + 1 } : Compiler).InOrder := ho.of_eq rfl rfl rfl
    rcases operand_succ_fails h with h | ⟨s₁, hskip, h⟩
    · exact abandons_skipLines (s := { s with depth := s.depth + 1 }) ho' h
    obtain ⟨hkeeps, hchunk, -, -⟩ := skipLines_spec ho' hskip
    have hchunk : s₁.chunk = s.chunk := hchunk
    rw [← hchunk]
    rcases h with h | ⟨s₂, hadv, h⟩
    · exact abandons_advance hkeeps.inOrder.eofLast h
    have hadv := advanced_of_advance hkeeps.inOrder hadv
    rw [← hadv.chunk]
    rcases h with h | ⟨s₃, hlead, h⟩
    · exact abandons_leading (sound_operand levels) ih hadv.keeps.inOrder h
    · obtain ⟨us, d, hd⟩ :=
        sound_leading (sound_operand levels) hadv.keeps.inOrder hadv.settled hlead
      exact abandons_following (sound_operand levels) ih hd.keeps.inOrder hd.compiled hd.nesting h

/-! ## Calls for an expression -/

/-- What no expression begins with and no call passes over: the end of the source, or a comment that
a fault has left. -/
def Stuck (l : Lexeme) : Prop := l.kind = .eof ∨ l.kind = .comment

theorem EofLast.inOrder (h : s.EofLast) (hk : ¬ Stuck s.current) : s.InOrder :=
  ⟨h.last, h.unread, fun he => absurd (.inl he) hk, fun hc => hk (.inr hc)⟩

theorem skipLines_of_stuck (hk : Stuck s.current) : skipLines s = .ok () s := by
  refine skipLines_eq_ok.mpr (repeatWhile_cons_eq_ok.mpr (.inr ⟨?_, rfl⟩))
  rcases hk with hk | hk
  all_goals
    rw [hk]
    decide

theorem leading_of_stuck (part : Precedence → CompileM Unit) (hk : Stuck s.previous) :
    leading part s = .error (.parse (.expectedOperand s.previous.token)) s := by
  rcases hk with hk | hk
  all_goals
    simp only [leading, bind, EStateM.bind, get, getThe, MonadStateOf.get, EStateM.get, hk]
    rfl

/-- One advance, whether or not the current lexeme is a comment. -/
theorem EofLast.of_advance (hs : s.EofLast) (h : advance s = .ok () t) :
    t.InOrder ∧ t.previous = s.current ∧ t.chunk = s.chunk := by
  obtain ⟨ho, -, -, -, hc, hp, -⟩ :=
    look_eq_ok (s := { s with previous := s.current }) hs.last hs.unread (advance_eq_ok.mp h)
  exact ⟨ho, hp, hc⟩

/-- A call that finds no expression fails, and writes nothing. -/
theorem operand_of_stuck (levels : Nat) (p : Precedence) (hs : s.EofLast) (hk : Stuck s.current) :
    operand levels p s ≠ .ok () s' ∧
      (Fails (operand levels p) s s' → s'.EofLast ∧ s'.chunk = s.chunk) := by
  cases levels with
  | zero =>
    refine ⟨operand_zero_eq_ok.mp, fun h => ?_⟩
    rw [operand_zero_fails.mp h]
    exact ⟨⟨hs.last, hs.unread⟩, rfl⟩
  | succ levels =>
    have hskip := skipLines_of_stuck (s := { s with depth := s.depth + 1 }) hk
    have hstuck : ∀ {s₂ : Compiler}, advance { s with depth := s.depth + 1 } = .ok () s₂ →
        Stuck s₂.previous ∧ s₂.EofLast ∧ s₂.chunk = s.chunk := by
      intro s₂ h
      obtain ⟨ho, hp, hc⟩ :=
        EofLast.of_advance (s := { s with depth := s.depth + 1 }) ⟨hs.last, hs.unread⟩ h
      exact ⟨hp ▸ hk, ho.eofLast, hc⟩
    refine ⟨fun h => ?_, fun h => ?_⟩
    · obtain ⟨s₁, s₂, s₃, s₄, h₁, h₂, h₃, -⟩ := operand_succ_eq_ok.mp h
      rw [hskip] at h₁
      cases h₁
      rw [leading_of_stuck _ (hstuck h₂).1] at h₃
      cases h₃
    · rcases operand_succ_fails h with ⟨e, h⟩ | ⟨s₁, h₁, h⟩
      · rw [hskip] at h
        cases h
      rw [hskip] at h₁
      cases h₁
      rcases h with h | ⟨s₂, h₂, h⟩
      · obtain ⟨hlast, hchunk, hunread⟩ := look_go_fails (advance_fails.mp h)
        exact ⟨⟨hlast ▸ hs.last, fun l hl => hs.unread l (hunread.mem hl)⟩, hchunk⟩
      obtain ⟨hk₂, hs₂, hc₂⟩ := hstuck h₂
      rcases h with ⟨e, h⟩ | ⟨s₃, h₃, -⟩
      · rw [leading_of_stuck _ hk₂] at h
        cases h
        exact ⟨hs₂, hc₂⟩
      · rw [leading_of_stuck _ hk₂] at h₃
        cases h₃

/-- **A call that succeeds** has compiled an expression. -/
theorem compiled_expression (hs : s.EofLast) (h : expression s = .ok () s') :
    s'.EofLast ∧ ∃ e, Compiled s.chunk s'.chunk e := by
  have h := expression_eq_ok.mp h
  have hk : ¬ Stuck s.current := fun hk => (operand_of_stuck _ _ hs hk).1 h
  obtain ⟨ts, e, hr⟩ := sound_operand _ (by decide) (hs.inOrder hk) h
  exact ⟨hr.keeps.inOrder.eofLast, e, hr.compiled⟩

/-- **A call that fails** leaves pieces of code behind. -/
theorem abandons_expression (hs : s.EofLast) (h : Fails expression s s') :
    Abandoned s.chunk s' := by
  have h : Fails (operand (maxDepth - s.depth) .or) s s' := h
  by_cases hk : Stuck s.current
  · obtain ⟨hs', hc⟩ := (operand_of_stuck _ _ hs hk).2 h
    exact .of_chunk_eq hs' hc
  · exact abandons_operand _ (by decide) (hs.inOrder hk) h

/-! ## The rest of the source -/

variable {gaps : Prop}

theorem yields_expressions {α : Type} {rounds : List α} (first : Bool) {n : Nat} (ho : s.InOrder)
    (hy : Yields gaps (if first then n else n + 1) s.chunk)
    (h : expressions first rounds s = .ok () s') :
    s'.chunk = s.chunk ∨ Yields gaps (n + 1) s'.chunk := by
  induction rounds generalizing s first with
  | nil => exact .inl (by rw [expressions_nil_eq_ok.mp h])
  | cons a rounds ih =>
    obtain ⟨t, hsep, h⟩ := expressions_cons_eq_ok.mp h
    obtain ⟨⟨hot, hct⟩, -⟩ := repeatWhile_advance (R := fun s s' => s'.InOrder ∧ s'.chunk = s.chunk)
      (fun s hs => ⟨hs, rfl⟩) (fun s t s' _ _ _ hadv hR => ⟨hR.1, hR.2.trans hadv.chunk⟩)
      (by decide) ho
      (length_remaining_le_budget s) hsep
    rcases h with ⟨-, rfl⟩ | ⟨-, t', he, -, h⟩
    · exact .inl hct
    · obtain ⟨ts, e, hr⟩ := sound_operand _ (p := .or)
        (s := { t with
          chunk := if first then t.chunk else t.chunk.push .pop t.current.start }) (by decide)
        (hot.of_eq rfl rfl rfl) (expression_eq_ok.mp he)
      -- the value of the expression before, if any, is dropped first
      have hdropped : Yields gaps n (if first then t.chunk
          else t.chunk.push .pop t.current.start) := by
        rw [hct]
        cases first with
        | true => exact hy
        | false => exact hy.drop _
      have hone : Yields gaps (n + 1) t'.chunk := hdropped.expression hr.compiled
      rcases ih false hr.keeps.inOrder hone h with hc | hy'
      · exact .inr (hc ▸ hone)
      · exact .inr hy'

/-- **The rest of the source** adds one value, or no code at all. -/
theorem yields_program {n : Nat} (hs : s.EofLast) (hy : Yields gaps n s.chunk)
    (h : program s = .ok () s') :
    s'.chunk = s.chunk ∨ Yields gaps (n + 1) s'.chunk := by
  obtain ⟨t, ht, h⟩ := program_eq_ok.mp h
  obtain ⟨ho, -, hc⟩ := hs.of_advance ht
  rw [← hc]
  exact yields_expressions true ho (hc ▸ hy) h

end Compiler

end LuaExpr
