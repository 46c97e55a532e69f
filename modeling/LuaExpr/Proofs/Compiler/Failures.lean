import LuaExpr.Proofs.Compiler.Steps
/-!
# Failing steps of the compiler

What it means for each part of the compiler to fail, as a statement about the states before and
after it: some steps succeed, and the one after them fails. A part that fails leaves behind what the
steps before its last one did.

* `Fails`: a part fails and leaves a state behind.
* `bind_fails` and its companions take a sequence of steps apart; all other facts follow from them
  by rewriting.
* The facts about parts correspond to those about success, with `_eq_ok` in their names.
-/

namespace LuaExpr.Compiler

variable {α β : Type} {s s' : Compiler}

/-! ## Sequences of steps -/

/-- A part fails in the first state and leaves the second one behind. -/
def Fails (x : CompileM α) (s s' : Compiler) : Prop := ∃ e, x s = .error e s'

theorem bind_fails {x : CompileM α} {f : α → CompileM β} :
    Fails (x >>= f) s s' ↔ Fails x s s' ∨ ∃ a t, x s = .ok a t ∧ Fails (f a) t s' := by
  show (∃ e, EStateM.bind x f s = .error e s') ↔ (∃ e, x s = .error e s') ∨ _
  unfold EStateM.bind
  cases hx : x s with
  | ok a t =>
    constructor
    · exact fun h => .inr ⟨a, t, rfl, h⟩
    · rintro (⟨e, h⟩ | ⟨a', t', h, hf⟩)
      · cases h
      · cases h
        exact hf
  | error e t => simp

theorem bind_unit_fails {x : CompileM Unit} {f : Unit → CompileM β} :
    Fails (x >>= f) s s' ↔ Fails x s s' ∨ ∃ t, x s = .ok () t ∧ Fails (f ()) t s' := by
  rw [bind_fails]
  exact or_congr_right ⟨fun ⟨_, h⟩ => h, fun h => ⟨(), h⟩⟩

theorem pure_fails {a : α} : Fails (pure a : CompileM α) s s' ↔ False := by
  show (∃ e, EStateM.Result.ok a s = .error e s') ↔ False
  simp

theorem modify_fails {f : Compiler → Compiler} : Fails (modify f : CompileM Unit) s s' ↔ False := by
  show (∃ e, EStateM.Result.ok () (f s) = .error e s') ↔ False
  simp

theorem get_bind_fails {f : Compiler → CompileM β} :
    Fails ((get : CompileM Compiler) >>= f) s s' ↔ Fails (f s) s s' := Iff.rfl

theorem throw_fails {e : SourceError} : Fails (throw e : CompileM α) s s' ↔ s' = s := by
  show (∃ e', EStateM.Result.error e s = .error e' s') ↔ _
  simp [eq_comm]

theorem fail_fails {e : ParseError} : Fails (fail e : CompileM α) s s' ↔ s' = s := throw_fails

theorem ite_fails {p : Prop} [Decidable p] {x y : CompileM α} :
    Fails (if p then x else y) s s' ↔ (p ∧ Fails x s s') ∨ (¬ p ∧ Fails y s s') := by
  split <;> simp_all

theorem currentKind_bind_fails {f : TokenKind → CompileM β} :
    Fails (currentKind >>= f) s s' ↔ Fails (f s.current.kind) s s' := Iff.rfl

theorem budget_bind_fails {f : List (Except LexError Lexeme) → CompileM β} :
    Fails (budget >>= f) s s' ↔ Fails (f (.ok s.current :: s.unread)) s s' := Iff.rfl

/-! ## Reading -/

theorem repeatWhile_nil_fails {holds : TokenKind → Bool} {step : CompileM Unit} :
    Fails (repeatWhile holds step ([] : List α)) s s' ↔ False := pure_fails

theorem repeatWhile_cons_fails {holds : TokenKind → Bool} {step : CompileM Unit} {a : α}
    {rounds : List α} :
    Fails (repeatWhile holds step (a :: rounds)) s s' ↔ holds s.current.kind = true ∧
      (Fails step s s' ∨ ∃ t, step s = .ok () t ∧ Fails (repeatWhile holds step rounds) t s') := by
  simp only [repeatWhile, currentKind_bind_fails, ite_fails, bind_unit_fails, pure_fails,
    and_false, or_false]

theorem advance_fails : Fails advance s s' ↔ Fails look { s with previous := s.current } s' := by
  simp only [advance, bind_unit_fails, modify_fails, modify_eq_ok, exists_eq_left, false_or]

theorem skipLines_fails :
    Fails skipLines s s' ↔
      Fails (repeatWhile (· = .line) advance (.ok s.current :: s.unread)) s s' :=
  budget_bind_fails

theorem consume_fails {symbol : Symbol} {expected : String} :
    Fails (consume symbol expected) s s' ↔
      (s.current.kind = .symbol symbol ∧ Fails advance s s') ∨
        (s.current.kind ≠ .symbol symbol ∧ s' = s) := by
  simp only [consume, get_bind_fails, ite_fails, fail_fails, ne_eq]

/-! ## Writing -/

theorem emit_bind_fails {op : Op} {offset : Nat} {f : Nat → CompileM β} :
    Fails (emit op offset >>= f) s s' ↔
      Fails (f s.chunk.code.size) { s with chunk := s.chunk.push op offset } s' := by
  have hemit : Fails (emit op offset) s s' ↔ False := by
    simp only [emit, get_bind_fails, bind_unit_fails, modify_fails, pure_fails, and_false,
      exists_false, or_false]
  simp only [bind_fails, hemit, emit_eq_ok, false_or]
  constructor
  · rintro ⟨_, _, ⟨rfl, rfl⟩, h⟩
    exact h
  · intro h
    exact ⟨_, _, ⟨rfl, rfl⟩, h⟩

theorem land_fails {jump : Nat} {operator : Token} :
    Fails (land jump operator) s s' ↔ UInt16.size ≤ s.chunk.code.size ∧ s' = s := by
  simp only [land, get_bind_fails, ite_fails, modify_fails, fail_fails, and_false,
    false_or, Nat.not_lt]

theorem slotOf_fails {token : Token} {v : Value} (h : Fails (slotOf token v) s s') : s' = s := by
  simp only [slotOf, get_bind_fails] at h
  cases hslot : s.chunk.slotOf? v with
  | none =>
    rw [hslot] at h
    exact fail_fails.mp h
  | some r =>
    obtain ⟨slot, chunk⟩ := r
    simp only [hslot, bind_unit_fails, modify_fails, pure_fails, and_false, exists_false,
      or_false] at h

/-! ## Operands -/

theorem group_fails {inner : CompileM Unit} :
    Fails (group inner) s s' ↔ Fails inner { s with groups := s.groups + 1 } s' ∨
      ∃ t, inner { s with groups := s.groups + 1 } = .ok () t ∧
        Fails (consume .rightParen "')' after expression")
          { t with groups := t.groups - 1 } s' := by
  simp only [group, bind_unit_fails, modify_fails, modify_eq_ok, exists_eq_left, false_or]

theorem literal_fails {op : Op} : Fails (literal op) s s' ↔ False := by
  simp only [literal, get_bind_fails, emit_bind_fails, pure_fails]

/-- The instruction of a literal or a name is written at once if there is a slot for its
constant. -/
theorem slotOf_emit_fails {token : Token} {v : Value} {op : UInt8 → Op} {offset : Nat}
    (h : Fails (do let slot ← slotOf token v
                   let _ ← emit (op slot) offset : CompileM Unit) s s') : s' = s := by
  rcases bind_fails.mp h with h | ⟨slot, t, -, h⟩
  · exact slotOf_fails h
  · simp only [emit_bind_fails, pure_fails] at h

theorem numberLiteral_fails (h : Fails numberLiteral s s') : s' = s := by
  simp only [numberLiteral, get_bind_fails] at h
  split at h
  · exact slotOf_emit_fails h
  · exact fail_fails.mp h

theorem stringLiteral_fails (h : Fails stringLiteral s s') : s' = s := by
  simp only [stringLiteral, get_bind_fails] at h
  split at h
  · exact slotOf_emit_fails h
  · exact fail_fails.mp h

theorem name_fails (h : Fails name s s') : s' = s := by
  simp only [name, get_bind_fails] at h
  exact slotOf_emit_fails h

/-- An operand without parts fails at once. -/
theorem leading_fails {part : Precedence → CompileM Unit} (h : Fails (leading part) s s') :
    s' = s ∨ (s.previous.kind = .symbol .leftParen ∧ Fails (group (part .or)) s s') ∨
      ∃ op, s.previous.kind.unaryOp? = some op ∧ Fails (part .unary) s s' := by
  simp only [leading, get_bind_fails] at h
  split at h
  · exact (literal_fails.mp h).elim
  · exact (literal_fails.mp h).elim
  · exact (literal_fails.mp h).elim
  · exact .inl (numberLiteral_fails h)
  · exact .inl (stringLiteral_fails h)
  · exact .inl (name_fails h)
  · exact .inr (.inl ⟨‹_›, h⟩)
  · split at h
    · rename_i op hop
      simp only [bind_unit_fails, emit_bind_fails, pure_fails, and_false, exists_false,
        or_false] at h
      exact .inr (.inr ⟨op, hop, h⟩)
    · exact .inl (fail_fails.mp h)

/-! ## Joints -/

theorem arguments_nil_fails {expression : CompileM Unit} {count : Nat} :
    Fails (arguments expression count ([] : List α)) s s' ↔ False := pure_fails

theorem arguments_cons_fails {expression : CompileM Unit} {count : Nat} {a : α} {rounds : List α} :
    Fails (arguments expression count (a :: rounds)) s s' ↔ Fails expression s s' ∨
      ∃ t, expression s = .ok () t ∧
      t.current.kind = .symbol .comma ∧ (Fails advance t s' ∨ ∃ t', advance t = .ok () t' ∧
        Fails (arguments expression (count + 1) rounds) t' s') := by
  simp only [arguments, bind_unit_fails, currentKind_bind_fails, ite_fails, pure_fails,
    and_false, or_false]

/-- The end of a call fails where there is no parenthesis, or after it. -/
theorem callEnd_fails {paren : Token} {n : Nat} (h : Fails (callEnd paren n) s s') :
    Fails (consume .rightParen "')' after arguments") { s with groups := s.groups - 1 } s' ∨
      consume .rightParen "')' after arguments" { s with groups := s.groups - 1 } = .ok () s' := by
  simp only [callEnd, bind_unit_fails, modify_fails, modify_eq_ok, exists_eq_left, ite_fails,
    emit_bind_fails, pure_fails, fail_fails, and_false, false_or] at h
  rcases h with h | ⟨t, h, -, rfl⟩
  · exact .inl h
  · exact .inr h

/-- A call fails before its arguments, in them or after them. -/
theorem call_fails {expression : CompileM Unit} {paren : Token}
    (h : Fails (call expression paren) s s') :
    Fails skipLines { s with groups := s.groups + 1 } s' ∨
      ∃ t, skipLines { s with groups := s.groups + 1 } = .ok () t ∧
        (Fails (arguments expression 0 (.ok t.current :: t.unread)) t s' ∨
          ∃ n t', (t' = t ∨ arguments expression 0 (.ok t.current :: t.unread) t = .ok n t') ∧
            (Fails (consume .rightParen "')' after arguments")
                { t' with groups := t'.groups - 1 } s' ∨
              consume .rightParen "')' after arguments" { t' with groups := t'.groups - 1 } =
                .ok () s')) := by
  simp only [call_eq, bind_unit_fails, modify_fails, modify_eq_ok, exists_eq_left, false_or,
    currentKind_bind_fails, ite_fails, budget_bind_fails] at h
  rcases h with h | ⟨t, ht, ⟨-, h⟩ | ⟨-, h⟩⟩
  · exact .inl h
  · exact .inr ⟨t, ht, .inr ⟨0, t, .inl rfl, callEnd_fails h⟩⟩
  · rcases bind_fails.mp h with h | ⟨n, t', hn, h⟩
    · exact .inr ⟨t, ht, .inl h⟩
    · exact .inr ⟨t, ht, .inr ⟨n, t', .inr hn, callEnd_fails h⟩⟩

theorem conjunction_fails {right : CompileM Unit} {operator : Token} :
    Fails (conjunction right operator) s s' ↔
      Fails right { s with chunk := conjunctionOpened s.chunk operator.start } s' ∨
        ∃ t, right { s with chunk := conjunctionOpened s.chunk operator.start } = .ok () t ∧
          UInt16.size ≤ t.chunk.code.size ∧ s' = t := by
  simp only [conjunction, emit_bind_fails, bind_unit_fails, land_fails, conjunctionOpened]

/-- The chunk with the code of an alternative up to the jumps, none of which has a target yet. -/
def alternativeBegun (c : Chunk) (offset : Nat) : Chunk :=
  ((c.push .dup offset).push (.jumpIfFalse unlanded) offset).push (.jump unlanded) offset

theorem alternative_fails {right : CompileM Unit} {operator : Token} :
    Fails (alternative right operator) s s' ↔
      (UInt16.size ≤ s.chunk.code.size + 3 ∧
        s' = { s with chunk := alternativeBegun s.chunk operator.start }) ∨
      (s.chunk.code.size + 3 < UInt16.size ∧
        (Fails right { s with chunk := alternativeOpened s.chunk operator.start } s' ∨
          ∃ t, right { s with chunk := alternativeOpened s.chunk operator.start } = .ok () t ∧
            UInt16.size ≤ t.chunk.code.size ∧ s' = t)) := by
  simp only [alternative, emit_bind_fails, bind_unit_fails, land_fails, land_eq_ok,
    alternativeOpened, alternativeBegun, Chunk.push, Array.size_push, and_assoc, exists_and_left,
    exists_eq_left]

theorem join_call_fails {part : Precedence → CompileM Unit} :
    Fails (join part .call) s s' ↔ Fails (call (part .or) s.previous.token) s s' := Iff.rfl

theorem join_binary_fails {part : Precedence → CompileM Unit} {op : BinaryOp} :
    Fails (join part (.binary op)) s s' ↔ Fails (part op.rightPrecedence) s s' := by
  simp only [join, get_bind_fails, bind_unit_fails, emit_bind_fails, pure_fails, and_false,
    exists_false, or_false]

theorem join_and_fails {part : Precedence → CompileM Unit} :
    Fails (join part .and) s s' ↔
      Fails (conjunction (part Precedence.and.next) s.previous.token) s s' := Iff.rfl

theorem join_or_fails {part : Precedence → CompileM Unit} :
    Fails (join part .or) s s' ↔
      Fails (alternative (part Precedence.or.next) s.previous.token) s s' := Iff.rfl

theorem following_nil_fails {part : Precedence → CompileM Unit} {level : Precedence} :
    Fails (following part level ([] : List α)) s s' ↔ False := pure_fails

theorem following_cons_fails {part : Precedence → CompileM Unit} {level : Precedence} {a : α}
    {rounds : List α} (h : Fails (following part level (a :: rounds)) s s') :
    ∃ joint, s.current.kind.joint? = some joint ∧ level ≤ joint.precedence ∧
      (Fails advance s s' ∨ ∃ t, advance s = .ok () t ∧
        (Fails (join part joint) t s' ∨ ∃ t', join part joint t = .ok () t' ∧
          Fails (following part level rounds) t' s')) := by
  simp only [following, currentKind_bind_fails] at h
  split at h
  · rename_i joint hj
    simp only [ite_fails, bind_unit_fails, pure_fails, and_false, or_false] at h
    exact ⟨joint, hj, h.1, h.2⟩
  · exact (pure_fails.mp h).elim

/-! ## Expressions -/

theorem operand_zero_fails {level : Precedence} :
    Fails (operand 0 level) s s' ↔ s' = { s with depth := s.depth + 1 } := by
  simp only [operand, enter, bind_unit_fails, modify_fails, modify_eq_ok, exists_eq_left, false_or,
    get_bind_fails, fail_fails]

theorem operand_succ_fails {levels : Nat} {level : Precedence}
    (h : Fails (operand (levels + 1) level) s s') :
    Fails skipLines { s with depth := s.depth + 1 } s' ∨
      ∃ s₁, skipLines { s with depth := s.depth + 1 } = .ok () s₁ ∧ (Fails advance s₁ s' ∨
        ∃ s₂, advance s₁ = .ok () s₂ ∧ (Fails (leading fun p => operand levels p) s₂ s' ∨
          ∃ s₃, leading (fun p => operand levels p) s₂ = .ok () s₃ ∧
            Fails (following (fun p => operand levels p) level
              (.ok s₃.current :: s₃.unread)) s₃ s')) := by
  simpa only [operand, enter, leave, bind_unit_fails, modify_fails, modify_eq_ok,
    exists_eq_left, false_or, budget_bind_fails, and_false, exists_false, or_false] using h

end LuaExpr.Compiler
