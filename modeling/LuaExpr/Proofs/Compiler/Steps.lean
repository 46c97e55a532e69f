import LuaExpr.Compiler
import Mathlib
/-!
# Steps of the compiler

What it means for each part of the compiler to succeed, as a statement about the states before and
after it. The parts are sequences of steps, so that a success of the whole is a chain of successes
of its steps.

* `bind_eq_ok` and its companions take a sequence of steps apart; all other facts follow from them
  by rewriting.
* Each part of the compiler has one fact here, named after it. The proofs elsewhere cite these and
  unfold nothing.
-/

namespace LuaExpr.Compiler

variable {α β : Type} {s s' : Compiler}

/-! ## Sequences of steps -/

theorem bind_eq_ok {x : CompileM α} {f : α → CompileM β} {b : β} :
    (x >>= f) s = .ok b s' ↔ ∃ a t, x s = .ok a t ∧ f a t = .ok b s' := by
  show EStateM.bind x f s = _ ↔ _
  unfold EStateM.bind
  cases hx : x s with
  | ok a t =>
    constructor
    · intro h
      exact ⟨a, t, rfl, h⟩
    · rintro ⟨a', t', h, hf⟩
      cases h
      exact hf
  | error e t => simp

theorem bind_unit_eq_ok {x : CompileM Unit} {f : Unit → CompileM β} {b : β} :
    (x >>= f) s = .ok b s' ↔ ∃ t, x s = .ok () t ∧ f () t = .ok b s' := by
  rw [bind_eq_ok]
  exact ⟨fun ⟨_, h⟩ => h, fun h => ⟨(), h⟩⟩

theorem pure_eq_ok {a b : α} : (pure a : CompileM α) s = .ok b s' ↔ b = a ∧ s' = s := by
  show EStateM.Result.ok a s = _ ↔ _
  simp [eq_comm]

theorem modify_eq_ok {f : Compiler → Compiler} {u : Unit} :
    (modify f : CompileM Unit) s = .ok u s' ↔ s' = f s := by
  show EStateM.Result.ok () (f s) = _ ↔ _
  simp [eq_comm]

theorem get_bind_eq_ok {f : Compiler → CompileM β} {b : β} :
    ((get : CompileM Compiler) >>= f) s = .ok b s' ↔ f s s = .ok b s' := Iff.rfl

theorem throw_eq_ok {e : SourceError} {b : α} : (throw e : CompileM α) s = .ok b s' ↔ False := by
  show EStateM.Result.error e s = _ ↔ _
  simp

theorem fail_eq_ok {e : ParseError} {b : α} :
    (fail e : CompileM α) s = .ok b s' ↔ False := throw_eq_ok

theorem ite_eq_ok {p : Prop} [Decidable p] {x y : CompileM α} {b : α} :
    (if p then x else y) s = .ok b s' ↔ (p ∧ x s = .ok b s') ∨ (¬ p ∧ y s = .ok b s') := by
  split <;> simp_all

theorem currentKind_bind_eq_ok {f : TokenKind → CompileM β} {b : β} :
    (currentKind >>= f) s = .ok b s' ↔ f s.current.kind s = .ok b s' := Iff.rfl

theorem budget_bind_eq_ok {f : List (Except LexError Lexeme) → CompileM β} {b : β} :
    (budget >>= f) s = .ok b s' ↔ f (.ok s.current :: s.unread) s = .ok b s' := Iff.rfl

/-! ## Reading -/

theorem repeatWhile_nil_eq_ok {holds : TokenKind → Bool} {step : CompileM Unit} {u : Unit} :
    repeatWhile holds step ([] : List α) s = .ok u s' ↔ s' = s := by
  rw [repeatWhile, pure_eq_ok]
  simp

theorem repeatWhile_cons_eq_ok {holds : TokenKind → Bool} {step : CompileM Unit} {a : α}
    {rounds : List α} {u : Unit} :
    repeatWhile holds step (a :: rounds) s = .ok u s' ↔
      (holds s.current.kind = true ∧ ∃ t, step s = .ok () t ∧
        repeatWhile holds step rounds t = .ok () s') ∨
      (holds s.current.kind = false ∧ s' = s) := by
  simp only [repeatWhile, currentKind_bind_eq_ok, ite_eq_ok, bind_unit_eq_ok, pure_eq_ok,
    Bool.not_eq_true, true_and]

theorem advance_eq_ok {u : Unit} :
    advance s = .ok u s' ↔ look { s with previous := s.current } = .ok u s' := by
  simp only [advance, bind_unit_eq_ok, modify_eq_ok, exists_eq_left]

theorem skipLines_eq_ok {u : Unit} :
    skipLines s = .ok u s' ↔
      repeatWhile (· = .line) advance (.ok s.current :: s.unread) s = .ok u s' :=
  budget_bind_eq_ok

theorem consume_eq_ok {symbol : Symbol} {expected : String} {u : Unit} :
    consume symbol expected s = .ok u s' ↔
      s.current.kind = .symbol symbol ∧ advance s = .ok u s' := by
  simp only [consume, get_bind_eq_ok, ite_eq_ok, fail_eq_ok, and_false, or_false]

/-! ## Writing -/

theorem emit_eq_ok {op : Op} {offset i : Nat} :
    emit op offset s = .ok i s' ↔ i = s.chunk.code.size ∧
      s' = { s with chunk := s.chunk.push op offset } := by
  simp only [emit, get_bind_eq_ok, bind_unit_eq_ok, modify_eq_ok, pure_eq_ok, exists_eq_left]

theorem emit_bind_eq_ok {op : Op} {offset : Nat} {f : Nat → CompileM β} {b : β} :
    (emit op offset >>= f) s = .ok b s' ↔
      f s.chunk.code.size { s with chunk := s.chunk.push op offset } = .ok b s' := by
  simp only [bind_eq_ok, emit_eq_ok]
  constructor
  · rintro ⟨_, _, ⟨rfl, rfl⟩, h⟩
    exact h
  · intro h
    exact ⟨_, _, ⟨rfl, rfl⟩, h⟩

theorem land_eq_ok {jump : Nat} {operator : Token} {u : Unit} :
    land jump operator s = .ok u s' ↔ s.chunk.code.size < UInt16.size ∧
      s' = { s with chunk := s.chunk.retarget jump (UInt16.ofNat s.chunk.code.size) } := by
  simp only [land, get_bind_eq_ok, ite_eq_ok, modify_eq_ok, fail_eq_ok, and_false, or_false]

theorem slotOf_eq_ok {token : Token} {v : Value} {slot : UInt8} :
    slotOf token v s = .ok slot s' ↔
      ∃ chunk, s.chunk.slotOf? v = some (slot, chunk) ∧ s' = { s with chunk } := by
  simp only [slotOf, get_bind_eq_ok]
  cases s.chunk.slotOf? v with
  | none => simp [fail_eq_ok]
  | some r =>
    obtain ⟨slot', chunk⟩ := r
    simp only [bind_unit_eq_ok, modify_eq_ok, pure_eq_ok, exists_eq_left, Option.some.injEq,
      Prod.mk.injEq]
    constructor
    · rintro ⟨rfl, rfl⟩
      exact ⟨chunk, ⟨rfl, rfl⟩, rfl⟩
    · rintro ⟨_, ⟨rfl, rfl⟩, rfl⟩
      exact ⟨rfl, rfl⟩

/-! ## Operands -/

theorem group_eq_ok {inner : CompileM Unit} {u : Unit} :
    group inner s = .ok u s' ↔ ∃ t, inner { s with groups := s.groups + 1 } = .ok () t ∧
      t.current.kind = .symbol .rightParen ∧
      advance { t with groups := t.groups - 1 } = .ok () s' := by
  simp only [group, bind_unit_eq_ok, modify_eq_ok, exists_eq_left, consume_eq_ok]

theorem literal_eq_ok {op : Op} {u : Unit} :
    literal op s = .ok u s' ↔ s' = { s with chunk := s.chunk.push op s.previous.start } := by
  simp only [literal, get_bind_eq_ok, emit_bind_eq_ok, pure_eq_ok, true_and]

/-- The instruction of a literal or a name, which refers to the slot of a constant. -/
theorem slotOf_emit_eq_ok {token : Token} {v : Value} {op : UInt8 → Op} {offset : Nat} {u : Unit} :
    (do let slot ← slotOf token v
        let _ ← emit (op slot) offset : CompileM Unit) s = .ok u s' ↔
      ∃ slot chunk, s.chunk.slotOf? v = some (slot, chunk) ∧
        s' = { s with chunk := chunk.push (op slot) offset } := by
  simp only [bind_eq_ok, slotOf_eq_ok, emit_eq_ok, pure_eq_ok, true_and]
  constructor
  · rintro ⟨slot, _, ⟨chunk, hc, rfl⟩, _, _, ⟨-, rfl⟩, rfl⟩
    exact ⟨slot, chunk, hc, rfl⟩
  · rintro ⟨slot, chunk, hc, rfl⟩
    exact ⟨slot, _, ⟨chunk, hc, rfl⟩, _, _, ⟨rfl, rfl⟩, rfl⟩

theorem numberLiteral_eq_ok {u : Unit} :
    numberLiteral s = .ok u s' ↔ ∃ n, Decimal.ofNumeral? s.previous.text = some n ∧
      ∃ slot chunk, s.chunk.slotOf? (.number n) = some (slot, chunk) ∧
        s' = { s with chunk := chunk.push (.constant slot) s.previous.start } := by
  simp only [numberLiteral, get_bind_eq_ok]
  cases Decimal.ofNumeral? s.previous.text with
  | none => simp [fail_eq_ok]
  | some n => simp only [slotOf_emit_eq_ok, Option.some.injEq, exists_eq_left']

theorem stringLiteral_eq_ok {u : Unit} :
    stringLiteral s = .ok u s' ↔
      ∃ text, StringLiteral.decode s.previous.start s.previous.text = .ok text ∧
      ∃ slot chunk, s.chunk.slotOf? (.string text) = some (slot, chunk) ∧
        s' = { s with chunk := chunk.push (.constant slot) s.previous.start } := by
  simp only [stringLiteral, get_bind_eq_ok]
  cases StringLiteral.decode s.previous.start s.previous.text with
  | error e => simp [fail_eq_ok]
  | ok text => simp only [slotOf_emit_eq_ok, Except.ok.injEq, exists_eq_left']

theorem name_eq_ok {u : Unit} :
    name s = .ok u s' ↔ ∃ slot chunk,
      s.chunk.slotOf? (.string (String.ofList s.previous.text)) = some (slot, chunk) ∧
      s' = { s with chunk := chunk.push (.global slot) s.previous.start } := by
  simp only [name, get_bind_eq_ok, slotOf_emit_eq_ok]

/-- An operand is a leaf, an expression in parentheses, or a unary operator with its operand. -/
theorem leading_eq_ok {part : Precedence → CompileM Unit} {u : Unit} :
    leading part s = .ok u s' ↔
      (s.previous.kind = .keyword .nil ∧ literal .nil s = .ok () s') ∨
      (s.previous.kind = .keyword .true ∧ literal .true s = .ok () s') ∨
      (s.previous.kind = .keyword .false ∧ literal .false s = .ok () s') ∨
      (s.previous.kind = .number ∧ numberLiteral s = .ok () s') ∨
      (s.previous.kind = .string ∧ stringLiteral s = .ok () s') ∨
      (s.previous.kind = .name ∧ name s = .ok () s') ∨
      (s.previous.kind = .symbol .leftParen ∧ group (part .or) s = .ok () s') ∨
      ∃ op t, s.previous.kind.unaryOp? = some op ∧ part .unary s = .ok () t ∧
        s' = { t with chunk := t.chunk.push (.unary op) s.previous.start } := by
  simp only [leading, get_bind_eq_ok]
  generalize s.previous.kind = kind
  split
  case h_8 hnil htrue hfalse hnumber hstring hname hparen =>
    rw [imp_false] at hnil htrue hfalse hnumber hstring hname hparen
    cases kind.unaryOp? with
    | none =>
      simp only [hnil, htrue, hfalse, hnumber, hstring, hname, hparen, fail_eq_ok,
        false_and, false_or, reduceCtorEq, exists_false]
    | some op =>
      simp only [hnil, htrue, hfalse, hnumber, hstring, hname, hparen, bind_unit_eq_ok,
        emit_bind_eq_ok, pure_eq_ok, false_and, false_or, true_and, Option.some.injEq,
        exists_eq_left', exists_and_left]
  all_goals simp [TokenKind.unaryOp?]

/-! ## Joints -/

theorem arguments_cons_eq_ok {expression : CompileM Unit} {count n : Nat} {a : α}
    {rounds : List α} :
    arguments expression count (a :: rounds) s = .ok n s' ↔ ∃ t, expression s = .ok () t ∧
      ((t.current.kind = .symbol .comma ∧ ∃ t', advance t = .ok () t' ∧
          arguments expression (count + 1) rounds t' = .ok n s') ∨
        (t.current.kind ≠ .symbol .comma ∧ n = count + 1 ∧ s' = t)) := by
  simp only [arguments, bind_unit_eq_ok, currentKind_bind_eq_ok, ite_eq_ok, pure_eq_ok, ne_eq]

/-- The end of a call, once its arguments have been counted. -/
def callEnd (paren : Token) (count : Nat) : CompileM Unit := do
  modify fun s => { s with groups := s.groups - 1 }
  consume .rightParen "')' after arguments"
  if count < UInt8.size then
    let _ ← emit (.call (UInt8.ofNat count)) paren.start
  else fail (.tooManyArguments paren)

theorem call_eq (expression : CompileM Unit) (paren : Token) : call expression paren = (do
    modify fun s => { s with groups := s.groups + 1 }
    skipLines
    if (← currentKind) = .symbol .rightParen then callEnd paren 0
    else callEnd paren (← arguments expression 0 (← budget))) := rfl

theorem callEnd_eq_ok {paren : Token} {n : Nat} {u : Unit} :
    callEnd paren n s = .ok u s' ↔
      s.current.kind = .symbol .rightParen ∧
        ∃ t, advance { s with groups := s.groups - 1 } = .ok () t ∧
        n < UInt8.size ∧ s' =
          { t with chunk := t.chunk.push (.call (UInt8.ofNat n)) paren.start } := by
  simp only [callEnd, bind_unit_eq_ok, modify_eq_ok, exists_eq_left, consume_eq_ok, ite_eq_ok,
    emit_bind_eq_ok, pure_eq_ok, fail_eq_ok, and_false, or_false, true_and, and_assoc,
    exists_and_left]

theorem call_eq_ok {expression : CompileM Unit} {paren : Token} {u : Unit} :
    call expression paren s = .ok u s' ↔
      ∃ t n t' t'', skipLines { s with groups := s.groups + 1 } = .ok () t ∧
      ((t.current.kind = .symbol .rightParen ∧ n = 0 ∧ t' = t) ∨
        (t.current.kind ≠ .symbol .rightParen ∧
          arguments expression 0 (.ok t.current :: t.unread) t = .ok n t')) ∧
      t'.current.kind = .symbol .rightParen ∧
      advance { t' with groups := t'.groups - 1 } = .ok () t'' ∧
      n < UInt8.size ∧ s' =
        { t'' with chunk := t''.chunk.push (.call (UInt8.ofNat n)) paren.start } := by
  simp only [call_eq, bind_unit_eq_ok, modify_eq_ok, exists_eq_left,
    currentKind_bind_eq_ok, ite_eq_ok, budget_bind_eq_ok]
  constructor
  · rintro ⟨t, ht, (⟨hk, h⟩ | ⟨hk, h⟩)⟩
    · obtain ⟨hk', t'', h⟩ := callEnd_eq_ok.mp h
      exact ⟨t, 0, t, t'', ht, .inl ⟨hk, rfl, rfl⟩, hk', h⟩
    · obtain ⟨n, t', hn, h⟩ := bind_eq_ok.mp h
      obtain ⟨hk', t'', h⟩ := callEnd_eq_ok.mp h
      exact ⟨t, n, t', t'', ht, .inr ⟨hk, hn⟩, hk', h⟩
  · rintro ⟨t, n, t', t'', ht, hn, hk', h⟩
    have hend : callEnd paren n t' = .ok u s' := callEnd_eq_ok.mpr ⟨hk', t'', h⟩
    refine ⟨t, ht, hn.imp (fun hn => ⟨hn.1, ?_⟩) (fun hn =>
      ⟨hn.1, bind_eq_ok.mpr ⟨n, t', hn.2, hend⟩⟩)⟩
    rwa [hn.2.1, hn.2.2] at hend

/-- The chunk with the code between the operands of a conjunction; the jump over the right operand
has no target. -/
def conjunctionOpened (c : Chunk) (offset : Nat) : Chunk :=
  ((c.push .dup offset).push (.jumpIfFalse unlanded) offset).push .pop offset

@[simp] theorem size_conjunctionOpened (c : Chunk) (offset : Nat) :
    (conjunctionOpened c offset).code.size = c.code.size + 3 := by
  simp [conjunctionOpened, Chunk.push]

theorem conjunction_eq_ok {right : CompileM Unit} {operator : Token} {u : Unit} :
    conjunction right operator s = .ok u s' ↔ ∃ t,
      right { s with chunk := conjunctionOpened s.chunk operator.start } = .ok () t ∧
      land (s.chunk.code.size + 1) operator t = .ok () s' := by
  simp only [conjunction, emit_bind_eq_ok, bind_unit_eq_ok, conjunctionOpened, Chunk.push,
    Array.size_push]

/-- The chunk with the code between the operands of an alternative; the jump to the right operand
has its target. -/
def alternativeOpened (c : Chunk) (offset : Nat) : Chunk :=
  let jumps :=
    ((c.push .dup offset).push (.jumpIfFalse unlanded) offset).push (.jump unlanded) offset
  (jumps.retarget (c.code.size + 1) (UInt16.ofNat jumps.code.size)).push .pop offset

@[simp] theorem size_alternativeOpened (c : Chunk) (offset : Nat) :
    (alternativeOpened c offset).code.size = c.code.size + 4 := by
  simp [alternativeOpened, Chunk.push, Chunk.retarget]

theorem alternative_eq_ok {right : CompileM Unit} {operator : Token} {u : Unit} :
    alternative right operator s = .ok u s' ↔ s.chunk.code.size + 3 < UInt16.size ∧ ∃ t,
      right { s with chunk := alternativeOpened s.chunk operator.start } = .ok () t ∧
      land (s.chunk.code.size + 2) operator t = .ok () s' := by
  simp only [alternative, emit_bind_eq_ok, bind_unit_eq_ok, land_eq_ok,
    alternativeOpened, Chunk.push, Array.size_push, and_assoc, exists_and_left, exists_eq_left]

theorem join_call_eq_ok {part : Precedence → CompileM Unit} {u : Unit} :
    join part .call s = .ok u s' ↔ call (part .or) s.previous.token s = .ok u s' := Iff.rfl

theorem join_binary_eq_ok {part : Precedence → CompileM Unit} {op : BinaryOp} {u : Unit} :
    join part (.binary op) s = .ok u s' ↔ ∃ t, part op.rightPrecedence s = .ok () t ∧
      s' = { t with chunk := t.chunk.push (.binary op) s.previous.start } := by
  simp only [join, get_bind_eq_ok, bind_unit_eq_ok, emit_bind_eq_ok, pure_eq_ok, true_and,
    Lexeme.token]

theorem join_and_eq_ok {part : Precedence → CompileM Unit} {u : Unit} :
    join part .and s = .ok u s' ↔ conjunction (part Precedence.and.next) s.previous.token s =
      .ok u s' := Iff.rfl

theorem join_or_eq_ok {part : Precedence → CompileM Unit} {u : Unit} :
    join part .or s = .ok u s' ↔ alternative (part Precedence.or.next) s.previous.token s =
      .ok u s' := Iff.rfl

theorem following_nil_eq_ok {part : Precedence → CompileM Unit} {level : Precedence} {u : Unit} :
    following part level ([] : List α) s = .ok u s' ↔ s' = s := by
  rw [following, pure_eq_ok]
  simp

theorem following_cons_eq_ok {part : Precedence → CompileM Unit} {level : Precedence} {a : α}
    {rounds : List α} {u : Unit} :
    following part level (a :: rounds) s = .ok u s' ↔
      (∃ joint t t', s.current.kind.joint? = some joint ∧ level ≤ joint.precedence ∧
        advance s = .ok () t ∧
        join part joint t = .ok () t' ∧ following part level rounds t' = .ok () s') ∨
      ((∀ joint, s.current.kind.joint? = some joint → ¬ level ≤ joint.precedence) ∧ s' = s) := by
  simp only [following, currentKind_bind_eq_ok]
  cases s.current.kind.joint? with
  | none => simp [pure_eq_ok]
  | some joint =>
    simp only [ite_eq_ok, bind_unit_eq_ok, pure_eq_ok, true_and, Option.some.injEq]
    constructor
    · rintro (⟨hl, t, ht, t', ht', h⟩ | ⟨hl, rfl⟩)
      · exact .inl ⟨joint, t, t', rfl, hl, ht, ht', h⟩
      · exact .inr ⟨fun j hj => hj ▸ hl, rfl⟩
    · rintro (⟨j, t, t', rfl, hl, ht, ht', h⟩ | ⟨hl, rfl⟩)
      · exact .inl ⟨hl, t, ht, t', ht', h⟩
      · exact .inr ⟨hl joint rfl, rfl⟩

/-! ## Expressions and programs -/

theorem operand_zero_eq_ok {level : Precedence} {u : Unit} :
    operand 0 level s = .ok u s' ↔ False := by
  simp only [operand, bind_unit_eq_ok, get_bind_eq_ok, fail_eq_ok, and_false, exists_false]

theorem operand_succ_eq_ok {levels : Nat} {level : Precedence} {u : Unit} :
    operand (levels + 1) level s = .ok u s' ↔ ∃ s₁ s₂ s₃ s₄,
      skipLines { s with depth := s.depth + 1 } = .ok () s₁ ∧ advance s₁ = .ok () s₂ ∧
      leading (fun p => operand levels p) s₂ = .ok () s₃ ∧
      following (fun p => operand levels p) level (.ok s₃.current :: s₃.unread) s₃ = .ok () s₄ ∧
      s' = { s₄ with depth := s₄.depth - 1 } := by
  simp only [operand, enter, leave, bind_unit_eq_ok, modify_eq_ok, budget_bind_eq_ok,
    exists_eq_left, exists_and_left]

theorem expression_eq_ok {u : Unit} :
    expression s = .ok u s' ↔ operand (maxDepth - s.depth) .or s = .ok u s' := Iff.rfl

theorem expressions_nil_eq_ok {first : Bool} {u : Unit} :
    expressions first ([] : List α) s = .ok u s' ↔ s' = s := by
  rw [expressions, pure_eq_ok]
  simp

/-- One expression of a program, and what comes after it. -/
def expressionThen (rest : CompileM Unit) : CompileM Unit := do
  expression
  let kind ← currentKind
  if isSeparator kind || kind = .eof then rest
  else fail (.unexpectedToken "end of expression" (← get).current.token)

theorem expressions_cons (first : Bool) (a : α) (rounds : List α) :
    expressions first (a :: rounds) = (do
    repeatWhile isSeparator advance (← budget)
    if (← currentKind) ≠ .eof then
      if first then expressionThen (expressions false rounds)
      else
        let _ ← emit .pop (← get).current.start
        expressionThen (expressions false rounds)) := by
  cases first <;> rfl

theorem expressions_cons_eq_ok {first : Bool} {a : α} {rounds : List α} {u : Unit} :
    expressions first (a :: rounds) s = .ok u s' ↔ ∃ t,
      repeatWhile isSeparator advance (.ok s.current :: s.unread) s = .ok () t ∧
      ((t.current.kind = .eof ∧ s' = t) ∨ (t.current.kind ≠ .eof ∧ ∃ t',
        expression { t with
          chunk := if first then t.chunk else t.chunk.push .pop t.current.start } = .ok () t' ∧
        (isSeparator t'.current.kind = true ∨ t'.current.kind = .eof) ∧
        expressions false rounds t' = .ok () s')) := by
  cases first
  all_goals
    simp only [expressions, budget_bind_eq_ok, bind_unit_eq_ok, currentKind_bind_eq_ok,
      ite_eq_ok, pure_eq_ok, true_and, ne_eq, get_bind_eq_ok, fail_eq_ok, Bool.not_false,
      Bool.not_true, or_false, Bool.false_eq_true, and_false, Decidable.not_not, Bool.or_eq_true,
      decide_eq_true_eq, if_true, if_false, emit_bind_eq_ok]
    exact exists_congr fun t => and_congr_right fun _ => or_comm

theorem program_eq_ok {u : Unit} :
    program s = .ok u s' ↔ ∃ t, advance s = .ok () t ∧
      expressions true (.ok t.current :: t.unread) t = .ok u s' := by
  simp only [program, bind_unit_eq_ok, budget_bind_eq_ok]

end LuaExpr.Compiler
