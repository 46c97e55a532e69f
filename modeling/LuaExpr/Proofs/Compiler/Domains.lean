import LuaExpr.Proofs.Compiler.Checked
import LuaExpr.Proofs.Compiler.Intact
import LuaExpr.Proofs.Compiler.Lasting
import LuaExpr.Proofs.Compiler.Sessions
import LuaExpr.Proofs.Lexeme.Places
/-!
# No operation is misused

The checked compiler never stops with a misuse: it does what the compiler does, step by step, also
in the states that failing calls leave.

* `Compiler.InSource`: all that has not been used is of the source, or the end that the compiler
  begins with.
* `Compiler.Agrees`: a checked part does what the part does, which is shown along their steps.
* `Compiler.agrees_operand`: operands agree; `Compiler.checked_ne_misuse`: so do the calls of any
  session.
-/

namespace LuaExpr

variable {α β : Type} {source : String} {s s' t : Compiler}

/-! ## Rules -/

namespace ParseRule

/-- The rules at the front of an operand are those of literals, names, parentheses and unary
operators. -/
theorem front?_eq (kind : TokenKind) : (of kind).front? = match kind with
    | .keyword .nil | .keyword .true | .keyword .false => some .literal
    | .number => some .number
    | .string => some .string
    | .name => some .name
    | .symbol .leftParen => some .group
    | kind => kind.unaryOp?.map fun _ => .unary := by
  cases kind with
  | symbol s => cases s <;> rfl
  | keyword k => cases k <;> rfl
  | _ => rfl

/-- The rules after an operand are those of the joints. -/
theorem joint?_eq (kind : TokenKind) : (of kind).joint? = kind.joint?.map Joint.rule := by
  cases kind with
  | symbol s => cases s <;> rfl
  | keyword k => cases k <;> rfl
  | _ => rfl

theorem precedence_eq (kind : TokenKind) : (of kind).precedence = kind.precedence := by
  cases kind with
  | symbol s => cases s <;> rfl
  | keyword k => cases k <;> rfl
  | _ => rfl

/-- A token that binds at least as tightly as an alternative has a rule after an operand. -/
theorem joint?_isSome {kind : TokenKind} (h : .or ≤ (of kind).precedence) :
    (of kind).joint?.isSome = true := by
  rw [precedence_eq, TokenKind.precedence] at h
  rw [joint?_eq]
  cases hj : kind.joint? with
  | some j => rfl
  | none =>
    rw [hj] at h
    exact absurd h (by decide)

/-- A binary operator has an instruction, and its right operand the level that the table gives. -/
theorem binaryOp?_of_joint? {kind : TokenKind} {op : BinaryOp}
    (h : kind.joint? = some (.binary op)) :
    kind.binaryOp? = some op ∧
      (if kind.groupsRight then (of kind).precedence else (of kind).precedence.next) =
        op.rightPrecedence := by
  cases kind with
  | symbol s => cases s <;> cases h <;> exact ⟨rfl, rfl⟩
  | keyword k => cases k <;> cases h
  | _ => cases h

end ParseRule

namespace Compiler

/-! ## Agreement -/

/-- A checked part does what the part does, so that no misuse stops it. -/
def Agrees (y : CheckedM α) (x : CompileM α) (s : Compiler) : Prop := y s = Checked.total x s

section Steps

variable {x : CompileM α} {y : CheckedM α} {f : α → CompileM β} {g : α → CheckedM β}

theorem agrees_total (x : CompileM α) : Agrees (Checked.total x) x s := rfl

theorem agrees_pure (a : α) : Agrees (pure a) (pure a) s := rfl

theorem agrees_modify (update : Compiler → Compiler) :
    Agrees (modify update) (modify update) s := rfl

theorem agrees_bind (h : Agrees y x s) (hf : ∀ a t, x s = .ok a t → Agrees (g a) (f a) t) :
    Agrees (y >>= g) (x >>= f) s := by
  have h : y s = EStateM.adaptExcept Stop.fault x s := h
  show EStateM.bind y g s = EStateM.adaptExcept Stop.fault (EStateM.bind x f) s
  unfold EStateM.adaptExcept at h ⊢
  unfold EStateM.bind
  cases hx : x s with
  | ok a t =>
    rw [hx] at h
    rw [h]
    exact hf a t hx
  | error e t =>
    rw [hx] at h
    rw [h]

theorem agrees_total_bind (hf : ∀ a t, x s = .ok a t → Agrees (g a) (f a) t) :
    Agrees (Checked.total x >>= g) (x >>= f) s := agrees_bind (agrees_total x) hf

theorem agrees_get_bind {f : Compiler → CompileM β} {g : Compiler → CheckedM β}
    (h : Agrees (g s) (f s) s) :
    Agrees (get >>= g) (get >>= f) s := h

/-- A checked part may know what the part still has to look up. -/
theorem agrees_get_bind_right {f : Compiler → CompileM β} {y : CheckedM β} (h : Agrees y (f s) s) :
    Agrees y (get >>= f) s := h

theorem agrees_get_bind_left {g : Compiler → CheckedM β} {x : CompileM β} (h : Agrees (g s) x s) :
    Agrees (get >>= g) x s := h

theorem agrees_modify_bind {f : Unit → CompileM β} {g : Unit → CheckedM β}
    {update : Compiler → Compiler} (h : Agrees (g ()) (f ()) (update s)) :
    Agrees (modify update >>= g) (modify update >>= f) s := h

theorem agrees_currentKind_bind {f : TokenKind → CompileM β} {g : TokenKind → CheckedM β}
    (h : Agrees (g s.current.kind) (f s.current.kind) s) :
    Agrees (Checked.total currentKind >>= g) (currentKind >>= f) s := h

theorem agrees_budget_bind {f : List (Except LexError Lexeme) → CompileM β}
    {g : List (Except LexError Lexeme) → CheckedM β}
    (h : Agrees (g (.ok s.current :: s.unread)) (f (.ok s.current :: s.unread)) s) :
    Agrees (Checked.total budget >>= g) (budget >>= f) s := h

theorem agrees_emit_bind {op : Op} {offset : Nat} {f : Nat → CompileM β} {g : Nat → CheckedM β}
    (h : Agrees (g s.chunk.code.size) (f s.chunk.code.size)
      { s with chunk := s.chunk.push op offset }) :
    Agrees (Checked.total (emit op offset) >>= g) (emit op offset >>= f) s := h

theorem agrees_demand_bind {γ : Type} {m : Misuse} {o : Option γ} {c : γ} {g : γ → CheckedM β}
    {x : CompileM β} (ho : o = some c) (h : Agrees (g c) x s) :
    Agrees (Checked.demand m o >>= g) x s := by
  rw [ho]
  exact h

theorem agrees_ite {p : Prop} [Decidable p] {x' : CompileM α} {y' : CheckedM α}
    (h : p → Agrees y x s) (h' : ¬ p → Agrees y' x' s) :
    Agrees (if p then y else y') (if p then x else x') s := by
  by_cases hp : p
  · rw [if_pos hp, if_pos hp]
    exact h hp
  · rw [if_neg hp, if_neg hp]
    exact h' hp

/-- A parenthesis is closed that has been opened. -/
theorem agrees_closeGroup_bind {f : Unit → CompileM β} {g : Unit → CheckedM β} (hg : 0 < s.groups)
    (h : Agrees (g ()) (f ()) { s with groups := s.groups - 1 }) :
    Agrees (Checked.closeGroup >>= g)
      (modify (fun s => { s with groups := s.groups - 1 }) >>= f) s := by
  refine agrees_bind ?_ fun _ t ht => modify_eq_ok.mp ht ▸ h
  show (if 0 < s.groups then (modify fun s => { s with groups := s.groups - 1 } : CheckedM Unit)
    else throw (.misuse .groups)) s = _
  rw [if_pos hg]
  rfl

/-- An expression is ended that has been begun. -/
theorem agrees_leave (hd : 0 < s.depth) : Agrees Checked.leave leave s := by
  show (if 0 < s.depth then (modify fun s => { s with depth := s.depth - 1 } : CheckedM Unit)
    else throw (.misuse .depth)) s = _
  rw [if_pos hd]
  rfl

/-- A jump is turned. -/
theorem agrees_land {jump : Nat} {operator : Token} (h : s.chunk.isJumpAt jump = true) :
    Agrees (Checked.land jump operator) (land jump operator) s := by
  refine agrees_get_bind (agrees_ite (fun _ => ?_) fun _ => agrees_total _)
  exact agrees_demand_bind (by rw [Chunk.retarget?, if_pos h]) (agrees_modify _)

end Steps

end Compiler

/-! ## Slices -/

/-- Digits, with at most one point before, among or after them. -/
def HasNumeralForm (text : List Char) : Prop :=
  ∃ whole fraction : List Char, (∀ c ∈ whole ++ fraction, c.isDigit = true) ∧
    ((text = whole ∧ whole ≠ []) ∨ (text = whole ++ '.' :: fraction ∧ (whole ≠ [] ∨ fraction ≠ [])))

theorem HasNumeralForm.isSome_ofNumeral? {text : List Char} (h : HasNumeralForm text) :
    (Decimal.ofNumeral? text).isSome = true := by
  obtain ⟨whole, fraction, hdigits, ⟨rfl, hne⟩ | ⟨rfl, hne⟩⟩ := h
  · exact Option.isSome_of_eq_some (Decimal.ofNumeral?_digits
      (fun c hc => hdigits c (List.mem_append_left _ hc)) hne)
  · exact Option.isSome_of_eq_some (Decimal.ofNumeral?_point (fun c hc =>
      hdigits c (List.mem_append_left _ hc))
      (fun c hc => hdigits c (List.mem_append_right _ hc)) hne)

theorem IsLexeme.hasNumeralForm {text : List Char} (h : IsLexeme .number text) :
    HasNumeralForm text := by
  cases h with
  | whole hne hw => exact ⟨text, [], by simpa using hw, .inl ⟨rfl, hne⟩⟩
  | @point whole fraction hne hw hf =>
    exact ⟨whole, fraction, fun c hc => (List.mem_append.mp hc).elim (hw c) (hf c),
      .inr ⟨rfl, .inl hne⟩⟩
  | @fraction fraction hne hf => exact ⟨[], fraction, by simpa using hf, .inr ⟨rfl, .inr hne⟩⟩

/-- All that is taken from the source for a lexeme is a slice of it: the text, and the body of a
string literal. A body has no backslash at its end that begins an escape, and a number has the form
of a numeral. -/
structure Lexeme.IsSliced (source : String) (l : Lexeme) : Prop where
  text : Text.slice? source.toList l.token.start l.token.length = some l.text
  body : l.kind = .string → Compiler.Checked.bodyOf? l.text = some (StringLiteral.body l.text)
  pieces : l.kind = .string →
    Compiler.Checked.piecesOf? (StringLiteral.body l.text) =
      some (Piece.ofBody (StringLiteral.body l.text))
  numeral : l.kind = .number → HasNumeralForm l.text

theorem Lexer.Yields.isSliced {l : Lexeme} (h : Yields source (.ok l)) : l.IsSliced source := by
  have hlexeme : ∀ {kind : TokenKind}, l.kind = kind → kind ≠ .eof → IsLexeme kind l.text := by
    rintro kind rfl hk
    exact h.isLexeme hk
  refine ⟨h.standsAt.slice?, fun hk => ?_, fun hk => ?_,
    fun hk => (hlexeme hk (by decide)).hasNumeralForm⟩
  · obtain ⟨hlength, hbody⟩ := StringLiteral.slice?_body (hlexeme hk (by decide))
    rw [Compiler.Checked.bodyOf?, if_pos hlength, hbody]
  · rw [Compiler.Checked.piecesOf?,
      if_neg (StringLiteral.escape_nil_notMem (hlexeme hk (by decide)))]

namespace Compiler

/-! ## Leaves -/

/-- The lexeme or fault is of the source, or the end that the compiler begins with. -/
def Held (source : String) (o : Except LexError Lexeme) : Prop :=
  Lexer.Yields source o ∨ o = .ok (.eof 0)

/-- All that the compiler has not used is of the source, or the end that it begins with. -/
abbrev InSource (source : String) (s : Compiler) : Prop := Among (Held source) s

theorem Held.yields {l : Lexeme} (h : Held source (.ok l)) (hk : l.kind ≠ .eof) :
    Lexer.Yields source (.ok l) := by
  refine h.resolve_right fun heq => hk ?_
  rw [Except.ok.inj heq]
  rfl

section Leaves

variable (hy : Lexer.Yields source (.ok s.previous))
include hy

theorem agrees_number (hk : s.previous.kind = .number) :
    Agrees (Checked.number source s.previous.token) numberLiteral s := by
  obtain ⟨n, hn⟩ := Option.isSome_iff_exists.mp (hy.isSliced.numeral hk).isSome_ofNumeral?
  refine agrees_get_bind_right (agrees_demand_bind hy.isSliced.text (agrees_demand_bind hn ?_))
  dsimp only
  rw [hn]
  exact agrees_total_bind fun _ _ _ => agrees_emit_bind (agrees_pure _)

theorem agrees_string (hk : s.previous.kind = .string) :
    Agrees (Checked.string source s.previous.token) stringLiteral s := by
  refine agrees_get_bind_right (agrees_demand_bind hy.isSliced.text
    (agrees_demand_bind (hy.isSliced.body hk)
    (agrees_demand_bind (hy.isSliced.pieces hk) ?_)))
  dsimp only [Lexeme.token, StringLiteral.decode]
  cases Piece.decodeAll (s.previous.start + 1)
    (Piece.ofBody (StringLiteral.body s.previous.text)) with
  | ok text => exact agrees_total_bind fun _ _ _ => agrees_emit_bind (agrees_pure _)
  | error e => exact agrees_total _

theorem agrees_name : Agrees (Checked.name source s.previous.token) name s :=
  agrees_get_bind_right (agrees_demand_bind hy.isSliced.text
    (agrees_total_bind fun _ _ _ => agrees_emit_bind (agrees_pure _)))

end Leaves

theorem agrees_literal {op : Op} (h : s.previous.kind.literalOp? = some op) :
    Agrees (Checked.literal s.previous.token) (literal op) s :=
  agrees_get_bind_right (agrees_demand_bind h (agrees_emit_bind (agrees_pure _)))

/-! ## Operands -/

/-- Operands that are compiled in a source agree, if their joints bind at least as tightly as an
alternative. -/
def AgreesOperands (source : String) (levels : Nat) : Prop :=
  ∀ {p : Precedence} {s : Compiler}, .or ≤ p → InSource source s →
    Agrees (Checked.operand source levels p) (operand levels p) s

variable {levels : Nat} {p : Precedence}

theorem previous_of_advance (h : advance s = .ok () t) : t.previous = s.current := by
  obtain ⟨-, -, ⟨-, rfl⟩ | ⟨l, rest, -, -, rfl⟩⟩ := look_go_eq_ok (advance_eq_ok.mp h)
  all_goals rfl

theorem agrees_leading_of_rule {part : Precedence → CheckedM Unit} {x : CompileM Unit}
    (rule : FrontRule) (hrule : (ParseRule.of s.previous.kind).front? = some rule)
    (h : Agrees (Checked.front source part s.previous.token rule) x s) :
    Agrees (Checked.leading source part) x s := by
  refine agrees_get_bind_left ?_
  dsimp only [Lexeme.token]
  rw [hrule]
  exact h

theorem agrees_leading_of_none {part : Precedence → CheckedM Unit}
    (hrule : (ParseRule.of s.previous.kind).front? = none) :
    Agrees (Checked.leading source part) (fail (.expectedOperand s.previous.token)) s := by
  refine agrees_get_bind_left ?_
  dsimp only [Lexeme.token]
  rw [hrule]
  exact agrees_total _

theorem agrees_callEnd {paren : Token} {count : Nat} (hg : 0 < s.groups) :
    Agrees (Checked.callEnd paren count) (callEnd paren count) s :=
  agrees_closeGroup_bind hg (agrees_total_bind fun _ _ _ =>
    agrees_ite (fun _ => agrees_emit_bind (agrees_pure _)) fun _ => agrees_total _)

theorem or_le_rightPrecedence (op : BinaryOp) : .or ≤ op.rightPrecedence := by
  cases op <;> decide

section Parts

variable (ha : AgreesOperands source levels)
include ha

theorem agrees_group (h : InSource source s) :
    Agrees (Checked.group (Checked.operand source levels .or)) (group (operand levels .or)) s := by
  refine agrees_modify_bind (agrees_bind (ha (by decide) (h.of_eq rfl rfl rfl)) fun _ t ht => ?_)
  have hgroups : t.groups = s.groups + 1 := (intact_operand levels ht).groups
  exact agrees_closeGroup_bind (by omega) (agrees_total _)

theorem agrees_unary {op : UnaryOp} (hop : s.previous.kind.unaryOp? = some op)
    (h : InSource source s) :
    Agrees (Checked.unary (Checked.operand source levels .unary) s.previous.token)
      (do operand levels .unary
          let _ ← emit (.unary op) s.previous.start) s :=
  agrees_bind (ha (by decide) h) fun _ _ _ =>
    agrees_demand_bind hop (agrees_emit_bind (agrees_pure _))

/-- The operand that the previous lexeme begins, or the fault that it begins none. -/
theorem agrees_leading (hheld : Held source (.ok s.previous)) (h : InSource source s) :
    Agrees (Checked.leading source fun p => Checked.operand source levels p)
      (leading fun p => operand levels p) s := by
  have hyields : ∀ {kind : TokenKind}, s.previous.kind = kind → kind ≠ .eof →
      Lexer.Yields source (.ok s.previous) := by
    rintro kind rfl hk
    exact hheld.yields hk
  refine agrees_get_bind_right ?_
  dsimp only
  split
  case h_1 hk | h_2 hk | h_3 hk =>
    exact agrees_leading_of_rule .literal (by rw [hk]; rfl) (agrees_literal (by rw [hk]; rfl))
  case h_4 hk =>
    exact agrees_leading_of_rule .number (by rw [hk]; rfl)
      (agrees_number (hyields hk (by decide)) hk)
  case h_5 hk =>
    exact agrees_leading_of_rule .string (by rw [hk]; rfl)
      (agrees_string (hyields hk (by decide)) hk)
  case h_6 hk =>
    exact agrees_leading_of_rule .name (by rw [hk]; rfl) (agrees_name (hyields hk (by decide)))
  case h_7 hk => exact agrees_leading_of_rule .group (by rw [hk]; rfl) (agrees_group ha h)
  case h_8 hnil htrue hfalse hnumber hstring hname hparen =>
    have hrule := ParseRule.front?_eq s.previous.kind
    cases hop : s.previous.kind.unaryOp? with
    | some op =>
      have hk := TokenKind.eq_of_unaryOp?_eq_some hop
      exact agrees_leading_of_rule .unary (by rw [hk]; cases op <;> rfl) (agrees_unary ha hop h)
    | none =>
      refine agrees_leading_of_none (hrule.trans ?_)
      split
      case h_8 => rw [hop]; rfl
      all_goals contradiction

/-! ## Joints -/

theorem agrees_arguments {count : Nat} {rounds : List α} (h : InSource source s) :
    Agrees (Checked.arguments (Checked.operand source levels .or) count rounds)
      (arguments (operand levels .or) count rounds) s := by
  induction rounds generalizing s count with
  | nil => exact agrees_pure _
  | cons a rounds ih =>
    refine agrees_bind (ha (by decide) h) fun _ t ht => ?_
    have ht := (steady_among.operand levels .or).of_ok h ht
    refine agrees_currentKind_bind (agrees_ite (fun _ => ?_) fun _ => agrees_pure _)
    exact agrees_total_bind fun _ t' ht' => ih (steady_among.advance.of_ok ht ht')

theorem agrees_call {paren : Token} (h : InSource source s) :
    Agrees (Checked.call (Checked.operand source levels .or) paren)
      (call (operand levels .or) paren) s := by
  have h : InSource source { s with groups := s.groups + 1 } := h.of_eq rfl rfl rfl
  rw [call_eq]
  refine agrees_modify_bind (agrees_total_bind fun _ t ht => ?_)
  have hin : InSource source t := steady_among.skipLines.of_ok h ht
  have hgroups : t.groups = s.groups + 1 := (intact_skipLines ht).groups
  refine agrees_currentKind_bind (agrees_ite (fun _ => agrees_callEnd (by omega)) fun _ => ?_)
  refine agrees_budget_bind (agrees_bind (agrees_arguments ha hin) fun n t' hn => agrees_callEnd ?_)
  have hcounted := (intact_arguments (intact_operand levels) hn).groups
  omega

theorem agrees_conjunction {operator : Token} (hp : .or ≤ p) (h : InSource source s) :
    Agrees (Checked.conjunction (Checked.operand source levels p) operator)
      (conjunction (operand levels p) operator)
      s := by
  refine agrees_emit_bind (agrees_emit_bind (agrees_emit_bind ?_))
  refine agrees_bind (ha hp (h.of_eq rfl rfl rfl)) fun _ t ht => agrees_land ?_
  exact (intact_operand levels ht).jumps _
    (Chunk.isJumpAt_push _ _ (Chunk.isJumpAt_push_size _ _ rfl))

theorem agrees_alternative {operator : Token} (hp : .or ≤ p) (h : InSource source s) :
    Agrees (Checked.alternative (Checked.operand source levels p) operator)
      (alternative (operand levels p) operator)
      s := by
  refine agrees_emit_bind (agrees_emit_bind (agrees_emit_bind ?_))
  refine agrees_bind (agrees_land (Chunk.isJumpAt_push _ _ (Chunk.isJumpAt_push_size _ _ rfl)))
    fun _ t ht => ?_
  obtain ⟨-, rfl⟩ := land_eq_ok.mp ht
  refine agrees_emit_bind (agrees_bind (ha hp (h.of_eq rfl rfl rfl)) fun _ t' ht' => agrees_land ?_)
  refine (intact_operand levels ht').jumps _ (Chunk.isJumpAt_push _ _ ?_)
  exact (Chunk.isJumpAt_retarget _ _).trans (Chunk.isJumpAt_push_size _ _ rfl)

theorem agrees_join {j : Joint} (hj : s.previous.kind.joint? = some j) (h : InSource source s) :
    Agrees (Checked.join (fun p => Checked.operand source levels p) s.previous.token j.rule)
      (join (fun p => operand levels p) j) s := by
  refine agrees_get_bind_right ?_
  cases j with
  | call => exact agrees_call ha h
  | and => exact agrees_conjunction ha (by decide) h
  | or => exact agrees_alternative ha (by decide) h
  | binary op =>
    obtain ⟨hop, hlevel⟩ := ParseRule.binaryOp?_of_joint? hj
    show Agrees (Checked.operand source levels _ >>= _) _ s
    rw [show (if s.previous.token.kind.groupsRight then
      (ParseRule.of s.previous.token.kind).precedence
      else (ParseRule.of s.previous.token.kind).precedence.next) = op.rightPrecedence from hlevel]
    refine agrees_bind (ha (or_le_rightPrecedence op) h) fun _ _ _ => ?_
    exact agrees_demand_bind hop (agrees_emit_bind (agrees_pure _))

/-- The joints after an operand. Each token that binds tightly enough has a rule. -/
theorem agrees_following {rounds : List α} (hp : .or ≤ p) (h : InSource source s) :
    Agrees (Checked.following (fun p => Checked.operand source levels p) p rounds)
      (following (fun p => operand levels p) p rounds) s := by
  induction rounds generalizing s with
  | nil => exact agrees_pure _
  | cons a rounds ih =>
    refine agrees_currentKind_bind ?_
    dsimp only
    rw [ParseRule.precedence_eq, TokenKind.precedence]
    cases hj : s.current.kind.joint? with
    | none =>
      have hnone : ¬ p ≤ .none := fun hle => absurd (Nat.le_trans hp hle) (by decide)
      dsimp only
      rw [if_neg hnone]
      exact agrees_pure _
    | some j =>
      refine agrees_ite (fun _ => ?_) fun _ => agrees_pure _
      refine agrees_total_bind fun _ t ht => ?_
      have hprevious : t.previous.kind.joint? = some j := by rw [previous_of_advance ht, hj]
      have hrule : (ParseRule.of t.previous.kind).joint? = some j.rule := by
        rw [ParseRule.joint?_eq, hprevious]; rfl
      have hin := steady_among.advance.of_ok h ht
      refine agrees_get_bind_left (agrees_demand_bind hrule
        (agrees_bind (agrees_join ha hprevious hin) ?_))
      exact fun _ t' ht' => ih ((steady_among.join (steady_among.operand levels) j).of_ok hin ht')

end Parts

/-! ## Expressions and programs -/

/-- **Operands**, by induction on the number of operands that may still be opened. -/
theorem agrees_operand (levels : Nat) : AgreesOperands source levels := by
  induction levels with
  | zero => exact fun _ _ => agrees_modify_bind (agrees_get_bind (agrees_total _))
  | succ levels ih =>
    intro p s hp h
    have h : InSource source { s with depth := s.depth + 1 } := h.of_eq rfl rfl rfl
    refine agrees_modify_bind (agrees_total_bind fun _ s₁ h₁ => agrees_total_bind fun _ s₂ h₂ => ?_)
    have hin₁ : InSource source s₁ := steady_among.skipLines.of_ok h h₁
    have hin₂ : InSource source s₂ := steady_among.advance.of_ok hin₁ h₂
    have hheld : Held source (.ok s₂.previous) := by
      rw [previous_of_advance h₂]
      exact hin₁.current
    refine agrees_bind (agrees_leading ih hheld hin₂) fun _ s₃ h₃ => ?_
    have hin₃ : InSource source s₃ :=
      (steady_among.leading (steady_among.operand levels)).of_ok hin₂ h₃
    refine agrees_budget_bind (agrees_bind (agrees_following ih hp hin₃) fun _ s₄ h₄ =>
      agrees_leave ?_)
    have hdepth : s₄.depth = s.depth + 1 :=
      (intact_inside (intact_operand levels) h₁ h₂ h₃ h₄).depth
    omega

theorem agrees_expression (h : InSource source s) :
    Agrees (Checked.expression source) expression s :=
  agrees_get_bind (agrees_operand _ (by decide) h)

theorem agrees_expressionThen {y : CheckedM Unit} {x : CompileM Unit} (h : InSource source s)
    (hrest : ∀ t, InSource source t → Agrees y x t) :
    Agrees (Checked.expressionThen source y) (expressionThen x) s := by
  refine agrees_bind (agrees_expression h) fun _ t ht =>
    agrees_currentKind_bind (agrees_ite (fun _ => ?_) fun _ => ?_)
  · exact hrest t (steady_among.expression.of_ok h ht)
  · exact agrees_get_bind (agrees_total _)

theorem agrees_expressions {first : Bool} {rounds : List α} (h : InSource source s) :
    Agrees (Checked.expressions source first rounds) (expressions first rounds) s := by
  induction rounds generalizing s first with
  | nil => exact agrees_pure _
  | cons a rounds ih =>
    rw [expressions_cons]
    refine agrees_budget_bind (agrees_total_bind fun _ t ht => ?_)
    have hin : InSource source t := (preserves_repeatWhile steady_among.advance _).of_ok h ht
    refine agrees_currentKind_bind (agrees_ite (fun _ => agrees_ite (fun _ => ?_) fun _ => ?_)
      fun _ => agrees_pure _)
    · exact agrees_expressionThen hin fun _ => ih
    · exact agrees_get_bind
        (agrees_emit_bind (agrees_expressionThen (hin.of_eq rfl rfl rfl) fun _ => ih))

theorem agrees_program (h : InSource source s) : Agrees (Checked.program source) program s :=
  agrees_total_bind fun _ _ ht =>
    agrees_budget_bind (agrees_expressions (steady_among.advance.of_ok h ht))

/-! ## Sessions -/

theorem inSource_ofSource (source : String) : InSource source (ofSource source) :=
  ⟨fun _ ho => .inl (Lexer.yields_of_mem_outcomes ho), .inr rfl, .inl (Lexer.yields_eof source)⟩

theorem inSource_attempted (source : String) (k : Nat) : InSource source (attempted source k) := by
  induction k with
  | zero => exact inSource_ofSource source
  | succ k ih =>
    rw [attempted, left]
    cases h : expression (attempted source k) with
    | ok u s' => exact steady_among.expression.of_ok ih h
    | error e s' => exact steady_among.expression.of_error ih h

/-- The checked compiler is left in the same states. -/
theorem checked_attempted_eq (source : String) (k : Nat) :
    Checked.attempted source k = attempted source k := by
  induction k with
  | zero => rfl
  | succ k ih =>
    have hagrees : Checked.expression source (attempted source k) =
        EStateM.adaptExcept .fault expression _ :=
      agrees_expression (inSource_attempted source k)
    rw [Checked.attempted, ih, hagrees, attempted, left, EStateM.adaptExcept]
    cases expression (attempted source k) <;> rfl

theorem Agrees.ne_misuse {y : CheckedM α} {x : CompileM α} (h : Agrees y x s) (m : Misuse) :
    y s ≠ .error (.misuse m) s' := by
  have h : y s = EStateM.adaptExcept .fault x s := h
  rw [h, EStateM.adaptExcept]
  cases x s with
  | ok a t => nofun
  | error e t => nofun

/-- **No operation is misused.** In any session, the checked compiler does what the compiler does:
it goes through the same states, and neither a further call for an expression nor the compilation of
the rest of the source stops it with a misuse. All lexemes of the source are slices of it that have
the form of their kind, and each kind of token that binds at least as tightly as an alternative has
a rule. -/
theorem checked_ne_misuse (source : String) (k : Nat) :
    Checked.attempted source k = attempted source k ∧
      Checked.expression source (Checked.attempted source k) =
        Checked.total expression (attempted source k) ∧
      Checked.program source (Checked.attempted source k) =
        Checked.total program (attempted source k) ∧
      (∀ (m : Misuse) (s : Compiler), Checked.expression source (Checked.attempted source k) ≠
          .error (.misuse m) s ∧
        Checked.program source (Checked.attempted source k) ≠ .error (.misuse m) s) ∧
      (∀ l : Lexeme, Lexer.Yields source (.ok l) → l.IsSliced source) ∧
      ∀ kind : TokenKind, .or ≤ (ParseRule.of kind).precedence →
        (ParseRule.of kind).joint?.isSome = true := by
  have hin := inSource_attempted source k
  rw [checked_attempted_eq]
  refine ⟨rfl, agrees_expression hin, agrees_program hin, fun m s => ?_, fun l hl => hl.isSliced,
    fun kind hk => ?_⟩
  · exact ⟨(agrees_expression hin).ne_misuse m, (agrees_program hin).ne_misuse m⟩
  · exact ParseRule.joint?_isSome hk

/-- The first call finds no lexeme. The second one fails for the escape, with a jump that has no
target yet and two parentheses open. The rest of the source is empty. -/
theorem checked_ne_misuse_session :
    succeeds expression (attempted "f(x and ('\\z'" 0) = false ∧
      (attempted "f(x and ('\\z'" 2).groups = 2 ∧
      ∀ m s, Checked.program "f(x and ('\\z'" (Checked.attempted "f(x and ('\\z'" 2) ≠
        .error (.misuse m) s := by
  refine ⟨by cbv, by cbv, fun m s => ?_⟩
  exact ((checked_ne_misuse _ 2).2.2.2.1 m s).2

end Compiler

end LuaExpr
