import LuaExpr.Proofs.Compiler.Acceptance
import LuaExpr.Proofs.Compiler.Lasting
import LuaExpr.Proofs.Lexeme.Places
/-!
# What faults are about

A fault that the compiler reports points into the source. Faults come up in many places, with tokens
that have been read at different times; here each of them is followed back to the lexer.

* `SourceError.IsAbout`: what there is in a source at the place of a fault.
* `Compiler.Blames`: all faults of a part are about something in the source, which is shown along
  the steps of the part.
* `Compiler.Reads`: the lexemes ahead are the rest of the lexemes of a source that mean something.
* `Compiler.blames_operand`: operands; `isAbout_of_compile_eq_error`: sources.
-/

namespace LuaExpr

open Compiler

/-! ## Tokens and calls of a source -/

/-- A token is that of a lexeme that some reading of a source yields. -/
def Token.IsFrom (source : String) (t : Token) : Prop :=
  ∃ l, Lexer.Yields source (.ok l) ∧ l.token = t

/-- The lexemes of a source that mean something. Faults among them are left out. -/
def significantLexemes (source : String) : List Lexeme :=
  Layout.significant (legible (Cursor.ofSource source).outcomes)

/-- The token that a fault carries, for the faults that carry one. -/
def SourceError.token? : SourceError → Option Token
  | .parse (.expectedOperand t) | .parse (.unexpectedToken _ t) | .parse (.tooManyConstants t)
  | .parse (.jumpTooLarge t) | .parse (.tooManyArguments t) | .parse (.nestingTooDeep t)
  | .parse (.malformedNumber t) => some t
  | .lex _ | .parse (.invalidEscape _ _) => none

/-- What there is in a source at the place of a fault. Tokens that a fault carries are yielded by
the lexer; a literal or a name finds no room, `and` and `or` jump too far, and the parenthesis opens
a call with too many arguments. Other faults are about characters: the one that begins no lexeme, a
quote, or a backslash and the character after it. -/
def SourceError.IsAbout (source : String) : SourceError → Prop
  | .lex (.unexpectedCharacter c offset) => StandsAt source [c] offset
  | .lex (.unterminatedString offset) =>
    ∃ quote, (quote = '"' ∨ quote = '\'') ∧ StandsAt source [quote] offset
  | .parse (.invalidEscape offset mark) => StandsAt source ['\\', mark] offset
  | .parse (.tooManyConstants t) =>
    t.IsFrom source ∧ (t.kind = .number ∨ t.kind = .string ∨ t.kind = .name)
  | .parse (.jumpTooLarge t) => t.IsFrom source ∧ (t.kind = .keyword .and ∨ t.kind = .keyword .or)
  | .parse (.tooManyArguments t) => t.IsFrom source ∧ t.kind = .symbol .leftParen ∧
      ∃ ts f paren args, ts <:+: significantLexemes source ∧ Derives .call ts (.call f paren args) ∧
        t = paren.token ∧
        255 < args.length
  | .parse (.expectedOperand t) | .parse (.unexpectedToken _ t) | .parse (.nestingTooDeep t)
  | .parse (.malformedNumber t) => t.IsFrom source

namespace Compiler

variable {source : String} {α β : Type} {s t s' : Compiler}

/-! ## Sequences of steps -/

/-- If a part fails, the fault is about something in the source. -/
def Blames (source : String) (x : CompileM α) (s : Compiler) : Prop :=
  ∀ e s', x s = .error e s' → e.IsAbout source

theorem blames_bind {x : CompileM α} {f : α → CompileM β} (hx : Blames source x s)
    (hf : ∀ a t, x s = .ok a t → Blames source (f a) t) : Blames source (x >>= f) s := by
  intro e s' h
  have h : EStateM.bind x f s = .error e s' := h
  unfold EStateM.bind at h
  cases hxs : x s with
  | ok a t =>
    rw [hxs] at h
    exact hf a t hxs e s' h
  | error e' t =>
    rw [hxs] at h
    cases h
    exact hx e s' hxs

theorem blames_pure (a : α) : Blames source (pure a : CompileM α) s := by
  intro e s' h
  have h : EStateM.Result.ok a s = .error e s' := h
  cases h

theorem blames_fail {e : ParseError} (h : (SourceError.parse e).IsAbout source) :
    Blames source (fail e : CompileM α) s := by
  intro e' s' h'
  have h' : EStateM.Result.error (SourceError.parse e) s = .error e' s' := h'
  cases h'
  exact h

theorem blames_modify_bind {f : Compiler → Compiler} {g : Unit → CompileM β}
    (h : Blames source (g ()) (f s)) :
    Blames source (modify f >>= g) s := h

theorem blames_modify {f : Compiler → Compiler} : Blames source (modify f : CompileM Unit) s :=
  blames_pure ()

theorem blames_get_bind {f : Compiler → CompileM β} (h : Blames source (f s) s) :
    Blames source ((get : CompileM Compiler) >>= f) s := h

theorem blames_currentKind_bind {f : TokenKind → CompileM β}
    (h : Blames source (f s.current.kind) s) :
    Blames source (currentKind >>= f) s := h

theorem blames_budget_bind {f : List (Except LexError Lexeme) → CompileM β}
    (h : Blames source (f (.ok s.current :: s.unread)) s) : Blames source (budget >>= f) s := h

theorem blames_emit_bind {op : Op} {offset : Nat} {f : Nat → CompileM β}
    (h : Blames source (f s.chunk.code.size) { s with chunk := s.chunk.push op offset }) :
    Blames source (emit op offset >>= f) s := h

theorem blames_emit_unit {op : Op} {offset : Nat} :
    Blames source (do let _ ← emit op offset : CompileM Unit) s := blames_emit_bind (blames_pure _)

theorem blames_ite {p : Prop} [Decidable p] {x y : CompileM α} (hx : p → Blames source x s)
    (hy : ¬ p → Blames source y s) : Blames source (if p then x else y) s := by
  by_cases h : p
  · rw [if_pos h]
    exact hx h
  · rw [if_neg h]
    exact hy h

/-! ## Reading and writing -/

/-- A lexeme that is yielded has a token of the source. -/
theorem isFrom_token {l : Lexeme} (h : Lexer.Yields source (.ok l)) :
    l.token.IsFrom source := ⟨l, h, rfl⟩

/-- A fault of the lexer is about the characters that it names. -/
theorem isAbout_of_yields {e : LexError} (h : Lexer.Yields source (.error e)) :
    (SourceError.lex e).IsAbout source := by
  rcases h.cases with h | ⟨l, h, -⟩ | ⟨c, offset, h, hc⟩ | ⟨c, offset, h, hq, hc⟩
  · cases h
  · cases h
  · cases h
    exact hc
  · cases h
    exact ⟨c, hq, hc⟩

theorem blames_look_go {inside : Bool} {os : List (Except LexError Lexeme)}
    (h : ∀ o ∈ os, Lexer.Yields source o) :
    Blames source (look.go inside os) s := by
  induction os generalizing s with
  | nil => exact blames_modify
  | cons o os ih =>
    cases o with
    | error e =>
      refine blames_modify_bind fun e' s' h' => ?_
      cases h'
      exact isAbout_of_yields (h _ List.mem_cons_self)
    | ok l =>
      refine blames_modify_bind (blames_ite (fun _ => ?_) fun _ => blames_pure _)
      exact ih fun o ho => h o (List.mem_cons_of_mem _ ho)

theorem blames_advance (h : Among (Lexer.Yields source) s) : Blames source advance s :=
  blames_modify_bind (blames_look_go h.unread)

theorem blames_repeatWhile {holds : TokenKind → Bool} {rounds : List α}
    (h : Among (Lexer.Yields source) s) :
    Blames source (repeatWhile holds advance rounds) s := by
  induction rounds generalizing s with
  | nil => exact blames_pure _
  | cons a rounds ih =>
    refine blames_currentKind_bind (blames_ite (fun _ => ?_) fun _ => blames_pure _)
    exact blames_bind (blames_advance h) fun _ t ht => ih (steady_among.advance.of_ok h ht)

theorem blames_skipLines (h : Among (Lexer.Yields source) s) : Blames source skipLines s :=
  blames_budget_bind (blames_repeatWhile h)

theorem blames_consume {symbol : Symbol} {expected : String} (h : Among (Lexer.Yields source) s) :
    Blames source (consume symbol expected) s :=
  blames_get_bind (blames_ite (fun _ => blames_advance h) fun _ =>
    blames_fail (isFrom_token h.current))

theorem blames_land {jump : Nat} {operator : Token}
    (h : (SourceError.parse (.jumpTooLarge operator)).IsAbout source) :
    Blames source (land jump operator) s :=
  blames_get_bind (blames_ite (fun _ => blames_modify) fun _ => blames_fail h)

theorem blames_slotOf {literal : Token} {v : Value}
    (h : (SourceError.parse (.tooManyConstants literal)).IsAbout source) :
    Blames source (slotOf literal v) s := by
  refine blames_get_bind ?_
  cases s.chunk.slotOf? v with
  | some r => exact blames_modify_bind (blames_pure _)
  | none => exact blames_fail h

/-! ## Leaves -/

section Leaves

variable (hy : Lexer.Yields source (.ok s.previous))
include hy

theorem blames_numberLiteral (hk : s.previous.kind = .number) : Blames source numberLiteral s := by
  have hfrom := isFrom_token hy
  refine blames_get_bind ?_
  dsimp only
  split
  · exact blames_bind (blames_slotOf ⟨hfrom, .inl hk⟩) fun _ _ _ => blames_emit_unit
  · exact blames_fail hfrom

/-- The fault of a string literal is about one of its escapes. -/
theorem blames_stringLiteral (hk : s.previous.kind = .string) : Blames source stringLiteral s := by
  refine blames_get_bind ?_
  dsimp only
  split
  · exact blames_bind (blames_slotOf ⟨isFrom_token hy, .inr (.inl hk)⟩) fun _ _ _ =>
      blames_emit_unit
  · rename_i e he
    have hlexeme : IsLexeme .string s.previous.text := hk ▸ hy.isLexeme (by rw [hk]; decide)
    obtain ⟨o, mark, rfl, hat⟩ := StringLiteral.standsAt_of_decode hlexeme hy.standsAt he
    exact blames_fail hat

theorem blames_name (hk : s.previous.kind = .name) : Blames source name s :=
  blames_get_bind (blames_bind (blames_slotOf ⟨isFrom_token hy, .inr (.inr hk)⟩) fun _ _ _ =>
    blames_emit_unit)

end Leaves

/-! ## Operands -/

/-- The compiler reads a source: all that it has not used is yielded there, and the lexemes `ts` are
the last ones of those that mean something. -/
structure Reads (source : String) (s : Compiler) (ts : List Lexeme) : Prop where
  inOrder : s.InOrder
  among : Among (Lexer.Yields source) s
  rest : ts <:+ significantLexemes source

theorem Reads.of_eq {ts : List Lexeme} (h : Reads source s ts) (hu : t.unread = s.unread)
    (hc : t.current = s.current) (hl : t.last = s.last) : Reads source t ts :=
  ⟨h.inOrder.of_eq hl hu hc, h.among.of_eq hu hc hl, h.rest⟩

theorem Reads.right (ts : List Lexeme) {us : List Lexeme} (h : Reads source s (ts ++ us)) :
    Reads source s us :=
  ⟨h.inOrder, h.among, (List.suffix_append ts us).trans h.rest⟩

theorem Reads.tail {l : Lexeme} {us : List Lexeme} (h : Reads source s (l :: us)) :
    Reads source s us := h.right [l]

/-- Operands that are compiled where the compiler reads a source are blamed for nothing else. -/
def BlamesOperands (source : String) (levels : Nat) : Prop :=
  ∀ {p : Precedence} {s : Compiler}, p ≤ .exponent → Reads source s (s.ahead true) →
    Blames source (operand levels p) s

variable {levels : Nat} {p : Precedence}

/-- After an operand, the compiler still reads the source. -/
theorem Reads.of_operand (h : Reads source s (s.ahead true)) (hp : p ≤ .exponent)
    (ht : operand levels p s = .ok () t) :
    ∃ ts e, Recognised levels p s t ts e ∧ Reads source t (t.ahead false) := by
  obtain ⟨ts, e, hr⟩ := sound_operand levels hp h.inOrder ht
  refine ⟨ts, e, hr, hr.keeps.inOrder, (steady_among.operand levels p).of_ok h.among ht, ?_⟩
  exact (List.suffix_append ts _).trans (hr.ahead ▸ h.rest)

/-! ### What has been read -/

/-- An operand has been read, and the lexemes `next` are the ones after it. -/
def ReadsOperand (source : String) (s : Compiler) (e : Expr) (next : List Lexeme) : Prop :=
  ∃ ts, Reads source s (ts ++ next) ∧ Derives e.level ts e ∧ e.Admits next

theorem ReadsOperand.reads {e : Expr} {next : List Lexeme} (h : ReadsOperand source s e next) :
    Reads source s next := by
  obtain ⟨ts, h, -⟩ := h
  exact h.right ts

/-- After a connective and its right operand. -/
theorem ReadsOperand.connective {k : Connective} {l r : Expr} {c c' : Chunk} {us : List Lexeme}
    (hk : s.previous.kind = k.kind) (h : ReadsOperand source s l (s.previous :: s.after))
    (hr : Recognised levels k.rightPrecedence { s with chunk := c } t us r)
    (ht : Among (Lexer.Yields source) t) :
    ReadsOperand source { t with chunk := c' } (.join k s.previous l r) (t.ahead false) := by
  obtain ⟨ts, h, hl, ha⟩ := h
  have hleft : k.left ≤ l.level := by
    have := ha k.joint (by simp [hk])
    rwa [Connective.left_joint] at this
  have hder := hr.derives
  rw [Connective.nonterminal_rightPrecedence] at hder
  have hahead : s.ahead true = us ++ t.ahead false := hr.ahead
  have hrest := h.rest
  rw [after_of_connective hk, hahead] at hrest
  refine ⟨ts ++ s.previous :: us, ⟨hr.keeps.inOrder.of_eq rfl rfl rfl, ht.of_eq rfl rfl rfl, ?_⟩,
    .join hk (hl.mono hleft) hder, Expr.admits_join_iff.mpr hr.stops⟩
  rw [List.append_assoc]
  exact hrest

/-- After a joint and all that belongs to it, a larger operand has been read. -/
theorem ReadsOperand.of_join {j : Joint} {l : Expr} (hj : s.previous.kind.joint? = some j)
    (h : ReadsOperand source s l (s.previous :: s.after))
    (hs' : join (fun p => operand levels p) j s = .ok () s') :
    s'.Settled ∧ ∃ e, ReadsOperand source s' e (s'.ahead false) := by
  have ho : s.InOrder := h.reads.inOrder
  have hamong : Among (Lexer.Yields source) s' :=
    (steady_among.join (steady_among.operand levels) j).of_ok h.reads.among hs'
  rcases TokenKind.eq_of_joint?_eq_some hj with ⟨rfl, hk⟩ | ⟨k, rfl, hk⟩
  · obtain ⟨ts, h, hl, ha⟩ := h
    obtain ⟨t, n, t', t'', hskip, hargs, hclose, hadv, -, rfl⟩ :=
      call_eq_ok.mp (join_call_eq_ok.mp hs')
    obtain ⟨us, args, hr, rfl⟩ := recognisedArguments_of_call (sound_operand levels) ho hskip hargs
    obtain ⟨hread, -, hkeeps, hset, -⟩ := after_of_call hk ho hskip hr hclose hadv
    refine ⟨hset, .call l s.previous args, ts ++ s.previous :: (us ++ [t'.current]),
      ⟨hkeeps.inOrder.of_eq rfl rfl rfl, hamong, ?_⟩,
      hr.arguments.derives_call (hl.mono (ha .call hj)) hk hclose, fun j _ => j.left_le_call⟩
    have hrest := h.rest
    rw [hread] at hrest
    show ts ++ s.previous :: (us ++ [t'.current]) ++ t''.ahead false <:+ significantLexemes source
    simpa using hrest
  · have hle := k.rightPrecedence_le
    cases k with
    | binary op =>
      obtain ⟨t, ht, rfl⟩ := join_binary_eq_ok.mp hs'
      obtain ⟨us, r, hr⟩ := sound_operand levels hle ho ht
      exact ⟨hr.settled, _, h.connective hk hr (hamong.of_eq rfl rfl rfl)⟩
    | and =>
      obtain ⟨t, ht, hland⟩ := conjunction_eq_ok.mp (join_and_eq_ok.mp hs')
      obtain ⟨us, r, hr⟩ := sound_operand levels
        (s := { s with chunk := conjunctionOpened s.chunk s.previous.token.start })
        hle (ho.of_eq rfl rfl rfl) ht
      obtain ⟨-, rfl⟩ := land_eq_ok.mp hland
      exact ⟨hr.settled, _, h.connective hk hr (hamong.of_eq rfl rfl rfl)⟩
    | or =>
      obtain ⟨-, t, ht, hland⟩ := alternative_eq_ok.mp (join_or_eq_ok.mp hs')
      obtain ⟨us, r, hr⟩ := sound_operand levels
        (s := { s with chunk := alternativeOpened s.chunk s.previous.token.start })
        hle (ho.of_eq rfl rfl rfl) ht
      obtain ⟨-, rfl⟩ := land_eq_ok.mp hland
      exact ⟨hr.settled, _, h.connective hk hr (hamong.of_eq rfl rfl rfl)⟩

/-- After the lexeme that begins an operand and all that belongs to it, an operand has been read. -/
theorem ReadsOperand.of_leading (ho : s.InOrder) (hset : s.Settled)
    (hamong : Among (Lexer.Yields source) s)
    (h : s.previous.kind ≠ .eof → s.previous.kind ≠ .symbol .rightParen →
      Reads source s (s.previous :: s.after))
    (hs' : leading (fun p => operand levels p) s = .ok () s') :
    s'.Settled ∧ ∃ d, ReadsOperand source s' d (s'.ahead false) := by
  obtain ⟨us, d, hd⟩ := sound_leading (sound_operand levels) ho hset hs'
  obtain ⟨hder, -, hadmits⟩ := hd.head.derives
  have hbegins : s.previous.Begins := by
    obtain ⟨k, ks, rfl, hk⟩ := hder.exists_begins
    rw [(List.cons_eq_cons.mp hd.after).1]
    exact hk
  have hreads := h hbegins.kind_ne.2.2.2 hbegins.kind_ne.1
  refine ⟨hd.settled, d, us, ⟨hd.keeps.inOrder, ?_, hd.after ▸ hreads.rest⟩, hder, hadmits⟩
  exact (steady_among.leading (steady_among.operand levels)).of_ok hamong hs'

section Parts

variable (hb : BlamesOperands source levels)
include hb

/-! ### Beginnings of operands -/

theorem blames_group (hk : s.previous.kind = .symbol .leftParen) (h : Reads source s s.after) :
    Blames source (group (operand levels .or)) s := by
  rw [after_leftParen hk] at h
  refine blames_modify_bind (blames_bind (hb (by decide) (h.of_eq rfl rfl rfl)) fun _ t ht => ?_)
  obtain ⟨ts, e, -, ht⟩ := Reads.of_operand (h.of_eq rfl rfl rfl) (by decide) ht
  exact blames_modify_bind (blames_consume (ht.among.of_eq rfl rfl rfl))

/-- An operand that the previous lexeme begins. If it begins none, the fault is about this
lexeme. -/
theorem blames_leading (hy : Lexer.Yields source (.ok s.previous))
    (h : s.previous.kind ≠ .eof → s.previous.kind ≠ .symbol .rightParen → Reads source s s.after) :
    Blames source (leading fun p => operand levels p) s := by
  refine blames_get_bind ?_
  dsimp only
  split
  case h_1 => exact blames_emit_unit
  case h_2 => exact blames_emit_unit
  case h_3 => exact blames_emit_unit
  case h_4 hk => exact blames_numberLiteral hy hk
  case h_5 hk => exact blames_stringLiteral hy hk
  case h_6 hk => exact blames_name hy hk
  case h_7 hk => exact blames_group hb hk (h (by rw [hk]; decide) (by rw [hk]; decide))
  case h_8 =>
    cases hop : s.previous.kind.unaryOp? with
    | none => exact blames_fail (isFrom_token hy)
    | some op =>
      have hk := TokenKind.eq_of_unaryOp?_eq_some hop
      have h := h (by rw [hk]; cases op <;> decide) (by rw [hk]; cases op <;> decide)
      rw [after_of_unaryOp hk] at h
      exact blames_bind (hb (by decide) h) fun _ _ _ => blames_emit_unit

/-! ### Joints -/

theorem blames_arguments {rounds : List α} {count : Nat} (hg : 0 < s.groups)
    (h : Reads source s (s.ahead true)) :
    Blames source (arguments (operand levels .or) count rounds) s := by
  induction rounds generalizing s count with
  | nil => exact blames_pure _
  | cons a rounds ih =>
    refine blames_bind (hb (by decide) h) fun _ t ht => ?_
    obtain ⟨ts, e, hr, ht⟩ := h.of_operand (by decide) ht
    refine blames_currentKind_bind (blames_ite (fun hk => ?_) fun _ => blames_pure _)
    refine blames_bind (blames_advance ht.among) fun _ t' ht' => ?_
    have hadv := advanced_of_advance ht.inOrder ht'
    have hgroups : 0 < t.groups := hr.keeps.groups ▸ hg
    refine ih (hadv.keeps.groups ▸ hgroups) ⟨hadv.keeps.inOrder,
      steady_among.advance.of_ok ht.among ht', ?_⟩
    have hrest := ht.rest
    rw [hadv.ahead_comma hr.settled hgroups hk] at hrest
    exact (List.suffix_cons _ _).trans hrest

/-- A call: if it has too many arguments, all of it has been read. -/
theorem blames_call {f : Expr} {ts : List Lexeme} (hk : s.previous.kind = .symbol .leftParen)
    (hy : Lexer.Yields source (.ok s.previous)) (h : Reads source s (ts ++ s.previous :: s.after))
    (hf : Derives .call ts f) : Blames source (call (operand levels .or) s.previous.token) s := by
  have hafter : Reads source s s.after := (h.right ts).tail
  have hopen : Reads source { s with groups := s.groups + 1 }
      (({ s with groups := s.groups + 1 } : Compiler).ahead true) :=
    after_leftParen hk ▸ hafter.of_eq rfl rfl rfl
  rw [call_eq]
  refine blames_modify_bind (blames_bind (blames_skipLines hopen.among) fun _ t ht => ?_)
  obtain ⟨hkeeps, -, -, ha⟩ := skipLines_spec hopen.inOrder ht
  have hamong := steady_among.skipLines.of_ok hopen.among ht
  -- what is left to do once the arguments have been counted
  have hend : ∀ (n : Nat) (t' : Compiler), Among (Lexer.Yields source) t' →
      ((t.current.kind = .symbol .rightParen ∧ n = 0 ∧ t' = t) ∨
        (t.current.kind ≠ .symbol .rightParen ∧
          arguments (operand levels .or) 0 (.ok t.current :: t.unread) t = .ok n t')) →
      Blames source (callEnd s.previous.token n) t' := by
    intro n t' ht' hargs
    refine blames_modify_bind (blames_bind (blames_consume (ht'.of_eq rfl rfl rfl))
      fun _ t'' ht'' => ?_)
    refine blames_ite (fun _ => blames_emit_unit) fun hmany => blames_fail ?_
    obtain ⟨us, args, hr, rfl⟩ :=
      recognisedArguments_of_call (sound_operand levels) h.inOrder ht hargs
    obtain ⟨hclose, hadv⟩ := consume_eq_ok.mp ht''
    obtain ⟨hread, -⟩ := after_of_call hk h.inOrder ht hr hclose hadv
    refine ⟨isFrom_token hy, hk, ts ++ s.previous :: (us ++ [t'.current]), f, s.previous, args, ?_,
      hr.arguments.derives_call hf hk hclose, rfl, Nat.le_of_not_lt hmany⟩
    have hrest := h.rest
    rw [hread] at hrest
    obtain ⟨before, hbefore⟩ := hrest
    exact ⟨before, t''.ahead false, by rw [← hbefore]; simp⟩
  refine blames_currentKind_bind (blames_ite (fun hclose =>
    hend 0 t hamong (.inl ⟨hclose, rfl, rfl⟩)) fun hclose => ?_)
  refine blames_budget_bind (blames_bind (blames_arguments hb (hkeeps.groups ▸ Nat.succ_pos _) ?_)
    fun n t' hn => ?_)
  · exact ⟨hkeeps.inOrder, hamong, ha ▸ hopen.rest⟩
  · exact hend n t' ((steady_among.arguments (steady_among.operand levels) 0 _).of_ok hamong hn)
      (.inr ⟨hclose, hn⟩)

/-- A right operand and the jump over it. -/
theorem blames_right {jump : Nat} {operator : Token} (hp : p ≤ .exponent)
    (h : Reads source s (s.ahead true))
    (hop : (SourceError.parse (.jumpTooLarge operator)).IsAbout source) :
    Blames source (do operand levels p; land jump operator) s :=
  blames_bind (hb hp h) fun _ _ _ => blames_land hop

theorem blames_join {j : Joint} {l : Expr} (hj : s.previous.kind.joint? = some j)
    (hy : Lexer.Yields source (.ok s.previous))
    (h : ReadsOperand source s l (s.previous :: s.after)) :
    Blames source (join (fun p => operand levels p) j) s := by
  obtain ⟨ts, h, hl, ha⟩ := h
  have hfrom := isFrom_token hy
  refine blames_get_bind ?_
  rcases TokenKind.eq_of_joint?_eq_some hj with ⟨rfl, hk⟩ | ⟨k, rfl, hk⟩
  · exact blames_call hb hk hy h (hl.mono (ha .call hj))
  · have hright : Reads source s (s.ahead true) := by
      rw [← after_of_connective hk]
      exact (h.right ts).tail
    have hle := k.rightPrecedence_le
    cases k with
    | binary op => exact blames_bind (hb hle hright) fun _ _ _ => blames_emit_unit
    | and =>
      have hop : (SourceError.parse (.jumpTooLarge s.previous.token)).IsAbout source :=
        ⟨hfrom, .inl hk⟩
      exact blames_emit_bind
        (blames_emit_bind (blames_emit_bind (blames_right hb hle (hright.of_eq rfl rfl rfl) hop)))
    | or =>
      have hop : (SourceError.parse (.jumpTooLarge s.previous.token)).IsAbout source :=
        ⟨hfrom, .inr hk⟩
      refine blames_emit_bind
        (blames_emit_bind (blames_emit_bind (blames_bind (blames_land hop) fun _ t ht => ?_)))
      obtain ⟨-, rfl⟩ := land_eq_ok.mp ht
      exact blames_emit_bind (blames_right hb hle (hright.of_eq rfl rfl rfl) hop)

theorem blames_following {rounds : List α} {l : Expr} (hset : s.Settled)
    (h : ReadsOperand source s l (s.ahead false)) :
    Blames source (following (fun p => operand levels p) p rounds) s := by
  induction rounds generalizing s l with
  | nil => exact blames_pure _
  | cons a rounds ih =>
    refine blames_currentKind_bind ?_
    cases hj : s.current.kind.joint? with
    | none => exact blames_pure _
    | some j =>
      obtain ⟨ts, hreads, hl, ha⟩ := h
      refine blames_ite (fun _ => ?_) fun _ => blames_pure _
      refine blames_bind (blames_advance hreads.among) fun _ t ht => ?_
      have hadv := advanced_of_advance hreads.inOrder ht
      have hcons : s.ahead false = t.previous :: t.after := by
        rw [hadv.previous]
        refine hadv.ahead_eq_cons ?_ hset ?_ <;> intro hk <;> rw [hk] at hj <;> cases hj
      have hjt : t.previous.kind.joint? = some j := by rw [hadv.previous, hj]
      have hopen : ReadsOperand source t l (t.previous :: t.after) :=
        ⟨ts, ⟨hadv.keeps.inOrder, steady_among.advance.of_ok hreads.among ht, hcons ▸ hreads.rest⟩,
          hl, hcons ▸ ha⟩
      have hy : Lexer.Yields source (.ok t.previous) := hadv.previous ▸ hreads.among.current
      refine blames_bind (blames_join hb hjt hy hopen) fun _ t' ht' => ?_
      obtain ⟨hset', e, he⟩ := hopen.of_join hjt ht'
      exact ih hset' he

end Parts

/-! ## Expressions and programs -/

/-- **Faults in operands**, by induction on the number of operands that may still be opened. -/
theorem blames_operand (levels : Nat) : BlamesOperands source levels := by
  induction levels with
  | zero =>
    exact fun {p s} _ h =>
      blames_modify_bind (blames_get_bind (blames_fail (isFrom_token h.among.current)))
  | succ levels ih =>
    intro p s hp h
    have h' : Reads source { s with depth := s.depth + 1 } (s.ahead true) := h.of_eq rfl rfl rfl
    refine blames_modify_bind (blames_bind (blames_skipLines h'.among) fun _ s₁ hskip => ?_)
    obtain ⟨hkeeps, -, hclear, ha⟩ := skipLines_spec h'.inOrder hskip
    have hamong := steady_among.skipLines.of_ok h'.among hskip
    refine blames_bind (blames_advance hamong) fun _ s₂ hadvance => ?_
    have hadv := advanced_of_advance hkeeps.inOrder hadvance
    have hamong₂ := steady_among.advance.of_ok hamong hadvance
    have hcons : s₂.previous.kind ≠ .eof → s₂.previous.kind ≠ .symbol .rightParen →
        Reads source s₂ (s₂.previous :: s₂.after) := by
      rw [hadv.previous]
      intro heof hparen
      refine ⟨hadv.keeps.inOrder, hamong₂, ?_⟩
      rw [← hadv.ahead_eq_cons heof hclear hparen, ← ha]
      exact h.rest
    refine blames_bind (blames_leading ih (hadv.previous ▸ hamong.current) fun heof hparen => ?_)
      fun _ s₃ hlead => ?_
    · exact (hcons heof hparen).tail
    obtain ⟨hset, d, hd⟩ :=
      ReadsOperand.of_leading hadv.keeps.inOrder hadv.settled hamong₂ hcons hlead
    exact blames_budget_bind (blames_bind (blames_following ih hset hd) fun _ _ _ => blames_modify)

/-- Faults in the rest of a program. -/
theorem blames_expressions {first : Bool} {rounds : List α} (hg : s.groups = 0)
    (h : Reads source s (s.ahead false)) :
    Blames source (expressions first rounds) s := by
  induction rounds generalizing s first with
  | nil => exact blames_pure _
  | cons a rounds ih =>
    rw [expressions_cons]
    refine blames_budget_bind (blames_bind (blames_repeatWhile h.among) fun _ t ht => ?_)
    obtain ⟨hkeeps, -, hnosep, ss, -, ha⟩ := separators_spec h.inOrder hg ht
    have hamong := (preserves_repeatWhile steady_among.advance _).of_ok h.among ht
    refine blames_currentKind_bind (blames_ite (fun hk => ?_) fun _ => blames_pure _)
    have hline : t.current.kind ≠ .line := by
      intro hl
      rw [hl] at hnosep
      cases hnosep
    have hclear : ∀ awaited, Layout.isDropped t.groups awaited t.current.kind = false :=
      fun awaited => Layout.isDropped_eq_false hkeeps.inOrder.current hline
    have hread : Reads source t (t.ahead true) := by
      refine ⟨hkeeps.inOrder, hamong, ?_⟩
      rw [ahead_of_not_dropped hk (hclear true), ← ahead_of_not_dropped hk (hclear false)]
      exact (List.suffix_append ss _).trans (ha ▸ h.rest)
    -- what is left to do, whatever has been written before the expression
    have hone : ∀ c : Chunk,
        Blames source (expressionThen (expressions false rounds)) { t with chunk := c } := by
      intro c
      have hread : Reads source { t with chunk := c }
          (({ t with chunk := c } : Compiler).ahead true) :=
        hread.of_eq rfl rfl rfl
      refine blames_bind (blames_operand _ (by decide) hread) fun _ t' ht' => ?_
      obtain ⟨ts, e, hr, hread'⟩ := hread.of_operand (by decide) ht'
      refine blames_currentKind_bind (blames_ite (fun _ => ?_) fun _ => ?_)
      · exact ih ((hr.keeps.groups.trans hkeeps.groups).trans hg) hread'
      · exact blames_get_bind (blames_fail (isFrom_token hread'.among.current))
    exact blames_ite (fun _ => hone t.chunk) fun _ => blames_get_bind (blames_emit_bind (hone _))

/-- After the first lexeme has been looked at, the compiler reads the source. -/
theorem reads_of_advance (h : advance (ofSource source) = .ok () s) :
    Reads source s (s.ahead false) := by
  have hopen := opened_of_advance h
  have hread : ∀ o ∈ (Cursor.ofSource source).outcomes, Lexer.Yields source o :=
    fun _ ho => Lexer.yields_of_mem_outcomes ho
  refine ⟨hopen.inOrder, ?_, hopen.ahead_eq_significant ▸ List.suffix_refl _⟩
  obtain ⟨skipped, -, ⟨-, rfl⟩ | ⟨l, rest, hos, -, rfl⟩⟩ := look_go_eq_ok (advance_eq_ok.mp h)
  · exact ⟨nofun, Lexer.yields_eof source, Lexer.yields_eof source⟩
  · have hos : (Cursor.ofSource source).outcomes = skipped.map .ok ++ .ok l :: rest := hos
    rw [hos] at hread
    exact ⟨fun o ho => hread o (by simp [ho]), hread _ (by simp), Lexer.yields_eof source⟩

/-- **Faults in programs.** -/
theorem blames_program : Blames source program (ofSource source) := by
  refine blames_bind ?_ fun _ s hs => ?_
  · exact blames_modify_bind (blames_look_go fun _ ho => Lexer.yields_of_mem_outcomes ho)
  · exact blames_budget_bind (blames_expressions (opened_of_advance hs).groups
      (reads_of_advance hs))

end Compiler

/-! ## Places -/

/-- The end of a source is the only token of its kind. -/
theorem Token.IsFrom.eq_eof {source : String} {t : Token} (h : t.IsFrom source)
    (hk : t.kind = .eof) :
    t = (Lexeme.eof source.utf8ByteSize).token := by
  obtain ⟨l, hl, rfl⟩ := h
  rw [hl.eq_eof hk]

namespace SourceError.IsAbout

variable {source : String} {e : SourceError}

/-- The token that a fault carries is one of the source. -/
theorem isFrom (h : e.IsAbout source) {t : Token} (ht : e.token? = some t) : t.IsFrom source := by
  cases e with
  | lex e => cases ht
  | parse e =>
    cases e with
    | invalidEscape o mark => cases ht
    | tooManyConstants t' | jumpTooLarge t' | tooManyArguments t' =>
      cases ht
      exact h.1
    | expectedOperand t' | unexpectedToken x t' | nestingTooDeep t' | malformedNumber t' =>
      cases ht
      exact h

/-- What a fault is about stands at its place. -/
theorem standsAt (h : e.IsAbout source) : ∃ text, StandsAt source text e.offset := by
  have htoken : ∀ t : Token, t.IsFrom source → ∃ text, StandsAt source text t.start := by
    rintro _ ⟨l, hl, rfl⟩
    exact ⟨l.text, hl.standsAt⟩
  cases e with
  | lex e =>
    cases e with
    | unexpectedCharacter c o => exact ⟨_, h⟩
    | unterminatedString o =>
      obtain ⟨quote, -, hat⟩ := h
      exact ⟨_, hat⟩
  | parse e =>
    cases e with
    | invalidEscape o mark => exact ⟨_, h⟩
    | _ => exact htoken _ (h.isFrom rfl)

end SourceError.IsAbout

end LuaExpr
