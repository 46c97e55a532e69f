import LuaExpr.Proofs.Compiler.Steps
/-!
# What all parts of the compiler keep

A property is kept by each part of the compiler, whether the part succeeds or fails, if the
elementary steps keep it. If it is about the place that the compiler has reached in its source,
looking for the next lexeme is the only such step.

* `Compiler.Preserves`: a part keeps a property, which is shown along its steps.
* `Compiler.Durable`: a property that reading and writing keep, and a conjunction or an alternative
  if its right operand does; `Durable.expression`: so does everything else.
* `Compiler.Steady`: a property that all elementary steps keep, turning a jump included, which is
  durable.
* `Compiler.Lasting`: a property of the place that looking keeps, which is steady.
* `Compiler.Among`: all that has not been used is of some kind, which is such a property.
-/

namespace LuaExpr.Compiler

variable {α β : Type} {I : Compiler → Prop}

/-! ## Sequences of steps -/

/-- A part keeps a property of the compiler, whether it succeeds or fails. -/
def Preserves (I : Compiler → Prop) (x : CompileM α) : Prop :=
  ∀ s, I s → match x s with
    | .ok _ s' | .error _ s' => I s'

section Steps

variable {x : CompileM α} {s s' : Compiler}

theorem Preserves.of_ok (h : Preserves I x) (hs : I s) {a : α} (hx : x s = .ok a s') : I s' := by
  have := h s hs
  rwa [hx] at this

theorem Preserves.of_error (h : Preserves I x) (hs : I s) {e : SourceError}
    (hx : x s = .error e s') : I s' := by
  have := h s hs
  rwa [hx] at this

theorem preserves_bind {f : α → CompileM β} (hx : Preserves I x) (hf : ∀ a, Preserves I (f a)) :
    Preserves I (x >>= f) := by
  intro s hs
  show match EStateM.bind x f s with
    | .ok _ s' | .error _ s' => I s'
  have hx := hx s hs
  unfold EStateM.bind
  cases h : x s with
  | ok a t =>
    rw [h] at hx
    exact hf a t hx
  | error e t =>
    rw [h] at hx
    exact hx

theorem preserves_pure (a : α) : Preserves I (pure a : CompileM α) := fun _ hs => hs

theorem preserves_throw (e : SourceError) : Preserves I (throw e : CompileM α) := fun _ hs => hs

theorem preserves_fail (e : ParseError) : Preserves I (fail e : CompileM α) := preserves_throw _

theorem preserves_modify {f : Compiler → Compiler} (h : ∀ s, I s → I (f s)) :
    Preserves I (modify f : CompileM Unit) := h

theorem preserves_get_bind {f : Compiler → CompileM β} (h : ∀ s, Preserves I (f s)) :
    Preserves I ((get : CompileM Compiler) >>= f) := preserves_bind (fun _ hs => hs) h

theorem preserves_currentKind_bind {f : TokenKind → CompileM β} (h : ∀ kind, Preserves I (f kind)) :
    Preserves I (currentKind >>= f) := preserves_bind (fun _ hs => hs) h

theorem preserves_budget_bind {f : List (Except LexError Lexeme) → CompileM β}
    (h : ∀ os, Preserves I (f os)) :
    Preserves I (budget >>= f) := preserves_bind (fun _ hs => hs) h

theorem preserves_ite {p : Prop} [Decidable p] {y : CompileM α} (hx : Preserves I x)
    (hy : Preserves I y) :
    Preserves I (if p then x else y) := by
  split
  · exact hx
  · exact hy

theorem preserves_repeatWhile {holds : TokenKind → Bool} {step : CompileM Unit}
    (h : Preserves I step) (rounds : List α) : Preserves I (repeatWhile holds step rounds) := by
  induction rounds with
  | nil => exact preserves_pure _
  | cons a rounds ih =>
    exact preserves_currentKind_bind fun _ =>
      preserves_ite (preserves_bind h fun _ => ih) (preserves_pure _)

end Steps

/-! ## Durable properties -/

/-- A property of the chunk and of the place, which looking for the next lexeme and writing keep,
and which conjunctions and alternatives keep if their right operands do. All other steps change
neither the chunk nor the place. -/
structure Durable (I : Compiler → Prop) : Prop where
  of_eq : ∀ {s t : Compiler},
    t.unread = s.unread → t.current = s.current → t.last = s.last → t.chunk = s.chunk → I s → I t
  look : Preserves I look
  emit : ∀ op offset, Preserves I (emit op offset)
  slotOf : ∀ literal v, Preserves I (slotOf literal v)
  conjunction : ∀ {right : CompileM Unit} operator,
    Preserves I right → Preserves I (conjunction right operator)
  alternative : ∀ {right : CompileM Unit} operator,
    Preserves I right → Preserves I (alternative right operator)

/-- A property of the chunk and of the place that elementary steps keep: looking for the next
lexeme, and writing, where any jump may be turned. -/
structure Steady (I : Compiler → Prop) : Prop extends Durable I where
  land : ∀ jump operator, Preserves I (land jump operator)
  conjunction operator hright :=
  preserves_bind (emit _ _) fun _ => preserves_bind (emit _ _) fun _ =>
    preserves_bind (emit _ _) fun _ => preserves_bind hright fun _ => land _ operator
  alternative operator hright :=
  preserves_bind (emit _ _) fun _ => preserves_bind (emit _ _) fun _ =>
    preserves_bind (emit _ _) fun _ => preserves_bind (land _ _) fun _ =>
      preserves_bind (emit _ _) fun _ =>
      preserves_bind hright fun _ => land _ operator

namespace Durable

variable (h : Durable I)
include h

theorem advance : Preserves I advance :=
  preserves_bind (preserves_modify fun _ => h.of_eq rfl rfl rfl rfl) fun _ => h.look

theorem skipLines : Preserves I skipLines :=
  preserves_budget_bind fun os => preserves_repeatWhile h.advance os

theorem consume (symbol : Symbol) (expected : String) : Preserves I (consume symbol expected) :=
  preserves_get_bind fun _ => preserves_ite h.advance (preserves_fail _)

theorem emit_bind {op : Op} {offset : Nat} {f : Nat → CompileM β} (hf : ∀ i, Preserves I (f i)) :
    Preserves I (Compiler.emit op offset >>= f) := preserves_bind (h.emit op offset) hf

/-! ### Operands -/

theorem group {expression : CompileM Unit} (hx : Preserves I expression) :
    Preserves I (group expression) :=
  preserves_bind (preserves_modify fun _ => h.of_eq rfl rfl rfl rfl) fun _ =>
    preserves_bind hx fun _ =>
    preserves_bind (preserves_modify fun _ => h.of_eq rfl rfl rfl rfl) fun _ => h.consume _ _

theorem literal (op : Op) : Preserves I (literal op) :=
  preserves_get_bind fun _ => h.emit_bind fun _ => preserves_pure _

theorem numberLiteral : Preserves I numberLiteral := by
  refine preserves_get_bind fun s => ?_
  dsimp only
  split
  · exact preserves_bind (h.slotOf _ _) fun _ => h.emit_bind fun _ => preserves_pure _
  · exact preserves_fail _

theorem stringLiteral : Preserves I stringLiteral := by
  refine preserves_get_bind fun s => ?_
  dsimp only
  split
  · exact preserves_bind (h.slotOf _ _) fun _ => h.emit_bind fun _ => preserves_pure _
  · exact preserves_fail _

theorem name : Preserves I name :=
  preserves_get_bind fun _ => preserves_bind (h.slotOf _ _) fun _ => h.emit_bind fun _ =>
    preserves_pure _

variable {part : Precedence → CompileM Unit} (hpart : ∀ p, Preserves I (part p))
include hpart

theorem leading : Preserves I (leading part) := by
  refine preserves_get_bind fun s => ?_
  dsimp only
  split
  · exact h.literal _
  · exact h.literal _
  · exact h.literal _
  · exact h.numberLiteral
  · exact h.stringLiteral
  · exact h.name
  · exact h.group (hpart _)
  · split
    · exact preserves_bind (hpart _) fun _ => h.emit_bind fun _ => preserves_pure _
    · exact preserves_fail _

/-! ### Joints -/

theorem arguments (count : Nat) (rounds : List α) :
    Preserves I (arguments (part .or) count rounds) := by
  induction rounds generalizing count with
  | nil => exact preserves_pure _
  | cons a rounds ih =>
    exact preserves_bind (hpart _) fun _ => preserves_currentKind_bind fun _ =>
      preserves_ite (preserves_bind h.advance fun _ => ih _) (preserves_pure _)

omit hpart in
theorem callEnd (paren : Token) (count : Nat) : Preserves I (callEnd paren count) :=
  preserves_bind (preserves_modify fun _ => h.of_eq rfl rfl rfl rfl) fun _ =>
    preserves_bind (h.consume _ _) fun _ =>
    preserves_ite (h.emit_bind fun _ => preserves_pure _) (preserves_fail _)

theorem call (paren : Token) : Preserves I (call (part .or) paren) := by
  rw [call_eq]
  refine preserves_bind (preserves_modify fun _ => h.of_eq rfl rfl rfl rfl) fun _ =>
    preserves_bind h.skipLines fun _ =>
    preserves_currentKind_bind fun _ => preserves_ite (h.callEnd _ _) ?_
  exact preserves_budget_bind fun os => preserves_bind (h.arguments hpart 0 os) fun _ =>
    h.callEnd _ _

theorem join (joint : Joint) : Preserves I (join part joint) := by
  refine preserves_get_bind fun s => ?_
  cases joint with
  | call => exact h.call hpart _
  | binary op => exact preserves_bind (hpart _) fun _ => h.emit_bind fun _ => preserves_pure _
  | and => exact h.conjunction _ (hpart _)
  | or => exact h.alternative _ (hpart _)

theorem following (level : Precedence) (rounds : List α) :
    Preserves I (following part level rounds) := by
  induction rounds with
  | nil => exact preserves_pure _
  | cons a rounds ih =>
    refine preserves_currentKind_bind fun kind => ?_
    split
    · refine preserves_ite ?_ (preserves_pure _)
      exact preserves_bind h.advance fun _ => preserves_bind (h.join hpart _) fun _ => ih
    · exact preserves_pure _

/-! ### Expressions -/

omit hpart

/-- **Operands keep the property**, by induction on the number of operands that may still be
opened. -/
theorem operand (levels : Nat) (level : Precedence) : Preserves I (operand levels level) := by
  induction levels generalizing level with
  | zero =>
    exact preserves_bind (preserves_modify fun _ => h.of_eq rfl rfl rfl rfl) fun _ =>
      preserves_get_bind fun _ =>
      preserves_fail _
  | succ levels ih =>
    exact preserves_bind (preserves_modify fun _ => h.of_eq rfl rfl rfl rfl) fun _ =>
      preserves_bind h.skipLines fun _ =>
      preserves_bind h.advance fun _ => preserves_bind (h.leading ih) fun _ =>
        preserves_budget_bind fun os =>
      preserves_bind (h.following ih level os) fun _ => preserves_modify fun _ =>
        h.of_eq rfl rfl rfl rfl

theorem expression : Preserves I expression := preserves_get_bind fun _ => h.operand _ _

theorem expressionThen {rest : CompileM Unit} (hrest : Preserves I rest) :
    Preserves I (expressionThen rest) :=
  preserves_bind h.expression fun _ => preserves_currentKind_bind fun _ =>
    preserves_ite hrest (preserves_get_bind fun _ => preserves_fail _)

theorem expressions (first : Bool) (rounds : List α) : Preserves I (expressions first rounds) := by
  induction rounds generalizing first with
  | nil => exact preserves_pure _
  | cons a rounds ih =>
    rw [expressions_cons]
    refine preserves_budget_bind fun os =>
      preserves_bind (preserves_repeatWhile h.advance os) fun _ =>
      preserves_currentKind_bind fun _ =>
        preserves_ite (preserves_ite (h.expressionThen (ih false)) ?_) (preserves_pure _)
    exact preserves_get_bind fun _ => h.emit_bind fun _ => h.expressionThen (ih false)

end Durable

/-! ## Properties of the chunk -/

section Chunks

variable {P : Chunk → Prop}

/-- Looking for the next lexeme does not touch the chunk. -/
theorem preserves_look_chunk : Preserves (fun s => P s.chunk) look := by
  have hgo : ∀ inside os, Preserves (fun s => P s.chunk) (look.go inside os) := by
    intro inside os
    induction os with
    | nil => exact preserves_modify fun _ hs => hs
    | cons o os ih =>
      cases o with
      | error e => exact preserves_bind (preserves_modify fun _ hs => hs) fun _ => preserves_throw _
      | ok l =>
        exact preserves_bind (preserves_modify fun _ hs => hs) fun _ =>
          preserves_ite ih (preserves_pure _)
  exact preserves_get_bind fun s => hgo _ s.unread

theorem preserves_emit_chunk (h : ∀ {c} op offset, P c → P (c.push op offset)) (op : Op)
    (offset : Nat) :
    Preserves (fun s => P s.chunk) (emit op offset) :=
  preserves_get_bind fun _ => preserves_bind (preserves_modify fun _ => h op offset) fun _ =>
    preserves_pure _

/-- Asking for a slot may add a constant. -/
theorem preserves_slotOf_chunk (h : ∀ {c c' v slot}, c.slotOf? v = some (slot, c') → P c → P c')
    (literal : Token) (v : Value) : Preserves (fun s => P s.chunk) (slotOf literal v) := by
  intro s hs
  cases hslot : s.chunk.slotOf? v with
  | none =>
    simp only [slotOf, bind, EStateM.bind, get, getThe, MonadStateOf.get, EStateM.get, hslot]
    exact hs
  | some r =>
    simp only [slotOf, bind, EStateM.bind, get, getThe, MonadStateOf.get, EStateM.get, hslot]
    exact h hslot hs

end Chunks

/-! ## Properties of the place -/

/-- A property of the place: of what is read next, of the lexeme that has been looked at, and of the
last one. Looking for the next lexeme keeps it. -/
structure Lasting (I : Compiler → Prop) : Prop where
  of_eq : ∀ {s t : Compiler}, t.unread = s.unread → t.current = s.current →
    t.last = s.last → I s → I t
  look : Preserves I look

/-- Writing does not change the place. -/
theorem Lasting.steady (h : Lasting I) : Steady I where
  of_eq hu hc hl _ := h.of_eq hu hc hl
  look := h.look
  emit _ _ := preserves_get_bind fun _ =>
    preserves_bind (preserves_modify fun _ => h.of_eq rfl rfl rfl) fun _ => preserves_pure _
  land _ _ := preserves_get_bind fun _ =>
    preserves_ite (preserves_modify fun _ => h.of_eq rfl rfl rfl) (preserves_fail _)
  slotOf _ _ := by
    refine preserves_get_bind fun s => ?_
    split
    · exact preserves_bind (preserves_modify fun _ => h.of_eq rfl rfl rfl) fun _ => preserves_pure _
    · exact preserves_fail _

/-! ## What has not been used -/

/-- What has not been used is of some kind: the lexemes and faults that have not been read, the
current lexeme, and the last one, which is read again and again. -/
structure Among (B : Except LexError Lexeme → Prop) (s : Compiler) : Prop where
  unread : ∀ o ∈ s.unread, B o
  current : B (.ok s.current)
  last : B (.ok s.last)

variable {B : Except LexError Lexeme → Prop}

theorem Among.of_eq {s t : Compiler} (h : Among B s) (hu : t.unread = s.unread)
    (hc : t.current = s.current) (hl : t.last = s.last) : Among B t :=
  ⟨hu ▸ h.unread, hc ▸ h.current, hl ▸ h.last⟩

/-- What is found by looking is of the kind of what has not been read. -/
theorem among_look_go {inside : Bool} {os : List (Except LexError Lexeme)} (hos : ∀ o ∈ os, B o) :
    Preserves (Among B) (look.go inside os) := by
  induction os with
  | nil => exact preserves_modify fun s hs => ⟨nofun, hs.last, hs.last⟩
  | cons o os ih =>
    have hrest : ∀ o ∈ os, B o := fun o ho => hos o (List.mem_cons_of_mem _ ho)
    cases o with
    | error e =>
      exact preserves_bind (preserves_modify fun s hs => ⟨hrest, hs.current, hs.last⟩) fun _ =>
        preserves_throw _
    | ok l =>
      exact preserves_bind (preserves_modify fun s hs =>
        ⟨hrest, hos _ List.mem_cons_self, hs.last⟩) fun _ =>
        preserves_ite (ih hrest) (preserves_pure _)

/-- **What has not been used stays of its kind.** -/
theorem lasting_among : Lasting (Among B) where
  of_eq hu hc hl hs := hs.of_eq hu hc hl
  look s hs := among_look_go hs.unread s hs

theorem steady_among : Steady (Among B) := lasting_among.steady

end LuaExpr.Compiler
