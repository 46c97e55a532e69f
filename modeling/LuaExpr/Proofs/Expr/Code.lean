import LuaExpr.Proofs.Chunk.Pool
import LuaExpr.Proofs.Expr.Tree
/-!
# Code of trees

The instructions of a tree in postfix order: operands before their operator, a callee and its
arguments before their call. Parentheses leave nothing behind. A conjunction or an alternative jumps
over its right operand.

* `Expr.code`: the code of a tree that begins at an index, for the slots that its constants have.
* `Expr.programCode`: the code of a program. The value of an expression is dropped before the next
  one.
* `Expr.Fits`: what an operand of an instruction can hold: a byte the number of arguments, two bytes
  the target.
* `Expr.Acceptable`: all limits on a program; `Chunk.ofProgram`: its chunk.
-/

namespace LuaExpr

/-! ## Instructions -/

/-- The instruction of a leaf, for the slots of its constants. -/
def Lexeme.op (slot : Value → UInt8) (l : Lexeme) : Op :=
  match l.kind with
  | .keyword .nil => .nil
  | .keyword .true => .true
  | .keyword .false => .false
  | .name => .global (slot (l.constant?.getD .nil))
  | _ => .constant (slot (l.constant?.getD .nil))

theorem Lexeme.op_ne_jump {slot : Value → UInt8} {target : UInt16} (l : Lexeme) :
    ¬ (l.op slot = .jump target ∨ l.op slot = .jumpIfFalse target) := by
  unfold Lexeme.op
  split <;> simp

namespace Connective

/-- The instructions between two operands: `first` is the index of the first one, `done` the index
after the right operand. -/
def between (offset first done : Nat) : Connective → List Instruction
  | binary _ => []
  | and => [⟨.dup, offset⟩, ⟨.jumpIfFalse (UInt16.ofNat done), offset⟩, ⟨.pop, offset⟩]
  | or =>
    [⟨.dup, offset⟩, ⟨.jumpIfFalse (UInt16.ofNat (first + 3)), offset⟩,
      ⟨.jump (UInt16.ofNat done), offset⟩,
      ⟨.pop, offset⟩]

/-- The instructions after both operands. -/
def after (offset : Nat) : Connective → List Instruction
  | binary op => [⟨.binary op, offset⟩]
  | and | or => []

@[simp] theorem length_between (c : Connective) (offset first done : Nat) :
    (c.between offset first done).length = c.lead := by
  cases c <;> rfl

theorem lead_add_length_after (c : Connective) (offset : Nat) :
    c.lead + (c.after offset).length = c.size := by
  cases c <;> rfl

end Connective

namespace Expr

variable (slot : Value → UInt8)

mutual

/-- The code of an expression whose first instruction has the index `base`. -/
def code (base : Nat) : Expr → List Instruction
  | leaf l => [⟨l.op slot, l.start⟩]
  | group _ e => e.code base
  | unary op mark e => e.code base ++ [⟨.unary op, mark.start⟩]
  | join c mark l r =>
    let right := base + l.size + c.lead
    l.code base ++ (c.between mark.start (base + l.size) (right + r.size) ++
      (r.code right ++ c.after mark.start))
  | call f paren args =>
    f.code base ++ (codeAll (base + f.size) args ++
      [⟨.call (UInt8.ofNat args.length), paren.start⟩])

/-- The code of several expressions, one after the other. -/
def codeAll (base : Nat) : List Expr → List Instruction
  | [] => []
  | e :: es => e.code base ++ codeAll (base + e.size) es

end

theorem length_codeAll_of_forall {es : List Expr}
    (h : ∀ e ∈ es, ∀ base, (e.code slot base).length = e.size)
    (base : Nat) : (codeAll slot base es).length = sizeAll es := by
  induction es generalizing base with
  | nil => rfl
  | cons e es ih =>
    rw [codeAll, sizeAll, List.length_append, h e (by simp), ih fun d hd => h d (by simp [hd])]

@[simp] theorem length_code (e : Expr) : ∀ base, (e.code slot base).length = e.size := by
  induction e with
  | leaf l => intro base; rfl
  | group paren e ih => exact ih
  | unary op mark e ih => intro base; simp [code, size, ih]
  | join c mark l r ihl ihr =>
    intro base
    have hc := c.lead_add_length_after mark.start
    simp only [code, size, List.length_append, Connective.length_between, ihl, ihr]
    omega
  | call f paren args ihf ihargs =>
    intro base
    simp [code, size, ihf, length_codeAll_of_forall slot ihargs, Nat.add_assoc]

@[simp] theorem length_codeAll (es : List Expr) (base : Nat) :
    (codeAll slot base es).length = sizeAll es :=
  length_codeAll_of_forall slot (fun e _ => length_code slot e) base

/-! ## Programs -/

/-- The code of further expressions of a program. -/
def codeNext (base : Nat) : List Expr → List Instruction
  | [] => []
  | e :: es => ⟨.pop, e.start⟩ :: (e.code slot (base + 1) ++ codeNext (base + 1 + e.size) es)

/-- The number of instructions of further expressions of a program. -/
def sizeNext : List Expr → Nat
  | [] => 0
  | e :: es => 1 + e.size + sizeNext es

@[simp] theorem length_codeNext (es : List Expr) (base : Nat) :
    (codeNext slot base es).length = sizeNext es := by
  induction es generalizing base with
  | nil => rfl
  | cons e es ih =>
    rw [codeNext, sizeNext, List.length_cons, List.length_append, length_code, ih]
    omega

/-- The code of a program. -/
def programCode : List Expr → List Instruction
  | [] => []
  | e :: es => e.code slot 0 ++ codeNext slot e.size es

/-- The subexpressions of further expressions of a program, each with the index of its first
instruction. -/
def partsNext (base : Nat) : List Expr → List (Nat × Expr)
  | [] => []
  | e :: es => e.parts (base + 1) ++ partsNext (base + 1 + e.size) es

/-- The subexpressions of a program, each with the index of its first instruction. -/
def programParts : List Expr → List (Nat × Expr)
  | [] => []
  | e :: es => e.parts 0 ++ partsNext e.size es

/-! ## Limits -/

/-- The operands of the instructions of an expression, apart from those of its parts, can hold what
they have to: its number of arguments, and the index after its right operand if it is a conjunction
or an alternative. -/
def Fits (base : Nat) : Expr → Prop
  | call _ _ args => args.length ≤ 255
  | join .and mark l r => base + (join .and mark l r).size ≤ 65535
  | join .or mark l r => base + (join .or mark l r).size ≤ 65535
  | _ => True

end Expr

/-- A literal or a name that has a value: a number is a numeral, and all escapes of a string are
known. -/
structure Lexeme.IsValid (l : Lexeme) : Prop where
  isLeaf : l.isLeaf = true
  constant : l.kind = .number ∨ l.kind = .string → l.constant?.isSome = true

/-- The instruction of a leaf that has a value: a literal without a constant, a constant, or a
global. -/
theorem Lexeme.IsValid.op_cases {l : Lexeme} (h : l.IsValid) (slot : Value → UInt8) :
    (l.kind = .keyword .nil ∧ l.op slot = .nil) ∨ (l.kind = .keyword .true ∧ l.op slot = .true) ∨
      (l.kind = .keyword .false ∧ l.op slot = .false) ∨
      (∃ v, (l.kind = .number ∨ l.kind = .string) ∧ l.constant? = some v ∧
        l.op slot = .constant (slot v)) ∨
      (l.kind = .name ∧ l.constant? = some (.string (String.ofList l.text)) ∧
        l.op slot = .global (slot (.string (String.ofList l.text)))) := by
  have hleaf := h.isLeaf
  have hconstant : ∀ hk : l.kind = .number ∨ l.kind = .string,
      ∃ v, (l.kind = .number ∨ l.kind = .string) ∧ l.constant? = some v ∧
        l.op slot = .constant (slot v) := by
    intro hk
    obtain ⟨v, hv⟩ := Option.isSome_iff_exists.mp (h.constant hk)
    refine ⟨v, hk, hv, ?_⟩
    rcases hk with hk | hk <;> simp [Lexeme.op, hk, hv]
  unfold Lexeme.isLeaf at hleaf
  split at hleaf
  case h_1 hk => exact .inl ⟨hk, by simp [Lexeme.op, hk]⟩
  case h_2 hk => exact .inr (.inl ⟨hk, by simp [Lexeme.op, hk]⟩)
  case h_3 hk => exact .inr (.inr (.inl ⟨hk, by simp [Lexeme.op, hk]⟩))
  case h_4 hk => exact .inr (.inr (.inr (.inl (hconstant (.inl hk)))))
  case h_5 hk => exact .inr (.inr (.inr (.inl (hconstant (.inr hk)))))
  case h_6 hk =>
    have hv : l.constant? = some (.string (String.ofList l.text)) := by simp [Lexeme.constant?, hk]
    exact .inr (.inr (.inr (.inr ⟨hk, hv, by simp [Lexeme.op, hk, hv]⟩)))
  case h_7 => cases hleaf

/-- The limits on a program. -/
structure Expr.Acceptable (es : List Expr) : Prop where
  /-- Each literal has a value. -/
  leaves : ∀ l ∈ leavesAll es, l.IsValid
  /-- No expression is nested too deeply. -/
  nesting : ∀ e ∈ es, e.nesting ≤ 199
  /-- The pool holds all constants. -/
  constants : (Pool.addAll [] (constantsAll es)).length ≤ Chunk.maxConstants
  /-- The operands of all instructions hold what they have to. -/
  parts : ∀ part ∈ programParts es, part.2.Fits part.1

/-- The chunk of a program. -/
def Chunk.ofProgram (es : List Expr) : Chunk :=
  let pool := Pool.addAll [] (Expr.constantsAll es)
  { code := (Expr.programCode (Pool.slot pool) es).toArray, constants := pool.toArray }

end LuaExpr
