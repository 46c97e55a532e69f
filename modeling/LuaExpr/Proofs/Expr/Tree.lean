import LuaExpr.Escape
import LuaExpr.Lexeme.Basic
import LuaExpr.Operator
import Mathlib
/-!
# Syntax trees

The trees that sources denote. A tree keeps the lexemes that its code comes from: those of its
leaves and operators and the parenthesis that opens a group or a call. Commas and closing
parentheses leave no trace.

* `Connective`: what stands between two operands, an operator or `and` or `or`.
* `Expr`: the trees, with `Expr.induct` as their induction principle (the arguments of a call are a
  list).
* `Expr.size`: the number of instructions of a tree; `Expr.parts`: where in its code its parts
  begin.
* `Expr.leaves` and `Expr.constants`: the literals and names of a tree and the constants they refer
  to.
* `Expr.nesting`: how many operands are open at once while a tree is read.
-/

namespace LuaExpr

/-! ## Spellings -/

/-- The token that spells a unary operator. -/
def UnaryOp.kind : UnaryOp → TokenKind
  | negate => .symbol .minus
  | not => .keyword .not
  | length => .symbol .hash
  | bitNot => .symbol .tilde

/-- The symbol that spells a binary operator. -/
def BinaryOp.symbol : BinaryOp → Symbol
  | add => .plus
  | sub => .minus
  | mul => .star
  | div => .slash
  | floorDiv => .doubleSlash
  | mod => .percent
  | pow => .caret
  | bitAnd => .ampersand
  | bitOr => .pipe
  | bitXor => .tilde
  | shiftLeft => .doubleLess
  | shiftRight => .doubleGreater
  | eq => .doubleEqual
  | ne => .tildeEqual
  | lt => .less
  | le => .lessEqual
  | gt => .greater
  | ge => .greaterEqual
  | concat => .doubleDot

/-- What joins two operands. -/
inductive Connective where
  /-- An operator, which needs both operands. -/
  | binary (op : BinaryOp)
  /-- The right operand is needed only if the left one is truthy. -/
  | and
  /-- The right operand is needed only if the left one is falsy. -/
  | or
deriving DecidableEq, Repr

/-- The token that spells a connective. -/
def Connective.kind : Connective → TokenKind
  | binary op => .symbol op.symbol
  | and => .keyword .and
  | or => .keyword .or

/-- The number of instructions that a connective has between those of its operands. -/
def Connective.lead : Connective → Nat
  | binary _ => 0
  | and => 3
  | or => 4

/-- The number of instructions that a connective needs besides those of its operands. -/
def Connective.size : Connective → Nat
  | binary _ => 1
  | and => 3
  | or => 4

/-! ## Leaves -/

namespace Lexeme

/-- Whether a lexeme is an operand by itself: a literal or a name. -/
def isLeaf (l : Lexeme) : Bool :=
  match l.kind with
  | .keyword .nil | .keyword .true | .keyword .false | .number | .string | .name => true
  | _ => false

/-- The constant that a lexeme refers to: numbers and strings to their values, names to their texts.
A string with an escape that stands for nothing refers to none. -/
def constant? (l : Lexeme) : Option Value :=
  match l.kind with
  | .number => (Decimal.ofNumeral? l.text).map .number
  | .string => (StringLiteral.decode l.start l.text).toOption.map .string
  | .name => some (.string (String.ofList l.text))
  | _ => none

end Lexeme

/-! ## Trees -/

/-- An expression. -/
inductive Expr where
  /-- A literal or a name. -/
  | leaf (lexeme : Lexeme)
  /-- An expression in parentheses. -/
  | group (paren : Lexeme) (inner : Expr)
  /-- A unary operator and its operand. -/
  | unary (op : UnaryOp) (mark : Lexeme) (operand : Expr)
  /-- Two operands and what joins them. -/
  | join (c : Connective) (mark : Lexeme) (left right : Expr)
  /-- A call. -/
  | call (callee : Expr) (paren : Lexeme) (arguments : List Expr)

namespace Expr

/-- Induction on trees, with the hypothesis for every argument of a call. -/
@[elab_as_elim, induction_eliminator]
theorem induct {motive : Expr → Prop} (leaf : ∀ l, motive (leaf l))
    (group : ∀ paren e, motive e → motive (group paren e))
    (unary : ∀ op mark e, motive e → motive (unary op mark e))
    (join : ∀ c mark l r, motive l → motive r → motive (join c mark l r))
    (call : ∀ f paren args, motive f → (∀ a ∈ args, motive a) → motive (call f paren args))
    (e : Expr) :
    motive e := by
  refine @Expr.rec motive (fun es => ∀ a ∈ es, motive a) leaf group unary join call ?_ ?_ e
  · intro a ha
    exact absurd ha List.not_mem_nil
  · intro d ds hd hds a ha
    rcases List.mem_cons.mp ha with rfl | ha
    · exact hd
    · exact hds a ha

/-! ## Parts -/

/-- The offset at which an expression begins. -/
def start : Expr → Nat
  | leaf l => l.start
  | group paren _ => paren.start
  | unary _ mark _ => mark.start
  | join _ _ l _ => l.start
  | call f _ _ => f.start

mutual

/-- The number of instructions of an expression. -/
def size : Expr → Nat
  | leaf _ => 1
  | group _ e => e.size
  | unary _ _ e => e.size + 1
  | join c _ l r => l.size + c.size + r.size
  | call f _ args => f.size + sizeAll args + 1

/-- The number of instructions of several expressions. -/
def sizeAll : List Expr → Nat
  | [] => 0
  | e :: es => e.size + sizeAll es

end

mutual

/-- The literals and names of an expression in order. -/
def leaves : Expr → List Lexeme
  | leaf l => [l]
  | group _ e => e.leaves
  | unary _ _ e => e.leaves
  | join _ _ l r => l.leaves ++ r.leaves
  | call f _ args => f.leaves ++ leavesAll args

/-- The literals and names of several expressions. -/
def leavesAll : List Expr → List Lexeme
  | [] => []
  | e :: es => e.leaves ++ leavesAll es

end

/-- The constants that an expression refers to, in the order of its leaves. -/
def constants (e : Expr) : List Value := e.leaves.filterMap Lexeme.constant?

/-- The constants that several expressions refer to. -/
def constantsAll (es : List Expr) : List Value := (leavesAll es).filterMap Lexeme.constant?

mutual

/-- How deep an expression is nested: operators and parentheses open an operand, the first operand
of a connective and the callee of a call are not opened. -/
def nesting : Expr → Nat
  | leaf _ => 0
  | group _ e => e.nesting + 1
  | unary _ _ e => e.nesting + 1
  | join _ _ l r => max l.nesting (r.nesting + 1)
  | call f _ args => max f.nesting (nestingAll args)

/-- How deep arguments are nested, each of which is opened. -/
def nestingAll : List Expr → Nat
  | [] => 0
  | e :: es => max (e.nesting + 1) (nestingAll es)

end

mutual

/-- The subexpressions of an expression, itself included, each with the index of its first
instruction if the code of the expression begins at the given index. -/
def parts (base : Nat) : Expr → List (Nat × Expr)
  | leaf l => [(base, leaf l)]
  | group paren e => (base, group paren e) :: e.parts base
  | unary op mark e => (base, unary op mark e) :: e.parts base
  | join c mark l r => (base, join c mark l r) :: (l.parts base ++ r.parts (base + l.size + c.lead))
  | call f paren args =>
    (base, call f paren args) :: (f.parts base ++ partsAll (base + f.size) args)

/-- The subexpressions of several expressions, the code of each of which begins where that of the
one before ends. -/
def partsAll (base : Nat) : List Expr → List (Nat × Expr)
  | [] => []
  | e :: es => e.parts base ++ partsAll (base + e.size) es

end

/-! ## Small facts -/

theorem size_pos (e : Expr) : 0 < e.size := by
  induction e with
  | leaf l => simp [size]
  | group paren e ih => simpa [size] using ih
  | unary op mark e ih => simp [size]
  | join c mark l r ihl ihr => simp only [size]; omega
  | call f paren args ihf ihargs => simp [size]

section Joins

variable {mark : Lexeme} {l r : Expr}

theorem size_join_binary {op : BinaryOp} :
    (join (.binary op) mark l r).size = l.size + r.size + 1 := by
  simp only [size, Connective.size]
  omega

theorem size_join_and : (join .and mark l r).size = l.size + 3 + r.size := rfl

theorem size_join_or : (join .or mark l r).size = l.size + 4 + r.size := rfl

/-- The first operand of a conjunction or an alternative is followed by all other instructions of it
and then by the second operand. -/
theorem size_join_eq_lead {c : Connective} (hc : c = .and ∨ c = .or) :
    (join c mark l r).size = l.size + c.lead + r.size := by
  rcases hc with rfl | rfl <;> rfl

end Joins

section Constants

variable {paren mark : Lexeme} {op : UnaryOp} {c : Connective} {e l r f : Expr} {es : List Expr}

@[simp] theorem constants_leaf (k : Lexeme) : (leaf k).constants = k.constant?.toList := by
  cases h : k.constant? <;> simp [constants, leaves, h]

@[simp] theorem constants_group : (group paren e).constants = e.constants := rfl

@[simp] theorem constants_unary : (unary op mark e).constants = e.constants := rfl

@[simp] theorem constants_join : (join c mark l r).constants = l.constants ++ r.constants := by
  simp [constants, leaves]

@[simp] theorem constants_call : (call f paren es).constants = f.constants ++ constantsAll es := by
  simp [constants, constantsAll, leaves]

@[simp] theorem constantsAll_nil : constantsAll [] = [] := rfl

@[simp] theorem constantsAll_cons : constantsAll (e :: es) = e.constants ++ constantsAll es := by
  simp [constants, constantsAll, leavesAll]

end Constants

end Expr

end LuaExpr
