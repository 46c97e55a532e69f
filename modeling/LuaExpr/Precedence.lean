import LuaExpr.Operator
import LuaExpr.Token
/-!
# Binding power of operators

How tightly the tokens between operands bind, and which operators they are.

* `Precedence`: the levels from the loosest to the tightest, in the order of their constructors.
* `Joint`: what a token does that stands after an operand: it calls it, or joins it to another one.
* `TokenKind.joint?`, `TokenKind.unaryOp?`: the joint or unary operator that a token is.
-/

namespace LuaExpr

/-! ## Levels -/

/-- A level of binding power. -/
inductive Precedence where
  /-- Of tokens that join nothing. -/
  | none
  /-- Of alternatives. -/
  | or
  /-- Of conjunctions. -/
  | and
  /-- Of equations and inequations. -/
  | comparison
  /-- Of bitwise alternatives. -/
  | bitOr
  /-- Of exclusive bitwise alternatives. -/
  | bitXor
  /-- Of bitwise conjunctions. -/
  | bitAnd
  /-- Of shifts. -/
  | shift
  /-- Of concatenations. -/
  | concat
  /-- Of sums and differences. -/
  | term
  /-- Of products, quotients and remainders. -/
  | factor
  /-- Of unary operators. -/
  | unary
  /-- Of powers. -/
  | exponent
  /-- Of calls. -/
  | call
  /-- Of operands that nothing can take apart. -/
  | primary
deriving DecidableEq, Repr

namespace Precedence

/-- The place of a level in the order. -/
def rank (p : Precedence) : Nat := p.ctorIdx

instance : LE Precedence := ⟨fun p q => p.rank ≤ q.rank⟩

instance (p q : Precedence) : Decidable (p ≤ q) := inferInstanceAs (Decidable (p.rank ≤ q.rank))

/-- The next tighter level; the tightest one is its own. -/
def next : Precedence → Precedence
  | none => or
  | or => and
  | and => comparison
  | comparison => bitOr
  | bitOr => bitXor
  | bitXor => bitAnd
  | bitAnd => shift
  | shift => concat
  | concat => term
  | term => factor
  | factor => unary
  | unary => exponent
  | exponent => call
  | call | primary => primary

end Precedence

/-! ## Operators of the grammar -/

namespace BinaryOp

/-- The level of a binary operator. -/
def precedence : BinaryOp → Precedence
  | eq | ne | lt | le | gt | ge => .comparison
  | bitOr => .bitOr
  | bitXor => .bitXor
  | bitAnd => .bitAnd
  | shiftLeft | shiftRight => .shift
  | concat => .concat
  | add | sub => .term
  | mul | div | floorDiv | mod => .factor
  | pow => .exponent

/-- Whether operators of this kind in a row group to the right. -/
def isRightAssociative : BinaryOp → Bool
  | pow | concat => true
  | _ => false

/-- The level of the right operand: the operator's own one if it groups to the right, and else the
next. -/
def rightPrecedence (op : BinaryOp) : Precedence :=
  if op.isRightAssociative then op.precedence else op.precedence.next

end BinaryOp

/-- What a token does that stands after an operand. -/
inductive Joint where
  /-- It calls the operand. -/
  | call
  /-- It is a binary operator. -/
  | binary (op : BinaryOp)
  /-- It joins the operand to another one that is needed only if the operand is truthy. -/
  | and
  /-- It joins the operand to another one that is needed only if the operand is falsy. -/
  | or
deriving DecidableEq, Repr

/-- The level of a joint. -/
def Joint.precedence : Joint → Precedence
  | call => .call
  | binary op => op.precedence
  | and => .and
  | or => .or

/-! ## Tokens as operators -/

namespace Symbol

/-- The binary operator that a symbol is. -/
def binaryOp? : Symbol → Option BinaryOp
  | plus => some .add
  | minus => some .sub
  | star => some .mul
  | slash => some .div
  | doubleSlash => some .floorDiv
  | percent => some .mod
  | caret => some .pow
  | doubleDot => some .concat
  | ampersand => some .bitAnd
  | pipe => some .bitOr
  | tilde => some .bitXor
  | doubleLess => some .shiftLeft
  | doubleGreater => some .shiftRight
  | doubleEqual => some .eq
  | tildeEqual => some .ne
  | less => some .lt
  | lessEqual => some .le
  | greater => some .gt
  | greaterEqual => some .ge
  | tripleDot | doubleColon | semicolon | hash | equal | leftParen | rightParen | leftBrace
      | rightBrace
  | leftBracket | rightBracket | colon | comma | dot => none

end Symbol

namespace TokenKind

/-- The unary operator that a token is. -/
def unaryOp? : TokenKind → Option UnaryOp
  | symbol .minus => some .negate
  | symbol .tilde => some .bitNot
  | symbol .hash => some .length
  | keyword .not => some .not
  | _ => none

/-- The joint that a token is. -/
def joint? : TokenKind → Option Joint
  | symbol .leftParen => some .call
  | symbol s => s.binaryOp?.map .binary
  | keyword .and => some .and
  | keyword .or => some .or
  | _ => none

/-- The level at which a token after an operand binds. -/
def precedence (k : TokenKind) : Precedence :=
  match k.joint? with
  | some j => j.precedence
  | none => .none

end TokenKind

end LuaExpr
