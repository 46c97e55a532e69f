import LuaExpr.Lexeme.Basic
import Mathlib
/-!
# Layout

Which lexemes of a source mean anything. Comments mean nothing; a line break means nothing inside
parentheses and where an operand is still expected, which is after an operator. Everywhere else it
separates expressions.

* `Layout.significant`: the lexemes that mean something.
* `Layout.significantFrom`: the same from a place inside a source, given the number of open
  parentheses there and whether an operand is awaited.
-/

namespace LuaExpr

namespace TokenKind

/-- Whether an operand has to follow a token: the token is a unary operator or joins two
operands. -/
def awaitsOperand : TokenKind → Bool
  | keyword .and | keyword .or | keyword .not => true
  | symbol .plus | symbol .minus | symbol .star | symbol .slash | symbol .doubleSlash
      | symbol .percent
  | symbol .caret | symbol .hash | symbol .ampersand | symbol .tilde | symbol .pipe
      | symbol .doubleLess
  | symbol .doubleGreater | symbol .doubleEqual | symbol .tildeEqual | symbol .less
      | symbol .lessEqual
  | symbol .greater | symbol .greaterEqual | symbol .doubleDot => true
  | _ => false

/-- The number of open parentheses after a token. -/
def depthAfter (depth : Nat) : TokenKind → Nat
  | symbol .leftParen => depth + 1
  | symbol .rightParen => depth - 1
  | _ => depth

end TokenKind

namespace Layout

/-- Whether a token means nothing at a place: comments, and line breaks that cannot end an
expression. -/
def isDropped (depth : Nat) (awaited : Bool) (kind : TokenKind) : Bool :=
  kind = .comment || kind = .line && (0 < depth || awaited)

/-- The lexemes that mean something, from a place at which `depth` parentheses are open. -/
def significantFrom (depth : Nat) (awaited : Bool) : List Lexeme → List Lexeme
  | [] => []
  | l :: ls =>
    if isDropped depth awaited l.kind then significantFrom depth awaited ls
    else l :: significantFrom (l.kind.depthAfter depth) l.kind.awaitsOperand ls

/-- The lexemes of a source that mean something. -/
def significant (lexemes : List Lexeme) : List Lexeme := significantFrom 0 false lexemes

/-! ## Single lexemes -/

variable {depth : Nat} {awaited : Bool}

@[simp] theorem significantFrom_nil : significantFrom depth awaited [] = [] := rfl

theorem significantFrom_cons_of_isDropped {l : Lexeme} (ls : List Lexeme)
    (h : isDropped depth awaited l.kind = true) :
    significantFrom depth awaited (l :: ls) = significantFrom depth awaited ls := by
  rw [significantFrom, if_pos h]

theorem significantFrom_cons_of_not_isDropped {l : Lexeme} (ls : List Lexeme)
    (h : isDropped depth awaited l.kind = false) :
    significantFrom depth awaited (l :: ls) =
      l :: significantFrom (l.kind.depthAfter depth) l.kind.awaitsOperand ls := by
  rw [significantFrom, if_neg (by simp [h])]

/-- A token that is neither a comment nor a line break always means something. -/
theorem isDropped_eq_false {kind : TokenKind} (hc : kind ≠ .comment) (hl : kind ≠ .line) :
    isDropped depth awaited kind = false := by
  simp [isDropped, hc, hl]

theorem significantFrom_append_of_isDropped {skipped : List Lexeme} (ls : List Lexeme)
    (h : ∀ l ∈ skipped, isDropped depth awaited l.kind = true) :
    significantFrom depth awaited (skipped ++ ls) = significantFrom depth awaited ls := by
  induction skipped with
  | nil => rfl
  | cons l skipped ih =>
    rw [List.cons_append, significantFrom_cons_of_isDropped _ (h l (by simp))]
    exact ih fun k hk => h k (by simp [hk])

/-- Inside parentheses it does not matter whether an operand is awaited. -/
theorem significantFrom_inside (h : 0 < depth) (a b : Bool) (ls : List Lexeme) :
    significantFrom depth a ls = significantFrom depth b ls := by
  have hd : ∀ kind, isDropped depth a kind = isDropped depth b kind := by
    intro kind
    simp [isDropped, h]
  induction ls with
  | nil => rfl
  | cons l ls ih => rw [significantFrom, significantFrom, hd, ih]

theorem significantFrom_length_le (ls : List Lexeme) :
    (significantFrom depth awaited ls).length ≤ ls.length := by
  induction ls generalizing depth awaited with
  | nil => simp
  | cons l ls ih =>
    rw [significantFrom]
    split
    · exact Nat.le_succ_of_le ih
    · simpa using ih

end Layout

end LuaExpr
