import LuaExpr.Precedence
import LuaExpr.Proofs.Expr.Grammar
/-!
# Levels of the grammar and levels of binding power

The compiler knows the grammar only as a table of binding powers. Here both are compared, level by
level.

* `Expr.level` is the tightest nonterminal that derives a tree: whatever derives it is at most as
  tight (`Derives.le_level`), and looser nonterminals derive it too (`Derives.mono`).
* `Precedence.nonterminal` is the nonterminal of the expressions whose joints bind at least as
  tightly as a level.
* `Joint.left_le_whole_iff`: a tree may stand before a joint exactly if its right operand does not
  capture the joint.
-/

namespace LuaExpr

/-! ## The order of the nonterminals -/

namespace Nonterminal

/-- The place of a nonterminal in the order. -/
def rank (n : Nonterminal) : Nat := n.ctorIdx

instance : LE Nonterminal := ⟨fun n m => n.rank ≤ m.rank⟩

instance (n m : Nonterminal) : Decidable (n ≤ m) := inferInstanceAs (Decidable (n.rank ≤ m.rank))

theorem le_rfl {n : Nonterminal} : n ≤ n := Nat.le_refl _

theorem le_trans {n m k : Nonterminal} (h : n ≤ m) (h' : m ≤ k) : n ≤ k := Nat.le_trans h h'

theorem le_of_tighter?_eq {n m : Nonterminal} (h : n.tighter? = some m) : n ≤ m := by
  cases n <;> cases h <;> decide

/-- A nonterminal is another one or looser than the next tighter one. -/
theorem exists_tighter?_of_lt {n m : Nonterminal} (h : n.rank < m.rank) :
    ∃ k, n.tighter? = some k ∧ k.rank = n.rank + 1 := by
  cases n
  case primary => exact absurd h (by cases m <;> decide)
  all_goals exact ⟨_, rfl, rfl⟩

theorem rank_injective {n m : Nonterminal} (h : n.rank = m.rank) : n = m := by
  cases n <;> cases m <;> first | rfl | exact absurd h (by decide)

end Nonterminal

/-! ## Levels of trees -/

/-- The tightest nonterminal that derives a tree. -/
def Expr.level : Expr → Nonterminal
  | leaf _ => .primary
  | group _ _ => .primary
  | unary _ _ _ => .unary
  | join c _ _ _ => c.whole
  | call _ _ _ => .call

namespace Derives

variable {n m : Nonterminal} {ts : List Lexeme} {e : Expr}

/-- What a tighter nonterminal derives, a looser one derives as well. -/
theorem mono (h : Derives m ts e) (hn : n ≤ m) : Derives n ts e := by
  obtain ⟨d, hd⟩ : ∃ d, m.rank - n.rank = d := ⟨_, rfl⟩
  induction d generalizing n with
  | zero =>
    have hnm : n = m := Nonterminal.rank_injective (by have : n.rank ≤ m.rank := hn; omega)
    exact hnm ▸ h
  | succ d ih =>
    obtain ⟨k, hk, hr⟩ := Nonterminal.exists_tighter?_of_lt (show n.rank < m.rank by omega)
    refine .lift hk (ih ?_ (by omega))
    show k.rank ≤ m.rank
    omega

theorem le_level (h : Derives n ts e) : n ≤ e.level := by
  induction h with
  | lift hn _ ih => exact Nonterminal.le_trans (Nonterminal.le_of_tighter?_eq hn) ih
  | _ => exact Nonterminal.le_rfl

end Derives

/-! ## Tokens -/

/-- The joint that a connective is. -/
def Connective.joint : Connective → Joint
  | binary op => .binary op
  | and => .and
  | or => .or

@[simp] theorem Connective.joint?_kind (c : Connective) : c.kind.joint? = some c.joint := by
  cases c with
  | binary op => cases op <;> rfl
  | and => rfl
  | or => rfl

@[simp] theorem UnaryOp.unaryOp?_kind (op : UnaryOp) : op.kind.unaryOp? = some op := by
  cases op <;> rfl

/-- A token is a joint if it is an opening parenthesis or spells a connective. -/
theorem TokenKind.eq_of_joint?_eq_some {k : TokenKind} {j : Joint} (h : k.joint? = some j) :
    (j = .call ∧ k = .symbol .leftParen) ∨ ∃ c : Connective, j = c.joint ∧ k = c.kind := by
  cases k with
  | keyword w =>
    cases w <;> cases h
    · exact .inr ⟨.and, rfl, rfl⟩
    · exact .inr ⟨.or, rfl, rfl⟩
  | symbol s =>
    cases s <;> first
      | (cases h; done)
      | exact .inl ⟨(Option.some.inj h).symm, rfl⟩
      | exact .inr ⟨.binary _, (Option.some.inj h).symm, rfl⟩
  | _ => cases h

theorem TokenKind.eq_of_unaryOp?_eq_some {k : TokenKind} {op : UnaryOp} (h : k.unaryOp? = some op) :
    k = op.kind := by
  cases k with
  | keyword w => cases w <;> cases h; rfl
  | symbol s => cases s <;> cases h <;> rfl
  | _ => cases h

theorem Connective.kind_injective {c d : Connective} (h : c.kind = d.kind) : c = d := by
  have hj : some c.joint = some d.joint := by rw [← c.joint?_kind, ← d.joint?_kind, h]
  cases c <;> cases d <;> simp_all [Connective.joint]

theorem UnaryOp.kind_injective {op op' : UnaryOp} (h : op.kind = op'.kind) : op = op' := by
  have hu : some op = some op' := by rw [← op.unaryOp?_kind, ← op'.unaryOp?_kind, h]
  exact Option.some.inj hu

/-- A leaf joins nothing and is no unary operator. -/
theorem Lexeme.not_operator_of_isLeaf {l : Lexeme} (h : l.isLeaf = true) :
    l.kind.unaryOp? = none ∧ l.kind ≠ .symbol .leftParen := by
  unfold Lexeme.isLeaf at h
  split at h <;> rename_i hk
  all_goals first | (rw [hk]; exact ⟨rfl, by decide⟩) | cases h

/-! ## Levels of binding power -/

/-- The level of the right operand of a connective. -/
def Connective.rightPrecedence : Connective → Precedence
  | binary op => op.rightPrecedence
  | and => Precedence.and.next
  | or => Precedence.or.next

/-- The nonterminal of the expressions whose joints bind at least as tightly as a level. A unary
operator takes what follows it whatever the level is. -/
def Precedence.nonterminal : Precedence → Nonterminal
  | none | or => .or
  | and => .and
  | comparison => .comparison
  | bitOr => .bitOr
  | bitXor => .bitXor
  | bitAnd => .bitAnd
  | shift => .shift
  | concat => .concat
  | term => .term
  | factor => .factor
  | unary | exponent => .unary
  | call => .call
  | primary => .primary

/-- The nonterminal of what stands before a joint. -/
def Joint.left : Joint → Nonterminal
  | call => .call
  | binary op => (Connective.binary op).left
  | and => .and
  | or => .or

@[simp] theorem Connective.left_joint (c : Connective) : c.joint.left = c.left := by
  cases c <;> rfl

@[simp] theorem Connective.nonterminal_rightPrecedence (c : Connective) :
    c.rightPrecedence.nonterminal = c.right := by
  cases c with
  | binary op => cases op <;> rfl
  | and => rfl
  | or => rfl

theorem Connective.rightPrecedence_le (c : Connective) : c.rightPrecedence ≤ .exponent := by
  cases c with
  | binary op => cases op <;> decide
  | _ => decide

theorem Connective.whole_le_left (c : Connective) : c.whole ≤ c.left := by
  cases c with
  | binary op => cases op <;> decide
  | _ => decide

/-- A tree with a connective may stand before a joint exactly if its right operand does not capture
the joint. -/
theorem Joint.left_le_whole_iff (j : Joint) (c : Connective) :
    j.left ≤ c.whole ↔ ¬ c.rightPrecedence ≤ j.precedence := by
  cases j with
  | binary op => cases op <;> cases c with
    | binary op' => cases op' <;> decide
    | _ => decide
  | _ => cases c with
    | binary op => cases op <;> decide
    | _ => decide

/-- The same for a tree with a unary operator. -/
theorem Joint.left_le_unary_iff (j : Joint) :
    j.left ≤ .unary ↔ ¬ Precedence.unary ≤ j.precedence := by
  cases j with
  | binary op => cases op <;> decide
  | _ => decide

theorem Joint.left_le_call (j : Joint) : j.left ≤ .call := by
  cases j with
  | binary op => cases op <;> decide
  | _ => decide

/-- What ends an expression at a level may have all of it as its left operand. -/
theorem Joint.left_le_nonterminal {p : Precedence} {j : Joint} (h : ¬ p ≤ j.precedence) :
    j.left ≤ p.nonterminal := by
  cases j with
  | binary op => cases op <;> revert h <;> cases p <;> decide
  | _ => revert h; cases p <;> decide

/-- An expression at a level goes on with exactly the connectives of its nonterminal and of tighter
ones. -/
theorem Connective.le_precedence_iff (p : Precedence) (c : Connective) :
    p ≤ c.joint.precedence ↔ p.nonterminal ≤ c.whole := by
  cases c with
  | binary op => cases op <;> cases p <;> decide
  | _ => cases p <;> decide

theorem Precedence.le_call_iff (p : Precedence) : p ≤ .call ↔ p.nonterminal ≤ .call := by
  cases p <;> decide

end LuaExpr
