import LuaExpr.Proofs.Expr.Tree
/-!
# The grammar

The expressions of the language as a grammar with a nonterminal for each level of binding power:

* `or := and {'or' and}`, `and := comparison {'and' comparison}`, and so on through `comparison`,
  `bitOr`, `bitXor`, `bitAnd`, `shift`, `term` and `factor`, whose operators group to the left;
* `concat := term ['..' concat]` groups to the right;
* `unary := ('not' or '#' or '-' or '~') unary, or power`, and `power := call ['^' unary]`;
* `call := primary {'(' [or {',' or}] ')'}`, and `primary := literal, name or '(' or ')'`.

`Derives n ts e` says that a nonterminal derives a sequence of lexemes with a tree. A program is a
sequence of expressions with separators between them (`Program`).
-/

namespace LuaExpr

/-! ## Productions -/

/-- The nonterminals, from the loosest to the tightest. -/
inductive Nonterminal where
  | or | and | comparison | bitOr | bitXor | bitAnd | shift | concat | term | factor | unary | power
      | call | primary
deriving DecidableEq, Repr

/-- The nonterminal that another one may consist of alone. -/
def Nonterminal.tighter? : Nonterminal → Option Nonterminal
  | or => some and
  | and => some comparison
  | comparison => some bitOr
  | bitOr => some bitXor
  | bitXor => some bitAnd
  | bitAnd => some shift
  | shift => some concat
  | concat => some term
  | term => some factor
  | factor => some unary
  | unary => some power
  | power => some call
  | call => some primary
  | primary => none

namespace Connective

/-- The nonterminal that a connective belongs to. -/
def whole : Connective → Nonterminal
  | or => .or
  | and => .and
  | binary .eq | binary .ne | binary .lt | binary .le | binary .gt | binary .ge => .comparison
  | binary .bitOr => .bitOr
  | binary .bitXor => .bitXor
  | binary .bitAnd => .bitAnd
  | binary .shiftLeft | binary .shiftRight => .shift
  | binary .concat => .concat
  | binary .add | binary .sub => .term
  | binary .mul | binary .div | binary .floorDiv | binary .mod => .factor
  | binary .pow => .power

/-- The nonterminal of what stands before a connective: the same one where connectives in a row
group to the left. -/
def left : Connective → Nonterminal
  | binary .concat => .term
  | binary .pow => .call
  | c => c.whole

/-- The nonterminal of what stands after a connective. -/
def right : Connective → Nonterminal
  | or => .and
  | and => .comparison
  | binary .eq | binary .ne | binary .lt | binary .le | binary .gt | binary .ge => .bitOr
  | binary .bitOr => .bitXor
  | binary .bitXor => .bitAnd
  | binary .bitAnd => .shift
  | binary .shiftLeft | binary .shiftRight => .concat
  | binary .concat => .concat
  | binary .add | binary .sub => .factor
  | binary .mul | binary .div | binary .floorDiv | binary .mod => .unary
  | binary .pow => .unary

end Connective

/-! ## Derivations -/

/-- The second sequence is made of the members of the first one with a comma between any two. -/
inductive CommaSeparated : List (List Lexeme) → List Lexeme → Prop
  | nil : CommaSeparated [] []
  | single (ts : List Lexeme) : CommaSeparated [ts] ts
  | cons {ts us vs : List Lexeme} {tss : List (List Lexeme)} {comma : Lexeme}
      (hc : comma.kind = .symbol .comma)
      (h : CommaSeparated (us :: tss) vs) : CommaSeparated (ts :: us :: tss) (ts ++ comma :: vs)

/-- `Derives n ts e`: the nonterminal `n` derives the lexemes `ts`, and `e` is the tree. -/
inductive Derives : Nonterminal → List Lexeme → Expr → Prop
  | lift {n m : Nonterminal} {ts : List Lexeme} {e : Expr} (hn : n.tighter? = some m)
      (h : Derives m ts e) :
      Derives n ts e
  | join {c : Connective} {mark : Lexeme} {ts us : List Lexeme} {l r : Expr}
      (hm : mark.kind = c.kind)
      (hl : Derives c.left ts l) (hr : Derives c.right us r) :
      Derives c.whole (ts ++ mark :: us) (.join c mark l r)
  | unary {op : UnaryOp} {mark : Lexeme} {ts : List Lexeme} {e : Expr} (hm : mark.kind = op.kind)
      (h : Derives .unary ts e) : Derives .unary (mark :: ts) (.unary op mark e)
  | call {paren close : Lexeme} {ts us : List Lexeme} {f : Expr} {items : List (List Lexeme × Expr)}
      (hp : paren.kind = .symbol .leftParen) (hc : close.kind = .symbol .rightParen)
      (hf : Derives .call ts f) (hi : ∀ i ∈ items, Derives .or i.1 i.2)
      (hu : CommaSeparated (items.map Prod.fst) us) :
      Derives .call (ts ++ paren :: (us ++ [close])) (.call f paren (items.map Prod.snd))
  | group {paren close : Lexeme} {ts : List Lexeme} {e : Expr}
      (hp : paren.kind = .symbol .leftParen)
      (hc : close.kind = .symbol .rightParen) (h : Derives .or ts e) :
      Derives .primary (paren :: (ts ++ [close])) (.group paren e)
  | leaf {l : Lexeme} (h : l.isLeaf = true) : Derives .primary [l] (.leaf l)

/-! ## Programs -/

/-- Whether a lexeme separates expressions. -/
def Lexeme.IsSeparator (l : Lexeme) : Prop := l.kind = .line ∨ l.kind = .symbol .semicolon

/-- `Program ts es`: the lexemes are expressions, with these trees, and separators: any number of
them at either end and at least one between two expressions. -/
inductive Program : List Lexeme → List Expr → Prop
  | nil {ss : List Lexeme} (hs : ∀ s ∈ ss, s.IsSeparator) : Program ss []
  | cons {ss ts us : List Lexeme} {e : Expr} {es : List Expr} (hs : ∀ s ∈ ss, s.IsSeparator)
      (h : Derives .or ts e) (hu : ∀ s ∈ us.head?, s.IsSeparator) (hes : Program us es) :
      Program (ss ++ (ts ++ us)) (e :: es)

end LuaExpr
