import LuaExpr.Proofs.Expr.Code
import LuaExpr.Proofs.Expr.Grammar
import LuaExpr.Proofs.Expr.Layout
/-!
# Leaves

The literals and names of a program are those of its source, in the same order: a tree loses no
lexeme that refers to a constant, and neither does the layout.

* `Program.leaves_eq`: the leaves of a program are the leaves among its lexemes.
* `Layout.filter_isLeaf_significant`: they are all leaves of the source.
* `StringLiteral.isSome_toOption_decode`: a string literal has a value if each of its escapes is a
  known one.
-/

namespace LuaExpr

/-! ## Lexemes that are no leaves -/

namespace Lexeme

variable {l : Lexeme}

theorem constant?_eq_none (h : l.isLeaf = false) : l.constant? = none := by
  unfold isLeaf at h
  unfold constant?
  split at h
  case h_7 => split <;> simp_all
  all_goals cases h

theorem isLeaf_of_connective {c : Connective} (h : l.kind = c.kind) : l.isLeaf = false := by
  cases c with
  | binary op => cases op <;> simp [isLeaf, h, Connective.kind, BinaryOp.symbol]
  | _ => simp [isLeaf, h, Connective.kind]

theorem isLeaf_of_unaryOp {op : UnaryOp} (h : l.kind = op.kind) : l.isLeaf = false := by
  cases op <;> simp [isLeaf, h, UnaryOp.kind]

theorem isLeaf_of_symbol {s : Symbol} (h : l.kind = .symbol s) : l.isLeaf = false := by
  simp [isLeaf, h]

theorem IsSeparator.isLeaf (h : l.IsSeparator) : l.isLeaf = false := by
  rcases h with h | h <;> simp [Lexeme.isLeaf, h]

/-- The constants of some lexemes are those of their leaves. -/
theorem filterMap_constant?_filter_isLeaf (ls : List Lexeme) :
    (ls.filter Lexeme.isLeaf).filterMap Lexeme.constant? = ls.filterMap Lexeme.constant? := by
  induction ls with
  | nil => rfl
  | cons l ls ih =>
    cases h : l.isLeaf with
    | false =>
      rw [List.filter_cons_of_neg (by simp [h]), List.filterMap_cons_none (constant?_eq_none h), ih]
    | true => rw [List.filter_cons_of_pos h, List.filterMap_cons, List.filterMap_cons, ih]

end Lexeme

/-! ## Leaves of trees -/

theorem Derives.leaves_eq {n : Nonterminal} {ts : List Lexeme} {e : Expr} (h : Derives n ts e) :
    e.leaves = ts.filter Lexeme.isLeaf := by
  induction h with
  | lift _ _ ih => exact ih
  | join hm _ _ ihl ihr => simp [Expr.leaves, ihl, ihr, Lexeme.isLeaf_of_connective hm]
  | unary hm _ ih => simp [Expr.leaves, ih, Lexeme.isLeaf_of_unaryOp hm]
  | @call paren close ts us f items hp hc _ hi hu ihf ihi =>
    have hargs : Expr.leavesAll (items.map Prod.snd) = us.filter Lexeme.isLeaf := by
      clear hi
      induction items generalizing us with
      | nil => cases hu; rfl
      | cons i items ih =>
        have hi := ihi i (by simp)
        cases items with
        | nil => cases hu; simp [Expr.leavesAll, hi]
        | cons k items =>
          cases hu with
          | cons hcomma hrest =>
            have hrest := ih hrest fun m hm => ihi m (by simp [hm])
            rw [List.map_cons, Expr.leavesAll, hi, hrest]
            simp [Lexeme.isLeaf_of_symbol hcomma]
    simp [Expr.leaves, ihf, hargs, Lexeme.isLeaf_of_symbol hp, Lexeme.isLeaf_of_symbol hc]
  | group hp hc _ ih =>
    simp [Expr.leaves, ih, Lexeme.isLeaf_of_symbol hp, Lexeme.isLeaf_of_symbol hc]
  | leaf h => simp [Expr.leaves, h]

theorem filter_isLeaf_separators {ss : List Lexeme} (h : ∀ s ∈ ss, s.IsSeparator) :
    ss.filter Lexeme.isLeaf = [] := by
  rw [List.filter_eq_nil_iff]
  intro s hs
  simp [(h s hs).isLeaf]

theorem Program.leaves_eq {ts : List Lexeme} {es : List Expr} (h : Program ts es) :
    Expr.leavesAll es = ts.filter Lexeme.isLeaf := by
  induction h with
  | nil hs => rw [filter_isLeaf_separators hs, Expr.leavesAll]
  | cons hs hder _ _ ih =>
    rw [Expr.leavesAll, hder.leaves_eq, ih, List.filter_append, List.filter_append,
      filter_isLeaf_separators hs, List.nil_append]

/-- The layout drops no leaves. -/
theorem Layout.filter_isLeaf_significant (ls : List Lexeme) :
    (Layout.significant ls).filter Lexeme.isLeaf = ls.filter Lexeme.isLeaf := by
  have h : ∀ depth awaited,
      (Layout.significantFrom depth awaited ls).filter Lexeme.isLeaf = ls.filter Lexeme.isLeaf := by
    induction ls with
    | nil => intro depth awaited; rfl
    | cons l ls ih =>
      intro depth awaited
      by_cases hd : Layout.isDropped depth awaited l.kind = true
      · have hl : l.isLeaf = false := by
          simp only [Layout.isDropped, Bool.or_eq_true, Bool.and_eq_true, decide_eq_true_eq] at hd
          rcases hd with hk | ⟨hk, -⟩ <;> simp [Lexeme.isLeaf, hk]
        rw [Layout.significantFrom_cons_of_isDropped _ hd, ih,
          List.filter_cons_of_neg (by simp [hl])]
      · rw [Layout.significantFrom_cons_of_not_isDropped _ (by simpa using hd), List.filter_cons,
          List.filter_cons, ih]
  exact h 0 false

/-! ## Literals with a value -/

/-- Pieces stand for a text if each of them stands for a character. -/
theorem Piece.isSome_decodeAll_go {offset : Nat} {found : List Char} {pieces : List Piece} :
    (Piece.decodeAll.go offset found pieces).toOption.isSome = true ↔
      ∀ p ∈ pieces, p.decode?.isSome = true := by
  induction pieces generalizing offset found with
  | nil => simp [Piece.decodeAll.go, Except.toOption]
  | cons p pieces ih =>
    unfold Piece.decodeAll.go
    split
    case h_1 c hc => simp [ih, hc]
    case h_2 mark rest hnone => simp [hnone, Except.toOption]
    case h_3 _ _ hnone => simp [hnone, Except.toOption]

theorem StringLiteral.isSome_toOption_decode (offset : Nat) (literal : List Char) :
    (StringLiteral.decode offset literal).toOption.isSome = true ↔
      ∀ p ∈ Piece.ofBody (StringLiteral.body literal), p.decode?.isSome = true :=
  Piece.isSome_decodeAll_go

/-- A literal has a value: number literals that are numerals, and string literals whose escapes are
known. -/
theorem Lexeme.isValid_iff {l : Lexeme} (hl : l.isLeaf = true)
    (hn : l.kind = .number → (Decimal.ofNumeral? l.text).isSome = true) :
    l.IsValid ↔ (l.kind = .string →
      ∀ p ∈ Piece.ofBody (StringLiteral.body l.text), p.decode?.isSome = true) := by
  rw [← StringLiteral.isSome_toOption_decode l.start]
  constructor
  · intro h hk
    simpa [Lexeme.constant?, hk] using h.constant (.inr hk)
  · refine fun h => ⟨hl, ?_⟩
    rintro (hk | hk)
    · simpa [Lexeme.constant?, hk] using hn hk
    · simpa [Lexeme.constant?, hk] using h hk

end LuaExpr
