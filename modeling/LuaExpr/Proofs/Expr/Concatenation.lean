import LuaExpr.Proofs.Expr.Layout
import LuaExpr.Proofs.Expr.Unambiguity
/-!
# Programs in a row

The layout has a state: the number of open parentheses, and whether an operand is awaited. An
expression closes what it opens and ends with an operand, so that a program leaves the layout as it
was at the start of the source.

* `Layout.significantFrom_append`: the layout of lexemes in a row.
* `Program.depthAfter` and `Program.awaitedAfter`: the state of the layout after a program.
* `Program.append`: two programs with a separator between them are one program.
* `Program.significant_append`: the same for the lexemes of two sources.
-/

namespace LuaExpr

/-! ## The state of the layout -/

namespace Layout

/-- The number of open parentheses after some lexemes. -/
def depthAfter (depth : Nat) (ls : List Lexeme) : Nat :=
  ls.foldl (fun n l => l.kind.depthAfter n) depth

/-- Whether an operand is awaited after some lexemes. -/
def awaitedAfter (awaited : Bool) (ls : List Lexeme) : Bool :=
  ls.foldl (fun _ l => l.kind.awaitsOperand) awaited

variable {depth : Nat} {awaited : Bool}

theorem depthAfter_cons (l : Lexeme) (ls : List Lexeme) :
    depthAfter depth (l :: ls) = depthAfter (l.kind.depthAfter depth) ls := rfl

theorem depthAfter_append (ls ks : List Lexeme) :
    depthAfter depth (ls ++ ks) = depthAfter (depthAfter depth ls) ks :=
  List.foldl_append

theorem awaitedAfter_append (ls ks : List Lexeme) :
    awaitedAfter awaited (ls ++ ks) = awaitedAfter (awaitedAfter awaited ls) ks :=
  List.foldl_append

theorem significantFrom_append (ls ks : List Lexeme) : significantFrom depth awaited (ls ++ ks) =
    significantFrom depth awaited ls ++
      significantFrom (depthAfter depth (significantFrom depth awaited ls))
      (awaitedAfter awaited (significantFrom depth awaited ls)) ks := by
  induction ls generalizing depth awaited with
  | nil => rfl
  | cons l ls ih =>
    by_cases hd : isDropped depth awaited l.kind = true
    · rw [List.cons_append, significantFrom_cons_of_isDropped _ hd,
        significantFrom_cons_of_isDropped _ hd, ih]
    · have hd : isDropped depth awaited l.kind = false := by simpa using hd
      rw [List.cons_append, significantFrom_cons_of_not_isDropped _ hd,
        significantFrom_cons_of_not_isDropped _ hd, ih]
      rfl

/-- Lexemes that mean nothing open and close no parentheses. -/
theorem depthAfter_significantFrom (ls : List Lexeme) (d : Nat) :
    depthAfter d (significantFrom depth awaited ls) = depthAfter d ls := by
  induction ls generalizing depth awaited d with
  | nil => rfl
  | cons l ls ih =>
    by_cases hdropped : isDropped depth awaited l.kind = true
    · have hkind : l.kind = .comment ∨ l.kind = .line := by
        simp only [isDropped, Bool.or_eq_true, Bool.and_eq_true, decide_eq_true_eq] at hdropped
        exact hdropped.imp_right And.left
      have hdepth : l.kind.depthAfter d = d := by
        rcases hkind with hk | hk <;> rw [hk] <;> rfl
      rw [significantFrom_cons_of_isDropped _ hdropped, ih, depthAfter_cons, hdepth]
    · rw [significantFrom_cons_of_not_isDropped _ (by simpa using hdropped), depthAfter_cons, ih,
        depthAfter_cons]

theorem mem_of_mem_significantFrom {l : Lexeme} {ls : List Lexeme}
    (h : l ∈ significantFrom depth awaited ls) :
    l ∈ ls := by
  induction ls generalizing depth awaited with
  | nil => exact h
  | cons k ls ih =>
    rw [significantFrom] at h
    split at h
    · exact List.mem_cons_of_mem _ (ih h)
    · rcases List.mem_cons.mp h with rfl | h
      · exact List.mem_cons_self
      · exact List.mem_cons_of_mem _ (ih h)

end Layout

/-! ## Expressions -/

section Expressions

variable {n : Nonterminal} {ts us : List Lexeme} {e : Expr} {l : Lexeme}

theorem Lexeme.depthAfter_of_isLeaf (h : l.isLeaf = true) (depth : Nat) :
    l.kind.depthAfter depth = depth := by
  unfold isLeaf at h
  split at h
  case h_7 => cases h
  all_goals simp_all [TokenKind.depthAfter]

theorem Lexeme.awaitsOperand_of_isLeaf (h : l.isLeaf = true) : l.kind.awaitsOperand = false := by
  unfold isLeaf at h
  split at h
  case h_7 => cases h
  all_goals simp_all [TokenKind.awaitsOperand]

theorem Connective.depthAfter_kind (c : Connective) (depth : Nat) :
    c.kind.depthAfter depth = depth := by
  cases c with
  | binary op => cases op <;> rfl
  | _ => rfl

theorem UnaryOp.depthAfter_kind (op : UnaryOp) (depth : Nat) :
    op.kind.depthAfter depth = depth := by
  cases op <;> rfl

theorem CommaSeparated.depthAfter {tss : List (List Lexeme)} (h : CommaSeparated tss us)
    (hts : ∀ ts ∈ tss, ∀ depth, Layout.depthAfter depth ts = depth) (depth : Nat) :
    Layout.depthAfter depth us = depth := by
  induction h with
  | nil => rfl
  | single ts => exact hts ts (by simp) depth
  | @cons ts us vs tss comma hc h ih =>
    have hcomma : comma.kind.depthAfter depth = depth := by
      rw [hc]
      rfl
    rw [Layout.depthAfter_append, hts ts (by simp), Layout.depthAfter_cons, hcomma]
    exact ih fun ts' h' => hts ts' (List.mem_cons_of_mem _ h')

/-- An expression closes each parenthesis that it opens, and no other one. -/
theorem Derives.depthAfter (h : Derives n ts e) (depth : Nat) :
    Layout.depthAfter depth ts = depth := by
  induction h generalizing depth with
  | lift _ _ ih => exact ih depth
  | @join c mark _ _ _ _ hm _ _ ihl ihr =>
    rw [Layout.depthAfter_append, ihl, Layout.depthAfter_cons, hm, c.depthAfter_kind, ihr]
  | @unary op mark _ _ hm _ ih => rw [Layout.depthAfter_cons, hm, op.depthAfter_kind, ih]
  | @call paren close ts us f items hp hc _ _ hu ihf ihi =>
    have hus := hu.depthAfter (fun ts hts => by
      obtain ⟨i, hi, rfl⟩ := List.mem_map.mp hts
      exact ihi i hi) (depth + 1)
    rw [Layout.depthAfter_append, ihf, Layout.depthAfter_cons, hp, Layout.depthAfter_append]
    show Layout.depthAfter (Layout.depthAfter (depth + 1) us) [close] = depth
    rw [hus, Layout.depthAfter_cons, hc]
    rfl
  | @group paren close ts e hp hc _ ih =>
    rw [Layout.depthAfter_cons, hp, Layout.depthAfter_append]
    show Layout.depthAfter (Layout.depthAfter (depth + 1) ts) [close] = depth
    rw [ih, Layout.depthAfter_cons, hc]
    rfl
  | leaf h => exact Lexeme.depthAfter_of_isLeaf h depth

/-- Whether an expression may end with a lexeme. -/
def Lexeme.Ends (l : Lexeme) : Prop := l.isLeaf = true ∨ l.kind = .symbol .rightParen

theorem Lexeme.Ends.not_isSeparator (h : l.Ends) : ¬ l.IsSeparator := by
  rintro (hs | hs) <;> rcases h with h | h <;> simp [Lexeme.isLeaf, hs] at h

theorem Lexeme.Ends.awaitsOperand (h : l.Ends) : l.kind.awaitsOperand = false := by
  rcases h with h | h
  · exact awaitsOperand_of_isLeaf h
  · rw [h]
    rfl

theorem Derives.exists_ends (h : Derives n ts e) : ∃ us l, ts = us ++ [l] ∧ l.Ends := by
  induction h with
  | lift _ _ ih => exact ih
  | @join _ mark ts _ _ _ _ _ _ _ ihr =>
    obtain ⟨us, l, rfl, hl⟩ := ihr
    exact ⟨ts ++ mark :: us, l, by simp, hl⟩
  | @unary _ mark _ _ _ _ ih =>
    obtain ⟨us, l, rfl, hl⟩ := ih
    exact ⟨mark :: us, l, rfl, hl⟩
  | @call paren close ts us _ _ _ hc _ _ _ _ _ => exact ⟨ts ++ paren :: us, close, by simp, .inr hc⟩
  | @group paren close ts _ _ hc _ _ => exact ⟨paren :: ts, close, rfl, .inr hc⟩
  | @leaf l h => exact ⟨[], l, rfl, .inl h⟩

theorem Derives.awaitedAfter (h : Derives n ts e) (awaited : Bool) :
    Layout.awaitedAfter awaited ts = false := by
  obtain ⟨us, l, rfl, hl⟩ := h.exists_ends
  rw [Layout.awaitedAfter_append]
  exact hl.awaitsOperand

end Expressions

/-! ## Programs -/

section Programs

variable {ts us ss : List Lexeme} {es ds : List Expr} {l : Lexeme}

theorem Layout.depthAfter_separators (h : ∀ s ∈ ss, s.IsSeparator) (depth : Nat) :
    Layout.depthAfter depth ss = depth := by
  induction ss with
  | nil => rfl
  | cons s ss ih =>
    have hs : s.kind.depthAfter depth = depth := by
      rcases h s (by simp) with hs | hs <;> rw [hs] <;> rfl
    rw [Layout.depthAfter_cons, hs, ih fun k hk => h k (by simp [hk])]

theorem Layout.awaitedAfter_separators (h : ∀ s ∈ ss, s.IsSeparator) :
    Layout.awaitedAfter false ss = false := by
  induction ss with
  | nil => rfl
  | cons s ss ih =>
    have hs : s.kind.awaitsOperand = false := by
      rcases h s (by simp) with hs | hs <;> rw [hs] <;> rfl
    show Layout.awaitedAfter s.kind.awaitsOperand ss = false
    rw [hs, ih fun k hk => h k (by simp [hk])]

namespace Program

theorem depthAfter (h : Program ts es) (depth : Nat) : Layout.depthAfter depth ts = depth := by
  induction h with
  | nil hs => exact Layout.depthAfter_separators hs depth
  | cons hs h _ _ ih =>
    rw [Layout.depthAfter_append, Layout.depthAfter_append, Layout.depthAfter_separators hs,
      h.depthAfter, ih]

theorem awaitedAfter (h : Program ts es) : Layout.awaitedAfter false ts = false := by
  induction h with
  | nil hs => exact Layout.awaitedAfter_separators hs
  | cons hs h _ _ ih =>
    rw [Layout.awaitedAfter_append, Layout.awaitedAfter_append, h.awaitedAfter, ih]

/-- Separators in front of a program belong to it. -/
theorem separators_append (hs : ∀ s ∈ ss, s.IsSeparator) (h : Program ts es) :
    Program (ss ++ ts) es := by
  have hall : ∀ {ks : List Lexeme}, (∀ s ∈ ks, s.IsSeparator) → ∀ s ∈ ss ++ ks, s.IsSeparator := by
    intro ks hk s hmem
    rcases List.mem_append.mp hmem with hmem | hmem
    · exact hs s hmem
    · exact hk s hmem
  cases h with
  | nil hk => exact .nil (hall hk)
  | cons hk h hu hes =>
    rw [← List.append_assoc]
    exact .cons (hall hk) h hu hes

/-- Two programs with a separator between them are one program. -/
theorem append (h : Program ts es) (hl : l.IsSeparator) (h' : Program us ds) :
    Program (ts ++ l :: us) (es ++ ds) := by
  induction h with
  | nil hs =>
    have hfront : ∀ s ∈ [l], s.IsSeparator := by simpa using hl
    exact separators_append hs (separators_append hfront h')
  | @cons ss ts vs e es hs he hv _ ih =>
    rw [List.append_assoc, List.append_assoc]
    refine .cons hs he ?_ ih
    cases vs with
    | nil =>
      rintro s ⟨⟩
      exact hl
    | cons v vs => exact hv

theorem of_concat_separator (hl : l.IsSeparator) (h : Program (ts ++ [l]) es) : Program ts es := by
  generalize hks : ts ++ [l] = ks at h
  induction h generalizing ts with
  | nil hs => exact .nil fun s hmem => hs s (by simp [← hks, hmem])
  | @cons ss us vs e es hs he hv hes ih =>
    rcases List.eq_nil_or_concat' vs with rfl | ⟨vs, k, rfl⟩
    · obtain ⟨us, k, rfl, hk⟩ := he.exists_ends
      rw [List.append_nil, ← List.append_assoc] at hks
      obtain rfl : l = k := by simpa using (List.append_inj' hks rfl).2
      exact absurd hl hk.not_isSeparator
    · rw [← List.append_assoc, ← List.append_assoc] at hks
      obtain ⟨rfl, hk⟩ := List.append_inj' hks rfl
      rw [List.append_assoc]
      refine .cons hs he (fun s hmem => hv s ?_) (ih (by rw [hk]))
      cases vs with
      | nil => cases hmem
      | cons v vs => exact hmem

/-- A program goes without the separators at its end. -/
theorem of_append_separators (hs : ∀ s ∈ ss, s.IsSeparator) (h : Program (ts ++ ss) es) :
    Program ts es := by
  induction ss using List.reverseRecOn with
  | nil => rwa [List.append_nil] at h
  | append_singleton ss s ih =>
    rw [← List.append_assoc] at h
    exact ih (fun k hk => hs k (by simp [hk])) (h.of_concat_separator (hs s (by simp)))

/-- The lexemes of two sources with a line break between them, which may be one that the first
source had at its end. -/
theorem significant_append {front last more : List Lexeme} {br : Lexeme}
    (h : Program (Layout.significant (front ++ last)) es) (hlast : ∀ l ∈ last, l.kind = .line)
    (hbr : br.kind = .line) (h' : Program (Layout.significant more) ds) :
    Program (Layout.significant (front ++ br :: more)) (es ++ ds) := by
  rw [Layout.significant, Layout.significantFrom_append] at h
  have hfront :=
    h.of_append_separators fun l hl => .inl (hlast l (Layout.mem_of_mem_significantFrom hl))
  have hbreak : Layout.significantFrom 0 false (br :: more) = br :: Layout.significant more := by
    rw [Layout.significantFrom_cons_of_not_isDropped more (by rw [hbr]; rfl), hbr]
    rfl
  rw [Layout.significant, Layout.significantFrom_append, hfront.depthAfter,
    hfront.awaitedAfter, hbreak]
  exact hfront.append (.inl hbr) h'

end Program

end Programs

end LuaExpr
