import LuaExpr.Proofs.Expr.Concatenation
/-!
# Lexemes in parentheses

Line breaks around an expression and line breaks that are dropped inside of it are told apart by the
layout at the outside of all parentheses alone. In parentheses all of them are dropped, and what is
left is the expression.

* `Layout.Balanced`: lexemes that close what they open and nothing else; `Derives.balanced` and
  `Program.balanced`.
* `Layout.Balanced.significantFrom_succ`: what the layout leaves of such lexemes in parentheses.
* `Derives.not_isLayout`: an expression has neither comments nor line breaks among its lexemes.
* `Program.enclosed`: the lexemes of one expression, in parentheses.
-/

namespace LuaExpr

/-- Whether a token can mean nothing: comments and line breaks. -/
def TokenKind.isLayout (kind : TokenKind) : Bool := kind = .comment || kind = .line

theorem TokenKind.isLayout_iff {kind : TokenKind} :
    kind.isLayout = true ↔ kind = .comment ∨ kind = .line := by
  simp [isLayout]

namespace Layout

variable {depth : Nat} {awaited : Bool} {ls ks : List Lexeme} {l : Lexeme}

/-! ## Balanced lexemes -/

/-- Lexemes that close each parenthesis that they open, and at no point one that was open before. -/
structure Balanced (ls : List Lexeme) : Prop where
  sane : ∀ us, us <+: ls → ∀ depth, depth ≤ depthAfter depth us
  settled : ∀ depth, depthAfter depth ls = depth

theorem Balanced.nil : Balanced [] := by
  refine ⟨fun us hus depth => ?_, fun _ => rfl⟩
  rw [List.prefix_nil.mp hus]
  exact Nat.le_refl _

/-- Tokens other than parentheses are balanced by themselves. -/
theorem Balanced.single (h : ∀ depth, l.kind.depthAfter depth = depth) : Balanced [l] := by
  refine ⟨fun us hus depth => ?_, h⟩
  rcases List.prefix_cons_iff.mp hus with rfl | ⟨us, rfl, hnil⟩
  · exact Nat.le_refl _
  · rw [List.prefix_nil.mp hnil]
    exact (h depth).ge

theorem Balanced.append (h : Balanced ls) (h' : Balanced ks) : Balanced (ls ++ ks) := by
  refine ⟨fun us hus depth => ?_, fun depth => by rw [depthAfter_append, h.settled, h'.settled]⟩
  rcases List.prefix_or_prefix_of_prefix hus (List.prefix_append ls ks) with hfront | ⟨vs, rfl⟩
  · exact h.sane us hfront depth
  · rw [depthAfter_append, h.settled]
    exact h'.sane vs ((List.prefix_append_right_inj ls).mp hus) depth

theorem Balanced.cons (h : ∀ depth, l.kind.depthAfter depth = depth) (h' : Balanced ls) :
    Balanced (l :: ls) :=
  (Balanced.single h).append h'

/-- Balanced lexemes in parentheses are balanced. -/
theorem Balanced.wrap {paren close : Lexeme} (hp : paren.kind = .symbol .leftParen)
    (hc : close.kind = .symbol .rightParen) (h : Balanced ls) :
    Balanced (paren :: (ls ++ [close])) := by
  have hopened : ∀ us depth, depthAfter depth (paren :: us) = depthAfter (depth + 1) us := by
    intro us depth
    rw [depthAfter_cons, hp]
    rfl
  have hclosed : ∀ depth, depthAfter depth (paren :: (ls ++ [close])) = depth := by
    intro depth
    rw [hopened, depthAfter_append, h.settled, depthAfter_cons, hc]
    rfl
  refine ⟨fun us hus depth => ?_, hclosed⟩
  rcases List.prefix_cons_iff.mp hus with rfl | ⟨us, rfl, hinside⟩
  · exact Nat.le_refl _
  rcases List.prefix_concat_iff.mp hinside with rfl | hinside
  · exact (hclosed depth).ge
  · rw [hopened]
    exact (Nat.le_succ _).trans (h.sane us hinside (depth + 1))

/-- Lexemes are balanced if those of them that mean something are. -/
theorem Balanced.of_significantFrom (h : Balanced (significantFrom depth awaited ls)) :
    Balanced ls := by
  refine ⟨fun us hus d => ?_, fun d => (depthAfter_significantFrom ls d).symm.trans (h.settled d)⟩
  obtain ⟨vs, rfl⟩ := hus
  have hus : depthAfter d (significantFrom depth awaited us) = depthAfter d us :=
    depthAfter_significantFrom us d
  rw [← hus]
  refine h.sane _ ?_ d
  rw [significantFrom_append]
  exact List.prefix_append _ _

/-! ## Inside parentheses -/

theorem isDropped_of_not_isLayout (h : l.kind.isLayout = false) :
    isDropped depth awaited l.kind = false := by
  simp only [TokenKind.isLayout, Bool.or_eq_false_iff, decide_eq_false_iff_not] at h
  exact isDropped_eq_false h.1 h.2

/-- What the layout drops are comments and line breaks. -/
theorem filter_significantFrom (ls : List Lexeme) :
    (significantFrom depth awaited ls).filter (!·.kind.isLayout) =
      ls.filter (!·.kind.isLayout) := by
  induction ls generalizing depth awaited with
  | nil => rfl
  | cons l ls ih =>
    cases hd : isDropped depth awaited l.kind with
    | true =>
      have hlayout : l.kind.isLayout = true := by
        simp only [isDropped, Bool.or_eq_true, Bool.and_eq_true, decide_eq_true_eq] at hd
        exact TokenKind.isLayout_iff.mpr (hd.imp_right And.left)
      rw [significantFrom_cons_of_isDropped _ hd, ih, List.filter_cons, hlayout]
      rfl
    | false =>
      rw [significantFrom_cons_of_not_isDropped _ hd, List.filter_cons, List.filter_cons, ih]

/-- As long as a parenthesis is open, all comments and line breaks are dropped. -/
theorem significantFrom_of_inside (h : ∀ us, us <+: ls → 0 < depthAfter depth us) :
    significantFrom depth awaited ls = ls.filter (!·.kind.isLayout) := by
  induction ls generalizing depth awaited with
  | nil => rfl
  | cons l ls ih =>
    have hdepth : 0 < depth := h [] List.nil_prefix
    have hrest : ∀ us, us <+: ls → 0 < depthAfter (l.kind.depthAfter depth) us := fun us hus =>
      h (l :: us) (List.cons_prefix_cons.mpr ⟨rfl, hus⟩)
    cases hl : l.kind.isLayout with
    | true =>
      have hkind := TokenKind.isLayout_iff.mp hl
      have hdropped : isDropped depth awaited l.kind = true := by
        rcases hkind with hk | hk <;> simp [isDropped, hk, hdepth]
      have hsame : l.kind.depthAfter depth = depth := by
        rcases hkind with hk | hk <;> rw [hk] <;> rfl
      rw [significantFrom_cons_of_isDropped _ hdropped, ih (hsame ▸ hrest), List.filter_cons, hl]
      rfl
    | false =>
      rw [significantFrom_cons_of_not_isDropped _ (isDropped_of_not_isLayout hl), ih hrest,
        List.filter_cons, hl]
      rfl

/-- In parentheses all comments and line breaks among balanced lexemes are dropped. -/
theorem Balanced.significantFrom_succ (h : Balanced ls) (depth : Nat) (awaited : Bool) :
    significantFrom (depth + 1) awaited ls = ls.filter (!·.kind.isLayout) :=
  significantFrom_of_inside fun us hus => (Nat.succ_pos depth).trans_le (h.sane us hus (depth + 1))

end Layout

/-! ## Expressions -/

section Expressions

open Layout

variable {n : Nonterminal} {ts us : List Lexeme} {e : Expr} {es : List Expr}
  {tss : List (List Lexeme)}

theorem CommaSeparated.balanced (h : CommaSeparated tss us) (hts : ∀ ts ∈ tss, Balanced ts) :
    Balanced us := by
  induction h with
  | nil => exact .nil
  | single ts => exact hts ts (by simp)
  | @cons ts us vs tss comma hc _ ih =>
    have hcomma : ∀ depth, comma.kind.depthAfter depth = depth := by
      rw [hc]
      exact fun _ => rfl
    exact (hts ts (by simp)).append (.cons hcomma (ih fun ts' h' =>
      hts ts' (List.mem_cons_of_mem _ h')))

/-- **Expressions are balanced.** -/
theorem Derives.balanced (h : Derives n ts e) : Balanced ts := by
  induction h with
  | lift _ _ ih => exact ih
  | @join c _ _ _ _ _ hm _ _ ihl ihr => exact ihl.append (.cons (hm ▸ c.depthAfter_kind) ihr)
  | @unary op _ _ _ hm _ ih => exact .cons (hm ▸ op.depthAfter_kind) ih
  | @call paren close ts us f items hp hc _ _ hu ihf ihi =>
    refine ihf.append (.wrap hp hc (hu.balanced fun ts hts => ?_))
    obtain ⟨i, hi, rfl⟩ := List.mem_map.mp hts
    exact ihi i hi
  | group hp hc _ ih => exact .wrap hp hc ih
  | leaf h => exact .single (Lexeme.depthAfter_of_isLeaf h)

theorem Layout.balanced_separators {ss : List Lexeme} (h : ∀ s ∈ ss, s.IsSeparator) :
    Balanced ss := by
  induction ss with
  | nil => exact .nil
  | cons s ss ih =>
    have hs : ∀ depth, s.kind.depthAfter depth = depth := by
      rcases h s (by simp) with hs | hs <;> rw [hs] <;> exact fun _ => rfl
    exact .cons hs (ih fun k hk => h k (List.mem_cons_of_mem _ hk))

theorem Program.balanced (h : Program ts es) : Balanced ts := by
  induction h with
  | nil hs => exact balanced_separators hs
  | cons hs he _ _ ih => exact (balanced_separators hs).append (he.balanced.append ih)

theorem CommaSeparated.not_isLayout (h : CommaSeparated tss us)
    (hts : ∀ ts ∈ tss, ∀ l ∈ ts, l.kind.isLayout = false) :
    ∀ l ∈ us, l.kind.isLayout = false := by
  induction h with
  | nil => simp
  | single ts => exact hts ts (by simp)
  | @cons ts us vs tss comma hc _ ih =>
    refine List.forall_mem_append.mpr ⟨hts ts (by simp), List.forall_mem_cons.mpr ⟨?_, ?_⟩⟩
    · rw [hc]
      rfl
    · exact ih fun ts' h' => hts ts' (List.mem_cons_of_mem _ h')

/-- An expression has neither comments nor line breaks among its lexemes. -/
theorem Derives.not_isLayout (h : Derives n ts e) : ∀ l ∈ ts, l.kind.isLayout = false := by
  induction h with
  | lift _ _ ih => exact ih
  | @join c _ _ _ _ _ hm _ _ ihl ihr =>
    refine List.forall_mem_append.mpr ⟨ihl, List.forall_mem_cons.mpr ⟨?_, ihr⟩⟩
    rw [hm]
    cases c <;> rfl
  | @unary op _ _ _ hm _ ih =>
    refine List.forall_mem_cons.mpr ⟨?_, ih⟩
    rw [hm]
    cases op <;> rfl
  | @call paren close ts us f items hp hc _ _ hu ihf ihi =>
    have hus : ∀ l ∈ us, l.kind.isLayout = false := by
      refine hu.not_isLayout fun ts hts => ?_
      obtain ⟨i, hi, rfl⟩ := List.mem_map.mp hts
      exact ihi i hi
    simp only [List.forall_mem_append, List.forall_mem_cons, hp, hc]
    exact ⟨ihf, rfl, hus, rfl, List.forall_mem_nil _⟩
  | group hp hc _ ih =>
    simp only [List.forall_mem_append, List.forall_mem_cons, hp, hc]
    exact ⟨rfl, ih, rfl, List.forall_mem_nil _⟩
  | @leaf l h =>
    refine List.forall_mem_singleton.mpr ?_
    cases hl : l.kind.isLayout with
    | false => rfl
    | true =>
      rcases TokenKind.isLayout_iff.mp hl with hk | hk <;> simp [Lexeme.isLeaf, hk] at h

end Expressions

/-! ## One expression -/

section One

open Layout

variable {ls ts : List Lexeme} {e : Expr} {paren close : Lexeme}

/-- One expression stands among separators. -/
theorem Program.exists_of_singleton (h : Program ts [e]) :
    ∃ ss us vs : List Lexeme, ts = ss ++ (us ++ vs) ∧
    (∀ s ∈ ss, s.IsSeparator) ∧ Derives .or us e ∧ ∀ s ∈ vs, s.IsSeparator := by
  cases h with
  | cons hs he _ hes =>
    cases hes with
    | nil hv => exact ⟨_, _, _, rfl, hs, he, hv⟩

/-- What the layout leaves of the lexemes of one expression in parentheses, if no semicolon is among
them. -/
theorem Program.derives_significantFrom_succ (h : Program (significant ls) [e])
    (hsemicolon : ∀ l ∈ ls, l.kind ≠ .symbol .semicolon) (depth : Nat) (awaited : Bool) :
    Derives .or (significantFrom (depth + 1) awaited ls) e := by
  obtain ⟨ss, us, vs, hls, hss, he, hvs⟩ := h.exists_of_singleton
  have hlines : ∀ {ks : List Lexeme}, (∀ s ∈ ks, s.IsSeparator) → (∀ s ∈ ks, s ∈ significant ls) →
      ks.filter (!·.kind.isLayout) = [] := by
    intro ks hks hmem
    refine List.filter_eq_nil_iff.mpr fun s hs => ?_
    rcases hks s hs with hk | hk
    · simp [hk, TokenKind.isLayout]
    · exact absurd hk (hsemicolon s (mem_of_mem_significantFrom (hmem s hs)))
  have hfilter : ls.filter (!·.kind.isLayout) = us := by
    have hus : us.filter (!·.kind.isLayout) = us :=
      List.filter_eq_self.mpr (by simpa using he.not_isLayout)
    have hsame : (significant ls).filter (!·.kind.isLayout) = ls.filter (!·.kind.isLayout) :=
      filter_significantFrom ls
    rw [← hsame, hls, List.filter_append, List.filter_append,
      hlines hss fun s hs => by simp [hls, hs], hus,
      hlines hvs fun s hs => by simp [hls, hs], List.nil_append, List.append_nil]
  rw [(Balanced.of_significantFrom h.balanced).significantFrom_succ, hfilter]
  exact he

/-- **One expression in parentheses** is one expression, whatever line breaks there are inside and
around it. -/
theorem Program.enclosed (h : Program (significant ls) [e])
    (hsemicolon : ∀ l ∈ ls, l.kind ≠ .symbol .semicolon)
    (hp : paren.kind = .symbol .leftParen) (hc : close.kind = .symbol .rightParen) :
    Program (significant (paren :: (ls ++ [close]))) [.group paren e] := by
  have hopen : isDropped 0 false paren.kind = false := by
    rw [hp]
    rfl
  have hclose : ∀ depth awaited, isDropped depth awaited close.kind = false := by
    rw [hc]
    exact fun _ _ => rfl
  have hdepth : paren.kind.depthAfter 0 = 0 + 1 := by
    rw [hp]
    rfl
  rw [significant, significantFrom_cons_of_not_isDropped _ hopen, significantFrom_append,
    significantFrom_cons_of_not_isDropped _ (hclose _ _), significantFrom_nil, hdepth]
  have hgroup :=
    Derives.group hp hc (h.derives_significantFrom_succ hsemicolon 0 paren.kind.awaitsOperand)
  have hprogram : Program ([] ++ (_ ++ [])) [.group paren e] :=
    .cons (by simp) (hgroup.mono (by decide)) (by simp) (.nil (by simp))
  simpa using hprogram

end One

end LuaExpr
