import LuaExpr.Proofs.Expr.Spine
/-!
# Unambiguity

A sequence of lexemes has at most one tree. The proof compares two spines over the same lexemes from
the left: the heads are told apart by their first lexeme, the joints by theirs, and each right
operand is shorter than the whole.

* `Derives.unique`: two expressions at one level that begin at the same place and are stopped by
  what follows are the same expression and end at the same place.
* `Program.unique`: a sequence of lexemes is one program at most.
-/

namespace LuaExpr

/-! ## First lexemes -/

/-- Whether an operand may begin with a lexeme. -/
def Lexeme.Begins (l : Lexeme) : Prop :=
  l.isLeaf = true ∨ l.kind = .symbol .leftParen ∨ ∃ op : UnaryOp, l.kind = op.kind

theorem Derives.exists_begins {n : Nonterminal} {ts : List Lexeme} {e : Expr} (h : Derives n ts e) :
    ∃ l ls, ts = l :: ls ∧ l.Begins := by
  induction h with
  | lift _ _ ih => exact ih
  | join _ _ _ ihl _ =>
    obtain ⟨l, ls, rfl, hl⟩ := ihl
    exact ⟨l, _, rfl, hl⟩
  | unary hm _ _ => exact ⟨_, _, rfl, .inr (.inr ⟨_, hm⟩)⟩
  | call _ _ _ _ _ ihf _ =>
    obtain ⟨l, ls, rfl, hl⟩ := ihf
    exact ⟨l, _, rfl, hl⟩
  | group hp _ _ _ => exact ⟨_, _, rfl, .inr (.inl hp)⟩
  | leaf h => exact ⟨_, _, rfl, .inl h⟩

theorem Derives.start_eq {n : Nonterminal} {ts : List Lexeme} {e : Expr} (h : Derives n ts e) :
    ∀ l ∈ ts.head?, e.start = l.start := by
  induction h with
  | lift _ _ ih => exact ih
  | @join c mark ts us l r hm hl hr ihl _ =>
    obtain ⟨k, ls, rfl, -⟩ := hl.exists_begins
    exact ihl
  | unary hm _ _ =>
    rintro l ⟨⟩
    rfl
  | @call paren close ts us f items hp hc hf hi hu ihf _ =>
    obtain ⟨k, ls, rfl, -⟩ := hf.exists_begins
    exact ihf
  | group hp _ _ _ =>
    rintro l ⟨⟩
    rfl
  | leaf h =>
    rintro l ⟨⟩
    rfl

theorem Arguments.exists_begins {ts : List Lexeme} {args : List Expr} (h : Arguments ts args)
    (hne : args ≠ []) :
    ∃ l ls, ts = l :: ls ∧ l.Begins := by
  rcases h.cases with ⟨-, rfl⟩ | ⟨e, -, he⟩ | ⟨us, vs, comma, e, es, rfl, -, -, he, -⟩
  · exact absurd rfl hne
  · exact he.exists_begins
  · obtain ⟨l, ls, rfl, hl⟩ := he.exists_begins
    exact ⟨l, _, rfl, hl⟩

/-- No operand begins with a closing parenthesis, a separator or the end of the source. -/
theorem Lexeme.Begins.kind_ne {l : Lexeme} (h : l.Begins) :
    l.kind ≠ .symbol .rightParen ∧ l.kind ≠ .line ∧ l.kind ≠ .symbol .semicolon ∧
      l.kind ≠ .eof := by
  rcases h with h | h | ⟨op, h⟩
  · unfold Lexeme.isLeaf at h
    split at h <;> simp_all
  · simp [h]
  · cases op <;> simp [h, UnaryOp.kind]

theorem Lexeme.Begins.not_isSeparator {l : Lexeme} (h : l.Begins) : ¬ l.IsSeparator := by
  rintro (hl | hs)
  · exact h.kind_ne.2.1 hl
  · exact h.kind_ne.2.2.1 hs

/-- The first lexeme of a head decides its kind: leaves, parentheses and unary operators are
different tokens. -/
theorem Lexeme.isLeaf_exclusive {l : Lexeme} (h : l.isLeaf = true) :
    l.kind ≠ .symbol .leftParen ∧ ∀ op : UnaryOp, l.kind ≠ op.kind := by
  obtain ⟨hu, hp⟩ := Lexeme.not_operator_of_isLeaf h
  refine ⟨hp, fun op hop => ?_⟩
  rw [hop, UnaryOp.unaryOp?_kind] at hu
  cases hu

theorem UnaryOp.kind_ne_leftParen (op : UnaryOp) : op.kind ≠ .symbol .leftParen := by
  cases op <;> decide

theorem Connective.kind_ne_leftParen (c : Connective) : c.kind ≠ .symbol .leftParen := by
  cases c with
  | binary op => cases op <;> decide
  | _ => decide

/-! ## Comparing spines -/

/-- Expressions over at most so many lexemes, those that follow included, are unique. -/
def UniqueUpTo (n : Nat) : Prop :=
  ∀ {p : Precedence} {ts us rs ss : List Lexeme} {d e : Expr}, (ts ++ rs).length ≤ n →
    Derives p.nonterminal ts d → Derives p.nonterminal us e → Stops p rs → Stops p ss →
    ts ++ rs = us ++ ss → d = e ∧ rs = ss

section Compare

variable {n : Nat} (hn : UniqueUpTo n)
include hn

theorem Head.unique {ts us rs ss : List Lexeme} {d e : Expr} (hd : Head ts d rs) (he : Head us e ss)
    (h : ts ++ rs = us ++ ss) (hlen : (ts ++ rs).length ≤ n + 1) : d = e ∧ rs = ss := by
  cases hd with
  | leaf hl =>
    cases he with
    | leaf hl' =>
      obtain ⟨rfl, rfl⟩ := List.cons_eq_cons.mp h
      exact ⟨rfl, rfl⟩
    | group hp _ _ => exact absurd ((List.cons_eq_cons.mp h).1 ▸ hp) (Lexeme.isLeaf_exclusive hl).1
    | unary hm _ _ =>
      exact absurd ((List.cons_eq_cons.mp h).1 ▸ hm) ((Lexeme.isLeaf_exclusive hl).2 _)
  | @group paren close ts rs d hp hc hder =>
    cases he with
    | leaf hl' => exact absurd ((List.cons_eq_cons.mp h).1 ▸ hp) (Lexeme.isLeaf_exclusive hl').1
    | @group paren' close' us ss e hp' hc' hder' =>
      obtain ⟨rfl, h'⟩ := List.cons_eq_cons.mp h
      have hrest : ts ++ close :: rs = us ++ close' :: ss := by simpa using h'
      obtain ⟨rfl, hcl⟩ := hn (p := .or) (by simp at hlen ⊢; omega) hder hder'
        (stops_of_joint?_eq_none _ (by rw [hc]; rfl))
        (stops_of_joint?_eq_none _ (by rw [hc']; rfl)) hrest
      exact ⟨rfl, (List.cons_eq_cons.mp hcl).2⟩
    | @unary op _ _ _ _ hm _ _ =>
      exact absurd (hm.symm.trans ((List.cons_eq_cons.mp h).1 ▸ hp)) op.kind_ne_leftParen
  | @unary op mark ts rs d hm hder hs =>
    cases he with
    | leaf hl' => exact absurd ((List.cons_eq_cons.mp h).1 ▸ hm) ((Lexeme.isLeaf_exclusive hl').2 _)
    | group hp _ _ =>
      exact absurd (hm.symm.trans ((List.cons_eq_cons.mp h).1 ▸ hp)) op.kind_ne_leftParen
    | @unary op' mark' us ss e hm' hder' hs' =>
      obtain ⟨rfl, h'⟩ := List.cons_eq_cons.mp h
      obtain rfl := UnaryOp.kind_injective (hm.symm.trans hm')
      obtain ⟨rfl, hrs⟩ := hn (p := .unary) (by simp at hlen ⊢; omega) hder hder' hs hs' h'
      exact ⟨rfl, hrs⟩

theorem Arguments.unique {as bs : List Expr} {ts us rs ss : List Lexeme} {close close' : Lexeme}
    (ha : Arguments ts as) (hb : Arguments us bs) (hc : close.kind = .symbol .rightParen)
    (hc' : close'.kind = .symbol .rightParen) (h : ts ++ close :: rs = us ++ close' :: ss)
    (hlen : (ts ++ close :: rs).length ≤ n) : as = bs ∧ rs = ss := by
  have hstop : ∀ {l : Lexeme} {ls : List Lexeme},
      l.kind = .symbol .rightParen ∨ l.kind = .symbol .comma →
      Stops .or (l :: ls) := by
    rintro l ls (hl | hl) <;> exact stops_of_joint?_eq_none _ (by rw [hl]; rfl)
  -- an expression is not the closing parenthesis that ends an empty list of arguments
  have hnot : ∀ {l : Lexeme} {ls vs vs' : List Lexeme} {e : Expr}, l.kind = .symbol .rightParen →
      Derives .or vs e → l :: ls ≠ vs ++ vs' := by
    intro l ls vs vs' e hl he heq
    obtain ⟨k, ks, rfl, hk⟩ := he.exists_begins
    exact hk.kind_ne.1 ((List.cons_eq_cons.mp heq).1 ▸ hl)
  induction as generalizing bs ts us with
  | nil =>
    rcases ha.cases with ⟨rfl, -⟩ | ⟨e, he, -⟩ | ⟨_, _, _, _, _, -, he, -⟩
    · rcases hb.cases with ⟨rfl, rfl⟩ | ⟨e, -, he⟩ | ⟨us', vs, comma, e, es, rfl, -, -, he, -⟩
      · exact ⟨rfl, (List.cons_eq_cons.mp h).2⟩
      · exact absurd h (hnot hc he)
      · exact absurd (h.trans (List.append_assoc _ _ _)) (hnot hc he)
    · cases he
    · cases he
  | cons a as ih =>
    rcases ha.cases with ⟨-, ha⟩ | ⟨a', ha, hda⟩ | ⟨ts', vs, comma, a', as', rfl, ha, hne, hda,
      hcomma, hargs⟩
    · cases ha
    · obtain ⟨rfl, rfl⟩ := List.cons_eq_cons.mp ha
      rcases hb.cases with ⟨rfl, -⟩ | ⟨b, rfl, hdb⟩ | ⟨us', vs', comma', b, bs', rfl, rfl, -,
        hdb, hcomma', -⟩
      · exact absurd h.symm (hnot hc' hda)
      · obtain ⟨rfl, hrest⟩ := hn (p := .or) hlen hda hdb (hstop (.inl hc)) (hstop (.inl hc')) h
        exact ⟨rfl, (List.cons_eq_cons.mp hrest).2⟩
      · rw [List.append_assoc] at h
        obtain ⟨-, hrest⟩ := hn (p := .or) hlen hda hdb (hstop (.inl hc)) (hstop (.inr hcomma')) h
        rw [(List.cons_eq_cons.mp hrest).1, hcomma'] at hc
        cases hc
    · obtain ⟨rfl, rfl⟩ := List.cons_eq_cons.mp ha
      rw [List.append_assoc, List.cons_append] at h
      have hlen' : (ts' ++ comma :: (vs ++ close :: rs)).length ≤ n := by simpa using hlen
      rcases hb.cases with ⟨rfl, -⟩ | ⟨b, rfl, hdb⟩ | ⟨us', vs', comma', b, bs', rfl, rfl, -, hdb,
        hcomma', hargs'⟩
      · exact absurd h.symm (hnot hc' hda)
      · obtain ⟨-, hrest⟩ := hn (p := .or) hlen' hda hdb (hstop (.inr hcomma)) (hstop (.inl hc')) h
        rw [(List.cons_eq_cons.mp hrest).1, hc'] at hcomma
        cases hcomma
      · rw [List.append_assoc, List.cons_append] at h
        obtain ⟨rfl, hrest⟩ :=
          hn (p := .or) hlen' hda hdb (hstop (.inr hcomma)) (hstop (.inr hcomma')) h
        obtain ⟨rfl, hrs⟩ :=
          ih hargs hargs' (List.cons_eq_cons.mp hrest).2 (by simp at hlen' ⊢; omega)
        exact ⟨rfl, hrs⟩

theorem Chain.unique {p : Precedence} {l d e : Expr} {t rs ss : List Lexeme} (hd : Chain p l t d rs)
    (he : Chain p l t e ss) (hlen : t.length ≤ n + 1) : d = e ∧ rs = ss := by
  induction hd generalizing e ss with
  | stop hs =>
    cases he with
    | stop _ => exact ⟨rfl, rfl⟩
    | @join c _ _ _ _ _ _ _ hm hp _ _ _ => exact absurd hp (hs c.joint (by simp [hm]))
    | call hp hl _ _ _ => exact absurd hl (hs .call (by simp [hp]; rfl))
  | @join c mark l r d us rest rs hm hp hr hs _ ih =>
    generalize ht : mark :: (us ++ rest) = t at he
    cases he with
    | stop hs' => exact absurd hp (hs' c.joint (by simp [← ht, hm]))
    | @join c' mark' _ r' _ us' rest' _ hm' _ hr' hs' hch =>
      obtain ⟨rfl, ht'⟩ := List.cons_eq_cons.mp ht
      obtain rfl := Connective.kind_injective (hm.symm.trans hm')
      rw [← Connective.nonterminal_rightPrecedence] at hr hr'
      simp only [List.length_cons, List.length_append] at hlen
      obtain ⟨rfl, rfl⟩ := hn (by simp; omega) hr hr' hs hs' ht'
      exact ih hch (by omega)
    | call hp' _ _ _ _ =>
      exact absurd (hm.symm.trans ((List.cons_eq_cons.mp ht).1 ▸ hp')) c.kind_ne_leftParen
  | @call paren close f d args us rest rs hp hl hargs hc _ ih =>
    generalize ht : paren :: (us ++ close :: rest) = t at he
    cases he with
    | stop hs' => exact absurd hl (hs' .call (by simp [← ht, hp]; rfl))
    | @join c' _ _ _ _ _ _ _ hm' _ _ _ _ =>
      exact absurd (hm'.symm.trans ((List.cons_eq_cons.mp ht).1 ▸ hp)) c'.kind_ne_leftParen
    | @call paren' close' _ _ args' us' rest' _ hp' _ hargs' hc' hch =>
      obtain ⟨rfl, ht'⟩ := List.cons_eq_cons.mp ht
      simp only [List.length_cons, List.length_append] at hlen
      obtain ⟨rfl, rfl⟩ := hargs.unique hn hargs' hc hc' ht' (by simp; omega)
      exact ih hch (by omega)

end Compare

theorem uniqueUpTo (n : Nat) : UniqueUpTo n := by
  induction n with
  | zero =>
    intro p ts us rs ss d e hlen hd
    obtain ⟨l, ls, rfl, -⟩ := hd.exists_begins
    simp at hlen
  | succ n ih =>
    intro p ts us rs ss d e hlen hd he hr hs h
    obtain ⟨ts', d', t, hhead, heq, hchain⟩ := hd.exists_spine hr
    obtain ⟨us', e', u, hhead', heq', hchain'⟩ := he.exists_spine hs
    rw [heq] at hlen
    obtain ⟨rfl, rfl⟩ := hhead.unique ih hhead' (by rw [← heq, h, heq']) hlen
    exact hchain.unique ih hchain' (by simp at hlen; omega)

/-- **Unambiguity of expressions.** -/
theorem Derives.unique {p : Precedence} {ts us rs ss : List Lexeme} {d e : Expr}
    (hd : Derives p.nonterminal ts d) (he : Derives p.nonterminal us e) (hr : Stops p rs)
    (hs : Stops p ss) (h : ts ++ rs = us ++ ss) : d = e ∧ rs = ss :=
  uniqueUpTo _ (Nat.le_refl _) hd he hr hs h

/-! ## Programs -/

theorem Lexeme.IsSeparator.joint?_eq_none {l : Lexeme} (h : l.IsSeparator) :
    l.kind.joint? = none := by
  rcases h with h | h <;> rw [h] <;> rfl

theorem stops_of_isSeparator {p : Precedence} {us : List Lexeme}
    (h : ∀ s ∈ us.head?, s.IsSeparator) :
    Stops p us := by
  cases us with
  | nil => intro j hj; cases hj
  | cons s us => exact stops_of_joint?_eq_none us (h s rfl).joint?_eq_none

/-- Separators in front of what is none are the same however they are split off. -/
theorem eq_of_separators_append_eq {ss ss' ts ts' : List Lexeme} (hs : ∀ s ∈ ss, s.IsSeparator)
    (hs' : ∀ s ∈ ss', s.IsSeparator) (ht : ∀ l ∈ ts.head?, ¬ l.IsSeparator)
    (ht' : ∀ l ∈ ts'.head?, ¬ l.IsSeparator) (h : ss ++ ts = ss' ++ ts') : ts = ts' := by
  induction ss generalizing ss' with
  | nil =>
    cases ss' with
    | nil => exact h
    | cons s ss' => exact absurd (hs' s (by simp)) (ht s (by rw [← List.nil_append ts, h]; rfl))
  | cons s ss ih =>
    cases ss' with
    | nil => exact absurd (hs s (by simp)) (ht' s (by rw [← List.nil_append ts', ← h]; rfl))
    | cons s' ss' =>
      exact ih (fun k hk => hs k (by simp [hk])) (fun k hk => hs' k (by simp [hk]))
        (List.cons_eq_cons.mp h).2

theorem Derives.head?_not_isSeparator {n : Nonterminal} {ts us : List Lexeme} {e : Expr}
    (h : Derives n ts e) :
    ∀ l ∈ (ts ++ us).head?, ¬ l.IsSeparator := by
  obtain ⟨l, ls, rfl, hl⟩ := h.exists_begins
  intro k hk
  rw [← Option.mem_some_iff.mp hk]
  exact hl.not_isSeparator

/-- **Unambiguity of programs.** -/
theorem Program.unique {ts : List Lexeme} {ds es : List Expr} (hd : Program ts ds)
    (he : Program ts es) :
    ds = es := by
  induction hd generalizing es with
  | @nil ss hs =>
    generalize hts : ss = ts at he
    cases he with
    | nil _ => rfl
    | @cons ss' ts' us' e' es' hs' hder' hu' hes' =>
      have h : [] = ts' ++ us' :=
        eq_of_separators_append_eq hs hs' (by simp) hder'.head?_not_isSeparator (by simpa using hts)
      obtain ⟨l, ls, rfl, -⟩ := hder'.exists_begins
      cases h
  | @cons ss ts us d ds hs hder hu _ ih =>
    generalize hts : ss ++ (ts ++ us) = ts₀ at he
    cases he with
    | nil hs' =>
      have h : ts ++ us = [] :=
        eq_of_separators_append_eq hs hs' hder.head?_not_isSeparator (by simp) (by simpa using hts)
      obtain ⟨l, ls, rfl, -⟩ := hder.exists_begins
      cases h
    | @cons ss' ts' us' e' es' hs' hder' hu' hes' =>
      have h : ts ++ us = ts' ++ us' :=
        eq_of_separators_append_eq hs hs' hder.head?_not_isSeparator hder'.head?_not_isSeparator hts
      obtain ⟨rfl, rfl⟩ :=
        Derives.unique (p := .or) hder hder' (stops_of_isSeparator hu) (stops_of_isSeparator hu') h
      rw [ih hes']

end LuaExpr
