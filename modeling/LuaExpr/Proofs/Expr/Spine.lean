import LuaExpr.Proofs.Expr.Level
/-!
# Spines of expressions

The grammar takes an expression apart at its loosest connective. The compiler goes along its left
edge: first an operand that no joint takes apart, its head, and then joint after joint, each with
what stands to its right. Here both readings are shown to be the same.

* `Stops p rest`: what follows cannot go on an expression at the level `p`.
* `Head`: what an expression begins with. A unary operator has as its operand all that binds tightly
  enough.
* `Chain p l ts e rest`: from the operand `l`, the joints at the front of `ts` lead to the tree `e`
  and leave `rest`.
* `Derives.exists_spine` and `Spine.derives`: an expression is derived at a level, and what follows
  stops it, exactly if it is a head with a chain of joints.
-/

namespace LuaExpr

/-! ## What may follow -/

/-- The joint that a sequence of lexemes begins with. -/
def frontJoint? (ts : List Lexeme) : Option Joint := ts.head?.bind fun l => l.kind.joint?

@[simp] theorem frontJoint?_nil : frontJoint? [] = none := rfl

@[simp] theorem frontJoint?_cons (l : Lexeme) (ts : List Lexeme) :
    frontJoint? (l :: ts) = l.kind.joint? := rfl

/-- What follows cannot go on an expression at a level. -/
def Stops (p : Precedence) (rest : List Lexeme) : Prop := ∀ j ∈ frontJoint? rest, ¬ p ≤ j.precedence

/-- A tree may be the left operand of the joint that follows it, if one does. -/
def Expr.Admits (e : Expr) (rest : List Lexeme) : Prop := ∀ j ∈ frontJoint? rest, j.left ≤ e.level

theorem Expr.admits_join_iff {c : Connective} {mark : Lexeme} {l r : Expr} {rest : List Lexeme} :
    (Expr.join c mark l r).Admits rest ↔ Stops c.rightPrecedence rest :=
  forall₂_congr fun j _ => j.left_le_whole_iff c

theorem Expr.admits_unary_iff {op : UnaryOp} {mark : Lexeme} {e : Expr} {rest : List Lexeme} :
    (Expr.unary op mark e).Admits rest ↔ Stops .unary rest :=
  forall₂_congr fun j _ => j.left_le_unary_iff

theorem Derives.admits {p : Precedence} {ts rest : List Lexeme} {e : Expr}
    (h : Derives p.nonterminal ts e) (hs : Stops p rest) : e.Admits rest :=
  fun j hj => Nonterminal.le_trans (Joint.left_le_nonterminal (hs j hj)) h.le_level

theorem stops_of_joint?_eq_none {p : Precedence} {l : Lexeme} (rest : List Lexeme)
    (h : l.kind.joint? = none) :
    Stops p (l :: rest) := by
  intro j hj
  rw [frontJoint?_cons, h] at hj
  cases hj

/-! ## Arguments -/

/-- The lexemes between the parentheses of a call, and the trees of its arguments. -/
def Arguments (ts : List Lexeme) (args : List Expr) : Prop :=
  ∃ items : List (List Lexeme × Expr), (∀ i ∈ items, Derives .or i.1 i.2) ∧
    CommaSeparated (items.map Prod.fst) ts ∧ args = items.map Prod.snd

namespace Arguments

theorem nil : Arguments [] [] := ⟨[], by simp, .nil, rfl⟩

theorem single {ts : List Lexeme} {e : Expr} (h : Derives .or ts e) : Arguments ts [e] :=
  ⟨[(ts, e)], by simpa using h, .single ts, rfl⟩

theorem cons {ts us : List Lexeme} {comma : Lexeme} {e : Expr} {es : List Expr}
    (hes : Arguments us es) (h : Derives .or ts e) (hc : comma.kind = .symbol .comma)
    (hne : es ≠ []) :
    Arguments (ts ++ comma :: us) (e :: es) := by
  obtain ⟨items, hi, hu, rfl⟩ := hes
  cases items with
  | nil => exact absurd rfl hne
  | cons i items =>
    refine ⟨(ts, e) :: i :: items, ?_, .cons hc hu, rfl⟩
    intro k hk
    rcases List.mem_cons.mp hk with rfl | hk
    · exact h
    · exact hi k hk

/-- Arguments are none, or one, or one with a comma and further ones after it. -/
theorem cases {ts : List Lexeme} {args : List Expr} (h : Arguments ts args) :
    (ts = [] ∧ args = []) ∨ (∃ e, args = [e] ∧ Derives .or ts e) ∨
    ∃ us vs comma e es, ts = us ++ comma :: vs ∧ args = e :: es ∧ es ≠ [] ∧ Derives .or us e ∧
      comma.kind = .symbol .comma ∧ Arguments vs es := by
  obtain ⟨items, hi, hu, rfl⟩ := h
  match items, hi, hu with
  | [], _, hu =>
    cases hu
    exact .inl ⟨rfl, rfl⟩
  | [i], hi, hu =>
    cases hu
    exact .inr (.inl ⟨i.2, rfl, hi i (by simp)⟩)
  | i :: k :: items, hi, hu =>
    cases hu with
    | cons hc hk =>
      refine .inr (.inr ⟨_, _, _, i.2, (k :: items).map Prod.snd, rfl, rfl, by simp,
        hi i (by simp), hc, ?_⟩)
      exact ⟨k :: items, fun m hm => hi m (by simp [hm]), hk, rfl⟩

theorem derives_call {paren close : Lexeme} {ts us : List Lexeme} {f : Expr} {args : List Expr}
    (hf : Derives .call ts f) (hp : paren.kind = .symbol .leftParen) (ha : Arguments us args)
    (hc : close.kind = .symbol .rightParen) :
    Derives .call (ts ++ paren :: (us ++ [close])) (.call f paren args) := by
  obtain ⟨items, hi, hu, rfl⟩ := ha
  exact .call hp hc hf hi hu

end Arguments

/-! ## Heads and chains -/

/-- `Head ts e rest`: the tree `e` is one that no joint takes apart, and `rest` follows its lexemes
`ts`. -/
inductive Head : List Lexeme → Expr → List Lexeme → Prop
  | leaf {l : Lexeme} {rest : List Lexeme} (h : l.isLeaf = true) : Head [l] (.leaf l) rest
  | group {paren close : Lexeme} {ts rest : List Lexeme} {e : Expr}
      (hp : paren.kind = .symbol .leftParen)
      (hc : close.kind = .symbol .rightParen) (h : Derives .or ts e) :
      Head (paren :: (ts ++ [close])) (.group paren e) rest
  | unary {op : UnaryOp} {mark : Lexeme} {ts rest : List Lexeme} {e : Expr}
      (hm : mark.kind = op.kind)
      (h : Derives .unary ts e) (hs : Stops .unary rest) : Head (mark :: ts) (.unary op mark e) rest

/-- `Chain p l ts e rest`: the joints at the front of `ts` that bind at least as tightly as `p` make
the tree `e` out of the operand `l`, and `rest` is left. -/
inductive Chain (p : Precedence) : Expr → List Lexeme → Expr → List Lexeme → Prop
  | stop {e : Expr} {rest : List Lexeme} (h : Stops p rest) : Chain p e rest e rest
  | join {c : Connective} {mark : Lexeme} {l r e : Expr} {us rest rest' : List Lexeme}
      (hm : mark.kind = c.kind)
      (hp : p ≤ c.joint.precedence) (hr : Derives c.right us r) (hs : Stops c.rightPrecedence rest)
      (h : Chain p (.join c mark l r) rest e rest') : Chain p l (mark :: (us ++ rest)) e rest'
  | call {paren close : Lexeme} {f e : Expr} {args : List Expr} {us rest rest' : List Lexeme}
      (hp : paren.kind = .symbol .leftParen) (hl : p ≤ .call) (ha : Arguments us args)
      (hc : close.kind = .symbol .rightParen) (h : Chain p (.call f paren args) rest e rest') :
      Chain p f (paren :: (us ++ close :: rest)) e rest'

/-- A head is derived at its own level, which is that of unary operators or tighter. -/
theorem Head.derives {ts rest : List Lexeme} {e : Expr} (h : Head ts e rest) :
    Derives e.level ts e ∧ .unary ≤ e.level ∧ e.Admits rest := by
  have hcall : Nonterminal.call ≤ .primary := by decide
  have hunary : Nonterminal.unary ≤ .primary := by decide
  cases h with
  | leaf h => exact ⟨.leaf h, hunary, fun j _ => Nonterminal.le_trans j.left_le_call hcall⟩
  | group hp hc h =>
    exact ⟨.group hp hc h, hunary, fun j _ => Nonterminal.le_trans j.left_le_call hcall⟩
  | unary hm h hs => exact ⟨.unary hm h, Nonterminal.le_rfl, Expr.admits_unary_iff.mpr hs⟩

/-- **Chains are derivations**: what the joints make out of a derived operand is derived. -/
theorem Chain.derives {p : Precedence} {l e : Expr} {t rest : List Lexeme}
    (h : Chain p l t e rest) :
    ∀ ts, Derives l.level ts l → p.nonterminal ≤ l.level → l.Admits t →
      ∃ us, t = us ++ rest ∧ Derives p.nonterminal (ts ++ us) e ∧ Stops p rest := by
  induction h with
  | stop hs =>
    intro ts hl hp _
    exact ⟨[], rfl, by simpa using hl.mono hp, hs⟩
  | @join c mark l r e us rest rest' hm hp hr hs _ ih =>
    intro ts hl _ ha
    have hleft : c.left ≤ l.level := by
      have := ha c.joint (by simp [hm])
      rwa [Connective.left_joint] at this
    have hj : Derives c.whole (ts ++ mark :: us) (.join c mark l r) := .join hm (hl.mono hleft) hr
    obtain ⟨vs, rfl, he, hstop⟩ :=
      ih _ hj ((Connective.le_precedence_iff p c).mp hp) (Expr.admits_join_iff.mpr hs)
    exact ⟨mark :: (us ++ vs), by simp, by simpa using he, hstop⟩
  | @call paren close f e args us rest rest' hp hl hargs hc _ ih =>
    intro ts hf _ ha
    have hleft : .call ≤ f.level := ha .call (by simp [hp]; rfl)
    have hcall := hargs.derives_call (hf.mono hleft) hp hc
    obtain ⟨vs, rfl, he, hstop⟩ :=
      ih _ hcall ((Precedence.le_call_iff p).mp hl) fun j _ => j.left_le_call
    exact ⟨paren :: (us ++ close :: vs), by simp, by simpa using he, hstop⟩

/-- **Derivations are chains**: the induction goes along the left edge of the tree, whose chain
grows to the right. -/
theorem Derives.exists_head {n : Nonterminal} {ts : List Lexeme} {e : Expr} (h : Derives n ts e) :
    ∀ {p : Precedence} {rest rest' : List Lexeme} {e' : Expr}, p.nonterminal ≤ n → e.Admits rest →
      Chain p e rest e' rest' →
      ∃ us d t, Head us d t ∧ ts ++ rest = us ++ t ∧ Chain p d t e' rest' := by
  induction h with
  | lift hn _ ih =>
    intro p rest rest' e' hp ha hch
    exact ih (Nonterminal.le_trans hp (Nonterminal.le_of_tighter?_eq hn)) ha hch
  | @join c mark ts us l r hm hl hr ihl _ =>
    intro p rest rest' e' hp ha hch
    have hch' : Chain p l (mark :: (us ++ rest)) e' rest' :=
      .join hm ((Connective.le_precedence_iff p c).mpr hp) hr (Expr.admits_join_iff.mp ha) hch
    have hadm : l.Admits (mark :: (us ++ rest)) := by
      intro j hj
      rw [frontJoint?_cons, hm, Connective.joint?_kind, Option.mem_some_iff] at hj
      rw [← hj, Connective.left_joint]
      exact hl.le_level
    obtain ⟨vs, d, t, hd, heq, hchain⟩ := ihl (Nonterminal.le_trans hp c.whole_le_left) hadm hch'
    exact ⟨vs, d, t, hd, by simpa using heq, hchain⟩
  | unary hm h _ =>
    intro p rest rest' e' _ ha hch
    exact ⟨_, _, rest, .unary hm h (Expr.admits_unary_iff.mp ha), rfl, hch⟩
  | @call paren close ts us f items hpar hc hf hi hu ihf _ =>
    intro p rest rest' e' hp ha hch
    have hch' : Chain p f (paren :: (us ++ close :: rest)) e' rest' :=
      .call hpar ((Precedence.le_call_iff p).mpr hp) ⟨items, hi, hu, rfl⟩ hc hch
    have hadm : f.Admits (paren :: (us ++ close :: rest)) :=
      fun j _ => Nonterminal.le_trans j.left_le_call hf.le_level
    obtain ⟨vs, d, t, hd, heq, hchain⟩ := ihf hp hadm hch'
    exact ⟨vs, d, t, hd, by simpa using heq, hchain⟩
  | group hp hc h _ =>
    intro p rest rest' e' _ _ hch
    exact ⟨_, _, rest, .group hp hc h, rfl, hch⟩
  | leaf h =>
    intro p rest rest' e' _ _ hch
    exact ⟨_, _, rest, .leaf h, rfl, hch⟩

theorem Derives.exists_spine {p : Precedence} {ts rest : List Lexeme} {e : Expr}
    (h : Derives p.nonterminal ts e) (hs : Stops p rest) :
    ∃ us d t, Head us d t ∧ ts ++ rest = us ++ t ∧ Chain p d t e rest :=
  h.exists_head Nonterminal.le_rfl (h.admits hs) (.stop hs)

theorem Head.derives_chain {p : Precedence} {us t rest : List Lexeme} {d e : Expr}
    (hp : p ≤ .exponent) (hd : Head us d t) (h : Chain p d t e rest) :
    ∃ ts, us ++ t = ts ++ rest ∧ Derives p.nonterminal ts e ∧ Stops p rest := by
  obtain ⟨hder, hlevel, hadm⟩ := hd.derives
  have hpn : p.nonterminal ≤ .unary := by revert hp; cases p <;> decide
  obtain ⟨vs, rfl, he, hs⟩ := h.derives us hder (Nonterminal.le_trans hpn hlevel) hadm
  exact ⟨us ++ vs, by simp, he, hs⟩

end LuaExpr
