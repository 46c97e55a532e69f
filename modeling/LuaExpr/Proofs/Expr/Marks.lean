import LuaExpr.Proofs.Expr.Leaves
import LuaExpr.Proofs.Expr.Unambiguity
/-!
# Marks

Each part of a tree has one lexeme of its own, its mark: a leaf itself, an operator, or the
parenthesis that opens a group or a call. All instructions that a part adds to those of its own
parts have the offset of its mark.

* `Expr.mark` and `Expr.weight`: the mark of a part and the number of instructions that it adds.
* `Expr.countP_code`: the instructions of a tree, counted by the marks of its parts.
* `Derives.perm_marks`, `Program.perm_marks`: the marks of the parts are the leaves, operators and
  opening parentheses among the lexemes, each of them once.
-/

namespace LuaExpr

/-- Whether a lexeme is the mark of a part: a literal or a name, an operator or an opening
parenthesis. -/
def Lexeme.isMark (l : Lexeme) : Bool :=
  l.isLeaf || l.kind.awaitsOperand || l.kind = .symbol .leftParen

namespace Expr

/-- The lexeme of its own that a tree has besides those of its parts. -/
def mark : Expr → Lexeme
  | leaf l => l
  | group paren _ => paren
  | unary _ mark _ => mark
  | join _ mark _ _ => mark
  | call _ paren _ => paren

/-- The number of instructions that a tree has besides those of its parts. -/
def weight : Expr → Nat
  | leaf _ => 1
  | group _ _ => 0
  | unary _ _ _ => 1
  | join c _ _ _ => c.size
  | call _ _ _ => 1

/-- The first lexeme of an expression. -/
def first : Expr → Lexeme
  | leaf l => l
  | group paren _ => paren
  | unary _ mark _ => mark
  | join _ _ l _ => l.first
  | call f _ _ => f.first

@[simp] theorem start_first (e : Expr) : e.first.start = e.start := by
  induction e with
  | leaf l => rfl
  | group paren e _ => rfl
  | unary op mark e _ => rfl
  | join c mark l r ihl _ => exact ihl
  | call f paren args ihf _ => exact ihf

/-- The mark of a tree is of the kind that its form asks for. -/
def IsSpelled : Expr → Prop
  | leaf l => l.isLeaf = true
  | group paren _ => paren.kind = .symbol .leftParen
  | unary op mark _ => mark.kind = op.kind
  | join c mark _ _ => mark.kind = c.kind
  | call _ paren _ => paren.kind = .symbol .leftParen

/-! ## Instructions by marks -/

/-- The number of instructions that a part adds at the offsets with a property. -/
def weightAt (P : Nat → Bool) (part : Nat × Expr) : Nat :=
  if P part.2.mark.start then part.2.weight else 0

section Counts

variable (P : Nat → Bool) (slot : Value → UInt8)

/-- The instructions of a connective are at the offset of its lexeme. -/
theorem countP_connective (c : Connective) (offset first done : Nat) :
    (c.between offset first done).countP (fun i => P i.offset) +
      (c.after offset).countP (fun i => P i.offset) =
      if P offset then c.size else 0 := by
  have hconst : ∀ is : List Instruction, (∀ i ∈ is, i.offset = offset) →
      is.countP (fun i => P i.offset) = if P offset then is.length else 0 := by
    intro is his
    split
    · rename_i hP
      exact List.countP_eq_length.mpr fun i hi => by rw [his i hi]; exact hP
    · rename_i hP
      exact List.countP_eq_zero.mpr fun i hi => by rw [his i hi]; exact hP
  have hbetween : ∀ i ∈ c.between offset first done, i.offset = offset := by
    cases c <;> simp [Connective.between]
  have hafter : ∀ i ∈ c.after offset, i.offset = offset := by
    cases c <;> simp [Connective.after]
  rw [hconst _ hbetween, hconst _ hafter, Connective.length_between]
  split
  · exact c.lead_add_length_after offset
  · rfl

theorem countP_codeAll_of_forall {es : List Expr}
    (h : ∀ e ∈ es, ∀ base, (e.code slot base).countP (fun i => P i.offset) =
      ((e.parts base).map (weightAt P)).sum)
    (base : Nat) :
    (codeAll slot base es).countP (fun i => P i.offset) =
      ((partsAll base es).map (weightAt P)).sum := by
  induction es generalizing base with
  | nil => rfl
  | cons e es ih =>
    rw [codeAll, partsAll, List.countP_append, List.map_append, List.sum_append, h e (by simp),
      ih fun d hd => h d (by simp [hd])]

/-- **The instructions of a tree**, counted by the marks of its parts. -/
theorem countP_code (e : Expr) : ∀ base,
    (e.code slot base).countP (fun i => P i.offset) = ((e.parts base).map (weightAt P)).sum := by
  induction e with
  | leaf l =>
    intro base
    rw [code, parts, List.countP_singleton, List.map_singleton, List.sum_singleton]
    rfl
  | group paren e ih =>
    intro base
    have hhead : weightAt P (base, group paren e) = 0 := ite_self 0
    rw [code, parts, ih, List.map_cons, List.sum_cons, hhead, Nat.zero_add]
  | unary op mark e ih =>
    intro base
    have hhead : weightAt P (base, unary op mark e) = if P mark.start then 1 else 0 := rfl
    rw [code, parts, List.countP_append, ih, List.map_cons, List.sum_cons, hhead,
      List.countP_singleton]
    exact Nat.add_comm _ _
  | join c mark l r ihl ihr =>
    intro base
    have hhead : weightAt P (base, join c mark l r) = if P mark.start then c.size else 0 := rfl
    have hown := countP_connective P c mark.start (base + l.size) (base + l.size + c.lead + r.size)
    simp only [code, parts, List.countP_append, ihl, ihr, List.map_cons, List.sum_cons,
      List.map_append, List.sum_append, hhead]
    omega
  | call f paren args ihf ihargs =>
    intro base
    have hhead : weightAt P (base, call f paren args) = if P paren.start then 1 else 0 := rfl
    rw [code, parts, List.countP_append, List.countP_append, ihf,
      countP_codeAll_of_forall P slot ihargs, List.map_cons, List.sum_cons, List.map_append,
      List.sum_append, hhead, List.countP_singleton]
    dsimp only
    omega

/-- The instructions of further expressions of a program, with the ones that drop a value. -/
theorem countP_codeNext (es : List Expr) (base : Nat) :
    (codeNext slot base es).countP (fun i => P i.offset) =
      ((partsNext base es).map (weightAt P)).sum + es.countP (fun e => P e.start) := by
  induction es generalizing base with
  | nil => rfl
  | cons e es ih =>
    rw [codeNext, partsNext, List.countP_cons, List.countP_append, countP_code, ih, List.map_append,
      List.sum_append, List.countP_cons]
    dsimp only
    omega

/-- **The instructions of a program**, counted by the marks of its parts and the expressions after
the first one. -/
theorem countP_programCode (es : List Expr) :
    (programCode slot es).countP (fun i => P i.offset) =
      ((programParts es).map (weightAt P)).sum + es.tail.countP (fun e => P e.start) := by
  cases es with
  | nil => rfl
  | cons e es =>
    rw [programCode, programParts, List.countP_append, countP_code, countP_codeNext,
      List.map_append, List.sum_append, List.tail_cons, Nat.add_assoc]

end Counts

end Expr

/-! ## Marks by lexemes -/

theorem Lexeme.isMark_of_connective {l : Lexeme} {c : Connective} (h : l.kind = c.kind) :
    l.isMark = true := by
  have hawaits : c.kind.awaitsOperand = true := by
    cases c with
    | binary op => cases op <;> rfl
    | and => rfl
    | or => rfl
  simp [isMark, h, hawaits]

theorem Lexeme.isMark_of_unaryOp {l : Lexeme} {op : UnaryOp} (h : l.kind = op.kind) :
    l.isMark = true := by
  have hawaits : op.kind.awaitsOperand = true := by cases op <;> rfl
  simp [isMark, h, hawaits]

theorem Lexeme.isMark_of_leftParen {l : Lexeme} (h : l.kind = .symbol .leftParen) :
    l.isMark = true := by
  simp [isMark, h]

theorem Lexeme.isMark_of_isLeaf {l : Lexeme} (h : l.isLeaf = true) : l.isMark = true := by
  simp [isMark, h]

theorem Lexeme.isMark_eq_false_of_symbol {l : Lexeme} {s : Symbol} (h : l.kind = .symbol s)
    (hs : s = .rightParen ∨ s = .comma ∨ s = .semicolon) : l.isMark = false := by
  rcases hs with rfl | rfl | rfl <;> simp [isMark, isLeaf, h, TokenKind.awaitsOperand]

theorem Lexeme.isMark_eq_false_of_layout {l : Lexeme} (h : l.kind = .comment ∨ l.kind = .line) :
    l.isMark = false := by
  rcases h with h | h <;> simp [isMark, isLeaf, h, TokenKind.awaitsOperand]

theorem filter_isMark_separators {ss : List Lexeme} (h : ∀ s ∈ ss, s.IsSeparator) :
    ss.filter Lexeme.isMark = [] := by
  rw [List.filter_eq_nil_iff]
  intro s hs
  rcases h s hs with hline | hsemicolon
  · simp [Lexeme.isMark_eq_false_of_layout (.inr hline)]
  · simp [Lexeme.isMark_eq_false_of_symbol hsemicolon (.inr (.inr rfl))]

/-- The layout drops no marks. -/
theorem Layout.filter_isMark_significantFrom (ls : List Lexeme) (depth : Nat) (awaited : Bool) :
    (significantFrom depth awaited ls).filter Lexeme.isMark = ls.filter Lexeme.isMark := by
  induction ls generalizing depth awaited with
  | nil => rfl
  | cons l ls ih =>
    by_cases hd : isDropped depth awaited l.kind = true
    · have hlayout : l.kind = .comment ∨ l.kind = .line := by
        simp only [isDropped, Bool.or_eq_true, Bool.and_eq_true, decide_eq_true_eq] at hd
        exact hd.imp_right And.left
      rw [significantFrom_cons_of_isDropped _ hd, ih,
        List.filter_cons_of_neg (by simp [Lexeme.isMark_eq_false_of_layout hlayout])]
    · rw [significantFrom_cons_of_not_isDropped _ (by simpa using hd), List.filter_cons,
        List.filter_cons, ih]

/-- The marks of the parts of some trees. -/
def Expr.marks (parts : List (Nat × Expr)) : List Lexeme := parts.map fun part => part.2.mark

theorem Expr.perm_marks_partsAll {items : List (List Lexeme × Expr)} {us : List Lexeme}
    (hu : CommaSeparated (items.map Prod.fst) us)
    (h : ∀ i ∈ items, ∀ base, (marks (i.2.parts base)).Perm (i.1.filter Lexeme.isMark))
    (base : Nat) :
    (marks (partsAll base (items.map Prod.snd))).Perm (us.filter Lexeme.isMark) := by
  induction items generalizing us base with
  | nil =>
    cases hu
    exact .nil
  | cons i items ih =>
    have hi := h i (by simp) base
    rw [List.map_cons, partsAll, marks, List.map_append]
    cases items with
    | nil =>
      cases hu
      simpa [partsAll, marks] using hi
    | cons k items =>
      cases hu with
      | cons hcomma hrest =>
        have hrest := ih hrest (fun m hm => h m (by simp [hm])) (base + i.2.size)
        rw [List.filter_append, List.filter_cons_of_neg]
        · exact hi.append hrest
        · simp [Lexeme.isMark_eq_false_of_symbol hcomma (.inr (.inl rfl))]

/-- **The marks of an expression** are the marks among its lexemes. -/
theorem Derives.perm_marks {n : Nonterminal} {ts : List Lexeme} {e : Expr} (h : Derives n ts e) :
    ∀ base, (Expr.marks (e.parts base)).Perm (ts.filter Lexeme.isMark) := by
  induction h with
  | lift _ _ ih => exact ih
  | @join c mark ts us l r hm hl hr ihl ihr =>
    intro base
    have hcons : (ts ++ mark :: us).filter Lexeme.isMark =
        ts.filter Lexeme.isMark ++ mark :: us.filter Lexeme.isMark := by
      rw [List.filter_append, List.filter_cons_of_pos (Lexeme.isMark_of_connective hm)]
    rw [hcons, Expr.parts, Expr.marks, List.map_cons, List.map_append]
    exact ((ihl base).append (ihr _)).cons mark |>.trans List.perm_middle.symm
  | @unary op mark ts e hm he ih =>
    intro base
    rw [List.filter_cons_of_pos (Lexeme.isMark_of_unaryOp hm)]
    exact (ih base).cons mark
  | @call paren close ts us f items hp hc hf hi hu ihf ihi =>
    intro base
    have hcons : (ts ++ paren :: (us ++ [close])).filter Lexeme.isMark =
        ts.filter Lexeme.isMark ++ paren :: us.filter Lexeme.isMark := by
      rw [List.filter_append, List.filter_cons_of_pos (Lexeme.isMark_of_leftParen hp),
        List.filter_append, List.filter_cons_of_neg
          (by simp [Lexeme.isMark_eq_false_of_symbol hc (.inl rfl)]), List.filter_nil,
        List.append_nil]
    rw [hcons, Expr.parts, Expr.marks, List.map_cons, List.map_append]
    exact ((ihf base).append (Expr.perm_marks_partsAll hu ihi _)).cons paren |>.trans
      List.perm_middle.symm
  | @group paren close ts e hp hc he ih =>
    intro base
    have hcons : (paren :: (ts ++ [close])).filter Lexeme.isMark =
        paren :: ts.filter Lexeme.isMark := by
      rw [List.filter_cons_of_pos (Lexeme.isMark_of_leftParen hp), List.filter_append,
        List.filter_cons_of_neg (by simp [Lexeme.isMark_eq_false_of_symbol hc (.inl rfl)]),
        List.filter_nil, List.append_nil]
    rw [hcons]
    exact (ih base).cons paren
  | @leaf l hl =>
    intro base
    rw [List.filter_cons_of_pos (Lexeme.isMark_of_isLeaf hl), List.filter_nil]
    exact .refl _

/-- The marks of the expressions of a program, wherever their code begins. -/
theorem Program.perm_marks_partsNext {ts : List Lexeme} {es : List Expr} (h : Program ts es) :
    ∀ base, (Expr.marks (Expr.partsNext base es)).Perm (ts.filter Lexeme.isMark) := by
  induction h with
  | nil hs =>
    intro base
    rw [filter_isMark_separators hs]
    exact .nil
  | cons hs hder _ _ ih =>
    intro base
    rw [List.filter_append, List.filter_append, filter_isMark_separators hs, List.nil_append,
      Expr.partsNext, Expr.marks, List.map_append]
    exact (hder.perm_marks _).append (ih _)

/-- **The marks of a program** are the marks among its lexemes. -/
theorem Program.perm_marks {ts : List Lexeme} {es : List Expr} (h : Program ts es) :
    (Expr.marks (Expr.programParts es)).Perm (ts.filter Lexeme.isMark) := by
  cases h with
  | nil hs =>
    rw [filter_isMark_separators hs]
    exact .nil
  | cons hs hder _ hes =>
    rw [List.filter_append, List.filter_append, filter_isMark_separators hs, List.nil_append,
      Expr.programParts, Expr.marks, List.map_append]
    exact (hder.perm_marks _).append (hes.perm_marks_partsNext _)

/-! ## Kinds of marks -/

theorem Expr.isSpelled_of_mem_partsAll {es : List Expr}
    (h : ∀ e ∈ es, ∀ base, ∀ part ∈ e.parts base, part.2.IsSpelled)
    (base : Nat) : ∀ part ∈ partsAll base es, part.2.IsSpelled := by
  induction es generalizing base with
  | nil =>
    intro part hpart
    cases hpart
  | cons e es ih =>
    intro part hpart
    rcases List.mem_append.mp hpart with hpart | hpart
    · exact h e (by simp) base part hpart
    · exact ih (fun d hd => h d (by simp [hd])) _ part hpart

theorem Derives.isSpelled {n : Nonterminal} {ts : List Lexeme} {e : Expr} (h : Derives n ts e) :
    ∀ base, ∀ part ∈ e.parts base, part.2.IsSpelled := by
  induction h with
  | lift _ _ ih => exact ih
  | join hm _ _ ihl ihr =>
    intro base part hpart
    rcases List.mem_cons.mp hpart with rfl | hpart
    · exact hm
    · rcases List.mem_append.mp hpart with hpart | hpart
      · exact ihl base part hpart
      · exact ihr _ part hpart
  | unary hm _ ih =>
    intro base part hpart
    rcases List.mem_cons.mp hpart with rfl | hpart
    · exact hm
    · exact ih base part hpart
  | @call paren close ts us f items hp hc hf hi hu ihf ihi =>
    intro base part hpart
    rcases List.mem_cons.mp hpart with rfl | hpart
    · exact hp
    · rcases List.mem_append.mp hpart with hpart | hpart
      · exact ihf base part hpart
      · refine Expr.isSpelled_of_mem_partsAll (fun e he => ?_) _ part hpart
        obtain ⟨i, hmem, rfl⟩ := List.mem_map.mp he
        exact ihi i hmem
  | group hp _ _ ih =>
    intro base part hpart
    rcases List.mem_cons.mp hpart with rfl | hpart
    · exact hp
    · exact ih base part hpart
  | leaf hl =>
    intro base part hpart
    obtain rfl := List.mem_singleton.mp hpart
    exact hl

theorem Program.isSpelled_partsNext {ts : List Lexeme} {es : List Expr} (h : Program ts es) :
    ∀ base, ∀ part ∈ Expr.partsNext base es, part.2.IsSpelled := by
  induction h with
  | nil _ =>
    intro base part hpart
    cases hpart
  | cons _ hder _ _ ih =>
    intro base part hpart
    rcases List.mem_append.mp hpart with hpart | hpart
    · exact hder.isSpelled _ part hpart
    · exact ih _ part hpart

theorem Program.isSpelled {ts : List Lexeme} {es : List Expr} (h : Program ts es) :
    ∀ part ∈ Expr.programParts es, part.2.IsSpelled := by
  cases h with
  | nil _ =>
    intro part hpart
    cases hpart
  | cons _ hder _ hes =>
    intro part hpart
    rcases List.mem_append.mp hpart with hpart | hpart
    · exact hder.isSpelled _ part hpart
    · exact hes.isSpelled_partsNext _ part hpart

/-- An expression begins with its first lexeme. -/
theorem Derives.head?_eq_first {n : Nonterminal} {ts : List Lexeme} {e : Expr}
    (h : Derives n ts e) :
    ts.head? = some e.first := by
  induction h with
  | lift _ _ ih => exact ih
  | join _ _ _ ihl _ =>
    rw [List.head?_append, ihl]
    rfl
  | unary _ _ _ => rfl
  | call _ _ _ _ _ ihf _ =>
    rw [List.head?_append, ihf]
    rfl
  | group _ _ _ _ => rfl
  | leaf _ => rfl

/-- The first lexemes of the expressions of a program are among its lexemes, in the same order. -/
theorem Program.sublist_firsts {ts : List Lexeme} {es : List Expr} (h : Program ts es) :
    (es.map Expr.first).Sublist ts := by
  induction h with
  | nil _ => exact List.nil_sublist _
  | @cons ss ts us e es _ hder _ _ ih =>
    obtain ⟨l, ls, rfl, -⟩ := hder.exists_begins
    obtain rfl : l = e.first := by simpa using hder.head?_eq_first
    exact ((ih.trans (List.sublist_append_right ls us)).cons_cons e.first).trans
      (List.sublist_append_right ss _)

theorem Layout.sublist_significantFrom (ls : List Lexeme) (depth : Nat) (awaited : Bool) :
    (significantFrom depth awaited ls).Sublist ls := by
  induction ls generalizing depth awaited with
  | nil => exact List.Sublist.refl _
  | cons l ls ih =>
    rw [significantFrom]
    split
    · exact (ih _ _).cons l
    · exact (ih _ _).cons_cons l

end LuaExpr
