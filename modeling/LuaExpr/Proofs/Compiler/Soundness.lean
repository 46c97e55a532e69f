import LuaExpr.Proofs.Compiler.Reading
import LuaExpr.Proofs.Compiler.Writing
import LuaExpr.Proofs.Expr.Unambiguity
/-!
# Soundness of the compiler

What the compiler accepts is what the grammar derives, and what it writes is the code of the tree.
The compiler opens operands inside operands, so the proof is an induction on the number of operands
that may still be opened; each part of the compiler is sound if the operands that it opens are.

* `Compiler.Recognised`: what there is to say of an operand that has been compiled.
* `Compiler.Sound`: a part recognises an operand whenever it succeeds.
* `Compiler.sound_operand`: operands are recognised; `Compiler.sound_expressions`: so are programs.
-/

namespace LuaExpr.Compiler

open Layout

/-- Between two states, an operand at a level has been read and its code has been written. -/
structure Recognised (levels : Nat) (p : Precedence) (s s' : Compiler) (ts : List Lexeme)
    (e : Expr) : Prop where
  derives : Derives p.nonterminal ts e
  ahead : s.ahead true = ts ++ s'.ahead false
  stops : Stops p (s'.ahead false)
  compiled : Compiled s.chunk s'.chunk e
  nesting : e.nesting < levels
  keeps : Keeps s s'
  settled : s'.Settled

/-- A part of the compiler recognises operands when it succeeds. -/
def Sound (levels : Nat) (part : Precedence → CompileM Unit) : Prop :=
  ∀ {p : Precedence} {s s' : Compiler}, p ≤ .exponent → s.InOrder → part p s = .ok () s' →
    ∃ ts e, Recognised levels p s s' ts e

/-! ## After single lexemes -/

variable {s t s' : Compiler}

theorem after_of_isLeaf (h : s.previous.isLeaf = true) : s.after = s.ahead false := by
  have hk : (∀ depth, s.previous.kind.depthAfter depth = depth) ∧
      s.previous.kind.awaitsOperand = false := by
    unfold Lexeme.isLeaf at h
    split at h <;> rename_i hk
    all_goals first | (rw [hk]; exact ⟨fun _ => rfl, rfl⟩) | cases h
  rw [after_eq_ahead hk.1, hk.2]

theorem after_of_unaryOp {op : UnaryOp} (h : s.previous.kind = op.kind) :
    s.after = s.ahead true := by
  have hk : (∀ depth, op.kind.depthAfter depth = depth) ∧ op.kind.awaitsOperand = true := by
    cases op <;> exact ⟨fun _ => rfl, rfl⟩
  rw [after_eq_ahead (by rw [h]; exact hk.1), h, hk.2]

theorem after_of_connective {c : Connective} (h : s.previous.kind = c.kind) :
    s.after = s.ahead true := by
  have hk : (∀ depth, c.kind.depthAfter depth = depth) ∧ c.kind.awaitsOperand = true := by
    cases c with
    | binary op => cases op <;> exact ⟨fun _ => rfl, rfl⟩
    | _ => exact ⟨fun _ => rfl, rfl⟩
  rw [after_eq_ahead (by rw [h]; exact hk.1), h, hk.2]

/-- Looking at a closing parenthesis, counting it and using it up. -/
theorem closed (ho : t.InOrder) (hk : t.current.kind = .symbol .rightParen)
    (ha : advance { t with groups := t.groups - 1 } = .ok () s') (hg : t.groups = s.groups + 1)
    (hd : t.depth = s.depth) (hr : ∃ ls : List Lexeme, s.remaining = ls.map .ok ++ t.remaining) :
    Keeps s s' ∧ s'.Settled ∧ s'.chunk = t.chunk ∧ t.ahead false = t.current :: s'.ahead false := by
  have hadv :=
    advanced_of_advance (s := { t with groups := t.groups - 1 }) (ho.of_eq rfl rfl rfl) ha
  have hgroups : s'.groups = s.groups := by
    rw [hadv.keeps.groups]
    show t.groups - 1 = s.groups
    omega
  obtain ⟨ls, hls⟩ := hr
  obtain ⟨ks, hks⟩ := hadv.keeps.read
  have hks : t.remaining = ks.map .ok ++ s'.remaining := hks
  refine ⟨⟨hgroups, hadv.keeps.depth.trans hd, hadv.keeps.inOrder, ls ++ ks, ?_⟩,
    hadv.settled, hadv.chunk, hadv.ahead_closed hk⟩
  rw [hls, hks, List.map_append, List.append_assoc]

/-! ## Operands that no joint takes apart -/

section Parts

variable {levels : Nat} {part : Precedence → CompileM Unit}

/-- What there is to say of an operand that begins with the previous lexeme. -/
structure RecognisedHead (levels : Nat) (s s' : Compiler) (ts : List Lexeme) (e : Expr) : Prop where
  head : Head ts e (s'.ahead false)
  after : s.previous :: s.after = ts ++ s'.ahead false
  compiled : Compiled s.chunk s'.chunk e
  nesting : e.nesting < levels + 1
  keeps : Keeps s s'
  settled : s'.Settled

/-- A leaf leaves the place in the source as it is. -/
theorem recognisedHead_leaf {c : Chunk} (ho : s.InOrder) (hset : s.Settled)
    (hleaf : s.previous.isLeaf = true) (hc : Compiled s.chunk c (.leaf s.previous)) :
    RecognisedHead levels s { s with chunk := c } [s.previous] (.leaf s.previous) := by
  refine ⟨.leaf hleaf, ?_, hc, Nat.succ_pos _, ⟨rfl, rfl, ho.of_eq rfl rfl rfl, [], rfl⟩, hset⟩
  rw [after_of_isLeaf hleaf]
  rfl

theorem recognisedHead_literal {op : Op} (ho : s.InOrder) (hset : s.Settled)
    (hleaf : s.previous.isLeaf = true) (hc : s.previous.constant? = none)
    (hk : s.previous.kind ≠ .number ∧ s.previous.kind ≠ .string)
    (hop : ∀ slot, s.previous.op slot = op)
    (h : literal op s = .ok () s') :
    RecognisedHead levels s s' [s.previous] (.leaf s.previous) := by
  rw [literal_eq_ok.mp h]
  refine recognisedHead_leaf ho hset hleaf (.literal hc ⟨hleaf, ?_⟩ hop)
  rintro (h | h)
  · exact absurd h hk.1
  · exact absurd h hk.2

theorem sound_leading (hp : Sound levels part) (ho : s.InOrder) (hset : s.Settled)
    (h : leading part s = .ok () s') : ∃ ts e, RecognisedHead levels s s' ts e := by
  rcases leading_eq_ok.mp h with
    ⟨hk, h⟩ | ⟨hk, h⟩ | ⟨hk, h⟩ | ⟨hk, h⟩ | ⟨hk, h⟩ | ⟨hk, h⟩ | ⟨hk, h⟩ | ⟨op, t, hk, h', rfl⟩
  · exact ⟨_, _, recognisedHead_literal ho hset (by simp [Lexeme.isLeaf, hk])
      (by simp [Lexeme.constant?, hk])
      (by simp [hk]) (by simp [Lexeme.op, hk]) h⟩
  · exact ⟨_, _, recognisedHead_literal ho hset (by simp [Lexeme.isLeaf, hk])
      (by simp [Lexeme.constant?, hk])
      (by simp [hk]) (by simp [Lexeme.op, hk]) h⟩
  · exact ⟨_, _, recognisedHead_literal ho hset (by simp [Lexeme.isLeaf, hk])
      (by simp [Lexeme.constant?, hk])
      (by simp [hk]) (by simp [Lexeme.op, hk]) h⟩
  · obtain ⟨n, hn, slot, chunk, hs, rfl⟩ := numberLiteral_eq_ok.mp h
    have hv : s.previous.constant? = some (.number n) := by simp [Lexeme.constant?, hk, hn]
    exact ⟨_, _, recognisedHead_leaf ho hset (by simp [Lexeme.isLeaf, hk])
      (.constant (by simp [Lexeme.isLeaf, hk]) hv hs fun slot => by simp [Lexeme.op, hk, hv])⟩
  · obtain ⟨text, ht, slot, chunk, hs, rfl⟩ := stringLiteral_eq_ok.mp h
    have hv : s.previous.constant? = some (.string text) := by
      simp [Lexeme.constant?, hk, ht, Except.toOption]
    exact ⟨_, _, recognisedHead_leaf ho hset (by simp [Lexeme.isLeaf, hk])
      (.constant (by simp [Lexeme.isLeaf, hk]) hv hs fun slot => by simp [Lexeme.op, hk, hv])⟩
  · obtain ⟨slot, chunk, hs, rfl⟩ := name_eq_ok.mp h
    have hv : s.previous.constant? = some (.string (String.ofList s.previous.text)) := by
      simp [Lexeme.constant?, hk]
    exact ⟨_, _, recognisedHead_leaf ho hset (by simp [Lexeme.isLeaf, hk])
      (.constant (by simp [Lexeme.isLeaf, hk]) hv hs fun slot => by simp [Lexeme.op, hk, hv])⟩
  · obtain ⟨t, ht, hclose, hadv⟩ := group_eq_ok.mp h
    obtain ⟨ts, e, hr⟩ :=
      hp (s := { s with groups := s.groups + 1 }) (by decide) (ho.of_eq rfl rfl rfl) ht
    obtain ⟨hkeeps, hset', hc, ha⟩ :=
      closed (s := s) hr.keeps.inOrder hclose hadv hr.keeps.groups hr.keeps.depth hr.keeps.read
    refine ⟨_, _, .group hk hclose hr.derives, ?_, ?_, Nat.succ_lt_succ hr.nesting, hkeeps, hset'⟩
    · rw [after_leftParen hk, hr.ahead, ha]
      simp
    · rw [hc]
      exact hr.compiled.group
  · have hk := TokenKind.eq_of_unaryOp?_eq_some hk
    obtain ⟨ts, e, hr⟩ := hp (by decide) ho h'
    have hcompiled : Compiled _ _ (.unary op s.previous e) := hr.compiled.unary
    refine ⟨_, _, .unary hk hr.derives hr.stops, ?_, hcompiled, Nat.succ_lt_succ hr.nesting,
      ⟨hr.keeps.groups, hr.keeps.depth, hr.keeps.inOrder.of_eq rfl rfl rfl,
        hr.keeps.read⟩, hr.settled⟩
    rw [after_of_unaryOp hk, hr.ahead]
    rfl

/-! ## Calls -/

/-- What there is to say of the arguments of a call. -/
structure RecognisedArguments (levels : Nat) (s s' : Compiler) (ts : List Lexeme)
    (args : List Expr) : Prop where
  arguments : Arguments ts args
  ahead : s.ahead true = ts ++ s'.ahead false
  compiled : CompiledAll s.chunk s'.chunk args
  nesting : Expr.nestingAll args < levels + 1
  keeps : Keeps s s'

theorem RecognisedArguments.nil (hg : 0 < s.groups) (ho : s.InOrder) :
    RecognisedArguments levels s s [] [] :=
  ⟨.nil, ahead_inside hg _ _, .nil _, Nat.succ_pos _, .refl ho⟩

theorem RecognisedArguments.single {ts : List Lexeme} {e : Expr}
    (he : Recognised levels .or s s' ts e) :
    RecognisedArguments levels s s' ts [e] :=
  ⟨.single he.derives, he.ahead, (CompiledAll.nil _).cons he.compiled,
    Nat.max_lt.mpr ⟨Nat.succ_lt_succ he.nesting, Nat.succ_pos _⟩, he.keeps⟩

/-- Arguments after a comma. -/
theorem RecognisedArguments.cons {t' : Compiler} {ts us : List Lexeme} {e : Expr} {args : List Expr}
    (hg : 0 < s.groups) (he : Recognised levels .or s t ts e) (hk : t.current.kind = .symbol .comma)
    (hadv : Advanced t t') (hr : RecognisedArguments levels t' s' us args) (hne : args ≠ []) :
    RecognisedArguments levels s s' (ts ++ t.current :: us) (e :: args) := by
  refine ⟨hr.arguments.cons he.derives hk hne, ?_, hr.compiled.cons (hadv.chunk ▸ he.compiled),
    Nat.max_lt.mpr ⟨Nat.succ_lt_succ he.nesting, hr.nesting⟩,
    (he.keeps.trans hadv.keeps).trans hr.keeps⟩
  rw [he.ahead, hadv.ahead_comma he.settled (by rw [he.keeps.groups]; exact hg) hk, hr.ahead]
  simp

theorem sound_arguments (hp : Sound levels part) {α : Type} {rounds : List α} {count n : Nat}
    (hne : rounds ≠ []) (hr : (s.ahead true).length ≤ rounds.length) (ho : s.InOrder)
    (hg : 0 < s.groups) (h : arguments (part .or) count rounds s = .ok n s') :
    ∃ ts args, RecognisedArguments levels s s' ts args ∧ args ≠ [] ∧ n = count + args.length := by
  induction rounds generalizing s count with
  | nil => exact absurd rfl hne
  | cons a rounds ih =>
    obtain ⟨t, ht, h⟩ := arguments_cons_eq_ok.mp h
    obtain ⟨ts, e, he⟩ := hp (by decide) ho ht
    rcases h with ⟨hk, t', ht', h⟩ | ⟨hk, rfl, rfl⟩
    · have hadv := advanced_of_advance he.keeps.inOrder ht'
      have hgroups : 0 < t.groups := by
        rw [he.keeps.groups]
        exact hg
      -- an argument and its comma take two rounds' worth of lexemes, so that there is a round for
      -- the next one
      have hlen : (t'.ahead true).length + 2 ≤ rounds.length + 1 := by
        obtain ⟨l, ls, rfl, -⟩ := he.derives.exists_begins
        have :=
          congrArg List.length
            (he.ahead.trans (congrArg _ (hadv.ahead_comma he.settled hgroups hk)))
        simp at this hr
        omega
      obtain ⟨us, args, hargs, hnil, rfl⟩ := ih (by rintro rfl; simp at hlen) (by omega)
        hadv.keeps.inOrder (by rw [hadv.keeps.groups]; exact hgroups) h
      exact ⟨_, _, hargs.cons hg he hk hadv hnil, by simp, by simp; omega⟩
    · exact ⟨ts, [e], .single he, by simp, rfl⟩

/-! ## Joints -/

/-- What there is to say of a joint: it makes the tree `e` out of the operand `l` before it, whose
code begins where the chunk `c` ends. -/
structure RecognisedJoint (levels : Nat) (p : Precedence) (c : Chunk) (s s' : Compiler)
    (l e : Expr) : Prop where
  chain : ∀ {d : Expr} {rest : List Lexeme}, Chain p e (s'.ahead false) d rest →
    Chain p l (s.previous :: s.after) d rest
  shorter : (s'.ahead false).length ≤ s.after.length
  compiled : Compiled c s'.chunk e
  nesting : e.nesting < levels + 1
  keeps : Keeps s s'
  settled : s'.Settled

variable {c : Chunk} {l : Expr} {p : Precedence}

/-- What is between the parentheses of a call, whose number of arguments is counted. -/
theorem recognisedArguments_of_call (hp : Sound levels part) {t t' : Compiler} {n : Nat}
    (ho : s.InOrder) (hskip : skipLines { s with groups := s.groups + 1 } = .ok () t)
    (hargs : (t.current.kind = .symbol .rightParen ∧ n = 0 ∧ t' = t) ∨
      (t.current.kind ≠ .symbol .rightParen ∧
        arguments (part .or) 0 (.ok t.current :: t.unread) t = .ok n t')) :
    ∃ us args, RecognisedArguments levels t t' us args ∧ n = args.length := by
  obtain ⟨hkeeps, -, -, -⟩ :=
    skipLines_spec (s := { s with groups := s.groups + 1 }) (ho.of_eq rfl rfl rfl) hskip
  have hg : 0 < t.groups := by
    rw [hkeeps.groups]
    exact Nat.succ_pos _
  rcases hargs with ⟨-, rfl, rfl⟩ | ⟨-, hargs⟩
  · exact ⟨[], [], .nil hg hkeeps.inOrder, rfl⟩
  · obtain ⟨us, args, hr, -, hcount⟩ :=
      sound_arguments hp (List.cons_ne_nil _ _) (length_ahead_le_budget t true)
        hkeeps.inOrder hg hargs
    exact ⟨us, args, hr, by rw [hcount, Nat.zero_add]⟩

/-- What has been read once the parenthesis of a call is closed. -/
theorem after_of_call {t t' t'' : Compiler} {us : List Lexeme} {args : List Expr}
    (hk : s.previous.kind = .symbol .leftParen) (ho : s.InOrder)
    (hskip : skipLines { s with groups := s.groups + 1 } = .ok () t)
    (hr : RecognisedArguments levels t t' us args) (hclose : t'.current.kind = .symbol .rightParen)
    (hadv : advance { t' with groups := t'.groups - 1 } = .ok () t'') :
    s.after = us ++ t'.current :: t''.ahead false ∧ t'.ahead false = t'.current :: t''.ahead false ∧
      Keeps s t'' ∧
      t''.Settled ∧ t''.chunk = t'.chunk := by
  obtain ⟨hkeeps, -, -, ha⟩ :=
    skipLines_spec (s := { s with groups := s.groups + 1 }) (ho.of_eq rfl rfl rfl) hskip
  obtain ⟨hkeeps', hset', hc', ha'⟩ := closed (s := s) hr.keeps.inOrder hclose hadv
    (hr.keeps.groups.trans hkeeps.groups) (hr.keeps.depth.trans hkeeps.depth)
    (hkeeps.trans hr.keeps).read
  refine ⟨?_, ha', hkeeps', hset', hc'⟩
  rw [after_leftParen hk, ha, hr.ahead, ha']

/-- A call whose arguments are recognised. -/
theorem RecognisedJoint.call {t t' t'' : Compiler} {us : List Lexeme} {args : List Expr}
    (hk : s.previous.kind = .symbol .leftParen) (hl : p ≤ .call) (hn : l.nesting < levels + 1)
    (hc : Compiled c s.chunk l) (ho : s.InOrder)
    (hskip : skipLines { s with groups := s.groups + 1 } = .ok () t)
    (hr : RecognisedArguments levels t t' us args) (hclose : t'.current.kind = .symbol .rightParen)
    (hadv : advance { t' with groups := t'.groups - 1 } = .ok () t'')
    (hlen : args.length < UInt8.size) :
    t'.ahead false = t'.current :: t''.ahead false ∧
      RecognisedJoint levels p c s
        { t'' with chunk := t''.chunk.push (.call (UInt8.ofNat args.length)) s.previous.start } l
        (.call l s.previous args) := by
  obtain ⟨hafter, ha', hkeeps', hset', hc'⟩ := after_of_call hk ho hskip hr hclose hadv
  have hchunk :=
    (skipLines_spec (s := { s with groups := s.groups + 1 }) (ho.of_eq rfl rfl rfl) hskip).2.1
  refine ⟨ha', ?_, ?_, ?_, Nat.max_lt.mpr ⟨hn, hr.nesting⟩,
    ⟨hkeeps'.groups, hkeeps'.depth, hkeeps'.inOrder.of_eq rfl rfl rfl, hkeeps'.read⟩, hset'⟩
  · intro d rest hd
    rw [hafter]
    exact .call hk hl hr.arguments hclose hd
  · rw [hafter, List.length_append, List.length_cons]
    show (t''.ahead false).length ≤ _
    omega
  · have hcall : Compiled _ _ (.call l s.previous args) := hc.call (hchunk ▸ hr.compiled) hlen
    rw [← hc'] at hcall
    exact hcall

theorem sound_call (hp : Sound levels part) (hl : p ≤ .call) (ho : s.InOrder)
    (hk : s.previous.kind = .symbol .leftParen) (hc : Compiled c s.chunk l)
    (hn : l.nesting < levels + 1) (h : call (part .or) s.previous.token s = .ok () s') :
    ∃ e, RecognisedJoint levels p c s s' l e := by
  obtain ⟨t, n, t', t'', hskip, hargs, hclose, hadv, hlen, rfl⟩ := call_eq_ok.mp h
  obtain ⟨us, args, hr, rfl⟩ := recognisedArguments_of_call hp ho hskip hargs
  exact ⟨_, (RecognisedJoint.call hk hl hn hc ho hskip hr hclose hadv hlen).2⟩

/-- A connective whose right operand is recognised, whatever is written before and after the right
operand. -/
theorem RecognisedJoint.connective {k : Connective} {t : Compiler} {c₁ c₂ : Chunk}
    {us : List Lexeme} {r : Expr} (hk : s.previous.kind = k.kind) (hl : p ≤ k.joint.precedence)
    (hn : l.nesting < levels + 1)
    (hr : Recognised levels k.rightPrecedence { s with chunk := c₁ } t us r)
    (hc : Compiled c c₂ (.join k s.previous l r)) :
    RecognisedJoint levels p c s { t with chunk := c₂ } l (.join k s.previous l r) := by
  have hafter : s.after = us ++ t.ahead false := by
    rw [after_of_connective hk]
    exact hr.ahead
  refine ⟨?_, ?_, hc, Nat.max_lt.mpr ⟨hn, Nat.succ_lt_succ hr.nesting⟩,
    ⟨hr.keeps.groups, hr.keeps.depth, hr.keeps.inOrder.of_eq rfl rfl rfl,
      hr.keeps.read⟩, hr.settled⟩
  · intro d rest hd
    have hder := hr.derives
    rw [Connective.nonterminal_rightPrecedence] at hder
    rw [hafter]
    exact .join hk hl hder hr.stops hd
  · rw [hafter, List.length_append]
    exact Nat.le_add_left _ _

theorem sound_join {j : Joint} (hp : Sound levels part) (hj : s.previous.kind.joint? = some j)
    (hl : p ≤ j.precedence) (ho : s.InOrder) (hc : Compiled c s.chunk l)
    (hn : l.nesting < levels + 1) (h : join part j s = .ok () s') :
    ∃ e, RecognisedJoint levels p c s s' l e := by
  rcases TokenKind.eq_of_joint?_eq_some hj with ⟨rfl, hk⟩ | ⟨k, rfl, hk⟩
  · exact sound_call hp hl ho hk hc hn (join_call_eq_ok.mp h)
  · cases k with
    | binary op =>
      obtain ⟨t, ht, rfl⟩ := join_binary_eq_ok.mp h
      obtain ⟨us, r, hr⟩ := hp (Connective.binary op).rightPrecedence_le ho ht
      exact ⟨_, .connective hk hl hn hr (hc.binary hr.compiled)⟩
    | and =>
      obtain ⟨t, ht, hland⟩ := conjunction_eq_ok.mp (join_and_eq_ok.mp h)
      obtain ⟨us, r, hr⟩ := hp (s := { s with chunk := conjunctionOpened s.chunk s.previous.start })
        Connective.and.rightPrecedence_le (ho.of_eq rfl rfl rfl) ht
      obtain ⟨hsize, rfl⟩ := land_eq_ok.mp hland
      exact ⟨_, .connective hk hl hn hr (hc.and hr.compiled hsize)⟩
    | or =>
      obtain ⟨-, t, ht, hland⟩ := alternative_eq_ok.mp (join_or_eq_ok.mp h)
      obtain ⟨us, r, hr⟩ := hp (s := { s with chunk := alternativeOpened s.chunk s.previous.start })
        Connective.or.rightPrecedence_le (ho.of_eq rfl rfl rfl) ht
      obtain ⟨hsize, rfl⟩ := land_eq_ok.mp hland
      exact ⟨_, .connective hk hl hn hr (hc.or hr.compiled hsize)⟩

theorem sound_following (hp : Sound levels part) {α : Type} {rounds : List α}
    (hr : (s.ahead false).length ≤ rounds.length) (ho : s.InOrder) (hset : s.Settled)
    (hc : Compiled c s.chunk l) (hn : l.nesting < levels + 1)
    (h : following part p rounds s = .ok () s') :
    ∃ e, Chain p l (s.ahead false) e (s'.ahead false) ∧ Compiled c s'.chunk e ∧
      e.nesting < levels + 1 ∧
      Keeps s s' ∧ s'.Settled := by
  induction rounds generalizing s l with
  | nil =>
    rw [following_nil_eq_ok] at h
    subst h
    have hnil : s'.ahead false = [] := List.length_eq_zero_iff.mp (Nat.le_zero.mp hr)
    refine ⟨l, ?_, hc, hn, .refl ho, hset⟩
    rw [hnil]
    exact .stop fun j hj => by cases hj
  | cons a rounds ih =>
    rcases following_cons_eq_ok.mp h with ⟨j, t, t', hj, hl, ht, ht', h⟩ | ⟨hstop, rfl⟩
    · have hadv := advanced_of_advance ho ht
      have hjt : t.previous.kind.joint? = some j := by rw [hadv.previous, hj]
      obtain ⟨d, hd⟩ := sound_join hp hjt hl hadv.keeps.inOrder (hadv.chunk ▸ hc) hn ht'
      have hcons : s.ahead false = t.previous :: t.after := by
        rw [hadv.previous]
        refine hadv.ahead_eq_cons ?_ hset ?_ <;> intro hk <;> rw [hk] at hj <;> cases hj
      have hlen : (t'.ahead false).length ≤ rounds.length := by
        have := hd.shorter
        rw [hcons] at hr
        simp at hr
        omega
      obtain ⟨e, hchain, hrest⟩ := ih hlen hd.keeps.inOrder hd.settled hd.compiled hd.nesting h
      refine ⟨e, ?_, hrest.1, hrest.2.1, (hadv.keeps.trans hd.keeps).trans hrest.2.2.1, hrest.2.2.2⟩
      rw [hcons]
      exact hd.chain hchain
    · refine ⟨l, .stop ?_, hc, hn, .refl ho, hset⟩
      by_cases hk : s'.current.kind = .eof
      · rw [ahead_of_eof hk]
        exact fun j hj => by cases hj
      · obtain ⟨ls, hls⟩ := exists_ahead_eq_cons hset hk
        rw [hls]
        exact fun j hj => hstop j hj

end Parts

/-! ## Expressions -/

/-- **Soundness of operands**, by induction on the number of operands that may still be opened. -/
theorem sound_operand (levels : Nat) : Sound levels (operand levels) := by
  induction levels with
  | zero =>
    intro p s s' _ _ h
    exact (operand_zero_eq_ok.mp h).elim
  | succ levels ih =>
    intro p s s' hp ho h
    obtain ⟨s₁, s₂, s₃, s₄, hskip, hadv, hlead, hfollow, rfl⟩ := operand_succ_eq_ok.mp h
    obtain ⟨hkeeps, hchunk, hclear, ha⟩ :=
      skipLines_spec (s := { s with depth := s.depth + 1 }) (ho.of_eq rfl rfl rfl) hskip
    have hadv := advanced_of_advance hkeeps.inOrder hadv
    obtain ⟨us, d, hd⟩ := sound_leading ih hadv.keeps.inOrder hadv.settled hlead
    obtain ⟨e, hchain, hc, hn, hkeeps',
      hset⟩ := sound_following ih (length_ahead_le_budget s₃ false)
      hd.keeps.inOrder hd.settled hd.compiled hd.nesting hfollow
    obtain ⟨ts, heq, hder, hstops⟩ := hd.head.derives_chain hp hchain
    have hbegins : s₁.current.Begins := by
      obtain ⟨k, ks, rfl, hk⟩ := hd.head.derives.1.exists_begins
      rw [← hadv.previous, (List.cons_eq_cons.mp hd.after).1]
      exact hk
    have hall := (hkeeps.trans hadv.keeps).trans (hd.keeps.trans hkeeps')
    refine ⟨ts, e, hder, ?_, hstops, ?_, hn,
      ⟨hall.groups, ?_, hall.inOrder.of_eq rfl rfl rfl, hall.read⟩, hset⟩
    · have hcons := hadv.ahead_eq_cons hbegins.kind_ne.2.2.2 hclear hbegins.kind_ne.1
      calc s.ahead true
        _ = s₁.ahead true := ha
        _ = s₂.previous :: s₂.after := by rw [hcons, hadv.previous]
        _ = ts ++ s₄.ahead false := by rw [hd.after, heq]
    · rw [hadv.chunk, hchunk] at hc
      exact hc
    · show s₄.depth - 1 = s.depth
      rw [hall.depth]
      exact Nat.add_sub_cancel _ _

/-! ## Programs -/

theorem isSeparator_eq_true_iff {l : Lexeme} : isSeparator l.kind = true ↔ l.IsSeparator := by
  simp [isSeparator, Lexeme.IsSeparator]

/-- What there is to say of the first of the expressions ahead. Its code follows the chunk `c`. -/
structure RecognisedFirst (c : Chunk) (s s' : Compiler) (e : Expr) : Prop where
  program : ∀ {es : List Expr}, Program (s'.ahead false) es → Program (s.ahead false) (e :: es)
  shorter : (s'.ahead false).length < (s.ahead false).length
  compiled : Compiled c s'.chunk e
  nesting : e.nesting < maxDepth
  keeps : Keeps s s'
  settled : s'.Settled

/-- One round of a program: nothing but separators is left, or there is one more expression. -/
theorem sound_round {first : Bool} {α : Type} {a : α} {rounds : List α} (ho : s.InOrder)
    (hg : s.groups = 0) (hd : s.depth = 0) (h : expressions first (a :: rounds) s = .ok () s') :
    (Program (s.ahead false) [] ∧ s'.chunk = s.chunk ∧ Keeps s s' ∧ s'.current.kind = .eof) ∨
      ∃ e t, RecognisedFirst (if first then s.chunk else s.chunk.push .pop e.start) s t e ∧
        expressions false rounds t = .ok () s' := by
  obtain ⟨t, hsep, ⟨hk, rfl⟩ | ⟨hk, t', he, hend, h⟩⟩ := expressions_cons_eq_ok.mp h
  · obtain ⟨hkeeps, hc, -, ss, hss, ha⟩ := separators_spec ho hg hsep
    refine .inl ⟨?_, hc, hkeeps, hk⟩
    rw [ha, ahead_of_eof hk, List.append_nil]
    exact .nil fun l hl => isSeparator_eq_true_iff.mp (hss l hl)
  · obtain ⟨hkeeps, hc, hnosep, ss, hss, ha⟩ := separators_spec ho hg hsep
    have hdepth : t.depth = 0 := hkeeps.depth.trans hd
    have he := expression_eq_ok.mp he
    rw [show maxDepth - ({ t with chunk := _ } : Compiler).depth =
      maxDepth by rw [hdepth]; rfl] at he
    obtain ⟨ts, e, hr⟩ := sound_operand maxDepth (p := .or)
      (s := { t with chunk := if first then t.chunk else t.chunk.push .pop t.current.start })
      (by decide) (hkeeps.inOrder.of_eq rfl rfl rfl) he
    have hline : t.current.kind ≠ .line := by
      intro hl
      rw [hl] at hnosep
      cases hnosep
    have hclear : ∀ awaited, isDropped t.groups awaited t.current.kind = false :=
      fun awaited => isDropped_eq_false hkeeps.inOrder.current hline
    have hahead : t.ahead false = ts ++ t'.ahead false := by
      rw [ahead_of_not_dropped hk (hclear false), ← ahead_of_not_dropped hk (hclear true)]
      exact hr.ahead
    obtain ⟨k, ks, rfl, -⟩ := hr.derives.exists_begins
    have hstart : e.start = t.current.start := by
      rw [ahead_of_not_dropped hk (hclear false)] at hahead
      rw [hr.derives.start_eq k rfl, (List.cons_eq_cons.mp hahead).1]
    have hsep : ∀ l ∈ (t'.ahead false).head?, l.IsSeparator := by
      intro l hl
      obtain ⟨ls, hls⟩ := List.head?_eq_some_iff.mp hl
      have hcur := current_eq_of_ahead_eq_cons hr.settled hls
      rcases hend with hend | hend
      · exact isSeparator_eq_true_iff.mp (hcur ▸ hend)
      · rw [ahead_of_eof hend] at hls
        cases hls
    refine .inr ⟨e, t', ⟨?_, ?_, ?_, hr.nesting, hkeeps.trans
      ⟨hr.keeps.groups, hr.keeps.depth, hr.keeps.inOrder, hr.keeps.read⟩, hr.settled⟩, h⟩
    · intro es hes
      rw [ha, hahead]
      exact .cons (fun l hl => isSeparator_eq_true_iff.mp (hss l hl)) hr.derives hsep hes
    · rw [ha, hahead]
      simp only [List.length_append, List.length_cons]
      omega
    · rw [hstart, ← hc]
      exact hr.compiled

/-- What there is to say of further expressions of a program. -/
structure RecognisedNext (s s' : Compiler) (es : List Expr) : Prop where
  program : Program (s.ahead false) es
  compiled : CompiledNext s.chunk s'.chunk es
  nesting : ∀ e ∈ es, e.nesting < maxDepth
  keeps : Keeps s s'
  ended : s'.current.kind = .eof

theorem sound_expressions {α : Type} {rounds : List α} (hr : (s.ahead false).length ≤ rounds.length)
    (ho : s.InOrder) (hset : s.Settled) (hg : s.groups = 0) (hd : s.depth = 0)
    (h : expressions false rounds s = .ok () s') : ∃ es, RecognisedNext s s' es := by
  induction rounds generalizing s with
  | nil =>
    rw [expressions_nil_eq_ok] at h
    subst h
    have hnil : s'.ahead false = [] := List.length_eq_zero_iff.mp (Nat.le_zero.mp hr)
    exact ⟨[], by rw [hnil]; exact .nil (by simp), .nil _, by simp, .refl ho,
      eof_of_ahead_eq_nil hset hnil⟩
  | cons a rounds ih =>
    rcases sound_round ho hg hd h with ⟨hp, hc, hkeeps, hk⟩ | ⟨e, t, he, h⟩
    · exact ⟨[], hp, by rw [hc]; exact .nil _, by simp, hkeeps, hk⟩
    · have hlen := he.shorter
      simp only [List.length_cons] at hr
      obtain ⟨es, hes⟩ := ih (by omega) he.keeps.inOrder he.settled (he.keeps.groups.trans hg)
        (he.keeps.depth.trans hd) h
      refine ⟨e :: es, he.program hes.program, hes.compiled.cons he.compiled, ?_,
        he.keeps.trans hes.keeps, hes.ended⟩
      intro d hmem
      rcases List.mem_cons.mp hmem with rfl | hmem
      · exact he.nesting
      · exact hes.nesting d hmem

/-- **Soundness of programs**, for a compiler that has written nothing and has read the first
lexeme. -/
theorem sound_program {α : Type} {rounds : List α} (hr : (s.ahead false).length ≤ rounds.length)
    (hne : rounds ≠ []) (ho : s.InOrder) (hg : s.groups = 0) (hd : s.depth = 0) (hc : s.chunk = {})
    (h : expressions true rounds s = .ok () s') :
    ∃ es, Program (s.ahead false) es ∧ Expr.Acceptable es ∧ s'.chunk = Chunk.ofProgram es ∧
      Keeps s s' ∧
      s'.current.kind = .eof := by
  cases rounds with
  | nil => exact absurd rfl hne
  | cons a rounds =>
    rcases sound_round ho hg hd h with ⟨hp, hc', hkeeps, hk⟩ | ⟨e, t, he, h⟩
    · refine ⟨[], hp, ⟨?_, ?_, ?_, ?_⟩, by rw [hc', hc]; rfl, hkeeps, hk⟩
      · simp [Expr.leavesAll]
      · simp
      · exact Nat.zero_le _
      · simp [Expr.programParts]
    · have hlen := he.shorter
      simp only [List.length_cons] at hr
      obtain ⟨es, hes⟩ := sound_expressions (by omega)
        he.keeps.inOrder he.settled (he.keeps.groups.trans hg)
        (he.keeps.depth.trans hd) h
      have hfirst : Compiled {} t.chunk e := by
        rw [← hc]
        exact he.compiled
      have hof := hes.compiled.eq_ofProgram hfirst
      refine ⟨e :: es, he.program hes.program, hes.compiled.acceptable hfirst ?_, hof,
        he.keeps.trans hes.keeps, hes.ended⟩
      intro d hmem
      rcases List.mem_cons.mp hmem with rfl | hmem
      · exact he.nesting
      · exact hes.nesting d hmem

end LuaExpr.Compiler
