import LuaExpr.Proofs.Compiler.Acceptance
import LuaExpr.Proofs.Expr.Concatenation
import LuaExpr.Proofs.Expr.Marks
import LuaExpr.Proofs.Lexeme.Insertion
import LuaExpr.Proofs.Machine.Discipline
/-!
# The source map

Each instruction records the offset of a lexeme of the source, the one that it comes from. Here it
is shown which one this is, and how many instructions come from each lexeme.

* `Origin`: the part of a program that an instruction at an index belongs to, and the lexeme of this
  part.
* `origin_of_placed`: all instructions of a tree have an origin at their offset.
* `Lexeme.instructionCount`: the number of instructions that come from a lexeme.
* `exists_origin_of_compile_eq_ok`: the source map of an accepted source.
-/

namespace LuaExpr

/-! ## Origins -/

/-- The lexeme that the instruction at the index `k` comes from. Each instruction belongs to one of
the parts, which are listed with the index of their first instruction, and stands at a place of its
own in the code of this part. -/
inductive Origin (chunk : Chunk) (parts : List (Nat × Expr)) (k : Nat) : Op → Lexeme → Prop
  | nil {l : Lexeme} (hp : (k, .leaf l) ∈ parts) (hk : l.kind = .keyword .nil) :
      Origin chunk parts k .nil l
  | true {l : Lexeme} (hp : (k, .leaf l) ∈ parts) (hk : l.kind = .keyword .true) :
      Origin chunk parts k .true l
  | false {l : Lexeme} (hp : (k, .leaf l) ∈ parts) (hk : l.kind = .keyword .false) :
      Origin chunk parts k .false l
  /-- The constant of the slot is the value of the literal. -/
  | constant {l : Lexeme} {slot : UInt8} {v : Value} (hp : (k, .leaf l) ∈ parts)
      (hk : l.kind = .number ∨ l.kind = .string) (hl : l.constant? = some v)
      (hv : chunk.constant? slot = some v) :
      Origin chunk parts k (.constant slot) l
  /-- The constant of the slot is the text of the name. -/
  | global {l : Lexeme} {slot : UInt8} (hp : (k, .leaf l) ∈ parts) (hk : l.kind = .name)
      (hv : chunk.constant? slot = some (.string (String.ofList l.text))) :
      Origin chunk parts k (.global slot) l
  | call {i : Nat} {f : Expr} {paren : Lexeme} {args : List Expr} {count : UInt8}
      (hp : (i, .call f paren args) ∈ parts) (hk : paren.kind = .symbol .leftParen)
      (hi : k = i + f.size + Expr.sizeAll args) (hc : count.toNat = args.length) :
      Origin chunk parts k (.call count) paren
  | unary {i : Nat} {op : UnaryOp} {mark : Lexeme} {e : Expr} (hp : (i, .unary op mark e) ∈ parts)
      (hk : mark.kind = op.kind) (hi : k = i + e.size) : Origin chunk parts k (.unary op) mark
  | binary {i : Nat} {op : BinaryOp} {mark : Lexeme} {l r : Expr}
      (hp : (i, .join (.binary op) mark l r) ∈ parts)
      (hk : mark.kind = .symbol op.symbol) (hi : k = i + l.size + r.size) :
      Origin chunk parts k (.binary op) mark
  | dup {i : Nat} {c : Connective} {mark : Lexeme} {l r : Expr} (hp : (i, .join c mark l r) ∈ parts)
      (hc : c = .and ∨ c = .or) (hk : mark.kind = c.kind) (hi : k = i + l.size) :
      Origin chunk parts k .dup mark
  | jumpIfFalse {i : Nat} {c : Connective} {mark : Lexeme} {l r : Expr} {target : UInt16}
      (hp : (i, .join c mark l r) ∈ parts) (hc : c = .and ∨ c = .or) (hk : mark.kind = c.kind)
      (hi : k = i + l.size + 1) : Origin chunk parts k (.jumpIfFalse target) mark
  | jump {i : Nat} {mark : Lexeme} {l r : Expr} {target : UInt16}
      (hp : (i, .join .or mark l r) ∈ parts)
      (hk : mark.kind = .keyword .or) (hi : k = i + l.size + 2) :
      Origin chunk parts k (.jump target) mark
  /-- The value of the left operand is dropped right before the right operand. -/
  | pop {i : Nat} {c : Connective} {mark : Lexeme} {l r : Expr} (hp : (i, .join c mark l r) ∈ parts)
      (hc : c = .and ∨ c = .or) (hk : mark.kind = c.kind) (hi : k + 1 = i + l.size + c.lead) :
      Origin chunk parts k .pop mark

/-- An instruction has an origin among some parts, the start of which is its offset. -/
def HasOrigin (chunk : Chunk) (parts : List (Nat × Expr)) (k : Nat) (i : Instruction) : Prop :=
  ∃ l ∈ Expr.marks parts, l.start = i.offset ∧ Origin chunk parts k i.op l

theorem Expr.mark_mem_marks {parts : List (Nat × Expr)} {i : Nat} {e : Expr} (h : (i, e) ∈ parts) :
    e.mark ∈ marks parts := List.mem_map_of_mem (f := fun part => part.2.mark) h

section Trees

variable {chunk : Chunk} {slot : Value → UInt8} {parts : List (Nat × Expr)} {base : Nat}

theorem HasOrigin.of_mem {k i : Nat} {e : Expr} {op : Op} (hp : (i, e) ∈ parts)
    (h : Origin chunk parts k op e.mark) :
    HasOrigin chunk parts k ⟨op, e.mark.start⟩ := ⟨e.mark, Expr.mark_mem_marks hp, rfl, h⟩

theorem origin_of_leaf {l : Lexeme} (h : Placed chunk slot base (.leaf l))
    (hp : (base, .leaf l) ∈ parts) :
    Origin chunk parts base (l.op slot) l := by
  have hconstant : ∀ {v : Value}, l.constant? = some v → chunk.constant? (slot v) = some v := by
    intro v hv
    exact h.constants v (by simp [hv])
  rcases (h.leaves l (by simp [Expr.leaves])).op_cases slot with
    ⟨hk, hop⟩ | ⟨hk, hop⟩ | ⟨hk, hop⟩ | ⟨v, hk, hv, hop⟩ | ⟨hk, hv, hop⟩ <;> rw [hop]
  · exact .nil hp hk
  · exact .true hp hk
  · exact .false hp hk
  · exact .constant hp hk hv (hconstant hv)
  · exact .global hp hk (hconstant hv)

/-- The instructions of a connective, between its operands and after them. -/
theorem origin_of_connective (chunk : Chunk) {c : Connective} {mark : Lexeme} {l r : Expr}
    (hp : (base, .join c mark l r) ∈ parts) (hk : mark.kind = c.kind) :
    Along (HasOrigin chunk parts) (base + l.size)
        (c.between mark.start (base + l.size) (base + l.size + c.lead + r.size)) ∧
      Along (HasOrigin chunk parts) (base + l.size + c.lead + r.size) (c.after mark.start) := by
  have hmem : ∀ {k : Nat} {op : Op}, Origin chunk parts k op mark →
      HasOrigin chunk parts k ⟨op, mark.start⟩ :=
    fun h => HasOrigin.of_mem hp h
  cases c with
  | binary op => exact ⟨trivial, hmem (.binary hp hk rfl), trivial⟩
  | and =>
    have hc : Connective.and = .and ∨ Connective.and = .or := .inl rfl
    exact ⟨⟨hmem (.dup hp hc hk rfl), hmem (.jumpIfFalse hp hc hk rfl), hmem (.pop hp hc hk rfl),
      trivial⟩, trivial⟩
  | or =>
    have hc : Connective.or = .and ∨ Connective.or = .or := .inr rfl
    exact ⟨⟨hmem (.dup hp hc hk rfl), hmem (.jumpIfFalse hp hc hk rfl), hmem (.jump hp hk rfl),
      hmem (.pop hp hc hk rfl), trivial⟩, trivial⟩

theorem origin_of_placedAll {args : List Expr} (h : PlacedAll chunk slot base args)
    (hargs : ∀ a ∈ args, ∀ base, Placed chunk slot base a → a.parts base ⊆ parts →
      Along (HasOrigin chunk parts) base (a.code slot base))
    (hsub : Expr.partsAll base args ⊆ parts) :
    Along (HasOrigin chunk parts) base (Expr.codeAll slot base args) := by
  induction args generalizing base with
  | nil => trivial
  | cons e args ih =>
    rw [Expr.codeAll, along_append, Expr.length_code]
    exact ⟨hargs e (by simp) base h.head fun _ hp => hsub (List.mem_append_left _ hp),
      ih h.tail (fun a ha => hargs a (by simp [ha])) fun _ hp => hsub (List.mem_append_right _ hp)⟩

/-- **The instructions of a tree** come from the lexemes of its parts. -/
theorem origin_of_placed (hspelled : ∀ part ∈ parts, part.2.IsSpelled) (e : Expr) : ∀ base,
    Placed chunk slot base e → e.parts base ⊆ parts →
      Along (HasOrigin chunk parts) base (e.code slot base) := by
  induction e with
  | leaf l =>
    intro base h hsub
    have hp : (base, Expr.leaf l) ∈ parts := hsub (by simp [Expr.parts])
    exact ⟨.of_mem hp (origin_of_leaf h hp), trivial⟩
  | group paren e ih =>
    exact fun base h hsub => ih base h.group fun _ hp => hsub (List.mem_cons_of_mem _ hp)
  | unary op mark e ih =>
    intro base h hsub
    have hp : (base, Expr.unary op mark e) ∈ parts := hsub (by simp [Expr.parts])
    rw [Expr.code, along_append, Expr.length_code]
    exact ⟨ih base h.unary.1 fun _ hp => hsub (List.mem_cons_of_mem _ hp),
      .of_mem hp (.unary hp (hspelled _ hp) rfl), trivial⟩
  | join c mark l r ihl ihr =>
    intro base h hsub
    have hp : (base, Expr.join c mark l r) ∈ parts := hsub (by simp [Expr.parts])
    obtain ⟨hbetween, hafter⟩ := origin_of_connective chunk hp (hspelled _ hp)
    rw [Expr.code, along_append, along_append, along_append, Expr.length_code,
      Connective.length_between, Expr.length_code]
    exact ⟨ihl base h.join_left fun _ hp =>
      hsub (List.mem_cons_of_mem _ (List.mem_append_left _ hp)), hbetween,
      ihr _ h.join_right fun _ hp => hsub (List.mem_cons_of_mem _ (List.mem_append_right _ hp)),
      hafter⟩
  | call f paren args ihf ihargs =>
    intro base h hsub
    have hp : (base, Expr.call f paren args) ∈ parts := hsub (by simp [Expr.parts])
    rw [Expr.code, along_append, along_append, Expr.length_code, Expr.length_codeAll]
    exact ⟨ihf base h.callee fun _ hp => hsub (List.mem_cons_of_mem _ (List.mem_append_left _ hp)),
      origin_of_placedAll h.arguments ihargs fun _ hp =>
        hsub (List.mem_cons_of_mem _ (List.mem_append_right _ hp)),
      .of_mem hp (.call hp (hspelled _ hp) rfl h.call_instruction.2), trivial⟩

/-! ## Origins in programs -/

/-- Where an instruction of a program comes from: a part of it, or the beginning of an expression
after the first one, before which the value of the one before is dropped. -/
def ProgramOrigin (chunk : Chunk) (program : List Expr) (k : Nat) (op : Op) (l : Lexeme) : Prop :=
  Origin chunk (Expr.programParts program) k op l ∨
    op = .pop ∧ ∃ e ∈ program.tail, (k + 1, e) ∈ Expr.programParts program ∧ l = e.first

theorem Expr.mem_parts_self (e : Expr) (base : Nat) : (base, e) ∈ e.parts base := by
  cases e <;> simp [parts]

/-- The instructions of further expressions of a program, among which are all of the expressions
`later`. -/
theorem origin_of_placedNext (hspelled : ∀ part ∈ parts, part.2.IsSpelled) {later es : List Expr}
    (h : PlacedNext chunk slot base es) (hsub : Expr.partsNext base es ⊆ parts)
    (hlater : es ⊆ later) :
    Along (fun k i => HasOrigin chunk parts k i ∨
      i.op = .pop ∧ ∃ e ∈ later, (k + 1, e) ∈ parts ∧
        e.first.start = i.offset) base (Expr.codeNext slot base es) := by
  induction es generalizing base with
  | nil => trivial
  | cons e es ih =>
    have hparts : e.parts (base + 1) ⊆ parts := fun _ hp => hsub (List.mem_append_left _ hp)
    have hcode := origin_of_placed hspelled e _ h.head hparts
    refine ⟨.inr ⟨rfl, e, hlater (by simp), hparts (e.mem_parts_self _), e.start_first⟩, ?_⟩
    rw [along_append, Expr.length_code]
    refine ⟨along_of_getElem? fun i x hx => .inl (hcode.getElem? hx), ?_⟩
    exact ih h.tail (fun _ hp => hsub (List.mem_append_right _ hp)) fun _ hd =>
      hlater (List.mem_cons_of_mem _ hd)

end Trees

/-- **The instructions of a program** come from its lexemes. -/
theorem exists_programOrigin {ts : List Lexeme} {program : List Expr} (h : Program ts program)
    (ha : Expr.Acceptable program) {k : Nat} {i : Instruction}
    (hi : (Chunk.ofProgram program).code[k]? = some i) :
    ∃ l ∈ ts, l.start = i.offset ∧ ProgramOrigin (Chunk.ofProgram program) program k i.op l := by
  have hmarks : ∀ l ∈ Expr.marks (Expr.programParts program), l ∈ ts :=
    fun l hl => (List.mem_filter.mp (h.perm_marks.mem_iff.mp hl)).1
  cases program with
  | nil => cases hi
  | cons e es =>
    obtain ⟨slot, hcode, he, hes⟩ := placed_ofProgram ha
    have hfirst := origin_of_placed h.isSpelled e 0 he (List.subset_append_left _ _)
    have hnext :=
      origin_of_placedNext h.isSpelled hes (List.subset_append_right _ _) (List.Subset.refl es)
    have hall : Along (fun k i => HasOrigin (Chunk.ofProgram (e :: es))
          (Expr.programParts (e :: es)) k i ∨
        i.op = .pop ∧ ∃ d ∈ es, (k + 1, d) ∈ Expr.programParts (e :: es) ∧
          d.first.start = i.offset) 0
        (Expr.programCode slot (e :: es)) := by
      rw [Expr.programCode, along_append, Expr.length_code, Nat.zero_add]
      exact ⟨along_of_getElem? fun j x hx => .inl (hfirst.getElem? hx), hnext⟩
    rw [← Array.getElem?_toList, hcode] at hi
    have hk := hall.getElem? hi
    rw [Nat.zero_add] at hk
    rcases hk with ⟨l, hl, hstart, horigin⟩ | ⟨hop, d, hd, hp, hstart⟩
    · exact ⟨l, hmarks l hl, hstart, .inl horigin⟩
    · have hfirst := h.sublist_firsts.mem (List.mem_map_of_mem (List.mem_cons_of_mem _ hd))
      exact ⟨d.first, hfirst, hstart, .inr ⟨hop, d, hd, hp, rfl⟩⟩

/-! ## Counting instructions -/

/-- Whether a tree is a call that a parenthesis opens. -/
def Expr.isCallAt (l : Lexeme) : Expr → Bool
  | call _ paren _ => paren = l
  | _ => false

/-- The number of instructions that come from a lexeme: three from an `and`, four from an `or`, one
from each other operator, from each literal and name and from the parenthesis of a call, and none
from anything else. -/
def Lexeme.instructionCount (parts : List (Nat × Expr)) (l : Lexeme) : Nat :=
  match l.kind with
  | .keyword .and => 3
  | .keyword .or => 4
  | .symbol .leftParen => if parts.any fun part => part.2.isCallAt l then 1 else 0
  | kind => if l.isLeaf || kind.awaitsOperand then 1 else 0

/-- The parts of a program add as many instructions as come from their marks. -/
theorem weight_eq_instructionCount {parts : List (Nat × Expr)}
    (hspelled : ∀ part ∈ parts, part.2.IsSpelled)
    (hnodup : (Expr.marks parts).Nodup) :
    ∀ part ∈ parts, part.2.weight = part.2.mark.instructionCount parts := by
  rintro ⟨i, e⟩ hp
  have hspell := hspelled _ hp
  cases e with
  | leaf l =>
    have hleaf : l.isLeaf = true := hspell
    have hawaits : l.kind.awaitsOperand = false := Lexeme.awaitsOperand_of_isLeaf hleaf
    show 1 = l.instructionCount parts
    unfold Lexeme.instructionCount
    split <;> simp_all [Lexeme.isLeaf]
  | group paren e =>
    have hk : paren.kind = .symbol .leftParen := hspell
    have hnone : (parts.any fun part => part.2.isCallAt paren) = false := by
      rw [List.any_eq_false]
      rintro ⟨j, d⟩ hd hcall
      cases d with
      | call f paren' args =>
        obtain rfl : paren' = paren := by simpa [Expr.isCallAt] using hcall
        have heq := List.inj_on_of_nodup_map hnodup hp hd rfl
        cases heq
      | _ => cases hcall
    simp [Expr.weight, Expr.mark, Lexeme.instructionCount, hk, hnone]
  | unary op mark e =>
    have hk : mark.kind = op.kind := hspell
    cases op <;> simp [Expr.weight, Expr.mark, Lexeme.instructionCount, hk, UnaryOp.kind,
      TokenKind.awaitsOperand]
  | join c mark l r =>
    have hk : mark.kind = c.kind := hspell
    cases c with
    | binary op =>
      cases op <;> simp [Expr.weight, Expr.mark, Lexeme.instructionCount, hk, Connective.kind,
        BinaryOp.symbol, TokenKind.awaitsOperand, Connective.size]
    | and =>
      simp [Expr.weight, Expr.mark, Lexeme.instructionCount, hk, Connective.kind, Connective.size]
    | or =>
      simp [Expr.weight, Expr.mark, Lexeme.instructionCount, hk, Connective.kind, Connective.size]
  | call f paren args =>
    have hk : paren.kind = .symbol .leftParen := hspell
    have hcall : (parts.any fun part => part.2.isCallAt paren) = true :=
      List.any_eq_true.mpr ⟨_, hp, by simp [Expr.isCallAt]⟩
    simp [Expr.weight, Expr.mark, Lexeme.instructionCount, hk, hcall]

theorem Lexeme.instructionCount_of_not_isMark {l : Lexeme} (parts : List (Nat × Expr))
    (h : l.isMark = false) :
    l.instructionCount parts = 0 := by
  simp only [isMark, Bool.or_eq_false_iff, decide_eq_false_iff_not] at h
  unfold instructionCount
  split <;> simp_all [TokenKind.awaitsOperand]

section Sums

variable (ls : List Lexeme) (f : Lexeme → Nat)

/-- A sum over lexemes, only one of which counts. -/
theorem sum_map_ite_eq (a : Lexeme) :
    (ls.map fun l => if l = a then f l else 0).sum = ls.count a * f a := by
  induction ls with
  | nil => simp
  | cons l ls ih =>
    rw [List.map_cons, List.sum_cons, ih, List.count_cons]
    by_cases h : l = a
    · subst h
      simp only [if_true, beq_self_eq_true]
      ring
    · simp [h]

/-- A sum over lexemes, those that are no marks counting for nothing. -/
theorem sum_map_filter_isMark (h : ∀ l, l.isMark = false → f l = 0) :
    ((ls.filter Lexeme.isMark).map f).sum = (ls.map f).sum := by
  induction ls with
  | nil => rfl
  | cons l ls ih =>
    cases hl : l.isMark with
    | false =>
      rw [List.filter_cons_of_neg (by simp [hl]), ih, List.map_cons, List.sum_cons, h l hl,
        Nat.zero_add]
    | true =>
      rw [List.filter_cons_of_pos hl, List.map_cons, List.map_cons, List.sum_cons,
        List.sum_cons, ih]

end Sums

/-- What the parts add at some offsets is what comes from the lexemes there. -/
theorem sum_weightAt {parts : List (Nat × Expr)} {lexemes : List Lexeme} (P : Nat → Bool)
    (hweight : ∀ part ∈ parts, part.2.weight = part.2.mark.instructionCount parts)
    (hperm : (Expr.marks parts).Perm (lexemes.filter Lexeme.isMark)) :
    (parts.map (Expr.weightAt P)).sum =
      (lexemes.map fun l => if P l.start then l.instructionCount parts else 0).sum := by
  have hmarks : parts.map (Expr.weightAt P) =
      (Expr.marks parts).map fun l => if P l.start then l.instructionCount parts else 0 := by
    rw [Expr.marks, List.map_map]
    refine List.map_congr_left fun part hpart => ?_
    rw [Expr.weightAt, hweight part hpart]
    rfl
  rw [hmarks, (hperm.map _).sum_eq]
  refine sum_map_filter_isMark _ _ fun l hl => ?_
  rw [Lexeme.instructionCount_of_not_isMark parts hl, ite_self]

/-! ## Sources -/

/-- The lexemes of a source begin at different offsets. -/
theorem nodup_start_of_outcomes {source : String} {lexemes : List Lexeme}
    (h : (Cursor.ofSource source).outcomes = lexemes.map .ok) :
    (lexemes.map Lexeme.start).Nodup := by
  rw [List.Nodup, List.pairwise_map]
  refine (Cursor.pairwise_outcomes h).imp_of_mem fun {l k} hl _ hle => Nat.ne_of_lt ?_
  exact Nat.lt_of_lt_of_le (Cursor.start_of_mem_outcomes h l hl).2 hle

/-- The expressions of a program that begin at the offset of a lexeme: one, if the lexeme is the
first one of an expression. -/
theorem countP_start_eq {lexemes : List Lexeme} {es : List Expr}
    (hstart : (lexemes.map Lexeme.start).Nodup) (hfirsts : (es.map Expr.first).Sublist lexemes)
    {l : Lexeme} (hl : l ∈ lexemes) :
    es.countP (fun e => e.start = l.start) = if l ∈ es.map Expr.first then 1 else 0 := by
  have hsame : ∀ e ∈ es, (e.start = l.start ↔ e.first = l) := by
    intro e he
    rw [← e.start_first]
    have hmem : e.first ∈ lexemes := hfirsts.mem (List.mem_map_of_mem he)
    exact ⟨fun h => List.inj_on_of_nodup_map hstart hmem hl h, fun h => h ▸ rfl⟩
  calc es.countP (fun e => e.start = l.start)
    _ = es.countP (fun e => e.first = l) := List.countP_congr fun e he => by simp [hsame e he]
    _ = (es.map Expr.first).count l := by
      rw [List.count, List.countP_map]
      rfl
    _ = _ := by
      split
      · exact List.count_eq_one_of_mem ((List.Nodup.of_map _ hstart).sublist hfirsts) ‹_›
      · exact List.count_eq_zero_of_not_mem ‹_›

/-- **The source map.** The instruction at each index stands at the offset of a lexeme of the
source, the one that it comes from. The operands, operators and opening parentheses of the source
are the marks of the parts of the program, each of them once, and each lexeme has as many
instructions as come from it, with one more if it begins an expression after the first one. -/
theorem exists_origin_of_compile_eq_ok {source : String} {chunk : Chunk}
    (h : compile source = .ok chunk) :
    ∃ lexemes program, (Cursor.ofSource source).outcomes = lexemes.map .ok ∧
      Program (Layout.significant lexemes) program ∧
      (∀ k i, chunk.code[k]? = some i → ∃ l ∈ lexemes, l.start = i.offset ∧
        ProgramOrigin chunk program k i.op l) ∧
      (Expr.marks (Expr.programParts program)).Perm (lexemes.filter Lexeme.isMark) ∧
      (∀ l ∈ lexemes, chunk.code.toList.countP (fun i => i.offset = l.start) =
        l.instructionCount (Expr.programParts program) +
          if l ∈ program.tail.map Expr.first then 1 else 0) ∧
      chunk.code.size =
        (lexemes.map (Lexeme.instructionCount (Expr.programParts program))).sum +
          program.tail.length := by
  obtain ⟨lexemes, program, hden, hacc, rfl⟩ := compile_eq_ok_iff.mp h
  have hstart := nodup_start_of_outcomes hden.read
  have hperm : (Expr.marks (Expr.programParts program)).Perm (lexemes.filter Lexeme.isMark) := by
    have := hden.derives.perm_marks
    rwa [Layout.significant, Layout.filter_isMark_significantFrom] at this
  have hnodup : (Expr.marks (Expr.programParts program)).Nodup :=
    hperm.nodup_iff.mpr ((List.Nodup.of_map _ hstart).filter _)
  have hweight := weight_eq_instructionCount hden.derives.isSpelled hnodup
  have hsub : (Layout.significant lexemes).Sublist lexemes := Layout.sublist_significantFrom _ _ _
  have hcount : ∀ P : Nat → Bool,
      (Chunk.ofProgram program).code.toList.countP (fun i => P i.offset) =
      (lexemes.map fun l => if P l.start then l.instructionCount (Expr.programParts program)
        else 0).sum + program.tail.countP (fun e => P e.start) := by
    intro P
    rw [← sum_weightAt P hweight hperm]
    exact Expr.countP_programCode P _ program
  refine ⟨lexemes, program, hden.read, hden.derives, fun k i hi => ?_, hperm, fun l hl => ?_, ?_⟩
  · obtain ⟨l, hl, horigin⟩ := exists_programOrigin hden.derives hacc hi
    exact ⟨l, hsub.mem hl, horigin⟩
  · have hfirsts : (program.tail.map Expr.first).Sublist lexemes :=
      (((List.tail_sublist _).map _).trans hden.derives.sublist_firsts).trans hsub
    have honly : (lexemes.map fun k => if (decide (k.start = l.start)) = true then
          k.instructionCount (Expr.programParts program) else 0) =
        lexemes.map fun k => if k = l then k.instructionCount (Expr.programParts program)
          else 0 := by
      refine List.map_congr_left fun k hk => ?_
      have hsame : k.start = l.start ↔ k = l :=
        ⟨fun heq => List.inj_on_of_nodup_map hstart hk hl heq, fun heq => heq ▸ rfl⟩
      simp [hsame]
    rw [hcount fun o => o = l.start, honly, sum_map_ite_eq,
      List.count_eq_one_of_mem (List.Nodup.of_map _ hstart) hl, Nat.one_mul,
      countP_start_eq hstart hfirsts hl]
  · have hall := hcount fun _ => true
    rwa [List.countP_true, List.countP_true, Array.length_toList] at hall

/-- Two expressions, an alternative and a negated call: the drop between them comes from the minus
sign, which begins the second one. -/
theorem exists_origin_lines : ∃ chunk lexemes program, compile "x or nil\n-f()" = .ok chunk ∧
    (Cursor.ofSource "x or nil\n-f()").outcomes = lexemes.map .ok ∧
    Program (Layout.significant lexemes) program ∧
    (∃ l ∈ lexemes, l.start = 9 ∧ ProgramOrigin chunk program 6 .pop l) ∧
    (∃ l ∈ lexemes, l.start = 11 ∧ ProgramOrigin chunk program 8 (.call 0) l) ∧
    (lexemes.map (Lexeme.instructionCount (Expr.programParts program))).sum + program.tail.length =
      10 := by
  have h : compile "x or nil\n-f()" = .ok
      { code := #[⟨.global 0, 0⟩, ⟨.dup, 2⟩, ⟨.jumpIfFalse 4, 2⟩, ⟨.jump 6, 2⟩, ⟨.pop, 2⟩,
          ⟨.nil, 5⟩, ⟨.pop, 9⟩,
          ⟨.global 1, 10⟩, ⟨.call 0, 11⟩, ⟨.unary .negate, 9⟩],
        constants := #[.string "x", .string "f"] } := by cbv
  obtain ⟨lexemes, program, hread, hprogram, horigin, -, -, hsize⟩ :=
    exists_origin_of_compile_eq_ok h
  exact ⟨_, lexemes, program, h, hread, hprogram, horigin 6 ⟨.pop, 9⟩ rfl,
    horigin 8 ⟨.call 0, 11⟩ rfl, hsize.symm⟩

end LuaExpr
