import LuaExpr.Proofs.Compiler.Steps
import LuaExpr.Proofs.Expr.Code
/-!
# What the compiler writes

A part of the compiler adds the code of one tree at the end of a chunk and the constants of the tree
to its pool. The slots in the code are those of the pool at the end, or of any pool that it grows to
later.

* `Writes`: instructions and constants that a chunk has more than an earlier one.
* `Compiled`: the code of a tree has been written and its limits are kept, with one fact for each
  form of trees.
* `CompiledAll`, `CompiledNext`: the same for arguments and for the further expressions of a
  program.
-/

namespace LuaExpr

/-! ## Growing chunks -/

/-- The second chunk has the constants `vs` and the instructions `code` more than the first one. -/
structure Writes (c c' : Chunk) (vs : List Value)
    (code : (Value → UInt8) → List Instruction) : Prop where
  constants : c'.constants.toList = Pool.addAll c.constants.toList vs
  room : c.constants.size ≤ Chunk.maxConstants → c'.constants.size ≤ Chunk.maxConstants
  code : ∀ pool, c'.constants.toList <+: pool →
    c'.code.toList = c.code.toList ++ code (Pool.slot pool)

namespace Writes

variable {c c₁ c₂ : Chunk} {vs ws : List Value} {f g : (Value → UInt8) → List Instruction}

theorem refl (c : Chunk) : Writes c c [] fun _ => [] :=
  ⟨rfl, id, fun _ _ => (List.append_nil _).symm⟩

theorem isPrefix (h : Writes c c₁ vs f) : c.constants.toList <+: c₁.constants.toList := by
  rw [h.constants]
  exact Pool.isPrefix_addAll _ _

theorem trans (h : Writes c c₁ vs f) (h' : Writes c₁ c₂ ws g) :
    Writes c c₂ (vs ++ ws) fun slot => f slot ++ g slot := by
  refine ⟨?_, h'.room ∘ h.room, fun pool hp => ?_⟩
  · rw [h'.constants, h.constants, Pool.addAll_append]
  · rw [h'.code pool hp, h.code pool (h'.isPrefix.trans hp), List.append_assoc]

theorem push (c : Chunk) (op : Op) (offset : Nat) :
    Writes c (c.push op offset) [] fun _ => [⟨op, offset⟩] :=
  ⟨rfl, id, fun _ _ => by simp [Chunk.push]⟩

/-- An instruction that refers to the slot of a constant. -/
theorem slotOf {v : Value} {slot : UInt8} (h : c.slotOf? v = some (slot, c₁)) (op : UInt8 → Op)
    (offset : Nat) :
    Writes c (c₁.push (op slot) offset) [v] fun slot => [⟨op (slot v), offset⟩] := by
  obtain ⟨hcode, hpool, rfl, hroom⟩ := Chunk.slotOf?_eq_some h
  refine ⟨hpool, hroom, fun pool hp => ?_⟩
  have hp : c₁.constants.toList <+: pool := hp
  have hv : v ∈ c₁.constants.toList := by
    rw [hpool, Pool.mem_add]
    exact .inr rfl
  rw [Pool.slot_eq_of_isPrefix hp hv]
  simp [Chunk.push, hcode]

theorem size (h : Writes c c₁ vs f) {n : Nat} (hn : ∀ slot, (f slot).length = n) :
    c₁.code.size = c.code.size + n := by
  rw [← Array.length_toList, h.code _ List.prefix_rfl, List.length_append, hn, Array.length_toList]

theorem modify_length_append {α : Type} (f : α → α) (xs ys : List α) (y : α) :
    (xs ++ y :: ys).modify xs.length f = xs ++ f y :: ys := by
  induction xs with
  | nil => rfl
  | cons x xs ih => simp [ih]

/-- A jump among the new instructions is turned to its target. -/
theorem retarget {i : Nat} {op : Op} {offset : Nat}
    {before after : (Value → UInt8) → List Instruction}
    (h : Writes c c₁ vs fun slot => before slot ++ ⟨op, offset⟩ :: after slot)
    (hi : ∀ slot, c.code.size + (before slot).length = i) (target : UInt16) :
    Writes c (c₁.retarget i target) vs fun slot => before slot ++ ⟨op.withTarget target,
      offset⟩ :: after slot := by
  refine ⟨h.constants, h.room, fun pool hp => ?_⟩
  have hcode := h.code pool hp
  have hlen : (c.code.toList ++ before (Pool.slot pool)).length = i := by
    rw [List.length_append, Array.length_toList, hi]
  show (c₁.code.modify i _).toList = _
  rw [Array.toList_modify, hcode, ← List.append_assoc, ← hlen, modify_length_append,
    List.append_assoc]

/-- The code between the operands of a conjunction, whose jump has no target yet. -/
theorem conjunctionOpened (c : Chunk) (offset : Nat) :
    Writes c (Compiler.conjunctionOpened c offset) [] fun _ =>
    [⟨.dup, offset⟩, ⟨.jumpIfFalse Compiler.unlanded, offset⟩, ⟨.pop, offset⟩] :=
  ((Writes.push c _ _).trans (Writes.push _ _ _)).trans (Writes.push _ _ _)

/-- The code between the operands of an alternative, whose second jump has no target yet. -/
theorem alternativeOpened (c : Chunk) (offset : Nat) :
    Writes c (Compiler.alternativeOpened c offset) [] fun _ =>
    [⟨.dup, offset⟩, ⟨.jumpIfFalse (UInt16.ofNat (c.code.size + 3)), offset⟩,
      ⟨.jump Compiler.unlanded, offset⟩,
      ⟨.pop, offset⟩] := by
  have hjumps : Writes c _ [] fun _ =>
      [⟨.dup, offset⟩] ++ ⟨.jumpIfFalse Compiler.unlanded, offset⟩ ::
      [⟨.jump Compiler.unlanded, offset⟩] :=
    ((Writes.push c _ _).trans (Writes.push _ _ _)).trans (Writes.push _ _ _)
  have hturned :=
    hjumps.retarget (i := c.code.size + 1) (fun _ => rfl) (UInt16.ofNat (c.code.size + 3))
  have hsize : (((c.push .dup offset).push (.jumpIfFalse Compiler.unlanded) offset).push
      (.jump Compiler.unlanded) offset).code.size = c.code.size + 3 := by
    simp [Chunk.push]
  rw [Compiler.alternativeOpened, hsize]
  exact hturned.trans (.push _ .pop offset)

end Writes

/-! ## The code of a tree -/

/-- The second chunk has the code of a tree more than the first one, and the tree keeps its limits
there. -/
structure Compiled (c c' : Chunk) (e : Expr) : Prop where
  writes : Writes c c' e.constants fun slot => e.code slot c.code.size
  leaves : ∀ l ∈ e.leaves, l.IsValid
  parts : ∀ part ∈ e.parts c.code.size, part.2.Fits part.1

/-- The same for several trees in a row. -/
structure CompiledAll (c c' : Chunk) (es : List Expr) : Prop where
  writes : Writes c c' (Expr.constantsAll es) fun slot => Expr.codeAll slot c.code.size es
  leaves : ∀ l ∈ Expr.leavesAll es, l.IsValid
  parts : ∀ part ∈ Expr.partsAll c.code.size es, part.2.Fits part.1

/-- The same for further expressions of a program. -/
structure CompiledNext (c c' : Chunk) (es : List Expr) : Prop where
  writes : Writes c c' (Expr.constantsAll es) fun slot => Expr.codeNext slot c.code.size es
  leaves : ∀ l ∈ Expr.leavesAll es, l.IsValid
  parts : ∀ part ∈ Expr.partsNext c.code.size es, part.2.Fits part.1

section Forms

variable {c c₁ c₂ : Chunk} {e l r f : Expr} {es args : List Expr} {mark paren leaf : Lexeme}

theorem Compiled.size (h : Compiled c c₁ e) : c₁.code.size = c.code.size + e.size :=
  h.writes.size fun slot => Expr.length_code slot e _

namespace Compiled

/-- The code of a conjunction or an alternative ends with that of its right operand. -/
theorem size_eq_join {k : Connective} {c₁' : Chunk} (hr : Compiled c₁' c₂ r) (hl : Compiled c c₁ l)
    (hsize : c₁'.code.size = c₁.code.size + k.lead) (hk : k = .and ∨ k = .or) :
    c₂.code.size = c.code.size + (Expr.join k mark l r).size := by
  rw [hr.size, hsize, hl.size, Expr.size_join_eq_lead hk]
  omega

/-- A leaf without a constant. -/
theorem literal {op : Op} (hc : leaf.constant? = none) (hv : leaf.IsValid)
    (hop : ∀ slot, leaf.op slot = op) :
    Compiled c (c.push op leaf.start) (.leaf leaf) := by
  refine ⟨?_, by simpa [Expr.leaves] using hv, by simp [Expr.parts, Expr.Fits]⟩
  have hw := Writes.push c op leaf.start
  simpa [Expr.code, hop, hc] using hw

/-- A leaf with a constant. -/
theorem constant {v : Value} {slot : UInt8} {op : UInt8 → Op} (hl : leaf.isLeaf = true)
    (hv : leaf.constant? = some v) (hs : c.slotOf? v = some (slot, c₁))
    (hop : ∀ slot, leaf.op slot = op (slot v)) :
    Compiled c (c₁.push (op slot) leaf.start) (.leaf leaf) := by
  refine ⟨?_, ?_, by simp [Expr.parts, Expr.Fits]⟩
  · have hw := Writes.slotOf hs op leaf.start
    simpa [Expr.code, hop, hv] using hw
  · intro l hmem
    rw [List.mem_singleton.mp hmem]
    exact ⟨hl, fun _ => by rw [hv]; rfl⟩

theorem group (h : Compiled c c₁ e) : Compiled c c₁ (.group paren e) :=
  ⟨h.writes, h.leaves, by simpa [Expr.parts, Expr.Fits] using h.parts⟩

theorem unary {op : UnaryOp} (h : Compiled c c₁ e) :
    Compiled c (c₁.push (.unary op) mark.start) (.unary op mark e) := by
  refine ⟨?_, h.leaves, by simpa [Expr.parts, Expr.Fits] using h.parts⟩
  have hw := h.writes.trans (.push c₁ (.unary op) mark.start)
  simpa [Expr.code] using hw

/-- The limits of both operands are those of the whole, apart from the one on the whole itself. -/
theorem join {k : Connective} {c₁' c₃ : Chunk} (hl : Compiled c c₁ l) (hr : Compiled c₁' c₂ r)
    (hsize : c₁'.code.size = c₁.code.size + k.lead)
    (hfits : (Expr.join k mark l r).Fits c.code.size)
    (hw : Writes c c₃ (Expr.join k mark l r).constants fun slot =>
      (Expr.join k mark l r).code slot c.code.size) :
    Compiled c c₃ (.join k mark l r) := by
  refine ⟨hw, ?_, ?_⟩
  · intro x hx
    rcases List.mem_append.mp hx with hx | hx
    · exact hl.leaves x hx
    · exact hr.leaves x hx
  · intro part hpart
    rcases List.mem_cons.mp hpart with rfl | hpart
    · exact hfits
    · rcases List.mem_append.mp hpart with hpart | hpart
      · exact hl.parts part hpart
      · exact hr.parts part (by rw [hsize, hl.size]; exact hpart)

theorem binary {op : BinaryOp} (hl : Compiled c c₁ l) (hr : Compiled c₁ c₂ r) :
    Compiled c (c₂.push (.binary op) mark.start) (.join (.binary op) mark l r) := by
  refine hl.join hr rfl trivial ?_
  have hw := (hl.writes.trans hr.writes).trans (.push c₂ (.binary op) mark.start)
  simpa [Expr.code, Connective.between, Connective.after, Connective.lead, hl.size] using hw

theorem and (hl : Compiled c c₁ l) (hr : Compiled (Compiler.conjunctionOpened c₁ mark.start) c₂ r)
    (hsize : c₂.code.size < UInt16.size) :
    Compiled c (c₂.retarget (c₁.code.size + 1) (UInt16.ofNat c₂.code.size))
      (.join .and mark l r) := by
  have hopen := Compiler.size_conjunctionOpened c₁ mark.start
  have hend : c₂.code.size = c.code.size + (Expr.join .and mark l r).size :=
    hr.size_eq_join hl hopen (.inl rfl)
  refine hl.join hr hopen (by rw [Expr.Fits, ← hend]; exact Nat.le_of_lt_succ hsize) ?_
  have hw : Writes c c₂ (l.constants ++ r.constants) fun slot =>
      (l.code slot c.code.size ++ [⟨.dup, mark.start⟩]) ++
      ⟨.jumpIfFalse Compiler.unlanded, mark.start⟩ :: ⟨.pop,
        mark.start⟩ :: r.code slot (c.code.size + l.size + 3) := by
    simpa [hopen, hl.size] using (hl.writes.trans
      (.conjunctionOpened c₁ mark.start)).trans hr.writes
  have hw' :=
    hw.retarget (i := c₁.code.size + 1) (by intro slot; simp [hl.size]; omega)
      (UInt16.ofNat c₂.code.size)
  simpa [Expr.code, Connective.between, Connective.after, Connective.lead, Op.withTarget, hr.size,
    hopen, hl.size] using hw'

theorem or (hl : Compiled c c₁ l) (hr : Compiled (Compiler.alternativeOpened c₁ mark.start) c₂ r)
    (hsize : c₂.code.size < UInt16.size) :
    Compiled c (c₂.retarget (c₁.code.size + 2) (UInt16.ofNat c₂.code.size))
      (.join .or mark l r) := by
  have hopen := Compiler.size_alternativeOpened c₁ mark.start
  have hend : c₂.code.size = c.code.size + (Expr.join .or mark l r).size :=
    hr.size_eq_join hl hopen (.inr rfl)
  refine hl.join hr hopen (by rw [Expr.Fits, ← hend]; exact Nat.le_of_lt_succ hsize) ?_
  have hw : Writes c c₂ (l.constants ++ r.constants) fun slot => (l.code slot c.code.size ++
        [⟨.dup, mark.start⟩, ⟨.jumpIfFalse (UInt16.ofNat (c₁.code.size + 3)), mark.start⟩]) ++
      ⟨.jump Compiler.unlanded, mark.start⟩ :: ⟨.pop,
        mark.start⟩ :: r.code slot (c.code.size + l.size + 4) := by
    simpa [hopen, hl.size] using (hl.writes.trans
      (.alternativeOpened c₁ mark.start)).trans hr.writes
  have hw' :=
    hw.retarget (i := c₁.code.size + 2) (by intro slot; simp [hl.size]; omega)
      (UInt16.ofNat c₂.code.size)
  simpa [Expr.code, Connective.between, Connective.after, Connective.lead, Op.withTarget, hr.size,
    hopen, hl.size] using hw'

theorem call (hf : Compiled c c₁ f) (hargs : CompiledAll c₁ c₂ args)
    (hlen : args.length < UInt8.size) :
    Compiled c (c₂.push (.call (UInt8.ofNat args.length)) paren.start) (.call f paren args) := by
  refine ⟨?_, ?_, ?_⟩
  · have hw :=
      (hf.writes.trans hargs.writes).trans (.push c₂ (.call (UInt8.ofNat args.length)) paren.start)
    simpa [Expr.code, hf.size] using hw
  · intro l hl
    rcases List.mem_append.mp hl with hl | hl
    · exact hf.leaves l hl
    · exact hargs.leaves l hl
  · intro part hpart
    rcases List.mem_cons.mp hpart with rfl | hpart
    · exact Nat.le_of_lt_succ hlen
    · rcases List.mem_append.mp hpart with hpart | hpart
      · exact hf.parts part hpart
      · exact hargs.parts part (by rw [hf.size]; exact hpart)

end Compiled

/-! ## Several trees -/

namespace CompiledAll

theorem nil (c : Chunk) : CompiledAll c c [] :=
  ⟨.refl c, by simp [Expr.leavesAll], by simp [Expr.partsAll]⟩

theorem cons (hes : CompiledAll c₁ c₂ es) (he : Compiled c c₁ e) : CompiledAll c c₂ (e :: es) := by
  refine ⟨?_, ?_, ?_⟩
  · have hw := he.writes.trans hes.writes
    simpa [Expr.codeAll, he.size] using hw
  · intro l hl
    rcases List.mem_append.mp hl with hl | hl
    · exact he.leaves l hl
    · exact hes.leaves l hl
  · intro part hpart
    rcases List.mem_append.mp hpart with hpart | hpart
    · exact he.parts part hpart
    · exact hes.parts part (by rw [he.size]; exact hpart)

end CompiledAll

namespace CompiledNext

theorem nil (c : Chunk) : CompiledNext c c [] :=
  ⟨.refl c, by simp [Expr.leavesAll], by simp [Expr.partsNext]⟩

theorem cons (hes : CompiledNext c₁ c₂ es) (he : Compiled (c.push .pop e.start) c₁ e) :
    CompiledNext c c₂ (e :: es) := by
  have hpop : (c.push .pop e.start).code.size = c.code.size + 1 := by simp [Chunk.push]
  have hsize : c₁.code.size = c.code.size + 1 + e.size := by rw [he.size, hpop]
  refine ⟨?_, ?_, ?_⟩
  · have hw := ((Writes.push c .pop e.start).trans he.writes).trans hes.writes
    simpa [Expr.codeNext, hsize, hpop] using hw
  · intro l hl
    rcases List.mem_append.mp hl with hl | hl
    · exact he.leaves l hl
    · exact hes.leaves l hl
  · intro part hpart
    rcases List.mem_append.mp hpart with hpart | hpart
    · exact he.parts part (by rw [hpop]; exact hpart)
    · exact hes.parts part (by rw [hsize]; exact hpart)

end CompiledNext

section Program

variable (hes : CompiledNext c c₁ es) (he : Compiled {} c e)
include hes he

theorem CompiledNext.constants_eq :
    c₁.constants.toList = Pool.addAll [] (Expr.constantsAll (e :: es)) := by
  rw [Expr.constantsAll_cons]
  exact (he.writes.trans hes.writes).constants

/-- The chunk of a whole program. -/
theorem CompiledNext.eq_ofProgram : c₁ = Chunk.ofProgram (e :: es) := by
  have hpool := hes.constants_eq he
  have hsize : c.code.size = e.size := by simpa using he.size
  have hcode := (he.writes.trans hes.writes).code _ List.prefix_rfl
  rw [hpool, hsize] at hcode
  obtain ⟨code, constants⟩ := c₁
  simp only [Chunk.ofProgram, Expr.programCode, Chunk.mk.injEq]
  exact ⟨Array.toList_inj.mp hcode, Array.toList_inj.mp hpool⟩

/-- A whole program keeps its limits. -/
theorem CompiledNext.acceptable (hn : ∀ d ∈ e :: es, d.nesting < maxDepth) :
    Expr.Acceptable (e :: es) := by
  have hsize : c.code.size = e.size := by simpa using he.size
  refine ⟨?_, fun d hd => Nat.le_of_lt_succ (hn d hd), ?_, ?_⟩
  · intro l hl
    rcases List.mem_append.mp hl with hl | hl
    · exact he.leaves l hl
    · exact hes.leaves l hl
  · rw [← hes.constants_eq he]
    exact (he.writes.trans hes.writes).room (Nat.zero_le _)
  · intro part hpart
    rcases List.mem_append.mp hpart with hpart | hpart
    · exact he.parts part hpart
    · exact hes.parts part (by rw [hsize]; exact hpart)

end Program

end Forms

end LuaExpr
