import LuaExpr.Proofs.Binary64.Bits
import LuaExpr.Proofs.Compiler.Acceptance
/-!
# Literals and slots

The pool of an accepted source holds each literal of it once, in the order of their first uses. An
instruction that refers to a slot comes from a number, a string or a name, and those are the only
lexemes that refer to a slot.

* `Expr.filter_programCode`: the instructions of a program that refer to a slot are those of its
  literals and names.
* `Pool.idxOf_slots_lt`: the slots of some constants are first used one after the other.
* `exists_slot_of_compile_eq_ok`: the pool of an accepted source.
-/

namespace LuaExpr

/-! ## Definitions -/

/-- The slot that an instruction refers to. -/
def Op.slot? : Op → Option Nat
  | constant slot | global slot => some slot.toNat
  | nil | true | false | call _ | pop | dup | unary _ | binary _ | jumpIfFalse _ | jump _ => none

/-- The index of the first instruction that refers to a slot, the number of all instructions if none
does. -/
def Chunk.firstUse (c : Chunk) (slot : Nat) : Nat :=
  c.code.toList.findIdx fun i => i.op.slot? = some slot

/-- Whether a lexeme refers to a slot: numbers, strings and names do. -/
def Lexeme.refers (l : Lexeme) : Bool := l.kind = .number || l.kind = .string || l.kind = .name

/-- The instruction of a lexeme that refers to a slot. -/
def Lexeme.reference (l : Lexeme) (slot : UInt8) : Instruction :=
  ⟨if l.kind = .name then .global slot else .constant slot, l.start⟩

/-- Whether two values are the same literal: strings with the same text or numbers with the same bit
pattern. -/
def Value.IsSameLiteral : Value → Value → Prop
  | string a, string b => a = b
  | number a, number b => a.toBits = b.toBits
  | _, _ => False

/-- Strings and numbers are the same literal if they are the same value. -/
theorem Value.isSameLiteral_iff {v w : Value} (h : (∃ s, v = .string s) ∨ ∃ n, v = .number n) :
    v.IsSameLiteral w ↔ v = w := by
  rcases h with ⟨s, rfl⟩ | ⟨n, rfl⟩
  · cases w <;> simp [IsSameLiteral]
  · cases w with
    | number m =>
      exact ⟨fun heq => congrArg _ (Binary64.toBits_injective heq), fun heq => by cases heq; rfl⟩
    | _ => simp [IsSameLiteral]

/-! ## Instructions that refer to slots -/

namespace Lexeme

variable {l : Lexeme} {v : Value}

theorem constant?_cases (h : l.constant? = some v) :
    l.refers = true ∧ ((∃ s, v = .string s) ∨ ∃ n, v = .number n) := by
  unfold constant? at h
  split at h
  case h_1 hk =>
    obtain ⟨n, -, rfl⟩ := Option.map_eq_some_iff.mp h
    exact ⟨by simp [refers, hk], .inr ⟨n, rfl⟩⟩
  case h_2 hk =>
    obtain ⟨s, -, rfl⟩ := Option.map_eq_some_iff.mp h
    exact ⟨by simp [refers, hk], .inl ⟨s, rfl⟩⟩
  case h_3 hk =>
    cases h
    exact ⟨by simp [refers, hk], .inl ⟨_, rfl⟩⟩
  case h_4 => cases h

theorem isLeaf_of_refers (h : l.refers = true) : l.isLeaf = true := by
  simp only [refers, Bool.or_eq_true, decide_eq_true_eq] at h
  rcases h with (hk | hk) | hk <;> simp [isLeaf, hk]

theorem filter_refers_filter_isLeaf (ls : List Lexeme) :
    (ls.filter isLeaf).filter refers = ls.filter refers := by
  rw [List.filter_filter]
  refine List.filter_congr fun l _ => ?_
  cases hl : l.refers with
  | false => rfl
  | true => simp [isLeaf_of_refers hl]

/-- A number, a string or a name that has a value refers to its slot, and all other operands refer
to none. -/
theorem IsValid.instruction_cases (h : l.IsValid) (slot : Value → UInt8) :
    (l.refers = false ∧ (l.op slot).slot? = none) ∨
      (l.refers = true ∧ ∃ v, l.constant? = some v ∧ ⟨l.op slot, l.start⟩ = l.reference (slot v) ∧
        (l.op slot).slot? = some (slot v).toNat) := by
  rcases h.op_cases slot with ⟨hk, hop⟩ | ⟨hk, hop⟩ | ⟨hk, hop⟩ | ⟨v, hk, hv, hop⟩ | ⟨hk, hv, hop⟩
  · exact .inl ⟨by simp [refers, hk], by rw [hop]; rfl⟩
  · exact .inl ⟨by simp [refers, hk], by rw [hop]; rfl⟩
  · exact .inl ⟨by simp [refers, hk], by rw [hop]; rfl⟩
  · have hne : l.kind ≠ .name := by rcases hk with hk | hk <;> simp [hk]
    exact .inr ⟨(constant?_cases hv).1, v, hv, by rw [reference, if_neg hne, hop], by rw [hop]; rfl⟩
  · exact .inr ⟨(constant?_cases hv).1, _, hv, by rw [reference, if_pos hk, hop], by rw [hop]; rfl⟩

theorem IsValid.exists_constant (h : l.IsValid) (hrefers : l.refers = true) :
    ∃ v, l.constant? = some v := by
  rcases h.instruction_cases (Pool.slot []) with ⟨hno, -⟩ | ⟨-, v, hv, -, -⟩
  · rw [hno] at hrefers
    cases hrefers
  · exact ⟨v, hv⟩

end Lexeme

namespace Expr

variable (slot : Value → UInt8)

/-- The instruction of a leaf. -/
def leafInstruction (l : Lexeme) : Instruction := ⟨l.op slot, l.start⟩

/-- Whether an instruction refers to a slot. -/
def refersToSlot (i : Instruction) : Bool := i.op.slot?.isSome

theorem filter_between (c : Connective) (offset first done : Nat) :
    (c.between offset first done).filter refersToSlot = [] := by
  cases c <;> rfl

theorem filter_after (c : Connective) (offset : Nat) :
    (c.after offset).filter refersToSlot = [] := by
  cases c <;> rfl

theorem filter_codeAll_of_forall {es : List Expr}
    (h : ∀ e ∈ es, ∀ base,
      (e.code slot base).filter refersToSlot =
        (e.leaves.map (leafInstruction slot)).filter refersToSlot)
    (base : Nat) :
    (codeAll slot base es).filter refersToSlot =
      ((leavesAll es).map (leafInstruction slot)).filter refersToSlot := by
  induction es generalizing base with
  | nil => rfl
  | cons e es ih =>
    rw [codeAll, leavesAll, List.filter_append, h e (by simp), ih fun d hd => h d (by simp [hd]),
      List.map_append, List.filter_append]

/-- Only the leaves of a tree refer to slots. -/
theorem filter_code (e : Expr) : ∀ base,
    (e.code slot base).filter refersToSlot =
      (e.leaves.map (leafInstruction slot)).filter refersToSlot := by
  induction e with
  | leaf l => intro base; rfl
  | group paren e ih => exact ih
  | unary op mark e ih =>
    intro base
    rw [code, leaves, List.filter_append, ih]
    exact List.append_nil _
  | join c mark l r ihl ihr =>
    intro base
    rw [code, leaves, List.filter_append, List.filter_append, List.filter_append, ihl, ihr,
      filter_between, filter_after, List.nil_append, List.append_nil, List.map_append,
      List.filter_append]
  | call f paren args ihf ihargs =>
    intro base
    rw [code, leaves, List.filter_append, List.filter_append, ihf,
      filter_codeAll_of_forall slot ihargs, List.map_append, List.filter_append]
    exact congrArg _ (List.append_nil _)

theorem filter_codeNext (es : List Expr) (base : Nat) :
    (codeNext slot base es).filter refersToSlot =
      ((leavesAll es).map (leafInstruction slot)).filter refersToSlot := by
  induction es generalizing base with
  | nil => rfl
  | cons e es ih =>
    rw [codeNext, leavesAll, List.filter_cons_of_neg (by simp [refersToSlot, Op.slot?]),
      List.filter_append, filter_code, ih, List.map_append, List.filter_append]

/-- **Only literals and names refer to slots**, each of them once and in their order. -/
theorem filter_programCode (es : List Expr) :
    (programCode slot es).filter refersToSlot =
      ((leavesAll es).map (leafInstruction slot)).filter refersToSlot := by
  cases es with
  | nil => rfl
  | cons e es =>
    rw [programCode, leavesAll, List.filter_append, filter_code, filter_codeNext, List.map_append,
      List.filter_append]

end Expr

/-! ## First uses -/

/-- The slots of some constants in a pool that has been made for them: each is used, and each after
the one before. -/
theorem Pool.idxOf_slots_lt (vs : List Value) :
    ∀ k < (addAll [] vs).length, k ∈ vs.map ((addAll [] vs).idxOf ·) ∧
      (k + 1 < (addAll [] vs).length →
        (vs.map ((addAll [] vs).idxOf ·)).idxOf k <
          (vs.map ((addAll [] vs).idxOf ·)).idxOf (k + 1)) := by
  induction vs using List.reverseRecOn with
  | nil => simp
  | append_singleton vs v ih =>
    generalize hp : addAll [] vs = pool at ih
    have hmem : ∀ w ∈ vs, w ∈ pool := fun w hw => hp ▸ mem_addAll.mpr (.inr hw)
    have hadd : addAll [] (vs ++ [v]) = add pool v := by rw [addAll_append, hp]; rfl
    have hslots : (vs ++ [v]).map ((add pool v).idxOf ·) =
        vs.map (pool.idxOf ·) ++ [(add pool v).idxOf v] := by
      obtain ⟨more, hmore⟩ := isPrefix_add pool v
      rw [List.map_append, List.map_singleton]
      refine congrArg (· ++ _) (List.map_congr_left fun w hw => ?_)
      rw [← hmore, List.idxOf_append_of_mem (hmem w hw)]
    have hold : ∀ k < pool.length, k ∈ vs.map (pool.idxOf ·) ++ [(add pool v).idxOf v] ∧
        (k + 1 < pool.length → (vs.map (pool.idxOf ·) ++ [(add pool v).idxOf v]).idxOf k <
          (vs.map (pool.idxOf ·) ++ [(add pool v).idxOf v]).idxOf (k + 1)) := by
      intro k hk
      obtain ⟨hused, hnext⟩ := ih k hk
      refine ⟨List.mem_append_left _ hused, fun hk' => ?_⟩
      rw [List.idxOf_append_of_mem hused, List.idxOf_append_of_mem (ih _ hk').1]
      exact hnext hk'
    rw [hadd, hslots]
    by_cases hv : v ∈ pool
    · rwa [show add pool v = pool from if_pos hv] at hold ⊢
    · -- a new constant has the next slot, which no constant before has
      have hnew : add pool v = pool ++ [v] := if_neg hv
      have hlast : (add pool v).idxOf v = pool.length := by
        rw [hnew, List.idxOf_append_of_notMem hv, List.idxOf_cons_self, Nat.add_zero]
      have hunused : pool.length ∉ vs.map (pool.idxOf ·) := by
        intro hused
        obtain ⟨w, hw, heq⟩ := List.mem_map.mp hused
        exact absurd (List.idxOf_lt_length_of_mem (hmem w hw)) (by omega)
      intro k hk
      rw [hnew, List.length_append, List.length_singleton] at hk
      rcases Nat.lt_or_eq_of_le (Nat.le_of_lt_succ hk) with hk | rfl
      · refine ⟨(hold k hk).1, fun hk' => ?_⟩
        by_cases hlt : k + 1 < pool.length
        · exact (hold k hk).2 hlt
        · have heq : k + 1 = pool.length := by omega
          have hused := (ih k hk).1
          rw [heq, List.idxOf_append_of_mem hused, List.idxOf_append_of_notMem hunused]
          exact Nat.lt_of_lt_of_le (List.idxOf_lt_length_of_mem hused) (Nat.le_add_right _ _)
      · refine ⟨by simp [hlast], fun hk' => ?_⟩
        rw [hnew, List.length_append, List.length_singleton] at hk'
        omega

/-- What comes first among the values of a function also comes first among their arguments. -/
theorem findIdx_lt_findIdx {α β : Type} [DecidableEq β] (f : α → Option β) {b c : β} {xs : List α}
    (h : (xs.filterMap f).idxOf b < (xs.filterMap f).idxOf c) :
    xs.findIdx (fun x => f x = some b) < xs.findIdx fun x => f x = some c := by
  induction xs with
  | nil => simp at h
  | cons x xs ih =>
    rw [List.findIdx_cons, List.findIdx_cons]
    cases hx : f x with
    | none =>
      rw [List.filterMap_cons_none hx] at h
      simpa using ih h
    | some d =>
      rw [List.filterMap_cons_some hx, List.idxOf_cons, List.idxOf_cons] at h
      by_cases hb : d = b
      · have hc : d ≠ c := by rintro rfl; simp [hb] at h
        simp [hb, hb ▸ hc]
      · by_cases hc : d = c
        · simp [hc] at h
        · have hb' : (d == b) = false := by simpa using hb
          have hc' : (d == c) = false := by simpa using hc
          rw [hb', hc', cond_false, cond_false] at h
          simpa [hb, hc] using ih (Nat.lt_of_succ_lt_succ h)

/-! ## Programs -/

section Programs

variable {program : List Expr} (hvalid : ∀ l ∈ Expr.leavesAll program, l.IsValid)

include hvalid

/-- The instructions of a program that refer to a slot are those of its numbers, strings and
names. -/
theorem filter_programCode_eq_references {slot : Value → UInt8} {slotOf : Lexeme → UInt8}
    (hslot : ∀ l v, l.constant? = some v → slotOf l = slot v) :
    (Expr.programCode slot program).filter Expr.refersToSlot =
      ((Expr.leavesAll program).filter Lexeme.refers).map fun l => l.reference (slotOf l) := by
  have hsame : (Expr.leavesAll program).filter (Expr.refersToSlot ∘ Expr.leafInstruction slot) =
      (Expr.leavesAll program).filter Lexeme.refers := by
    refine List.filter_congr fun l hl => ?_
    rcases (hvalid l hl).instruction_cases slot with ⟨hno, hop⟩ | ⟨hyes, v, -, -, hop⟩
    · simp [Expr.refersToSlot, Expr.leafInstruction, hno, hop]
    · simp [Expr.refersToSlot, Expr.leafInstruction, hyes, hop]
  rw [Expr.filter_programCode, List.filter_map, hsame]
  refine List.map_congr_left fun l hl => ?_
  obtain ⟨hl, hrefers⟩ := List.mem_filter.mp hl
  rcases (hvalid l hl).instruction_cases slot with ⟨hno, -⟩ | ⟨-, v, hv, hop, -⟩
  · rw [hno] at hrefers
    cases hrefers
  · rw [Expr.leafInstruction, hop, hslot l v hv]

/-- The slots that the instructions of a program refer to are those of its constants. -/
theorem filterMap_slot?_programCode (slot : Value → UInt8) :
    (Expr.programCode slot program).filterMap (fun i => i.op.slot?) =
      (Expr.constantsAll program).map fun v => (slot v).toNat := by
  have hrefers : ∀ is : List Instruction,
      (is.filter Expr.refersToSlot).filterMap (fun i => i.op.slot?) =
        is.filterMap fun i => i.op.slot? := by
    intro is
    rw [List.filterMap_filter]
    refine List.filterMap_congr fun i _ => ?_
    cases h : i.op.slot? <;> simp [Expr.refersToSlot, h]
  rw [← hrefers, Expr.filter_programCode, hrefers, List.filterMap_map, Expr.constantsAll,
    List.map_filterMap]
  refine List.filterMap_congr fun l hl => ?_
  rcases (hvalid l hl).instruction_cases slot with ⟨hno, hop⟩ | ⟨-, v, hv, -, hop⟩
  · have hnone : l.constant? = none := by
      cases hv : l.constant? with
      | none => rfl
      | some v => rw [(Lexeme.constant?_cases hv).1] at hno; cases hno
    simp [Expr.leafInstruction, hop, hnone]
  · simp [Expr.leafInstruction, hop, hv]

/-- The slots of the chunk of a program are first used one after the other. -/
theorem firstUse_ofProgram
    (hroom : (Chunk.ofProgram program).constants.size ≤ Chunk.maxConstants) {k : Nat}
    (hk : k < (Chunk.ofProgram program).constants.size) :
    (Chunk.ofProgram program).firstUse k < (Chunk.ofProgram program).code.size ∧
      (k + 1 < (Chunk.ofProgram program).constants.size →
        (Chunk.ofProgram program).firstUse k < (Chunk.ofProgram program).firstUse (k + 1)) := by
  have huses :=
    filterMap_slot?_programCode hvalid (Pool.slot (Pool.addAll [] (Expr.constantsAll program)))
  have hnumbers : (Expr.constantsAll program).map
        (fun v => (Pool.slot (Pool.addAll [] (Expr.constantsAll program)) v).toNat) =
      (Expr.constantsAll program).map ((Pool.addAll [] (Expr.constantsAll program)).idxOf ·) :=
    List.map_congr_left fun v hv => Pool.toNat_slot hroom (Pool.mem_addAll.mpr (.inr hv))
  obtain ⟨hused, hnext⟩ := Pool.idxOf_slots_lt (Expr.constantsAll program) k hk
  rw [← hnumbers, ← huses] at hused hnext
  constructor
  · obtain ⟨i, hi, hop⟩ := List.mem_filterMap.mp hused
    exact List.findIdx_lt_length_of_exists ⟨i, hi, by simp [hop]⟩
  · exact fun hk' => findIdx_lt_findIdx _ (hnext hk')

end Programs

/-! ## Sources -/

/-- **The pool of an accepted source.** It holds the values of the numbers, strings and names of the
source, each once. The instructions that refer to a slot come from these lexemes, one from each of
them, and the slot holds the value of the lexeme: two of them have the same slot if they are the
same literal. Each slot is referred to, and the first instruction that refers to it comes before the
first one that refers to the next slot. -/
theorem exists_slot_of_compile_eq_ok {source : String} {chunk : Chunk}
    (h : compile source = .ok chunk) :
    ∃ (lexemes : List Lexeme) (slot : Lexeme → UInt8),
      (Cursor.ofSource source).outcomes = lexemes.map .ok ∧
      chunk.constants.toList.Pairwise (fun v w => ¬ v.IsSameLiteral w) ∧
      (∀ v, v ∈ chunk.constants.toList ↔ ∃ l ∈ lexemes, l.constant? = some v) ∧
      chunk.code.toList.filter (fun i => i.op.slot?.isSome) =
        (lexemes.filter Lexeme.refers).map (fun l => l.reference (slot l)) ∧
      (∀ l ∈ lexemes, l.refers = true → ∃ v, l.constant? = some v ∧
        chunk.constant? (slot l) = some v) ∧
      (∀ l ∈ lexemes, ∀ l' ∈ lexemes, ∀ v v', l.constant? = some v → l'.constant? = some v' →
        (slot l = slot l' ↔ v.IsSameLiteral v')) ∧
      (∀ k < chunk.constants.size, chunk.firstUse k < chunk.code.size) ∧
      ∀ k, k + 1 < chunk.constants.size → chunk.firstUse k < chunk.firstUse (k + 1) := by
  obtain ⟨lexemes, program, hden, hacc, rfl⟩ := compile_eq_ok_iff.mp h
  have hleaves : Expr.leavesAll program = lexemes.filter Lexeme.isLeaf := by
    rw [hden.derives.leaves_eq, Layout.filter_isLeaf_significant]
  have hpool : ∀ v, v ∈ (Chunk.ofProgram program).constants.toList ↔
      ∃ l ∈ lexemes, l.constant? = some v := by
    intro v
    show v ∈ Pool.addAll [] (Expr.constantsAll program) ↔ _
    rw [Pool.mem_addAll, Expr.constantsAll, hleaves, Lexeme.filterMap_constant?_filter_isLeaf,
      List.mem_filterMap]
    simp
  have hroom : (Chunk.ofProgram program).constants.size ≤ Chunk.maxConstants := hacc.constants
  obtain ⟨slot, hslot⟩ : ∃ slot : Lexeme → UInt8, ∀ l v, l.constant? = some v →
      slot l = Pool.slot (Chunk.ofProgram program).constants.toList v :=
    ⟨fun l => Pool.slot (Chunk.ofProgram program).constants.toList (l.constant?.getD .nil),
      fun l v hv => by simp [hv]⟩
  have hholds : ∀ l ∈ lexemes, ∀ v, l.constant? = some v →
      (Chunk.ofProgram program).constant? (slot l) = some v := by
    intro l hl v hv
    rw [hslot l v hv]
    exact Chunk.constant?_slot hroom ((hpool v).mpr ⟨l, hl, hv⟩)
  refine ⟨lexemes, slot, hden.read, ?_, hpool, ?_, fun l hl hrefers => ?_,
    fun l hl l' hl' v v' hv hv' => ?_, fun k hk => (firstUse_ofProgram hacc.leaves hroom hk).1,
    fun k hk => (firstUse_ofProgram hacc.leaves hroom (Nat.lt_of_succ_lt hk)).2 hk⟩
  · have hnodup : (Chunk.ofProgram program).constants.toList.Nodup :=
      Pool.nodup_addAll List.nodup_nil _
    refine hnodup.imp_of_mem fun {v w} hv _ hne => ?_
    obtain ⟨l, -, hl⟩ := (hpool v).mp hv
    rwa [Value.isSameLiteral_iff (Lexeme.constant?_cases hl).2]
  · rw [← Lexeme.filter_refers_filter_isLeaf, ← hleaves]
    exact filter_programCode_eq_references hacc.leaves hslot
  · have hvalid : l.IsValid :=
      hacc.leaves l (hleaves ▸ List.mem_filter.mpr ⟨hl, Lexeme.isLeaf_of_refers hrefers⟩)
    obtain ⟨v, hv⟩ := hvalid.exists_constant hrefers
    exact ⟨v, hv, hholds l hl v hv⟩
  · rw [Value.isSameLiteral_iff (Lexeme.constant?_cases hv).2]
    constructor
    · intro heq
      have hget := hholds l hl v hv
      rw [heq, hholds l' hl' v' hv'] at hget
      exact (Option.some.inj hget).symm
    · rintro rfl
      rw [hslot l v hv, hslot l' v hv']

/-- A name and a string with the same text share a slot, and so do two spellings of a number. -/
theorem exists_slot_shared : ∃ chunk, ∃ (lexemes : List Lexeme) (slot : Lexeme → UInt8),
    compile "x == '\\120' or 2 < 2.0" = .ok chunk ∧
      chunk.constants = #[.string "x", .number (.ofInt 2)] ∧
    (Cursor.ofSource "x == '\\120' or 2 < 2.0").outcomes = lexemes.map .ok ∧
    (lexemes.filter Lexeme.refers).map (fun l => l.reference (slot l)) =
      [⟨.global 0, 0⟩, ⟨.constant 0, 5⟩, ⟨.constant 1, 15⟩, ⟨.constant 1, 19⟩] ∧
    chunk.firstUse 0 < chunk.firstUse 1 := by
  have h : compile "x == '\\120' or 2 < 2.0" = .ok
      { code := #[⟨.global 0, 0⟩, ⟨.constant 0, 5⟩, ⟨.binary .eq, 2⟩, ⟨.dup, 12⟩,
          ⟨.jumpIfFalse 6, 12⟩, ⟨.jump 10, 12⟩,
          ⟨.pop, 12⟩, ⟨.constant 1, 15⟩, ⟨.constant 1, 19⟩, ⟨.binary .lt, 17⟩],
        constants := #[.string "x", .number (.ofInt 2)] } := by decide +kernel
  obtain ⟨lexemes, slot, hread, -, -, hrefer, -, -, -, hfirst⟩ := exists_slot_of_compile_eq_ok h
  exact ⟨_, lexemes, slot, h, rfl, hread, hrefer.symm, hfirst 0 (by decide)⟩

end LuaExpr
