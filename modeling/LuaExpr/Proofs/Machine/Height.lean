import LuaExpr.Proofs.Lexeme.Longest
import LuaExpr.Proofs.Machine.Discipline
import LuaExpr.Proofs.Machine.Limits
/-!
# Height of the stack

Without calls the limit on the nesting of expressions is a limit on the height of the stack: each
value that waits on the stack for another one waits for an operand that has been opened. A call is
different, since all its arguments wait although no more than one of them is open.

* `depth_le_of_placed`: the depths of a tree without calls exceed its nesting by one at most.
* `Machine.depth_of_overflow`: a stack overflows only where its depth would be beyond its capacity.
* `tower`: powers of powers, which need as much room as any tree of their nesting.
* `isLeast_maxDepth_of_callFree`: the limit on the nesting is the least limit on the height.
-/

namespace LuaExpr

/-- No instruction of a chunk is a call. -/
def Chunk.CallFree (chunk : Chunk) : Prop := ∀ i ∈ chunk.code, ∀ count, i.op ≠ .call count

/-! ## Depths and nesting -/

section Placed

variable {chunk : Chunk} {slot : Value → UInt8} {base : Nat}

/-- **Depths and nesting.** A right operand is one level further in and finds one value more on the
stack at most; the copy that a conjunction or an alternative makes of its left operand is gone
before the right one begins. -/
theorem depth_le_of_placed (hcalls : chunk.CallFree) (e : Expr) :
    ∀ base depth, Placed chunk slot base e → ∀ n ∈ e.depths depth, n ≤ depth + e.nesting + 1 := by
  induction e with
  | leaf l =>
    intro base depth _ n hn
    obtain rfl := List.mem_singleton.mp hn
    omega
  | group paren e ih =>
    intro base depth h n hn
    have := ih base depth h.group n hn
    rw [Expr.nesting]
    omega
  | unary op mark e ih =>
    intro base depth h n hn
    rw [Expr.nesting]
    rcases List.mem_append.mp hn with hn | hn
    · have := ih base depth h.unary.1 n hn
      omega
    · obtain rfl := List.mem_singleton.mp hn
      omega
  | join k mark l r ihl ihr =>
    intro base depth h n hn
    have hl := ihl base depth h.join_left n
    have hr := fun depth => ihr _ depth h.join_right n
    rw [Expr.nesting]
    cases k with
    | binary op =>
      simp only [Expr.depths, List.mem_append, List.mem_singleton] at hn
      rcases hn with hn | hn | rfl
      · have := hl hn
        omega
      · have := hr (depth + 1) hn
        omega
      · omega
    | and =>
      simp only [Expr.depths, List.mem_append, List.mem_cons, List.not_mem_nil, or_false] at hn
      rcases hn with hn | hn | hn
      · have := hl hn
        omega
      · omega
      · have := hr depth hn
        omega
    | or =>
      simp only [Expr.depths, List.mem_append, List.mem_cons, List.not_mem_nil, or_false] at hn
      rcases hn with hn | hn | hn
      · have := hl hn
        omega
      · omega
      · have := hr depth hn
        omega
  | call f paren args _ _ =>
    intro base depth h
    exact absurd rfl (hcalls _ (Array.mem_of_getElem? h.call_instruction.1) _)

theorem depth_le_of_placedNext {es : List Expr} (hcalls : chunk.CallFree)
    (h : PlacedNext chunk slot base es) (hnesting : ∀ e ∈ es, e.nesting < maxDepth) :
    ∀ n ∈ Expr.depthsNext es, n ≤ maxDepth := by
  induction es generalizing base with
  | nil =>
    intro n hn
    cases hn
  | cons e es ih =>
    intro n hn
    rcases List.mem_cons.mp hn with rfl | hn
    · decide
    rcases List.mem_append.mp hn with hn | hn
    · have := depth_le_of_placed hcalls e _ 0 h.head n hn
      have := hnesting e (by simp)
      omega
    · exact ih h.tail (fun d hd => hnesting d (by simp [hd])) n hn

end Placed

/-- The depths of an acceptable program without calls are within the limit on the nesting. -/
theorem depthAt_le_of_callFree {e : Expr} {es : List Expr} (h : Expr.Acceptable (e :: es))
    (hcalls : (Chunk.ofProgram (e :: es)).CallFree) (i : Nat) :
    Expr.depthAt (e :: es) i ≤ maxDepth := by
  obtain ⟨slot, -, he, hes⟩ := placed_ofProgram h
  have hnesting : ∀ d ∈ e :: es, d.nesting < maxDepth :=
    fun d hd => Nat.lt_succ_of_le (h.nesting d hd)
  have hall : ∀ n ∈ Expr.programDepths (e :: es), n ≤ maxDepth := by
    intro n hn
    rcases List.mem_append.mp hn with hn | hn
    · have := depth_le_of_placed hcalls e 0 0 he n hn
      have := hnesting e (by simp)
      omega
    rcases List.mem_append.mp hn with hn | hn
    · exact depth_le_of_placedNext hcalls hes (fun d hd => hnesting d (by simp [hd])) n hn
    · obtain rfl := List.mem_singleton.mp hn
      decide
  rw [Expr.depthAt]
  cases hi : (Expr.programDepths (e :: es))[i]? with
  | none => exact Nat.zero_le _
  | some n => exact hall n (List.mem_of_getElem? hi)

/-! ## Overflows -/

namespace Machine

variable {chunk : Chunk} {globals : Globals} {d : Nat → Nat} {m m' : Machine} {i : Instruction}
  {next : Nat} {s : Stack}
  {v : Value}

theorem size_of_push_eq_overflow (h : push ⟨next, s⟩ v = .error .stackOverflow) :
    s.size = s.capacity := by
  by_contra hne
  have hpush : push ⟨next, s⟩ v = .ok ⟨next, s.put v⟩ := by
    simp only [push, Stack.push, show ¬ s.values.size = s.capacity from hne, if_false]
    rfl
  rw [hpush] at h
  cases h

theorem size_of_pushResult_eq_overflow {op : Op} {operands : List Value}
    {r : Except OperandError Value}
    (h : pushResult ⟨next, s⟩ op operands r = .error .stackOverflow) : s.size = s.capacity := by
  cases r with
  | ok v => exact size_of_push_eq_overflow h
  | error e => cases e <;> cases h

/-- **A stack overflows only where its depth would be beyond its capacity.** -/
theorem depth_of_overflow (hflow : Flow chunk d m.next i.op) (hsize : m.stack.size = d m.next)
    (hi : chunk.code[m.next]? = some i) (h : m.step chunk globals i = .error .stackOverflow) :
    d (m.next + 1) = m.stack.capacity + 1 := by
  have hsteps := stepsAlong_of_flow globals hflow hsize hi
  generalize m.step chunk globals i = res at hsteps h
  cases hsteps with
  | pushed hdepth hcapacity => rw [← hdepth, size_of_push_eq_overflow h, hcapacity]
  | computed hdepth hcapacity => rw [← hdepth, size_of_pushResult_eq_overflow h, hcapacity]
  | moved => cases h
  | called => cases h

/-- A run keeps the capacity of its stack. -/
theorem capacity_of_reaches (hroom : m.stack.HasRoom) (h : Reaches chunk globals m m') :
    m'.stack.capacity = m.stack.capacity ∧ m'.stack.HasRoom := by
  induction h with
  | refl => exact ⟨rfl, hroom⟩
  | @step _ _ i _ _ hs ih =>
    have hstep := agrees_step chunk globals i (Nat.le_refl _) ih.2
    rw [hs] at hstep
    exact ⟨hstep.1.trans ih.1, hstep.2.1⟩

theorem run?_of_reaches (h : Reaches chunk globals m m') :
    m.run? chunk globals = m'.run? chunk globals := by
  induction h with
  | refl => rfl
  | step _ hi hs ih => rw [ih, run?_of_ok hi hs]

end Machine

/-- The stack does not overflow if it has room for each depth. -/
theorem Chunk.run?_ne_overflow {chunk : Chunk} {d : Nat → Nat} {limits : Limits}
    (hd : Disciplined chunk d) (hroom : ∀ i, d i ≤ limits.stack) (globals : Globals) :
    chunk.run? globals limits ≠ some (.error .stackOverflow) := by
  intro h
  rcases Chunk.fault_of_run?_eq_error h with ⟨n, hn⟩ | ⟨n, h⟩
  · cases hn
  obtain ⟨m, hm, ⟨hend, hr⟩ | ⟨i, f, hi, hs, hr⟩⟩ := Machine.exists_reaches_of_runFor h
  all_goals have horderly := Machine.orderly_of_reaches hd (Machine.orderly_start hd limits) hm
  · obtain ⟨v, hv⟩ := Machine.exists_result hd horderly hend
    rw [hv] at hr
    cases hr
  · cases hr
    have hdepth := Machine.depth_of_overflow (hd.flow _ i hi) horderly.size hi hs
    obtain ⟨hcapacity, -⟩ := Machine.capacity_of_reaches (Chunk.hasRoom_start limits) hm
    have hle := hroom (m.next + 1)
    have hstart : limits.start.stack.capacity = limits.stack := rfl
    omega

/-- **Height and nesting.** Without calls, no run of an accepted source has more values on its stack
than levels may be open in the source, and none overflows if it may have as many. -/
theorem height_le_of_compile_eq_ok {source : String} {chunk : Chunk}
    (h : compile source = .ok chunk) (hcalls : chunk.CallFree) (globals : Globals)
    (limits : Limits) :
    (∀ m, Machine.Reaches chunk globals limits.start m → m.stack.size ≤ maxDepth) ∧
      (maxDepth ≤ limits.stack → chunk.run? globals limits ≠ some (.error .stackOverflow)) := by
  obtain ⟨lexemes, program, -, hacc, rfl⟩ := compile_eq_ok_iff.mp h
  cases program with
  | nil =>
    refine ⟨fun m hm => ?_, fun _ hrun => by cases hrun⟩
    cases hm with
    | refl => exact Nat.zero_le _
    | step _ hi _ => cases hi
  | cons e es =>
    have hd := disciplined_ofProgram hacc
    have hle := depthAt_le_of_callFree hacc hcalls
    refine ⟨fun m hm => ?_,
      fun hstack => Chunk.run?_ne_overflow hd (fun i => (hle i).trans hstack) globals⟩
    rw [(Machine.orderly_of_reaches hd (Machine.orderly_start hd limits) hm).size]
    exact hle m.next

/-! ## Towers -/

/-- The text of a power of a power and so on of `nil`, with a number of carets. -/
def towerText : Nat → List Char
  | 0 => "nil".toList
  | n + 1 => "nil^".toList ++ towerText n

/-- The lexeme `nil` at an offset. -/
def Lexeme.nilAt (offset : Nat) : Lexeme :=
  { kind := .keyword .nil, start := offset, text := "nil".toList }

/-- The caret after the lexeme `nil` at an offset. -/
def Lexeme.caretAfter (offset : Nat) : Lexeme :=
  { kind := .symbol .caret, start := offset + 3, text := ['^'] }

/-- The lexemes of a tower that begins at an offset. -/
def towerLexemes (offset : Nat) : Nat → List Lexeme
  | 0 => [.nilAt offset]
  | n + 1 => .nilAt offset :: .caretAfter offset :: towerLexemes (offset + 4) n

/-- The tree of a tower: powers group to the right. -/
def tower (offset : Nat) : Nat → Expr
  | 0 => .leaf (.nilAt offset)
  | n + 1 =>
    .join (.binary .pow) (.caretAfter offset) (.leaf (.nilAt offset)) (tower (offset + 4) n)

theorem outcomes_tower (n offset : Nat) :
    Cursor.outcomes { rest := towerText n, offset } = (towerLexemes offset n).map .ok := by
  induction n generalizing offset with
  | zero =>
    have hnil : Cursor.next? { rest := towerText 0, offset } =
        some (.ok (.nilAt offset), { rest := [], offset := offset + 3 }) := by rfl
    rw [Cursor.outcomes_of_some hnil, Cursor.outcomes_of_none (Cursor.next?_of_nil rfl)]
    rfl
  | succ n ih =>
    have hnil : Cursor.next? { rest := towerText (n + 1), offset } =
        some (.ok (.nilAt offset), { rest := '^' :: towerText n, offset := offset + 3 }) := by rfl
    have hcaret : Cursor.next? { rest := '^' :: towerText n, offset := offset + 3 } =
        some (.ok (.caretAfter offset), { rest := towerText n, offset := offset + 4 }) := by rfl
    rw [Cursor.outcomes_of_some hnil, Cursor.outcomes_of_some hcaret, ih]
    rfl

theorem significant_tower (n offset : Nat) (awaited : Bool) :
    Layout.significantFrom 0 awaited (towerLexemes offset n) = towerLexemes offset n := by
  induction n generalizing offset awaited with
  | zero => rfl
  | succ n ih =>
    rw [towerLexemes, Layout.significantFrom_cons_of_not_isDropped _ rfl,
      Layout.significantFrom_cons_of_not_isDropped _ rfl]
    exact congrArg _ (congrArg _ (ih (offset + 4) true))

theorem derives_tower (n offset : Nat) :
    Derives .unary (towerLexemes offset n) (tower offset n) := by
  have hleaf : ∀ offset, Derives .primary [.nilAt offset] (.leaf (.nilAt offset)) :=
    fun offset => .leaf rfl
  induction n generalizing offset with
  | zero => exact (hleaf offset).mono (by decide)
  | succ n ih =>
    have hjoin : Derives .power (towerLexemes offset (n + 1)) (tower offset (n + 1)) :=
      .join (c := .binary .pow) rfl ((hleaf offset).mono (by decide)) (ih (offset + 4))
    exact hjoin.mono (by decide)

theorem nesting_tower (n offset : Nat) : (tower offset n).nesting = n := by
  induction n generalizing offset with
  | zero => rfl
  | succ n ih => rw [tower, Expr.nesting, ih, Expr.nesting, Nat.max_eq_right (Nat.zero_le _)]

theorem leaves_tower {n offset : Nat} {l : Lexeme} (h : l ∈ (tower offset n).leaves) :
    ∃ o, l = .nilAt o := by
  induction n generalizing offset with
  | zero => exact ⟨offset, List.mem_singleton.mp h⟩
  | succ n ih =>
    rcases List.mem_cons.mp h with rfl | h
    · exact ⟨offset, rfl⟩
    · exact ih h

theorem fits_tower {n offset base : Nat} {part : Nat × Expr}
    (h : part ∈ (tower offset n).parts base) :
    part.2.Fits part.1 := by
  induction n generalizing offset base with
  | zero =>
    obtain rfl := List.mem_singleton.mp h
    trivial
  | succ n ih =>
    rcases List.mem_cons.mp h with rfl | h
    · trivial
    rcases List.mem_cons.mp h with rfl | h
    · trivial
    · exact ih h

theorem acceptable_tower {n : Nat} (hn : n < maxDepth) : Expr.Acceptable [tower 0 n] := by
  have hleaves : ∀ l ∈ Expr.leavesAll [tower 0 n], ∃ o, l = .nilAt o := by
    intro l hl
    rw [Expr.leavesAll, Expr.leavesAll, List.append_nil] at hl
    exact leaves_tower hl
  have hconstants : Expr.constantsAll [tower 0 n] = [] := by
    refine List.filterMap_eq_nil_iff.mpr fun l hl => ?_
    obtain ⟨o, rfl⟩ := hleaves l hl
    rfl
  refine ⟨fun l hl => ?_, fun e he => ?_, ?_, fun part hpart => ?_⟩
  · obtain ⟨o, rfl⟩ := hleaves l hl
    exact ⟨rfl, by rintro (h | h) <;> cases h⟩
  · obtain rfl := List.mem_singleton.mp he
    rw [nesting_tower]
    exact Nat.le_of_lt_succ hn
  · rw [hconstants]
    exact Nat.zero_le _
  · rw [Expr.programParts, Expr.partsNext, List.append_nil] at hpart
    exact fits_tower hpart

theorem compile_tower {n : Nat} (hn : n < maxDepth) :
    compile (String.ofList (towerText n)) = .ok (.ofProgram [tower 0 n]) := by
  refine compile_eq_ok_iff.mpr ⟨towerLexemes 0 n, _, ⟨?_, ?_⟩, acceptable_tower hn, rfl⟩
  · rw [Cursor.ofSource, String.toList_ofList]
    exact outcomes_tower n 0
  · have hprogram : Program ([] ++ (towerLexemes 0 n ++ [])) [tower 0 n] :=
      .cons (by simp) ((derives_tower n 0).mono (by decide)) (by simp) (.nil (by simp))
    rwa [List.nil_append, List.append_nil, ← significant_tower n 0 false] at hprogram

theorem callFree_tower (n : Nat) : (Chunk.ofProgram [tower 0 n]).CallFree := by
  have hcode : ∀ slot base offset, ∀ i ∈ (tower offset n).code slot base, ∀ count, i.op ≠
      .call count := by
    intro slot base offset i hi count
    induction n generalizing base offset with
    | zero =>
      obtain rfl := List.mem_singleton.mp hi
      exact Op.noConfusion
    | succ n ih =>
      rcases List.mem_append.mp hi with hi | hi
      · obtain rfl := List.mem_singleton.mp hi
        exact Op.noConfusion
      rcases List.mem_append.mp hi with hi | hi
      · cases hi
      rcases List.mem_append.mp hi with hi | hi
      · exact ih _ _ hi
      · obtain rfl := List.mem_singleton.mp hi
        exact Op.noConfusion
  intro i hi
  refine hcode (Pool.slot (Pool.addAll [] (Expr.constantsAll [tower 0 n]))) 0 0 i ?_
  simpa [Chunk.ofProgram, Expr.programCode, Expr.codeNext] using hi

/-- The first instructions of a tower push its bases, before any power is computed. -/
theorem Machine.reaches_tower {chunk : Chunk} {slot : Value → UInt8}
    {base offset n : Nat} {s : Stack} (h : Placed chunk slot base (tower offset n))
    (globals : Globals) (hs : s.size + n ≤ s.capacity) :
    ∃ t, Machine.Reaches chunk globals ⟨base, s⟩ ⟨base + n, t⟩ ∧ t.size = s.size + n ∧
      t.capacity = s.capacity ∧
      ∃ o, chunk.code[base + n]? = some ⟨.nil, o⟩ := by
  induction n generalizing base offset s with
  | zero => exact ⟨s, .refl, rfl, rfl, offset, h.leaf_instruction⟩
  | succ n ih =>
    have hnil : chunk.code[base]? = some ⟨.nil, offset⟩ := h.join_left.leaf_instruction
    have hstep : Machine.step chunk globals ⟨.nil, offset⟩ ⟨base, s⟩ =
        .ok ⟨base + 1, s.put .nil⟩ := by
      rw [step_literal (.inl ⟨rfl, rfl⟩), push_eq (by omega)]
    obtain ⟨t, ht, hsize, hcapacity, o, ho⟩ := ih (s := s.put .nil) h.join_right (by
      rw [Stack.size_put, Stack.capacity_put]
      omega)
    have hnext : base + (Expr.leaf (.nilAt offset)).size + Connective.lead (.binary .pow) + n =
        base + (n + 1) := by
      simp only [Expr.size, Connective.lead]
      omega
    rw [hnext] at ht ho
    refine ⟨t, ht.head hnil hstep, ?_, hcapacity, o, ho⟩
    rw [hsize, Stack.size_put]
    omega

/-- A tower fills its stack, and overflows if that has no more room than there are carets. -/
theorem exists_reaches_tower {n : Nat} (hn : n < maxDepth) (globals : Globals) (limits : Limits)
    (hstack : n ≤ limits.stack) :
    (n < limits.stack → ∃ m, Machine.Reaches (Chunk.ofProgram [tower 0 n]) globals limits.start m ∧
      m.stack.size = n + 1) ∧
    (limits.stack = n → limits.steps? = none →
      (Chunk.ofProgram [tower 0 n]).run? globals limits = some (.error .stackOverflow)) := by
  obtain ⟨slot, -, hplaced, -⟩ := placed_ofProgram (acceptable_tower hn)
  have hempty : (Chunk.ofProgram [tower 0 n]).code.isEmpty = false := by
    have hsize := size_ofProgram (tower 0 n) []
    have hpos := (tower 0 n).size_pos
    rw [Array.isEmpty_eq_false_iff, ← Array.size_pos_iff]
    omega
  obtain ⟨t, hreaches, hsize, hcapacity, o, ho⟩ :=
    Machine.reaches_tower (s := limits.start.stack) hplaced globals (by
    show 0 + n ≤ limits.stack
    omega)
  rw [Nat.zero_add] at hreaches ho
  have hsize : t.size = n := by rw [hsize]; exact Nat.zero_add n
  have hcapacity : t.capacity = limits.stack := hcapacity
  constructor
  · intro hlt
    refine ⟨⟨n + 1, t.put .nil⟩, .step hreaches ho ?_, by rw [Stack.size_put, hsize]⟩
    rw [Machine.step_literal (.inl ⟨rfl, rfl⟩), Machine.push_eq (by omega)]
  · intro hfull hsteps
    have hpush : t.push .nil = .error .stackOverflow :=
      if_pos (by rw [← Stack.size, hsize, hcapacity, hfull])
    have hstep : Machine.step (Chunk.ofProgram [tower 0 n]) globals ⟨.nil, o⟩ ⟨n, t⟩ =
        .error .stackOverflow := by
      rw [Machine.step_literal (.inl ⟨rfl, rfl⟩), Machine.push, hpush]
      rfl
    rw [Chunk.run?_of_unlimited hempty hsteps]
    exact (Machine.run?_of_reaches hreaches).trans (Machine.run?_of_error ho hstep)

/-! ## The least bound -/

/-- **The limit on the nesting is the least bound on the height** of the stack in runs of accepted
sources without calls, and the least capacity with which none of these runs overflows. -/
theorem isLeast_maxDepth_of_callFree :
    IsLeast {bound | ∀ source chunk, compile source = .ok chunk → chunk.CallFree →
      ∀ (globals : Globals) (limits : Limits) (m : Machine),
        Machine.Reaches chunk globals limits.start m → m.stack.size ≤ bound} maxDepth ∧
    IsLeast {capacity | ∀ source chunk, compile source = .ok chunk → chunk.CallFree →
      ∀ (globals : Globals) (limits : Limits), capacity ≤ limits.stack →
        chunk.run? globals limits ≠ some (.error .stackOverflow)} maxDepth ∧
    maxDepth = 200 ∧ maxDepth ≤ ({} : Limits).stack := by
  have hn : maxDepth - 1 < maxDepth := by decide
  refine ⟨⟨fun source chunk h hcalls globals limits =>
    (height_le_of_compile_eq_ok h hcalls globals limits).1,
    fun bound hbound => ?_⟩, ⟨fun source chunk h hcalls globals limits =>
      (height_le_of_compile_eq_ok h hcalls globals limits).2, fun capacity hcapacity => ?_⟩,
        rfl, by decide⟩
  · obtain ⟨m, hm, hsize⟩ := (exists_reaches_tower hn {} {} (by decide)).1 (by decide)
    have hle := hbound _ _ (compile_tower hn) (callFree_tower _) {} {} m hm
    rwa [hsize] at hle
  · by_contra hlt
    have hrun := (exists_reaches_tower hn {} { stack := maxDepth - 1 } (Nat.le_refl _)).2 rfl rfl
    exact hcapacity _ _ (compile_tower hn) (callFree_tower _) {} { stack := maxDepth - 1 }
      (Nat.le_pred_of_lt (Nat.lt_of_not_le hlt)) hrun

/-- Two levels in the source, and three values on the stack. -/
theorem isLeast_maxDepth_of_callFree_difference : ∃ chunk, compile "a-(b-c)" = .ok chunk ∧
    (∀ (globals : Globals) (m : Machine), Machine.Reaches chunk globals (Limits.start {}) m →
      m.stack.size ≤ 200) ∧
    ∀ globals : Globals, chunk.run? globals { stack := 200 } ≠ some (.error .stackOverflow) := by
  obtain ⟨hheight, hroom, -⟩ := isLeast_maxDepth_of_callFree
  have h : compile "a-(b-c)" = .ok
      { code := #[⟨.global 0, 0⟩, ⟨.global 1, 3⟩, ⟨.global 2, 5⟩, ⟨.binary .sub, 4⟩,
        ⟨.binary .sub, 1⟩], constants := #[.string "a", .string "b", .string "c"] } := by cbv
  have hcalls : Chunk.CallFree
      { code := #[⟨.global 0, 0⟩, ⟨.global 1, 3⟩, ⟨.global 2, 5⟩, ⟨.binary .sub, 4⟩,
        ⟨.binary .sub, 1⟩], constants := #[.string "a", .string "b", .string "c"] } := by
    simp [Chunk.CallFree]
  exact ⟨_, h, fun globals m hm => hheight.1 _ _ h hcalls globals {} m hm,
    fun globals => hroom.1 _ _ h hcalls globals { stack := 200 } (by decide)⟩

end LuaExpr
