import LuaExpr.Proofs.Machine.Discipline
import LuaExpr.Proofs.Machine.Limits
/-!
# Runs go forward

The jumps of compiled code lead over code that stands behind them, and never beyond the end. So the
index of the next instruction grows with each step, and a run is over after as many steps as there
are instructions.

* `Op.LeadsForward`: a jump leads to a later index that is not beyond a limit.
* `leadsForward_of_placed`: so do the jumps in the code of a tree, with the end of this code as the
  limit.
* `Machine.next_cases`: where a step goes; `Machine.pairwise_visits`: a run of such code visits
  growing indices.
* `runs_forward_of_compile_eq_ok`: the runs of an accepted source.
-/

namespace LuaExpr

/-! ## Code -/

/-- If the instruction at an index is a jump, it leads to a later index, which is not beyond the
limit. -/
def Op.LeadsForward (i limit : Nat) (op : Op) : Prop :=
  ∀ target, op = .jump target ∨ op = .jumpIfFalse target → i < target.toNat ∧ target.toNat ≤ limit

theorem Op.leadsForward_of_isJump {op : Op} (h : op.isJump = .false) (i limit : Nat) :
    op.LeadsForward i limit := by
  rintro target (rfl | rfl) <;> cases h

section Placed

variable {chunk : Chunk} {slot : Value → UInt8} {base limit : Nat} {e l r : Expr} {mark : Lexeme}

theorem leadsForward_of_placedAll {args : List Expr} (h : PlacedAll chunk slot base args)
    (hargs : ∀ a ∈ args, ∀ base limit, Placed chunk slot base a → base + a.size ≤ limit →
      Along (fun i ins => ins.op.LeadsForward i limit) base (a.code slot base))
    (hlimit : base + Expr.sizeAll args ≤ limit) :
    Along (fun i ins => ins.op.LeadsForward i limit) base (Expr.codeAll slot base args) := by
  induction args generalizing base with
  | nil => trivial
  | cons e args ih =>
    rw [Expr.sizeAll, ← Nat.add_assoc] at hlimit
    rw [Expr.codeAll, along_append, Expr.length_code]
    exact ⟨hargs e (by simp) base limit h.head (by omega),
      ih h.tail (fun a ha => hargs a (by simp [ha])) hlimit⟩

/-- The jumps between the operands of a connective lead to the right operand or to the index after
it. -/
theorem leadsForward_between {k : Connective} (h : Placed chunk slot base (.join k mark l r))
    (hlimit : base + l.size + k.lead + r.size ≤ limit) :
    Along (fun i ins => ins.op.LeadsForward i limit) (base + l.size)
      (k.between mark.start (base + l.size) (base + l.size + k.lead + r.size)) := by
  have hnone : ∀ {op : Op} (i : Nat), op.isJump = false → op.LeadsForward i limit :=
    fun i hop => Op.leadsForward_of_isJump hop i limit
  cases k with
  | binary op => trivial
  | and =>
    obtain ⟨hdone, -⟩ := h.toNat_done (.inl rfl)
    refine ⟨hnone _ rfl, ?_, hnone _ rfl, trivial⟩
    rintro target (htarget | htarget) <;> cases htarget
    rw [hdone]
    simp only [Connective.lead] at hlimit ⊢
    omega
  | or =>
    obtain ⟨hdone, -⟩ := h.toNat_done (.inr rfl)
    obtain ⟨hfirst, -⟩ := h.toNat_otherwise
    refine ⟨hnone _ rfl, ?_, ?_, hnone _ rfl, trivial⟩
    · rintro target (htarget | htarget) <;> cases htarget
      rw [hfirst]
      simp only [Connective.lead] at hlimit
      omega
    · rintro target (htarget | htarget) <;> cases htarget
      rw [hdone]
      simp only [Connective.lead] at hlimit ⊢
      omega

/-- **The jumps of a tree** lead forward, and not beyond the end of its code. -/
theorem leadsForward_of_placed (e : Expr) :
    ∀ base limit, Placed chunk slot base e → base + e.size ≤ limit →
    Along (fun i ins => ins.op.LeadsForward i limit) base (e.code slot base) := by
  induction e with
  | leaf l =>
    intro base limit h hlimit
    exact ⟨fun target htarget => absurd htarget l.op_ne_jump, trivial⟩
  | group paren e ih =>
    intro base limit h hlimit
    exact ih base limit h.group hlimit
  | unary op mark e ih =>
    intro base limit h hlimit
    rw [Expr.size] at hlimit
    rw [Expr.code, along_append]
    exact ⟨ih base limit h.unary.1 (by omega), Op.leadsForward_of_isJump rfl _ _, trivial⟩
  | join k mark l r ihl ihr =>
    intro base limit h hlimit
    have hsize := k.lead_add_length_after mark.start
    rw [Expr.size] at hlimit
    rw [Expr.code, along_append, along_append, along_append, Expr.length_code,
      Connective.length_between]
    refine ⟨ihl base limit h.join_left (by omega), leadsForward_between h (by omega),
      ihr _ limit h.join_right (by omega), ?_⟩
    cases k with
    | binary op => exact ⟨Op.leadsForward_of_isJump rfl _ _, trivial⟩
    | and => trivial
    | or => trivial
  | call f paren args ihf ihargs =>
    intro base limit h hlimit
    rw [Expr.size] at hlimit
    rw [Expr.code, along_append, along_append, Expr.length_code]
    exact ⟨ihf base limit h.callee (by omega),
      leadsForward_of_placedAll h.arguments ihargs (by omega),
      Op.leadsForward_of_isJump rfl _ _, trivial⟩

theorem leadsForward_of_placedNext {es : List Expr} (h : PlacedNext chunk slot base es)
    (hlimit : base + Expr.sizeNext es ≤ limit) :
    Along (fun i ins => ins.op.LeadsForward i limit) base (Expr.codeNext slot base es) := by
  induction es generalizing base with
  | nil => trivial
  | cons e es ih =>
    rw [Expr.sizeNext] at hlimit
    rw [Expr.codeNext, along_cons, along_append, Expr.length_code]
    exact ⟨Op.leadsForward_of_isJump rfl _ _, leadsForward_of_placed e _ _ h.head (by omega),
      ih h.tail (by omega)⟩

end Placed

/-- All jumps of a chunk lead forward, and not beyond its end. -/
def Chunk.LeadsForward (chunk : Chunk) : Prop :=
  ∀ (i : Nat) (ins : Instruction), chunk.code[i]? = some ins → ins.op.LeadsForward i chunk.code.size

/-- The jumps of an acceptable program lead forward. -/
theorem Chunk.leadsForward_ofProgram {es : List Expr} (h : Expr.Acceptable es) :
    (Chunk.ofProgram es).LeadsForward := by
  cases es with
  | nil =>
    intro i ins hi
    cases hi
  | cons e es =>
    obtain ⟨slot, hcode, he, hes⟩ := placed_ofProgram h
    have hsize := size_ofProgram e es
    generalize Chunk.ofProgram (e :: es) = chunk at *
    have hall : Along (fun i ins => ins.op.LeadsForward i chunk.code.size) 0 chunk.code.toList := by
      rw [hcode, Expr.programCode, along_append, Expr.length_code, Nat.zero_add]
      exact ⟨leadsForward_of_placed e 0 _ he (by omega), leadsForward_of_placedNext hes (by omega)⟩
    intro i ins hi
    have := hall.getElem? (i := i) (by rw [Array.getElem?_toList]; exact hi)
    rwa [Nat.zero_add] at this

/-! ## Steps -/

theorem exists_of_bind_eq_ok {ε α β : Type} {x : Except ε α} {f : α → Except ε β} {b : β}
    (h : x >>= f = .ok b) : ∃ a, x = .ok a ∧ f a = .ok b := by
  cases x with
  | ok a => exact ⟨a, rfl, h⟩
  | error e => cases h

namespace Machine

variable {chunk : Chunk} {globals : Globals} {m m' : Machine} {i : Instruction}
  {v : Value} {n : Nat}

theorem next_of_push (h : m.push v = .ok m') : m'.next = m.next := by
  obtain ⟨s, -, h⟩ := exists_of_bind_eq_ok h
  cases h
  rfl

theorem next_of_pushResult {op : Op} {operands : List Value} {r : Except OperandError Value}
    (h : m.pushResult op operands r = .ok m') : m'.next = m.next := by
  cases r with
  | ok v => exact next_of_push h
  | error e => cases h

theorem next_of_jumpTo {target : UInt16} (h : m.jumpTo chunk target = .ok m') :
    m'.next = target.toNat := by
  rw [jumpTo] at h
  split at h <;> cases h
  rfl

/-- **Where a step goes**: to the index after it, or to the target of a jump. -/
theorem next_cases (h : m.step chunk globals i = .ok m') :
    m'.next = m.next + 1 ∨
      ∃ target, (i.op = .jump target ∨ i.op = .jumpIfFalse target) ∧ m'.next = target.toNat := by
  rw [step] at h
  cases hop : i.op with
  | nil => rw [hop] at h; exact .inl (next_of_push h)
  | true => rw [hop] at h; exact .inl (next_of_push h)
  | false => rw [hop] at h; exact .inl (next_of_push h)
  | constant slot =>
    rw [hop] at h
    obtain ⟨v, -, h⟩ := exists_of_bind_eq_ok h
    exact .inl (next_of_push h)
  | global slot =>
    rw [hop] at h
    obtain ⟨name, -, h⟩ := exists_of_bind_eq_ok h
    exact .inl (next_of_push h)
  | call count =>
    rw [hop] at h
    obtain ⟨s, -, h⟩ := exists_of_bind_eq_ok h
    obtain ⟨p, -, h⟩ := exists_of_bind_eq_ok h
    cases h
  | pop =>
    rw [hop] at h
    obtain ⟨p, -, h⟩ := exists_of_bind_eq_ok h
    cases h
    exact .inl rfl
  | dup =>
    rw [hop] at h
    obtain ⟨v, -, h⟩ := exists_of_bind_eq_ok h
    exact .inl (next_of_push h)
  | unary op =>
    rw [hop] at h
    obtain ⟨p, -, h⟩ := exists_of_bind_eq_ok h
    exact .inl (next_of_pushResult h)
  | binary op =>
    rw [hop] at h
    obtain ⟨p, -, h⟩ := exists_of_bind_eq_ok h
    obtain ⟨q, -, h⟩ := exists_of_bind_eq_ok h
    exact .inl (next_of_pushResult h)
  | jumpIfFalse target =>
    rw [hop] at h
    obtain ⟨p, -, h⟩ := exists_of_bind_eq_ok h
    by_cases hv : p.1.isFalsy = true
    · simp only [hv, if_true] at h
      exact .inr ⟨target, .inr rfl, next_of_jumpTo h⟩
    · simp only [hv] at h
      cases h
      exact .inl rfl
  | jump target =>
    rw [hop] at h
    exact .inr ⟨target, .inl rfl, next_of_jumpTo h⟩

theorem next_lt_of_step (hchunk : chunk.LeadsForward) (hi : chunk.code[m.next]? = some i)
    (hs : m.step chunk globals i = .ok m') : m.next < m'.next := by
  rcases next_cases hs with h | ⟨target, hop, h⟩
  · rw [h]
    exact Nat.lt_succ_self _
  · rw [h]
    exact (hchunk m.next i hi target hop).1

/-! ## Runs -/

/-- A run visits no index before the one that it begins with, and none behind the code. -/
theorem le_next_of_mem_visits (hchunk : chunk.LeadsForward) {visit : Machine × Instruction}
    (h : visit ∈ visits chunk globals n m) :
    m.next ≤ visit.1.next ∧ visit.1.next < chunk.code.size := by
  induction n generalizing m with
  | zero => cases h
  | succ n ih =>
    cases hi : chunk.code[m.next]? with
    | none => rw [visits_of_none hi] at h; cases h
    | some i =>
      have hlt : m.next < chunk.code.size := (Array.getElem?_eq_some_iff.mp hi).1
      cases hs : m.step chunk globals i with
      | ok m' =>
        rw [visits_succ_of_ok hi hs] at h
        rcases List.mem_cons.mp h with rfl | h
        · exact ⟨Nat.le_refl _, hlt⟩
        · obtain ⟨hle, hend⟩ := ih h
          exact ⟨(next_lt_of_step hchunk hi hs).le.trans hle, hend⟩
      | error f =>
        rw [visits_succ_of_error hi hs] at h
        obtain rfl := List.mem_singleton.mp h
        exact ⟨Nat.le_refl _, hlt⟩

/-- **A run visits growing indices**, if all jumps lead forward. -/
theorem pairwise_visits (hchunk : chunk.LeadsForward) (globals : Globals) (n : Nat) (m : Machine) :
    ((visits chunk globals n m).map fun visit => visit.1.next).Pairwise (· < ·) := by
  induction n generalizing m with
  | zero => exact .nil
  | succ n ih =>
    cases hi : chunk.code[m.next]? with
    | none => rw [visits_of_none hi]; exact .nil
    | some i =>
      cases hs : m.step chunk globals i with
      | ok m' =>
        rw [visits_succ_of_ok hi hs, List.map_cons, List.pairwise_cons]
        refine ⟨fun next hnext => ?_, ih m'⟩
        obtain ⟨visit, hvisit, rfl⟩ := List.mem_map.mp hnext
        exact Nat.lt_of_lt_of_le (next_lt_of_step hchunk hi hs)
          (le_next_of_mem_visits hchunk hvisit).1
      | error f => rw [visits_succ_of_error hi hs]; exact List.pairwise_singleton _ _

theorem length_visits_le (hchunk : chunk.LeadsForward) (globals : Globals) (n : Nat) (m : Machine) :
    (visits chunk globals n m).length ≤ chunk.code.size := by
  have hnodup : ((visits chunk globals n m).map fun visit => visit.1.next).Nodup :=
    (pairwise_visits hchunk globals n m).imp Nat.ne_of_lt
  have hsub : ((visits chunk globals n m).map fun visit => visit.1.next) ⊆
      List.range chunk.code.size := by
    intro next hnext
    obtain ⟨visit, hvisit, rfl⟩ := List.mem_map.mp hnext
    exact List.mem_range.mpr (le_next_of_mem_visits hchunk hvisit).2
  have := (List.subperm_of_subset hnodup hsub).length_le
  rwa [List.length_map, List.length_range] at this

/-- A run has ended after as many instructions as there are. -/
theorem exists_runFor_eq_some (hchunk : chunk.LeadsForward) (globals : Globals) (m : Machine)
    (hn : chunk.code.size ≤ n) : ∃ r, runFor chunk globals n m = some r := by
  refine Option.ne_none_iff_exists'.mp fun hnone => ?_
  obtain ⟨k, hk⟩ := runFor_eq_none_iff.mp hnone
  have := length_visits_le hchunk globals k m
  omega

end Machine

/-- The run of a chunk whose jumps lead forward ends, and is not broken off if it may execute as
many instructions as there are. -/
theorem Chunk.run?_of_leadsForward {chunk : Chunk} (hchunk : chunk.LeadsForward) (globals : Globals)
    (limits : Limits) :
    (∃ r, chunk.run? globals limits = some r) ∧
      ((∀ s ∈ limits.steps?, chunk.code.size ≤ s) →
        ∀ n, chunk.run? globals limits ≠ some (.error (.aborted n))) := by
  cases hempty : chunk.code.isEmpty with
  | true =>
    rw [run?_of_isEmpty hempty]
    exact ⟨⟨_, rfl⟩, fun _ n h => by cases h⟩
  | false =>
    constructor
    · cases hl : limits.steps? with
      | none =>
        obtain ⟨r, hr⟩ := Machine.exists_runFor_eq_some hchunk globals limits.start (Nat.le_refl _)
        exact ⟨r, (run?_of_unlimited hempty hl).trans (Machine.run?_of_runFor hr)⟩
      | some s => exact ⟨_, run?_of_limited hempty hl⟩
    · intro hsteps n habort
      obtain ⟨hl, hnone⟩ := (run?_eq_aborted_iff_runFor hempty).mp habort
      obtain ⟨r, hr⟩ := Machine.exists_runFor_eq_some hchunk globals limits.start (hsteps n hl)
      rw [hr] at hnone
      cases hnone

/-- **Compiled code runs forward only.** Each jump of an accepted source leads to a later index, at
most to the end of the code. So, whatever the globals and the limits are, a run executes
instructions with growing indices, each of them once at most and no more than there are; it ends,
and it is not broken off if it may execute as many as there are. -/
theorem runs_forward_of_compile_eq_ok {source : String} {chunk : Chunk}
    (h : compile source = .ok chunk) :
    (∀ (i : Nat) (ins : Instruction) (target : UInt16), chunk.code[i]? = some ins →
      ins.op = .jump target ∨ ins.op = .jumpIfFalse target →
        i < target.toNat ∧ target.toNat ≤ chunk.code.size) ∧
    ∀ (globals : Globals) (limits : Limits),
      (∀ n, ((Machine.visits chunk globals n limits.start).map
          fun visit => visit.1.next).Pairwise (· < ·) ∧
        (Machine.visits chunk globals n limits.start).length ≤ chunk.code.size) ∧
      (∃ r, chunk.run? globals limits = some r) ∧
      ((∀ s ∈ limits.steps?, chunk.code.size ≤ s) →
        ∀ n, chunk.run? globals limits ≠ some (.error (.aborted n))) := by
  obtain ⟨lexemes, program, -, hacc, rfl⟩ := compile_eq_ok_iff.mp h
  have hforward := Chunk.leadsForward_ofProgram hacc
  refine ⟨fun i ins target hi hop => hforward i ins hi target hop,
    fun globals limits => ⟨fun n => ?_, ?_⟩⟩
  · exact ⟨Machine.pairwise_visits hforward globals n _,
      Machine.length_visits_le hforward globals n _⟩
  · exact Chunk.run?_of_leadsForward hforward globals limits

/-- An alternative inside a conjunction: ten instructions, which no run executes twice. -/
theorem runs_forward_nested : ∃ chunk, compile "a and (b or c)" = .ok chunk ∧ chunk.code.size = 10 ∧
    (∀ (globals : Globals) (n : Nat),
      (Machine.visits chunk globals n (Limits.start {})).length ≤ 10) ∧
    ∀ (globals : Globals) (n : Nat),
      chunk.run? globals { steps? := some 10 } ≠ some (.error (.aborted n)) := by
  have h : compile "a and (b or c)" = .ok
      { code := #[⟨.global 0, 0⟩, ⟨.dup, 2⟩, ⟨.jumpIfFalse 10, 2⟩, ⟨.pop, 2⟩,
          ⟨.global 1, 7⟩, ⟨.dup, 9⟩,
          ⟨.jumpIfFalse 8, 9⟩, ⟨.jump 10, 9⟩, ⟨.pop, 9⟩, ⟨.global 2, 12⟩],
        constants := #[.string "a", .string "b", .string "c"] } := by cbv
  obtain ⟨-, hruns⟩ := runs_forward_of_compile_eq_ok h
  exact ⟨_, h, rfl, fun globals n => ((hruns globals {}).1 n).2,
    fun globals => (hruns globals { steps? := some 10 }).2.2 fun s hs => by cases hs; decide⟩

end LuaExpr
