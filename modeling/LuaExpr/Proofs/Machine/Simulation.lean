import LuaExpr.Proofs.Compiler.Acceptance
import LuaExpr.Proofs.Machine.Instructions
import LuaExpr.Proofs.Machine.Placement
import LuaExpr.Proofs.Machine.Runs
/-!
# Simulation

The machine computes what the tree means. The code of a tree leaves the value of the tree on the
stack and everything below it as it was, or ends in the fault of the tree; it takes at most one step
for each of its instructions, as no jump leads back.

* `Machine.Leads`: where a run comes to within a number of steps.
* `Machine.leads_eval`: the code of a tree leads to the value of the tree.
* `Chunk.run?_ofProgram`: the run of a program ends with the value of the program.
-/

namespace LuaExpr

namespace Machine

/-! ## Runs -/

/-- From a machine, at most `limit` steps lead to another one, or to a fault. -/
def Leads (chunk : Chunk) (globals : Globals) (m : Machine) (limit : Nat)
    (r : Except Fault Machine) : Prop :=
  ∃ k ≤ limit, ∀ n, runFor chunk globals (n + k) m =
    match r with
    | .ok m' => runFor chunk globals n m'
    | .error f => some (.error f)

namespace Leads

variable {chunk : Chunk} {globals : Globals} {m m' : Machine} {r : Except Fault Machine}
  {a b c : Nat}

theorem refl : Leads chunk globals m 0 (.ok m) := ⟨0, Nat.le_refl _, fun _ => rfl⟩

theorem mono (h : Leads chunk globals m a r) (hab : a ≤ b) : Leads chunk globals m b r := by
  obtain ⟨k, hk, h⟩ := h
  exact ⟨k, Nat.le_trans hk hab, h⟩

/-- One instruction is one step. -/
theorem step {i : Instruction} (h : chunk.code[m.next]? = some i)
    (hr : m.step chunk globals i = r) :
    Leads chunk globals m 1 r := by
  refine ⟨1, Nat.le_refl _, fun n => ?_⟩
  cases r with
  | ok m' => simp only [runFor, h, hr]
  | error f => simp only [runFor, h, hr]

theorem trans (h : Leads chunk globals m a (.ok m')) (h' : Leads chunk globals m' b r) :
    Leads chunk globals m (a + b) r := by
  obtain ⟨k, hk, h⟩ := h
  obtain ⟨k', hk', h'⟩ := h'
  refine ⟨k + k', Nat.add_le_add hk hk', fun n => ?_⟩
  rw [Nat.add_comm k, ← Nat.add_assoc, h]
  exact h' n

/-- A computation of a value and what follows it, from the machine that the value leaves behind. -/
theorem bind {α β : Type} {x : Except Fault α} {f : α → Except Fault β} {g : α → Machine}
    {g' : β → Machine} (h : Leads chunk globals m a (g <$> x))
    (h' : ∀ v, x = .ok v → Leads chunk globals (g v) b (g' <$> f v)) :
    Leads chunk globals m (a + b) (g' <$> (x >>= f)) := by
  cases x with
  | ok v => exact h.trans (h' v rfl)
  | error e => exact h.mono (Nat.le_add_right _ _)

end Leads

/-! ## The code of a tree -/

section Code

variable {chunk : Chunk} {globals : Globals} {slot : Value → UInt8}

/-- The stack after the code of a leaf. -/
theorem leads_leaf {l : Lexeme} {base : Nat} {s : Stack} (h : Placed chunk slot base (.leaf l))
    (hs : s.size < s.capacity) :
    Leads chunk globals ⟨base, s⟩ 1 (.ok ⟨base + 1, s.put (l.value globals.value)⟩) := by
  have hvalid := h.leaves l (by simp [Expr.leaves])
  have hc : ∀ v, l.constant? = some v → chunk.constant? (slot v) = some v :=
    fun v hv => h.constants v (by simp [hv])
  refine .step h.leaf_instruction ?_
  rcases hvalid.op_cases slot with ⟨hk, hop⟩ | ⟨hk, hop⟩ | ⟨hk, hop⟩ | ⟨v, hk, hv, hop⟩
    | ⟨hk, hv, hop⟩
  · exact (step_literal (.inl ⟨hop, by simp [Lexeme.value, hk]⟩)).trans (push_eq hs)
  · exact (step_literal (.inr (.inl ⟨hop, by simp [Lexeme.value, hk]⟩))).trans (push_eq hs)
  · exact (step_literal (.inr (.inr ⟨hop, by simp [Lexeme.value, hk]⟩))).trans (push_eq hs)
  · have hvalue : l.value globals.value = v := by
      rcases hk with hk | hk <;> simp [Lexeme.value, hk, hv]
    rw [hvalue, hop]
    exact (step_constant rfl (hc v hv)).trans (push_eq hs)
  · have hvalue : l.value globals.value = globals.value (String.ofList l.text) := by
      simp [Lexeme.value, hk]
    rw [hvalue, hop]
    exact (step_global rfl (hc _ hv)).trans (push_eq hs)

variable {base : Nat} {s : Stack} {l r : Expr} {mark : Lexeme} {env : String → Value}

/-- The code after the left operand of a conjunction, whose value is on the stack. -/
theorem leads_and (h : Placed chunk slot base (.join .and mark l r)) (a : Value)
    (hs : s.size + 2 ≤ s.capacity) (hr : Leads chunk globals ⟨base + l.size + 3, s⟩ r.size
      ((fun v => ⟨base + l.size + 3 + r.size, s.put v⟩) <$> r.eval env)) :
    Leads chunk globals ⟨base + l.size, s.put a⟩ (3 + r.size)
      ((fun v => ⟨base + l.size + 3 + r.size, s.put v⟩) <$> if a.isFalsy then pure a
        else r.eval env) := by
  have hcode := h.between
  obtain ⟨hdone, hsize⟩ := h.toNat_done (.inl rfl)
  have hdup : Leads chunk globals ⟨base + l.size, s.put a⟩
      1 (.ok ⟨base + l.size + 1, (s.put a).put a⟩) :=
    .step hcode.head ((step_dup rfl).trans
      (push_eq (by rw [Stack.size_put, Stack.capacity_put]; omega)))
  have hjump : Leads chunk globals ⟨base + l.size + 1, (s.put a).put a⟩ 1 (.ok _) :=
    .step hcode.tail.head (step_jumpIfFalse rfl (by rw [hdone]; exact hsize))
  have htest := hdup.trans hjump
  cases hf : a.isFalsy with
  | true =>
    rw [hf, if_pos rfl, hdone] at htest
    exact htest.mono (by omega)
  | false =>
    rw [hf, if_neg Bool.false_ne_true] at htest
    have hpop : Leads chunk globals ⟨base + l.size + 2, s.put a⟩ 1 (.ok ⟨base + l.size + 3, s⟩) :=
      .step hcode.tail.tail.head (step_pop rfl)
    exact (htest.trans hpop).trans hr

/-- The code after the left operand of an alternative, whose value is on the stack. -/
theorem leads_or (h : Placed chunk slot base (.join .or mark l r)) (a : Value)
    (hs : s.size + 2 ≤ s.capacity) (hr : Leads chunk globals ⟨base + l.size + 4, s⟩ r.size
      ((fun v => ⟨base + l.size + 4 + r.size, s.put v⟩) <$> r.eval env)) :
    Leads chunk globals ⟨base + l.size, s.put a⟩ (4 + r.size)
      ((fun v => ⟨base + l.size + 4 + r.size, s.put v⟩) <$> if a.isFalsy then r.eval env
        else pure a) := by
  have hcode := h.between
  obtain ⟨hdone, hsize⟩ := h.toNat_done (.inr rfl)
  obtain ⟨hfirst, hfirstSize⟩ := h.toNat_otherwise
  have hdup : Leads chunk globals ⟨base + l.size, s.put a⟩
      1 (.ok ⟨base + l.size + 1, (s.put a).put a⟩) :=
    .step hcode.head ((step_dup rfl).trans
      (push_eq (by rw [Stack.size_put, Stack.capacity_put]; omega)))
  have hjump : Leads chunk globals ⟨base + l.size + 1, (s.put a).put a⟩ 1 (.ok _) :=
    .step hcode.tail.head (step_jumpIfFalse rfl (by rw [hfirst]; exact hfirstSize))
  have htest := hdup.trans hjump
  cases hf : a.isFalsy with
  | true =>
    rw [hf, if_pos rfl, hfirst] at htest
    have hpop : Leads chunk globals ⟨base + l.size + 3, s.put a⟩ 1 (.ok ⟨base + l.size + 4, s⟩) :=
      .step hcode.tail.tail.tail.head (step_pop rfl)
    exact ((htest.trans hpop).trans hr).mono (by omega)
  | false =>
    rw [hf, if_neg Bool.false_ne_true] at htest
    have hover : Leads chunk globals ⟨base + l.size + 2, s.put a⟩ 1 _ :=
      .step hcode.tail.tail.head (step_jump rfl (by rw [hdone]; exact hsize))
    rw [hdone] at hover
    exact (htest.trans hover).mono (by omega)

theorem length_of_evalAll_eq_ok {args : List Expr} {vs : List Value}
    (h : Expr.evalAll env args = .ok vs) :
    vs.length = args.length := by
  induction args generalizing vs with
  | nil => cases h; rfl
  | cons e args ih =>
    simp only [Expr.evalAll] at h
    cases he : e.eval env with
    | error f => rw [he] at h; cases h
    | ok v =>
      cases hargs : Expr.evalAll env args with
      | error f => rw [he, hargs] at h; cases h
      | ok ws =>
        rw [he, hargs] at h
        cases h
        rw [List.length_cons, List.length_cons, ih hargs]

/-- What `leads_eval` says of a tree. -/
def Simulated (chunk : Chunk) (globals : Globals) (slot : Value → UInt8) (e : Expr) : Prop :=
  ∀ {base : Nat} {s : Stack}, Placed chunk slot base e → s.size + e.size ≤ s.capacity →
    Leads chunk globals ⟨base, s⟩ e.size
      ((fun v => ⟨base + e.size, s.put v⟩) <$> e.eval globals.value)

theorem leads_evalAll {args : List Expr} (hargs : ∀ a ∈ args, Simulated chunk globals slot a)
    (h : PlacedAll chunk slot base args) (hs : s.size + Expr.sizeAll args ≤ s.capacity) :
    Leads chunk globals ⟨base, s⟩ (Expr.sizeAll args)
      ((fun vs => ⟨base + Expr.sizeAll args, s.putAll vs⟩) <$>
        Expr.evalAll globals.value args) := by
  induction args generalizing base s with
  | nil => exact .refl
  | cons e args ih =>
    have hpos := e.size_pos
    rw [Expr.sizeAll] at hs
    have he := hargs e (by simp) h.head (s := s) (by omega)
    have hrest : ∀ v, Leads chunk globals ⟨base + e.size, s.put v⟩ (Expr.sizeAll args)
        ((fun vs => ⟨base + e.size + Expr.sizeAll args, (s.put v).putAll vs⟩) <$>
          Expr.evalAll globals.value args) :=
      fun v => ih (fun a ha => hargs a (by simp [ha]))
        h.tail (by rw [Stack.size_put, Stack.capacity_put]; omega)
    rw [Expr.evalAll, Expr.sizeAll, ← Nat.add_assoc]
    refine he.bind fun v _ => ?_
    exact (hrest v).bind (b := 0) fun vs _ => .refl

/-- **Simulation of trees**: the code of a tree leads to its value, or to its fault. -/
theorem leads_eval (e : Expr) : Simulated chunk globals slot e := by
  induction e with
  | leaf l =>
    intro base s h hs
    exact leads_leaf h hs
  | group paren e ih =>
    intro base s h hs
    exact ih h.group hs
  | unary op mark e ih =>
    intro base s h hs
    obtain ⟨he, hi⟩ := h.unary
    rw [Expr.size] at hs
    refine (ih he (by omega)).bind fun v _ => ?_
    exact .step hi ((step_unary rfl).trans (pushResult_eq (by omega)))
  | join k mark l r ihl ihr =>
    intro base s h hs
    have hpos := l.size_pos
    have hpos' := r.size_pos
    have hr := h.join_right
    rw [Expr.size] at hs
    have hl : Leads chunk globals ⟨base, s⟩ l.size _ := ihl h.join_left (by omega)
    cases k with
    | binary op =>
      simp only [Connective.size] at hs
      have hstep : ∀ a b, Leads chunk globals ⟨base + l.size + r.size, (s.put a).put b⟩ 1
          ((fun v => ⟨base + l.size + r.size + 1, s.put v⟩) <$>
            (Op.binary op).result [a, b] (op.apply a b)) :=
        fun a b => .step h.after.head ((step_binary rfl).trans (pushResult_eq (by omega)))
      have hend : base + (l.size + r.size + 1) = base + l.size + r.size + 1 := by omega
      rw [Expr.size_join_binary, hend, Nat.add_assoc l.size, Expr.eval]
      refine hl.bind fun a _ => ?_
      exact (ihr hr (by rw [Stack.size_put, Stack.capacity_put]; omega)).bind fun b _ => hstep a b
    | and =>
      simp only [Connective.size] at hs
      have hend : base + (l.size + 3 + r.size) = base + l.size + 3 + r.size := by omega
      rw [Expr.size_join_and, hend, Nat.add_assoc l.size, Expr.eval]
      exact hl.bind fun a _ => leads_and h a (by omega) (ihr hr (by omega))
    | or =>
      simp only [Connective.size] at hs
      have hend : base + (l.size + 4 + r.size) = base + l.size + 4 + r.size := by omega
      rw [Expr.size_join_or, hend, Nat.add_assoc l.size, Expr.eval]
      exact hl.bind fun a _ => leads_or h a (by omega) (ihr hr (by omega))
  | call f paren args ihf ihargs =>
    intro base s h hs
    have hpos := f.size_pos
    obtain ⟨hi, hcount⟩ := h.call_instruction
    rw [Expr.size] at hs
    have hf : Leads chunk globals ⟨base, s⟩ f.size _ := ihf h.callee (by omega)
    rw [Expr.size, Expr.eval, Nat.add_assoc]
    refine hf.bind fun callee _ => ?_
    have hroom : (s.put callee).size + Expr.sizeAll args ≤ (s.put callee).capacity := by
      rw [Stack.size_put, Stack.capacity_put]
      omega
    refine (leads_evalAll ihargs h.arguments hroom).bind fun vs hvs => ?_
    exact .step hi (step_call rfl (by rw [hcount, length_of_evalAll_eq_ok hvs]))

/-! ## Programs -/

/-- Further expressions of a program, with the value of the expression before them on the stack. -/
theorem leads_next {es : List Expr} {v : Value} (h : PlacedNext chunk slot base es)
    (hs : s.size + 1 + Expr.sizeNext es ≤ s.capacity) :
    Leads chunk globals ⟨base, s.put v⟩ (Expr.sizeNext es)
      ((fun w => ⟨base + Expr.sizeNext es, s.put w⟩) <$>
        if es = [] then pure v else Expr.evalProgram globals.value es) := by
  induction es generalizing base v with
  | nil => exact .refl
  | cons e es ih =>
    rw [Expr.sizeNext] at hs
    have hpop : Leads chunk globals ⟨base, s.put v⟩ 1 (.ok ⟨base + 1, s⟩) :=
      .step h.pop (step_pop rfl)
    have he : Leads chunk globals ⟨base + 1, s⟩ e.size
        ((fun v => ⟨base + 1 + e.size, s.put v⟩) <$> e.eval globals.value) :=
      leads_eval e h.head (by omega)
    have hend : base + Expr.sizeNext (e :: es) = base + 1 + e.size + Expr.sizeNext es := by
      rw [Expr.sizeNext]
      omega
    rw [if_neg (List.cons_ne_nil _ _), hend, Expr.evalProgram_cons, Expr.sizeNext]
    exact (hpop.trans (he.bind fun w _ => ih h.tail (by omega))).mono (by omega)

end Code

end Machine

/-- The end of a run, once the machine has come to the end of the code. -/
theorem Machine.runFor_end {chunk : Chunk} {globals : Globals} {n : Nat} {s : Stack} (v : Value)
    (hs : s.size = 0) :
    runFor chunk globals n ⟨chunk.code.size, s.put v⟩ = some (.ok v) := by
  have hresult : result ⟨chunk.code.size, s.put v⟩ = .ok v := by
    rw [result, if_pos (by rw [Stack.size_put, hs]), Stack.pop_put]
    rfl
  cases n with
  | zero => rw [runFor, if_neg (Nat.lt_irrefl _), hresult]
  | succ n =>
    have hnone : chunk.code[chunk.code.size]? = none := Array.getElem?_eq_none (Nat.le_refl _)
    rw [runFor, hnone, hresult]

/-- The run of a program ends with its value, given a stack with room for a value for each
instruction. -/
theorem Chunk.run?_ofProgram {es : List Expr} (h : Expr.Acceptable es) (globals : Globals)
    (limits : Limits) (hsteps : limits.steps? = none)
    (hstack : (Chunk.ofProgram es).code.size ≤ limits.stack) :
    (Chunk.ofProgram es).run? globals limits = some (Expr.evalProgram globals.value es) := by
  cases es with
  | nil => rfl
  | cons e es =>
    obtain ⟨slot, -, he, hes⟩ := placed_ofProgram h
    have hsize := size_ofProgram e es
    generalize Chunk.ofProgram (e :: es) = chunk at *
    have hpos := e.size_pos
    have hfirst : Machine.Leads chunk globals ⟨0, { capacity := limits.stack }⟩ e.size _ :=
      Machine.leads_eval e he (by show 0 + e.size ≤ limits.stack; omega)
    rw [Nat.zero_add] at hfirst
    have hall := hfirst.bind fun v _ => Machine.leads_next (v := v) hes
      (by show 0 + 1 + Expr.sizeNext es ≤ limits.stack; omega)
    rw [← Expr.evalProgram_cons, ← hsize] at hall
    obtain ⟨k, -, hrun⟩ := hall
    have hend : limits.start.run? chunk globals =
        some (Expr.evalProgram globals.value (e :: es)) := by
      refine Machine.run?_of_runFor ((hrun 0).trans ?_)
      cases Expr.evalProgram globals.value (e :: es) with
      | error f => rfl
      | ok v => exact Machine.runFor_end v rfl
    have hempty : chunk.code.isEmpty = false := by
      rw [Array.isEmpty_eq_false_iff, ← Array.size_pos_iff]
      omega
    rw [Chunk.run?, hempty, if_neg Bool.false_ne_true, hsteps]
    exact hend

/-- **Correctness of the compiler.** An accepted source denotes one program; and the run of its
chunk, after any definitions of globals and without a limit on its steps, ends with the value of
this program or with its fault, provided that the stack has room for a value for each
instruction. -/
theorem run?_eq_evalProgram_of_compile_eq_ok {source : String} {chunk : Chunk}
    (h : compile source = .ok chunk) :
    (∃ lexemes program, Denotes source lexemes program) ∧
      ∀ lexemes program, Denotes source lexemes program →
        ∀ (definitions : List (String × Value)) (limits : Limits), limits.steps? = none →
          chunk.code.size ≤ limits.stack →
          chunk.run? (.ofList definitions) limits =
            some (Expr.evalProgram (lastDefinition definitions) program) := by
  obtain ⟨lexemes, program, hden, hacc, rfl⟩ := compile_eq_ok_iff.mp h
  refine ⟨⟨lexemes, program, hden⟩,
    fun lexemes' program' hden' definitions limits hsteps hstack => ?_⟩
  obtain ⟨-, rfl⟩ := hden'.unique hden
  rw [Chunk.run?_ofProgram hacc _ _ hsteps hstack, Globals.value_ofList]

/-- The last definition of `b` counts, and `a` has none. -/
theorem run?_alternative :
    ∃ chunk lexemes program, compile "a or b" = .ok chunk ∧ Denotes "a or b" lexemes program ∧
    chunk.run? (.ofList [("b", .nil), ("b", .bool true)]) {} = some (.ok (.bool true)) ∧
    Expr.evalProgram (lastDefinition [("b", .nil), ("b", .bool true)]) program =
      .ok (.bool true) := by
  have h : compile "a or b" = .ok
      { code := #[⟨.global 0, 0⟩, ⟨.dup, 2⟩, ⟨.jumpIfFalse 4, 2⟩, ⟨.jump 6, 2⟩, ⟨.pop, 2⟩,
        ⟨.global 1, 5⟩], constants := #[.string "a", .string "b"] } := by cbv
  obtain ⟨⟨lexemes, program, hden⟩, hall⟩ := run?_eq_evalProgram_of_compile_eq_ok h
  have hrun := hall lexemes program hden [("b", .nil), ("b", .bool true)] {} rfl (by decide)
  have hvalue : Expr.evalProgram (lastDefinition [("b", .nil), ("b", .bool true)]) program =
      .ok (.bool true) :=
    Option.some.inj (hrun.symm.trans (by cbv))
  exact ⟨_, lexemes, program, h, hden, by rw [hrun, hvalue], hvalue⟩

end LuaExpr
