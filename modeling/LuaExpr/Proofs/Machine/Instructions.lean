import LuaExpr.Proofs.Expr.Evaluation
/-!
# Single instructions

What each instruction does to a machine whose stack has the operands it needs on top.

* `Stack.put`: a stack with one more value.
* `Machine.step_literal`, `Machine.step_unary` and so on: one fact for each instruction, up to the
  push of its result.
* `Machine.push_eq`: the push itself, if there is room for one more value.
-/

namespace LuaExpr

/-! ## Stacks -/

namespace Stack

/-- The stack with a value on top, whether or not there is room for it. -/
def put (s : Stack) (v : Value) : Stack := { s with values := s.values.push v }

/-- The stack with several values on top, the last one topmost. -/
def putAll (s : Stack) (vs : List Value) : Stack := vs.foldl put s

variable {s : Stack} {v : Value} {vs : List Value}

@[simp] theorem size_put : (s.put v).size = s.size + 1 := Array.size_push _

@[simp] theorem capacity_put : (s.put v).capacity = s.capacity := rfl

@[simp] theorem putAll_nil : s.putAll [] = s := rfl

@[simp] theorem putAll_cons : s.putAll (v :: vs) = (s.put v).putAll vs := rfl

theorem putAll_concat : s.putAll (vs ++ [v]) = (s.putAll vs).put v := by
  rw [putAll, List.foldl_append]
  rfl

theorem push_eq (h : s.size < s.capacity) : s.push v = .ok (s.put v) := if_neg (Nat.ne_of_lt h)

@[simp] theorem pop_put : (s.put v).pop = .ok (v, s) := by
  simp [pop, put]

@[simp] theorem peek_put : (s.put v).peek 0 = .ok v := by
  simp [peek, put]

@[simp] theorem drop_putAll : (s.putAll vs).drop vs.length = .ok s := by
  induction vs using List.reverseRecOn with
  | nil => rfl
  | append_singleton vs v ih =>
    rw [putAll_concat, List.length_append, List.length_singleton, drop, pop_put]
    exact ih

theorem exists_put (h : 0 < s.size) : ∃ t v, s = put t v := by
  obtain ⟨values, capacity⟩ := s
  have hne : values.size ≠ 0 := Nat.ne_of_gt h
  obtain ⟨vs, v, hvs⟩ := Array.eq_push_of_size_ne_zero hne
  exact ⟨⟨vs, capacity⟩, v, by rw [put, ← hvs]⟩

theorem exists_putAll {n : Nat} (h : n ≤ s.size) : ∃ t vs, s = putAll t vs ∧ vs.length = n := by
  induction n generalizing s with
  | zero => exact ⟨s, [], rfl, rfl⟩
  | succ n ih =>
    obtain ⟨t, v, rfl⟩ := exists_put (Nat.lt_of_lt_of_le (Nat.succ_pos n) h)
    rw [size_put] at h
    obtain ⟨u, vs, rfl, rfl⟩ := ih (Nat.le_of_succ_le_succ h)
    exact ⟨u, vs ++ [v], putAll_concat.symm, by simp⟩

@[simp] theorem size_putAll : (s.putAll vs).size = s.size + vs.length := by
  induction vs generalizing s with
  | nil => rfl
  | cons v vs ih =>
    rw [putAll_cons, ih, size_put, List.length_cons]
    omega

end Stack

/-! ## Instructions -/

theorem ok_bind {ε α β : Type} (a : α) (f : α → Except ε β) : (Except.ok a >>= f) = f a := rfl

namespace Machine

variable {chunk : Chunk} {globals : Globals} {i : Instruction} {next : Nat} {s : Stack}
  {v a b : Value}

theorem push_eq (h : s.size < s.capacity) : push ⟨next, s⟩ v = .ok ⟨next, s.put v⟩ := by
  simp only [push, Stack.push_eq h, ok_bind]
  rfl

theorem pushResult_eq {op : Op} {operands : List Value} {r : Except OperandError Value}
    (h : s.size < s.capacity) :
    pushResult ⟨next, s⟩ op operands r = (fun v => ⟨next, s.put v⟩) <$> op.result operands r := by
  cases r with
  | ok v => exact push_eq h
  | error e => rfl

theorem step_literal (hv : (i.op = .nil ∧ v = .nil) ∨ (i.op = .true ∧ v = .bool true) ∨
    (i.op = .false ∧ v = .bool false)) : step chunk globals i ⟨next, s⟩ = push ⟨next + 1, s⟩ v := by
  rcases hv with ⟨hi, rfl⟩ | ⟨hi, rfl⟩ | ⟨hi, rfl⟩ <;> rw [step, hi] <;> rfl

theorem step_constant {slot : UInt8} (hi : i.op = .constant slot)
    (hv : chunk.constant? slot = some v) :
    step chunk globals i ⟨next, s⟩ = push ⟨next + 1, s⟩ v := by
  simp only [step, hi, execute, constant, hv, ok_bind]

theorem step_global {slot : UInt8} {name : String} (hi : i.op = .global slot)
    (hv : chunk.constant? slot = some (.string name)) :
    step chunk globals i ⟨next, s⟩ = push ⟨next + 1, s⟩ (globals.value name) := by
  have hname : globalName chunk slot = .ok name := by
    simp only [globalName, constant, hv, ok_bind]
    rfl
  simp only [step, hi, execute, hname, ok_bind]

theorem step_call {count : UInt8} {args : List Value} (hi : i.op = .call count)
    (hc : count.toNat = args.length) :
    step chunk globals i ⟨next, (s.put v).putAll args⟩ = .error (.notCallable v.kind) := by
  simp only [step, hi, execute, hc, Stack.drop_putAll, Stack.pop_put, ok_bind]
  rfl

theorem step_pop (hi : i.op = .pop) : step chunk globals i ⟨next, s.put v⟩ = .ok ⟨next + 1, s⟩ := by
  simp only [step, hi, execute, Stack.pop_put, ok_bind]
  rfl

theorem step_dup (hi : i.op = .dup) :
    step chunk globals i ⟨next, s.put v⟩ = push ⟨next + 1, s.put v⟩ v := by
  simp only [step, hi, execute, Stack.peek_put, ok_bind]

theorem step_unary {op : UnaryOp} (hi : i.op = .unary op) :
    step chunk globals i ⟨next, s.put v⟩ =
      pushResult ⟨next + 1, s⟩ (.unary op) [v] (op.apply v) := by
  simp only [step, hi, execute, Stack.pop_put, ok_bind]

theorem step_binary {op : BinaryOp} (hi : i.op = .binary op) :
    step chunk globals i ⟨next, (s.put a).put b⟩ =
      pushResult ⟨next + 1, s⟩ (.binary op) [a, b] (op.apply a b) := by
  simp only [step, hi, execute, Stack.pop_put, ok_bind]

theorem step_jumpIfFalse {target : UInt16} (hi : i.op = .jumpIfFalse target)
    (h : target.toNat ≤ chunk.code.size) :
    step chunk globals i ⟨next, s.put v⟩ =
      .ok ⟨if v.isFalsy then target.toNat else next + 1, s⟩ := by
  simp only [step, hi, execute, Stack.pop_put, ok_bind]
  show (if v.isFalsy = true then jumpTo ⟨next + 1, s⟩ chunk target else .ok ⟨next + 1, s⟩) = _
  by_cases hv : v.isFalsy = true
  · rw [if_pos hv, if_pos hv]
    exact if_neg (Nat.not_lt.mpr h)
  · rw [if_neg hv, if_neg hv]

theorem step_jump {target : UInt16} (hi : i.op = .jump target)
    (h : target.toNat ≤ chunk.code.size) :
    step chunk globals i ⟨next, s⟩ = .ok ⟨target.toNat, s⟩ := by
  simp only [step, hi, execute]
  exact if_neg (Nat.not_lt.mpr h)

end Machine

end LuaExpr
