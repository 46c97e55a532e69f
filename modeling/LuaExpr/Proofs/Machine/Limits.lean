import LuaExpr.Proofs.Machine.Instructions
import LuaExpr.Proofs.Machine.Runs
/-!
# Limits

Limits only cut a run short. A machine with more room on its stack does in each step what it does
with less room, as long as the smaller stack does not overflow, and a run that is given more steps
goes on where it would have been broken off.

* `Stack.widened`, `Machine.widened`: a stack and a machine with another capacity.
* `Machine.agrees_step`: one step with more room; `Machine.runFor_widened`: a run of any chunk with
  more room.
* `Machine.runFor_ne_aborted`: no instruction is ever the reason why a run is broken off.
* `Chunk.run?_eq_of_le`: larger limits keep every outcome that is not the doing of the smaller ones.
* `Chunk.run?_eq_aborted_iff`: a run is broken off exactly if it executes more instructions than it
  is given.
-/

namespace LuaExpr

/-! ## Stacks with more room -/

namespace Stack

/-- The stack with another capacity. -/
def widened (capacity : Nat) (s : Stack) : Stack := { s with capacity }

/-- A stack has room for the values that it holds. -/
def HasRoom (s : Stack) : Prop := s.size ≤ s.capacity

variable {s t : Stack} {v : Value} {c : Nat}

/-- A stack with more room takes a value as the smaller one does, unless this one is full. -/
theorem push_widened (hc : s.capacity ≤ c) (hs : s.HasRoom) :
    (s.size = s.capacity ∧ s.push v = .error .stackOverflow) ∨
      (s.push v = .ok (s.put v) ∧ (s.widened c).push v = .ok ((s.put v).widened c) ∧
        (s.put v).HasRoom) := by
  rcases Nat.lt_or_eq_of_le hs with hlt | heq
  · have hwide : (s.widened c).size < (s.widened c).capacity := Nat.lt_of_lt_of_le hlt hc
    exact .inr ⟨push_eq hlt, push_eq hwide, by rw [HasRoom, size_put]; exact hlt⟩
  · exact .inl ⟨heq, if_pos heq⟩

theorem pop_widened (s : Stack) (c : Nat) :
    (s.widened c).pop = (fun p => (p.1, p.2.widened c)) <$> s.pop := by
  rw [pop, pop, widened]
  cases s.values.back? <;> rfl

/-- A stack without its topmost value has the same capacity, and room for the others. -/
theorem hasRoom_of_pop (hs : s.HasRoom) (h : s.pop = .ok (v, t)) :
    t.capacity = s.capacity ∧ t.HasRoom := by
  rw [pop] at h
  split at h
  · cases h
    refine ⟨rfl, ?_⟩
    rw [HasRoom, size, Array.size_pop]
    exact Nat.le_trans (Nat.sub_le _ _) hs
  · cases h

theorem pop_eq_error {f : Fault} (h : s.pop = .error f) : f = .stackUnderflow := by
  rw [pop] at h
  split at h <;> cases h
  rfl

theorem peek_eq_error {n : Nat} {f : Fault} (h : s.peek n = .error f) : f = .stackUnderflow := by
  rw [peek] at h
  split at h
  · split at h <;> cases h
    rfl
  · cases h
    rfl

end Stack

namespace Machine

/-- The machine with another capacity of its stack. -/
def widened (capacity : Nat) (m : Machine) : Machine := { m with stack := m.stack.widened capacity }

variable {chunk : Chunk} {globals : Globals} {m : Machine} {s : Stack} {v : Value} {c cap n : Nat}

/-! ## One step with more room -/

/-- Outcomes of one step with a capacity and with a larger one: the same machine apart from the
capacity, or the same fault, unless the smaller stack overflows. A step is never broken off. -/
def Agrees (cap c : Nat) (x y : Except Fault Machine) : Prop :=
  match x with
  | .ok m => m.stack.capacity = cap ∧ m.stack.HasRoom ∧ y = .ok (m.widened c)
  | .error f => (∀ n, f ≠ .aborted n) ∧ (f = .stackOverflow ∨ y = .error f)

theorem agrees_ok (hcap : m.stack.capacity = cap) (hroom : m.stack.HasRoom) :
    Agrees cap c (.ok m) (.ok (m.widened c)) := ⟨hcap, hroom, rfl⟩

theorem agrees_error {f : Fault} (hf : ∀ n, f ≠ .aborted n) : Agrees cap c (.error f) (.error f) :=
  ⟨hf, .inr rfl⟩

theorem agrees_push (hc : cap ≤ c) (hcap : m.stack.capacity = cap) (hroom : m.stack.HasRoom)
    (v : Value) :
    Agrees cap c (m.push v) ((m.widened c).push v) := by
  rcases Stack.push_widened (v := v) (hcap.le.trans hc) hroom with ⟨-, hpush⟩ | ⟨hpush, hwide, hput⟩
  · simp only [push, hpush]
    exact ⟨fun n => Fault.noConfusion, .inl rfl⟩
  · have hwide : (m.widened c).push v = .ok (widened c { m with stack := m.stack.put v }) := by
      simp only [push, widened, hwide, ok_bind]
      rfl
    rw [hwide]
    simp only [push, hpush, ok_bind]
    exact agrees_ok (m := { m with stack := m.stack.put v }) hcap hput

theorem agrees_pushResult (hc : cap ≤ c) (hcap : m.stack.capacity = cap)
    (hroom : m.stack.HasRoom) (op : Op) (operands : List Value) (r : Except OperandError Value) :
    Agrees cap c (m.pushResult op operands r) ((m.widened c).pushResult op operands r) := by
  cases r with
  | ok v => exact agrees_push hc hcap hroom v
  | error e => cases e <;> exact agrees_error fun n => Fault.noConfusion

theorem agrees_jumpTo (hcap : m.stack.capacity = cap) (hroom : m.stack.HasRoom) (target : UInt16) :
    Agrees cap c (m.jumpTo chunk target) ((m.widened c).jumpTo chunk target) := by
  rw [jumpTo, jumpTo]
  split
  · exact agrees_error fun n => Fault.noConfusion
  · exact agrees_ok hcap hroom

/-- What is done with the topmost value and the stack below it. -/
theorem agrees_pop {f g : Value × Stack → Except Fault Machine} (hcap : s.capacity = cap)
    (hroom : s.HasRoom) (h : ∀ v t, t.capacity = cap → t.HasRoom →
      Agrees cap c (f (v, t)) (g (v, t.widened c))) :
    Agrees cap c (s.pop >>= f) ((s.widened c).pop >>= g) := by
  rw [Stack.pop_widened]
  cases hp : s.pop with
  | ok p =>
    obtain ⟨v, t⟩ := p
    obtain ⟨ht, htroom⟩ := Stack.hasRoom_of_pop hroom hp
    exact h v t (ht.trans hcap) htroom
  | error e =>
    rw [Stack.pop_eq_error hp]
    exact agrees_error fun n => Fault.noConfusion

theorem agrees_drop {f g : Stack → Except Fault Machine} (hcap : s.capacity = cap)
    (hroom : s.HasRoom) (h : ∀ t, t.capacity = cap → t.HasRoom →
      Agrees cap c (f t) (g (t.widened c))) :
    Agrees cap c (s.drop n >>= f) ((s.widened c).drop n >>= g) := by
  induction n generalizing s with
  | zero => exact h s hcap hroom
  | succ n ih =>
    simp only [Stack.drop, bind_assoc]
    exact agrees_pop hcap hroom fun v t ht htroom => ih ht htroom

theorem constant_ne_aborted {slot : UInt8} {f : Fault}
    (h : constant chunk slot = .error f) (n : Nat) :
    f ≠ .aborted n := by
  rw [constant] at h
  split at h <;> cases h
  exact Fault.noConfusion

theorem globalName_ne_aborted {slot : UInt8} {f : Fault}
    (h : globalName chunk slot = .error f) (n : Nat) :
    f ≠ .aborted n := by
  rw [globalName] at h
  cases hc : constant chunk slot with
  | error g =>
    rw [hc] at h
    cases h
    exact constant_ne_aborted hc n
  | ok v =>
    rw [hc, ok_bind] at h
    split at h <;> cases h
    exact Fault.noConfusion

/-- What is done with a value that does not depend on the stack. -/
theorem agrees_bind {α : Type} {x : Except Fault α} {f g : α → Except Fault Machine}
    (hx : ∀ e, x = .error e → ∀ n, e ≠ .aborted n) (h : ∀ a, Agrees cap c (f a) (g a)) :
    Agrees cap c (x >>= f) (x >>= g) := by
  cases x with
  | ok a => exact h a
  | error e => exact agrees_error (hx e rfl)

/-- **One step with more room.** -/
theorem agrees_step (chunk : Chunk) (globals : Globals) (i : Instruction)
    (hc : m.stack.capacity ≤ c) (hroom : m.stack.HasRoom) :
    Agrees m.stack.capacity c (m.step chunk globals i) ((m.widened c).step chunk globals i) := by
  obtain ⟨next, s⟩ := m
  have hpush : ∀ v, Agrees s.capacity c (push ⟨next + 1, s⟩ v) (push ⟨next + 1, s.widened c⟩ v) :=
    agrees_push (m := ⟨next + 1, s⟩) hc rfl hroom
  simp only [step, widened]
  cases i.op with
  | nil => exact hpush _
  | true => exact hpush _
  | false => exact hpush _
  | constant slot => exact agrees_bind (fun e => constant_ne_aborted) hpush
  | global slot => exact agrees_bind (fun e => globalName_ne_aborted) fun name => hpush _
  | call count =>
    refine agrees_drop rfl hroom fun t ht htroom => agrees_pop ht htroom fun v u _ _ => ?_
    exact agrees_error fun n => Fault.noConfusion
  | pop => exact agrees_pop rfl hroom fun v t ht htroom => agrees_ok (m := ⟨next + 1, t⟩) ht htroom
  | dup =>
    refine agrees_bind (fun e he n => ?_) hpush
    rw [Stack.peek_eq_error he]
    exact Fault.noConfusion
  | unary op =>
    exact agrees_pop rfl hroom fun v t ht htroom =>
      agrees_pushResult (m := ⟨next + 1, t⟩) hc ht htroom _ _ _
  | binary op =>
    refine agrees_pop rfl hroom fun b t ht htroom => agrees_pop ht htroom fun a u hu huroom => ?_
    exact agrees_pushResult (m := ⟨next + 1, u⟩) hc hu huroom _ _ _
  | jumpIfFalse target =>
    refine agrees_pop rfl hroom fun v t ht htroom => ?_
    by_cases hv : v.isFalsy = true
    · simp only [hv, if_true]
      exact agrees_jumpTo (m := ⟨next + 1, t⟩) ht htroom target
    · simp only [hv]
      exact agrees_ok (m := ⟨next + 1, t⟩) ht htroom
  | jump target => exact agrees_jumpTo (m := ⟨next + 1, s⟩) rfl hroom target

/-! ## Runs with more room -/

theorem result_widened (m : Machine) (c : Nat) : (m.widened c).result = m.result := by
  rw [result, result]
  show (if m.stack.size = 1 then _ else _) = _
  split
  · rw [widened, Stack.pop_widened]
    cases m.stack.pop <;> rfl
  · rfl

/-- **A run with more room**, of the same number of instructions: it is the same, unless the smaller
stack overflows. -/
theorem runFor_widened (n : Nat) (hc : m.stack.capacity ≤ c) (hroom : m.stack.HasRoom) :
    runFor chunk globals n m = some (.error .stackOverflow) ∨
      runFor chunk globals n (m.widened c) = runFor chunk globals n m := by
  induction n generalizing m with
  | zero =>
    refine .inr ?_
    rw [runFor, runFor, result_widened]
    rfl
  | succ n ih =>
    cases hi : chunk.code[m.next]? with
    | none =>
      exact .inr (by rw [runFor_of_none hi, runFor_of_none (m := m.widened c) hi, result_widened])
    | some i =>
      have hstep := agrees_step chunk globals i hc hroom
      cases hs : m.step chunk globals i with
      | ok m' =>
        rw [hs] at hstep
        obtain ⟨hcap, hroom', hwide⟩ := hstep
        rw [runFor_succ_of_ok hi hs, runFor_succ_of_ok (m := m.widened c) hi hwide]
        exact ih (hcap.le.trans hc) hroom'
      | error f =>
        rw [hs] at hstep
        obtain ⟨-, rfl | hwide⟩ := hstep
        · exact .inl (runFor_succ_of_error hi hs)
        · exact .inr (by rw [runFor_succ_of_error hi hs,
            runFor_succ_of_error (m := m.widened c) hi hwide])

/-- A whole run with more room. -/
theorem run?_widened (hc : m.stack.capacity ≤ c) (hroom : m.stack.HasRoom) :
    m.run? chunk globals = some (.error .stackOverflow) ∨
      (m.widened c).run? chunk globals = m.run? chunk globals := by
  cases h : m.run? chunk globals with
  | some r =>
    obtain ⟨n, hn⟩ := run?_eq_some_iff.mp h
    rcases runFor_widened n hc hroom with hover | hwide
    · exact .inl (hn.symm.trans hover)
    · exact .inr (run?_of_runFor (hwide.trans hn))
  | none =>
    refine .inr (run?_eq_none_iff.mpr fun n => ?_)
    have hn := run?_eq_none_iff.mp h n
    rcases runFor_widened n hc hroom with hover | hwide
    · rw [hn] at hover
      cases hover
    · exact hwide.trans hn

/-- A run ends in no fault that says that it has been broken off. -/
theorem runFor_ne_aborted {f : Fault} (hroom : m.stack.HasRoom)
    (h : runFor chunk globals n m = some (.error f)) (k : Nat) : f ≠ .aborted k := by
  have hresult : ∀ m : Machine, m.result = .error f → f ≠ .aborted k := by
    intro m hm
    rw [result] at hm
    split at hm
    · cases hp : m.stack.pop with
      | ok p => rw [hp] at hm; cases hm
      | error e =>
        rw [hp] at hm
        cases hm
        rw [Stack.pop_eq_error hp]
        exact Fault.noConfusion
    · cases hm
      exact Fault.noConfusion
  induction n generalizing m with
  | zero =>
    cases hi : chunk.code[m.next]? with
    | none => rw [runFor_of_none hi] at h; exact hresult m (Option.some.inj h)
    | some i => rw [runFor_zero hi] at h; cases h
  | succ n ih =>
    cases hi : chunk.code[m.next]? with
    | none => rw [runFor_of_none hi] at h; exact hresult m (Option.some.inj h)
    | some i =>
      have hstep := agrees_step (c := m.stack.capacity) chunk globals i (Nat.le_refl _) hroom
      cases hs : m.step chunk globals i with
      | ok m' =>
        rw [hs] at hstep
        rw [runFor_succ_of_ok hi hs] at h
        exact ih hstep.2.1 h
      | error g =>
        rw [hs] at hstep
        rw [runFor_succ_of_error hi hs] at h
        cases h
        exact hstep.1 k

end Machine

/-! ## Limits of a run -/

/-- Limits are at most other ones: no more room, and no more steps. No limit on the steps is the
greatest one. -/
instance : LE Limits := ⟨fun l l' => l.stack ≤ l'.stack ∧ ∀ s' ∈ l'.steps?, ∃ s ∈ l.steps?, s ≤ s'⟩

namespace Chunk

variable {chunk : Chunk} {globals : Globals} {l l' : Limits} {n : Nat}

theorem run?_of_isEmpty (h : chunk.code.isEmpty = true) :
    chunk.run? globals l = some (.ok .nil) := if_pos h

theorem run?_of_unlimited (h : chunk.code.isEmpty = false) (hl : l.steps? = none) :
    chunk.run? globals l = l.start.run? chunk globals := by
  rw [run?, h, if_neg Bool.false_ne_true, hl]

theorem run?_of_limited (h : chunk.code.isEmpty = false) (hl : l.steps? = some n) :
    chunk.run? globals l =
      some ((Machine.runFor chunk globals n l.start).getD (.error (.aborted n))) := by
  rw [run?, h, if_neg Bool.false_ne_true, hl]

theorem hasRoom_start (l : Limits) : l.start.stack.HasRoom := Nat.zero_le _

/-- Larger limits keep every outcome that is not the doing of the smaller ones. -/
theorem run?_eq_of_le (h : l ≤ l') (hover : chunk.run? globals l ≠ some (.error .stackOverflow))
    (habort : ∀ n, chunk.run? globals l ≠ some (.error (.aborted n))) :
    chunk.run? globals l' = chunk.run? globals l := by
  obtain ⟨hstack, hsteps⟩ := h
  cases hempty : chunk.code.isEmpty with
  | true => rw [run?_of_isEmpty hempty, run?_of_isEmpty hempty]
  | false =>
    cases hl : l.steps? with
    | none =>
      have hl' : l'.steps? = none := by
        refine Option.eq_none_iff_forall_not_mem.mpr fun s' hs' => ?_
        obtain ⟨s, hs, -⟩ := hsteps s' hs'
        rw [hl] at hs
        cases hs
      rw [run?_of_unlimited hempty hl] at hover ⊢
      rw [run?_of_unlimited hempty hl']
      exact (Machine.run?_widened hstack (hasRoom_start l)).resolve_left hover
    | some s =>
      rw [run?_of_limited hempty hl] at hover habort ⊢
      cases hrun : Machine.runFor chunk globals s l.start with
      | none => exact absurd (by rw [hrun]; rfl) (habort s)
      | some r =>
        rw [hrun] at hover
        have hwide : Machine.runFor chunk globals s l'.start = some r := by
          refine (Machine.runFor_widened s hstack (hasRoom_start l)).resolve_left ?_ |>.trans hrun
          rw [hrun]
          exact hover
        cases hl' : l'.steps? with
        | none =>
          rw [run?_of_unlimited hempty hl']
          exact Machine.run?_of_runFor hwide
        | some s' =>
          obtain ⟨t, ht, hle⟩ := hsteps s' hl'
          obtain rfl : s = t := Option.some.inj (hl.symm.trans ht)
          obtain ⟨k, rfl⟩ := Nat.exists_eq_add_of_le hle
          rw [run?_of_limited hempty hl', Machine.runFor_add hwide]
          rfl

/-- A run is broken off exactly if it has not ended after the instructions that it is given. -/
theorem run?_eq_aborted_iff_runFor (h : chunk.code.isEmpty = false) :
    chunk.run? globals l = some (.error (.aborted n)) ↔
      l.steps? = some n ∧ Machine.runFor chunk globals n l.start = none := by
  cases hl : l.steps? with
  | none =>
    rw [run?_of_unlimited h hl]
    refine iff_of_false (fun hrun => ?_) (by simp)
    obtain ⟨k, hk⟩ := Machine.run?_eq_some_iff.mp hrun
    exact Machine.runFor_ne_aborted (hasRoom_start l) hk n rfl
  | some s =>
    rw [run?_of_limited h hl]
    cases hrun : Machine.runFor chunk globals s l.start with
    | none =>
      rw [Option.getD_none, Option.some.injEq, Except.error.injEq, Fault.aborted.injEq,
        Option.some.injEq]
      exact ⟨fun hs => ⟨hs, hs ▸ hrun⟩, And.left⟩
    | some r =>
      rw [Option.getD_some, Option.some.injEq, Option.some.injEq]
      refine iff_of_false ?_ ?_
      · rintro rfl
        exact Machine.runFor_ne_aborted (hasRoom_start l) hrun n rfl
      · rintro ⟨rfl, hnone⟩
        rw [hrun] at hnone
        cases hnone

/-- A run is broken off exactly if it would not end, or not within the instructions that it is
given. -/
theorem run?_eq_aborted_iff : chunk.run? globals l = some (.error (.aborted n)) ↔
    l.steps? = some n ∧ (chunk.run? globals { l with steps? := none } = none ∨
      Machine.ExecutesMoreThan chunk globals l.start n) := by
  cases hempty : chunk.code.isEmpty with
  | true =>
    have hnone : chunk.code[l.start.next]? = none := by
      rw [Array.isEmpty_iff.mp hempty]
      rfl
    rw [run?_of_isEmpty hempty, run?_of_isEmpty hempty]
    refine iff_of_false (fun h => by cases h) ?_
    rintro ⟨-, h | ⟨k, hk⟩⟩
    · cases h
    · rw [Machine.visits_of_none hnone] at hk
      exact Nat.not_lt_zero _ hk
  | false =>
    have hstart : ({ l with steps? := none } : Limits).start = l.start := rfl
    rw [run?_eq_aborted_iff_runFor hempty, ← Machine.runFor_eq_none_iff,
      run?_of_unlimited (l := { l with steps? := none }) hempty rfl, hstart]
    refine and_congr_right fun _ => ⟨.inr, ?_⟩
    rintro (h | h)
    · exact Machine.run?_eq_none_iff.mp h n
    · exact h

/-- **Limits only cut runs short.** Whatever the chunk is, a run that neither overflows its stack
nor is broken off has the same outcome, or as little an end, under all larger limits. A run is
broken off exactly if without a limit on its steps it would not end or execute more instructions
than its limit, and then it has executed as many as that. -/
theorem limits_cut_runs (chunk : Chunk) (globals : Globals) :
    (∀ l l' : Limits, l ≤ l' → chunk.run? globals l ≠ some (.error .stackOverflow) →
      (∀ n, chunk.run? globals l ≠ some (.error (.aborted n))) →
        chunk.run? globals l' = chunk.run? globals l) ∧
    ∀ (l : Limits) (n : Nat),
      (chunk.run? globals l = some (.error (.aborted n)) ↔
        l.steps? = some n ∧ (chunk.run? globals { l with steps? := none } = none ∨
          Machine.ExecutesMoreThan chunk globals l.start n)) ∧
      (chunk.run? globals l = some (.error (.aborted n)) →
        (Machine.visits chunk globals n l.start).length = n) := by
  refine ⟨fun l l' h hover habort => run?_eq_of_le h hover habort,
    fun l n => ⟨run?_eq_aborted_iff, fun h => ?_⟩⟩
  cases hempty : chunk.code.isEmpty with
  | true =>
    rw [run?_of_isEmpty hempty] at h
    cases h
  | false =>
    exact Machine.length_visits_of_runFor_eq_none ((run?_eq_aborted_iff_runFor hempty).mp h).2

/-- Four instructions, the last of which is a jump to the one before: with four steps and room for
one value the run ends, also without these limits; with three steps it is broken off. -/
theorem limits_cut_runs_backward :
    let chunk : Chunk := { code := #[⟨.jump 2, 0⟩, ⟨.jump 4, 1⟩, ⟨.nil, 2⟩, ⟨.jump 1, 3⟩] }
    ({ stack := 1, steps? := some 4 } : Limits) ≤ {} ∧ chunk.run? {} {} = some (.ok .nil) ∧
      chunk.run? {} { stack := 1, steps? := some 3 } = some (.error (.aborted 3)) ∧
      (Machine.visits chunk {} 3 (Limits.start { stack := 1, steps? := some 3 })).length = 3 := by
  intro chunk
  obtain ⟨hle, habort⟩ := limits_cut_runs chunk {}
  have hlimits : ({ stack := 1, steps? := some 4 } : Limits) ≤ {} :=
    ⟨by decide, fun s hs => by cases hs⟩
  have hrun : chunk.run? {} { stack := 1, steps? := some 4 } = some (.ok .nil) := by cbv
  have hcut : chunk.run? {} { stack := 1, steps? := some 3 } = some (.error (.aborted 3)) := by cbv
  refine ⟨hlimits, (hle _ _ hlimits ?_ ?_).trans hrun, hcut, (habort _ 3).2 hcut⟩
  · rw [hrun]
    exact fun h => by cases h
  · rw [hrun]
    exact fun n h => by cases h

end Chunk

end LuaExpr
