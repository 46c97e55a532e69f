import LuaExpr.Machine
import Mathlib
/-!
# Runs

A run of at most `n` instructions, a run to the end, and the list of the instructions on the way are
three views of one sequence of steps. Each view is taken apart here at its first step, and then they
are compared.

* `Machine.runFor_add`: a run that has ended stays as it is if it is given more instructions.
* `Machine.run?_eq_some_iff`: a run ends exactly if it does so within some number of instructions.
* `Machine.ExecutesMoreThan`: a run goes beyond a number of instructions;
  `Machine.runFor_eq_none_iff` says when.
-/

namespace LuaExpr

namespace Machine

variable {chunk : Chunk} {globals : Globals} {m m' : Machine} {i : Instruction} {f : Fault}
  {r : Except Fault Value}
  {n k : Nat}

/-! ## The first step -/

theorem runFor_of_none (h : chunk.code[m.next]? = none) (n : Nat) :
    runFor chunk globals n m = some m.result := by
  cases n with
  | zero => exact if_neg (Nat.not_lt.mpr (Array.getElem?_eq_none_iff.mp h))
  | succ n => rw [runFor, h]

theorem runFor_zero (h : chunk.code[m.next]? = some i) : runFor chunk globals 0 m = none :=
  if_pos (Array.getElem?_eq_some_iff.mp h).1

theorem runFor_succ_of_ok (h : chunk.code[m.next]? = some i)
    (hs : m.step chunk globals i = .ok m') :
    runFor chunk globals (n + 1) m = runFor chunk globals n m' := by
  rw [runFor, h]
  simp only [hs]

theorem runFor_succ_of_error (h : chunk.code[m.next]? = some i)
    (hs : m.step chunk globals i = .error f) :
    runFor chunk globals (n + 1) m = some (.error f) := by
  rw [runFor, h]
  simp only [hs]

theorem run?_of_none (h : chunk.code[m.next]? = none) : m.run? chunk globals = some m.result := by
  rw [run?, h]

theorem run?_of_ok (h : chunk.code[m.next]? = some i) (hs : m.step chunk globals i = .ok m') :
    m.run? chunk globals = m'.run? chunk globals := by
  rw [run?, h]
  simp only [hs, ReaderT.run]

theorem run?_of_error (h : chunk.code[m.next]? = some i) (hs : m.step chunk globals i = .error f) :
    m.run? chunk globals = some (.error f) := by
  rw [run?, h]
  simp only [hs]

theorem visits_go_eq (n : Nat) (m : Machine) (seen : List (Machine × Instruction)) :
    visits.go chunk globals n m seen = seen.reverse ++ visits chunk globals n m := by
  induction n generalizing m seen with
  | zero => simp [visits, visits.go]
  | succ n ih =>
    cases h : chunk.code[m.next]? with
    | none => simp [visits, visits.go, h]
    | some i =>
      cases hs : m.step chunk globals i with
      | error f => simp [visits, visits.go, h, hs]
      | ok m' => simp [visits, visits.go, h, hs, ih m' [(m, i)], ih m' ((m, i) :: seen)]

theorem visits_zero : visits chunk globals 0 m = [] := rfl

theorem visits_of_none (h : chunk.code[m.next]? = none) (n : Nat) :
    visits chunk globals n m = [] := by
  cases n with
  | zero => rfl
  | succ n => simp [visits, visits.go, h]

theorem visits_succ_of_ok (h : chunk.code[m.next]? = some i)
    (hs : m.step chunk globals i = .ok m') :
    visits chunk globals (n + 1) m = (m, i) :: visits chunk globals n m' := by
  refine Eq.trans ?_ (visits_go_eq n m' [(m, i)])
  simp [visits, visits.go, h, hs]

theorem visits_succ_of_error (h : chunk.code[m.next]? = some i)
    (hs : m.step chunk globals i = .error f) :
    visits chunk globals (n + 1) m = [(m, i)] := by
  simp [visits, visits.go, h, hs]

/-! ## Limited runs and whole runs -/

/-- A run that has ended does not go on. -/
theorem runFor_add (h : runFor chunk globals n m = some r) (k : Nat) :
    runFor chunk globals (n + k) m = some r := by
  induction n generalizing m with
  | zero =>
    cases hi : chunk.code[m.next]? with
    | none => rwa [runFor_of_none hi] at h ⊢
    | some i => rw [runFor_zero hi] at h; cases h
  | succ n ih =>
    rw [Nat.succ_add]
    cases hi : chunk.code[m.next]? with
    | none => rwa [runFor_of_none hi] at h ⊢
    | some i =>
      cases hs : m.step chunk globals i with
      | ok m' =>
        rw [runFor_succ_of_ok hi hs] at h ⊢
        exact ih h
      | error f => rwa [runFor_succ_of_error hi hs] at h ⊢

theorem run?_of_runFor (h : runFor chunk globals n m = some r) : m.run? chunk globals = some r := by
  induction n generalizing m with
  | zero =>
    cases hi : chunk.code[m.next]? with
    | none => rwa [runFor_of_none hi, ← run?_of_none hi] at h
    | some i => rw [runFor_zero hi] at h; cases h
  | succ n ih =>
    cases hi : chunk.code[m.next]? with
    | none => rwa [runFor_of_none hi, ← run?_of_none hi] at h
    | some i =>
      cases hs : m.step chunk globals i with
      | ok m' =>
        rw [runFor_succ_of_ok hi hs] at h
        rw [run?_of_ok hi hs]
        exact ih h
      | error f => rwa [runFor_succ_of_error hi hs, ← run?_of_error hi hs] at h

/-- **A run that ends is finite.** -/
theorem run?_eq_some_iff :
    m.run? chunk globals = some r ↔ ∃ n, runFor chunk globals n m = some r := by
  refine ⟨?_, fun ⟨n, h⟩ => run?_of_runFor h⟩
  -- what the loop has as its outcome, it has after finitely many rounds
  refine run?.partial_correctness chunk (fun m globals r => ∃ n, runFor chunk globals n m =
    some r) ?_ m globals r
  intro go ih m globals r h
  cases hi : chunk.code[m.next]? with
  | none =>
    rw [hi] at h
    exact ⟨0, (runFor_of_none hi 0).trans h⟩
  | some i =>
    rw [hi] at h
    cases hs : m.step chunk globals i with
    | ok m' =>
      simp only [hs] at h
      obtain ⟨n, hn⟩ := ih m' globals r h
      exact ⟨n + 1, (runFor_succ_of_ok hi hs).trans hn⟩
    | error f =>
      simp only [hs] at h
      exact ⟨1, (runFor_succ_of_error hi hs).trans h⟩

theorem run?_eq_none_iff : m.run? chunk globals = none ↔ ∀ n, runFor chunk globals n m = none := by
  simp only [Option.eq_none_iff_forall_ne_some, ne_eq, run?_eq_some_iff, not_exists]
  exact forall_comm

/-! ## Counting instructions -/

/-- A run executes more than `n` instructions if it is given the time for it. An instruction that
ends in a fault is one of them. -/
def ExecutesMoreThan (chunk : Chunk) (globals : Globals) (m : Machine) (n : Nat) : Prop :=
  ∃ k, n < (visits chunk globals k m).length

/-- **A run has not ended after `n` instructions** exactly if it executes more than these. -/
theorem runFor_eq_none_iff :
    runFor chunk globals n m = none ↔ ExecutesMoreThan chunk globals m n := by
  induction n generalizing m with
  | zero =>
    cases hi : chunk.code[m.next]? with
    | none => simp [runFor_of_none hi, ExecutesMoreThan, visits_of_none hi]
    | some i =>
      refine ⟨fun _ => ⟨1, ?_⟩, fun _ => runFor_zero hi⟩
      cases hs : m.step chunk globals i with
      | ok m' => simp [visits_succ_of_ok hi hs]
      | error f => simp [visits_succ_of_error hi hs]
  | succ n ih =>
    cases hi : chunk.code[m.next]? with
    | none => simp [runFor_of_none hi, ExecutesMoreThan, visits_of_none hi]
    | some i =>
      cases hs : m.step chunk globals i with
      | ok m' =>
        rw [runFor_succ_of_ok hi hs, ih]
        constructor
        · rintro ⟨k, hk⟩
          exact ⟨k + 1, by simpa [visits_succ_of_ok hi hs] using hk⟩
        · rintro ⟨k, hk⟩
          cases k with
          | zero => simp [visits_zero] at hk
          | succ k => exact ⟨k, by simpa [visits_succ_of_ok hi hs] using hk⟩
      | error f =>
        rw [runFor_succ_of_error hi hs]
        refine iff_of_false (by simp) ?_
        rintro ⟨k, hk⟩
        cases k with
        | zero => simp [visits_zero] at hk
        | succ k => simp [visits_succ_of_error hi hs] at hk

/-- A run that has not ended after `n` instructions has executed all of them. -/
theorem length_visits_of_runFor_eq_none (h : runFor chunk globals n m = none) :
    (visits chunk globals n m).length = n := by
  induction n generalizing m with
  | zero => rfl
  | succ n ih =>
    cases hi : chunk.code[m.next]? with
    | none => rw [runFor_of_none hi] at h; cases h
    | some i =>
      cases hs : m.step chunk globals i with
      | ok m' =>
        rw [runFor_succ_of_ok hi hs] at h
        rw [visits_succ_of_ok hi hs, List.length_cons, ih h]
      | error f => rw [runFor_succ_of_error hi hs] at h; cases h

end Machine

end LuaExpr
