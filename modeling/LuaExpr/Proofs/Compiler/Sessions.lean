import LuaExpr.Proofs.Machine.Gaps
/-!
# Sessions

A compiler may be asked for single expressions before it compiles the rest of its source, and it
keeps all that it remembers between the calls, also when one of them fails. What such a session
makes is code with gaps, one for each conjunction or alternative that a failing call has begun and
not finished.

* `Compiler.attempted`: the compiler of a source after some calls; `Compiler.compileAfter`: the
  chunk that it makes then.
* `Compiler.Clean`: no failing call has written anything.
* `Compiler.faults_of_compileAfter`: what a run of the chunk can come to.
-/

namespace LuaExpr.Compiler

/-! ## Calls -/

/-- The state that a part of the compiler leaves, whether it succeeds or fails. -/
def left {α : Type} (x : CompileM α) (s : Compiler) : Compiler :=
  match x s with
  | .ok _ s' | .error _ s' => s'

/-- Whether a part of the compiler succeeds. -/
def succeeds {α : Type} (x : CompileM α) (s : Compiler) : Bool :=
  match x s with
  | .ok _ _ => true
  | .error _ _ => false

/-- The compiler of a source after some calls for an expression, each of which succeeds or fails. -/
def attempted (source : String) : Nat → Compiler
  | 0 => ofSource source
  | k + 1 => left expression (attempted source k)

/-- The number of calls that succeed. -/
def successes (source : String) : Nat → Nat
  | 0 => 0
  | k + 1 => successes source k + if succeeds expression (attempted source k) then 1 else 0

/-- The code of a source of which some expressions have been asked for before, or what is wrong with
the rest of it. -/
def compileAfter (source : String) (k : Nat) : Except SourceError Chunk :=
  match program (attempted source k) with
  | .ok _ s => .ok s.chunk
  | .error e _ => .error e

/-- The number of values that a session leaves: one for each call that succeeds, and one for the
rest of the source if there is any code in it. -/
def valuesLeft (source : String) (k : Nat) (chunk : Chunk) : Nat :=
  successes source k + if chunk = (attempted source k).chunk then 0 else 1

/-- Each of some calls that fails leaves the code and the constants as they were. -/
def Clean (source : String) (k : Nat) : Prop :=
  ∀ j < k, succeeds expression (attempted source j) = false →
    (attempted source (j + 1)).chunk = (attempted source j).chunk

theorem compileAfter_zero (source : String) : compileAfter source 0 = compile source := rfl

section Calls

variable {α : Type} {x : CompileM α} {s : Compiler}

theorem exists_of_succeeds (h : succeeds x s = true) : ∃ a, x s = .ok a (left x s) := by
  unfold succeeds at h
  unfold left
  split at h
  · exact ⟨_, ‹_›⟩
  · cases h

theorem fails_of_not_succeeds (h : succeeds x s = false) : Fails x s (left x s) := by
  unfold succeeds at h
  unfold left
  split at h
  · cases h
  · exact ⟨_, ‹_›⟩

end Calls

variable {source : String} {k : Nat} {chunk : Chunk}

/-- The end of the source is read last, whatever calls there have been. -/
theorem eofLast_attempted (source : String) (k : Nat) : (attempted source k).EofLast := by
  induction k with
  | zero => exact eofLast_ofSource source
  | succ k ih =>
    cases h : succeeds expression (attempted source k) with
    | true =>
      obtain ⟨_, h⟩ := exists_of_succeeds h
      exact (compiled_expression ih h).1
    | false => exact (abandons_expression ih (fails_of_not_succeeds h)).eofLast

/-- **What calls write**, by induction on their number. -/
theorem exists_yields_attempted (source : String) (k : Nat) :
    ∃ n, Yields True n (attempted source k).chunk := by
  induction k with
  | zero => exact ⟨0, .empty⟩
  | succ k ih =>
    obtain ⟨n, hn⟩ := ih
    cases h : succeeds expression (attempted source k) with
    | true =>
      obtain ⟨_, h⟩ := exists_of_succeeds h
      obtain ⟨-, e, he⟩ := compiled_expression (eofLast_attempted source k) h
      exact ⟨n + 1, hn.expression he⟩
    | false =>
      exact (abandons_expression (eofLast_attempted source k) (fails_of_not_succeeds h)).grown n hn

/-- What calls write if those that fail write nothing: no gaps, and one value for each call that
succeeds. -/
theorem yields_attempted_of_clean (h : Clean source k) :
    Yields False (successes source k) (attempted source k).chunk := by
  induction k with
  | zero => exact .empty
  | succ k ih =>
    have ih := ih fun j hj => h j (Nat.lt_succ_of_lt hj)
    cases hk : succeeds expression (attempted source k) with
    | true =>
      obtain ⟨_, he⟩ := exists_of_succeeds hk
      obtain ⟨-, e, he⟩ := compiled_expression (eofLast_attempted source k) he
      rw [successes, hk]
      exact ih.expression he
    | false =>
      rw [successes, hk, h k (Nat.lt_succ_self k) hk]
      exact ih

theorem exists_program_of_compileAfter (h : compileAfter source k = .ok chunk) :
    ∃ s', program (attempted source k) = .ok () s' ∧ s'.chunk = chunk := by
  unfold compileAfter at h
  split at h
  · rename_i s' hs'
    exact ⟨s', hs', Except.ok.inj h⟩
  · cases h

/-! ## The chunk of a session -/

theorem exists_balanced_of_compileAfter (h : compileAfter source k = .ok chunk) :
    ∃ n d, Balanced True n chunk d := by
  obtain ⟨s', hs', rfl⟩ := exists_program_of_compileAfter h
  obtain ⟨n, hn⟩ := exists_yields_attempted source k
  rcases yields_program (eofLast_attempted source k) hn hs' with hc | hy
  · exact ⟨n, exists_balanced_of_yields (hc ▸ hn)⟩
  · exact ⟨n + 1, exists_balanced_of_yields hy⟩

theorem exists_balanced_of_clean (h : compileAfter source k = .ok chunk) (hclean : Clean source k) :
    ∃ d, Balanced False (valuesLeft source k chunk) chunk d := by
  obtain ⟨s', hs', rfl⟩ := exists_program_of_compileAfter h
  have hn := yields_attempted_of_clean hclean
  by_cases hc : s'.chunk = (attempted source k).chunk
  · rw [valuesLeft, if_pos hc, hc]
    exact exists_balanced_of_yields hn
  · rw [valuesLeft, if_neg hc]
    exact exists_balanced_of_yields
      ((yields_program (eofLast_attempted source k) hn hs').resolve_left hc)

/-- **The chunk of a session.** Each jump stays in the code or has been left without a target. Where
no jump without a target leads into the code, a run never lacks a value; it jumps out of the code
only where there is such a jump, and what is left at its end is the same number of values each time.
If the failing calls have written nothing, all jumps stay in the code, no run lacks a value or jumps
out of it, and the values at the end are those of the calls that succeeded and of the rest of the
source. -/
theorem faults_of_compileAfter (h : compileAfter source k = .ok chunk) :
    (∀ i ∈ chunk.code, ∀ target, i.op = .jump target ∨ i.op = .jumpIfFalse target →
      target.toNat ≤ chunk.code.size ∨ target = unlanded) ∧
    ((chunk.Dangles → chunk.code.size < unlanded.toNat) →
      ∃ n, ∀ (globals : Globals) (limits : Limits) (f : Fault),
      chunk.run? globals limits = some (.error f) → f ≠ .stackUnderflow ∧
        (∀ m, f = .stackImbalance m → m = n ∧ n ≠ 1) ∧
        ∀ target, f = .invalidJump target → chunk.Dangles ∧ target = unlanded.toNat) ∧
    (Clean source k →
      (∀ i ∈ chunk.code, ∀ target, i.op = .jump target ∨ i.op = .jumpIfFalse target →
        target.toNat ≤ chunk.code.size) ∧
      ∀ (globals : Globals) (limits : Limits) (f : Fault),
        chunk.run? globals limits = some (.error f) →
        f ≠ .stackUnderflow ∧ (∀ target, f ≠ .invalidJump target) ∧
        ∀ m, f = .stackImbalance m → m = valuesLeft source k chunk ∧
          valuesLeft source k chunk ≠ 1) := by
  obtain ⟨n, d, hd⟩ := exists_balanced_of_compileAfter h
  refine ⟨fun i hi target hop => (hd.target_le_size hi hop).imp_right And.right,
    fun hfar => ⟨n, ?_⟩, fun hclean => ?_⟩
  · intro globals limits f hrun
    rcases Chunk.fault_of_balanced hd (fun _ => hfar) hrun with hf | ⟨rfl, hn⟩ | ⟨-, hdangles, rfl⟩
    · obtain ⟨hunder, himbalance, -, hjump⟩ := Fault.ne_of_not_isDisorder hf
      exact ⟨hunder, fun m hm => absurd hm (himbalance m),
        fun target ht => absurd ht (hjump target)⟩
    · exact ⟨nofun, fun m hm => ⟨(Fault.stackImbalance.inj hm).symm, hn⟩, nofun⟩
    · exact ⟨nofun, nofun, fun target ht => ⟨hdangles, (Fault.invalidJump.inj ht).symm⟩⟩
  · obtain ⟨d, hd⟩ := exists_balanced_of_clean h hclean
    refine ⟨fun i hi target hop => (hd.target_le_size hi hop).resolve_right (·.1),
      fun globals limits f hrun => ?_⟩
    rcases Chunk.fault_of_balanced hd (fun hg => hg.elim) hrun with hf | ⟨rfl, hn⟩ | ⟨hg, -⟩
    · obtain ⟨hunder, himbalance, -, hjump⟩ := Fault.ne_of_not_isDisorder hf
      exact ⟨hunder, hjump, fun m hm => absurd hm (himbalance m)⟩
    · exact ⟨nofun, nofun, fun m hm => ⟨(Fault.stackImbalance.inj hm).symm, hn⟩⟩
    · exact hg.elim

/-- The first call finds no lexeme and writes nothing, and the second one compiles all of the
source. -/
theorem faults_of_compileAfter_conjunction : ∃ chunk, compileAfter "nil and nil" 2 = .ok chunk ∧
    ∀ (globals : Globals) (limits : Limits) (f : Fault),
      chunk.run? globals limits = some (.error f) →
      f ≠ .stackUnderflow ∧ (∀ target, f ≠ .invalidJump target) ∧ ∀ m, f ≠ .stackImbalance m := by
  have h : compileAfter "nil and nil" 2 = .ok
      { code := #[⟨.nil, 0⟩, ⟨.dup, 4⟩, ⟨.jumpIfFalse 5, 4⟩, ⟨.pop, 4⟩, ⟨.nil, 8⟩],
        constants := #[] } := by cbv
  have hclean : Clean "nil and nil" 2 := by
    intro j hj hfails
    interval_cases j
    · cbv
    · have hsucceeds : succeeds expression (attempted "nil and nil" 1) = true := by cbv
      rw [hsucceeds] at hfails
      cases hfails
  have hone : valuesLeft "nil and nil" 2
      { code := #[⟨.nil, 0⟩, ⟨.dup, 4⟩, ⟨.jumpIfFalse 5, 4⟩, ⟨.pop, 4⟩, ⟨.nil, 8⟩],
        constants := #[] } = 1 := by cbv
  refine ⟨_, h, fun globals limits f hrun => ?_⟩
  obtain ⟨-, hruns⟩ := (faults_of_compileAfter h).2.2 hclean
  obtain ⟨hunder, hjump, himbalance⟩ := hruns globals limits f hrun
  exact ⟨hunder, hjump, fun m hm => (himbalance m hm).2 hone⟩

/-- The second call fails after a conjunction has been begun, and the rest of the source is empty.
The jump over the right operand has no target, and a run that takes it ends there. -/
theorem compileAfter_conjunction_dangles : ∃ chunk, compileAfter "nil and" 2 = .ok chunk ∧
    (∃ i ∈ chunk.code, ∃ target, i.op = .jumpIfFalse target ∧ ¬ target.toNat ≤ chunk.code.size) ∧
    chunk.run? {} {} = some (.error (.invalidJump 65535)) := by
  have h : compileAfter "nil and" 2 = .ok
      { code := #[⟨.nil, 0⟩, ⟨.dup, 4⟩, ⟨.jumpIfFalse 65535, 4⟩, ⟨.pop, 4⟩],
        constants := #[] } := by cbv
  exact ⟨_, h, ⟨⟨.jumpIfFalse 65535, 4⟩, by simp, 65535, rfl, by decide⟩, by cbv⟩

end LuaExpr.Compiler
