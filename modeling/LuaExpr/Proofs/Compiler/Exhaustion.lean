import LuaExpr.Proofs.Compiler.Intact
import LuaExpr.Proofs.Compiler.Sessions
/-!
# How faults exhaust a compiler

A call for an expression that succeeds ends all expressions and closes all parentheses that it has
begun. One that fails leaves them open, wherever it fails, so that each failing call takes away from
the depth that later calls can use.

* `Compiler.Raised`: no counter is lower than it was.
* `Compiler.raised_operand`: an operand that fails has been counted and stays counted.
* `Compiler.expression_of_maxDepth_le`: what is left when the depth is used up.
* `Compiler.depth_attempted`: what a sequence of calls does to the counters, and how many of them
  can fail before that.
-/

namespace LuaExpr.Compiler

variable {α : Type} {s s' t : Compiler}

/-! ## Counters after a fault -/

/-- No counter is lower than it was. -/
structure Raised (s s' : Compiler) : Prop where
  groups : s.groups ≤ s'.groups
  depth : s.depth ≤ s'.depth

theorem Raised.refl (s : Compiler) : Raised s s := ⟨Nat.le_refl _, Nat.le_refl _⟩

theorem Raised.trans (h : Raised s t) (h' : Raised t s') : Raised s s' :=
  ⟨h.groups.trans h'.groups, h.depth.trans h'.depth⟩

theorem Intact.raised (h : Intact s s') : Raised s s' := ⟨h.groups.ge, h.depth.ge⟩

/-- A parenthesis more is no counter less. -/
theorem Raised.of_opened (h : Raised { s with groups := s.groups + 1 } s') : Raised s s' :=
  ⟨(Nat.le_succ _).trans h.groups, h.depth⟩

theorem raised_look_go {inside : Bool} {os : List (Except LexError Lexeme)}
    (h : Fails (look.go inside os) s s') :
    Raised s s' := by
  induction os generalizing s with
  | nil => exact (modify_fails.mp h).elim
  | cons o os ih =>
    cases o with
    | error e =>
      simp only [look.go, bind_unit_fails, modify_fails, modify_eq_ok, exists_eq_left, false_or,
        throw_fails] at h
      rw [h]
      exact ⟨Nat.le_refl _, Nat.le_refl _⟩
    | ok l =>
      simp only [look.go, bind_unit_fails, modify_fails, modify_eq_ok, exists_eq_left,
        false_or, ite_fails, pure_fails, and_false, or_false] at h
      have hrest := ih h.2
      exact ⟨hrest.groups, hrest.depth⟩

theorem raised_advance (h : Fails advance s s') : Raised s s' := by
  have hlook := raised_look_go (s := { s with previous := s.current }) (advance_fails.mp h)
  exact ⟨hlook.groups, hlook.depth⟩

theorem raised_skipLines (h : Fails skipLines s s') : Raised s s' := by
  have hrounds : ∀ {rounds : List (Except LexError Lexeme)} {s : Compiler},
      Fails (repeatWhile (· = .line) advance rounds) s s' → Raised s s' := by
    intro rounds
    induction rounds with
    | nil => exact fun h => (repeatWhile_nil_fails.mp h).elim
    | cons o rounds ih =>
      intro s h
      obtain ⟨-, h | ⟨t, ht, h⟩⟩ := repeatWhile_cons_fails.mp h
      · exact raised_advance h
      · exact (intact_advance ht).raised.trans (ih h)
  exact hrounds (skipLines_fails.mp h)

theorem raised_consume {symbol : Symbol} {expected : String}
    (h : Fails (consume symbol expected) s s') :
    Raised s s' := by
  rcases consume_fails.mp h with ⟨-, h⟩ | ⟨-, rfl⟩
  · exact raised_advance h
  · exact .refl _

/-- The parenthesis that has been counted is taken back before the closing one is looked for. -/
theorem Intact.raised_consume {symbol : Symbol} {expected : String}
    (h : Intact { s with groups := s.groups + 1 } t)
    (hfails : Fails (consume symbol expected) { t with groups := t.groups - 1 } s') :
    Raised s s' := by
  have hgroups : t.groups - 1 = s.groups := Nat.sub_eq_of_eq_add h.groups
  have hclosed : Raised s { t with groups := t.groups - 1 } := ⟨hgroups.ge, h.depth.ge⟩
  exact hclosed.trans (Compiler.raised_consume hfails)

/-! ## Parts that fail -/

section Parts

variable (part : Precedence → CompileM Unit)
  (hp : ∀ {p : Precedence} {s s' : Compiler}, part p s = .ok () s' → Intact s s')
  (hf : ∀ {p : Precedence} {s s' : Compiler}, Fails (part p) s s' → Raised s s')
include hp hf

theorem raised_leading (h : Fails (leading part) s s') : Raised s s' := by
  rcases leading_fails h with rfl | ⟨-, h⟩ | ⟨op, -, h⟩
  · exact .refl _
  · rcases group_fails.mp h with h | ⟨t, ht, h⟩
    · exact (hf h).of_opened
    · exact (hp ht).raised_consume h
  · exact hf h

theorem raised_arguments {count : Nat} {rounds : List α}
    (h : Fails (arguments (part .or) count rounds) s s') :
    Raised s s' := by
  induction rounds generalizing s count with
  | nil => exact (arguments_nil_fails.mp h).elim
  | cons a rounds ih =>
    rcases arguments_cons_fails.mp h with h | ⟨t, ht, -, h | ⟨t', ht', h⟩⟩
    · exact hf h
    · exact (hp ht).raised.trans (raised_advance h)
    · exact ((hp ht).trans (intact_advance ht')).raised.trans (ih h)

theorem raised_call {paren : Token} (h : Fails (call (part .or) paren) s s') : Raised s s' := by
  rcases call_fails h with h | ⟨t, ht, h | ⟨n, t', ht', h⟩⟩
  · exact (raised_skipLines h).of_opened
  · exact ((intact_skipLines ht).raised.trans (raised_arguments part hp hf h)).of_opened
  · have hinside : Intact { s with groups := s.groups + 1 } t' := by
      refine (intact_skipLines ht).trans ?_
      rcases ht' with rfl | hargs
      · exact .refl _
      · exact intact_arguments hp hargs
    rcases h with h | h
    · exact hinside.raised_consume h
    · obtain ⟨-, hadv⟩ := consume_eq_ok.mp h
      exact (hinside.closed hadv).raised

theorem raised_join {j : Joint} (h : Fails (join part j) s s') : Raised s s' := by
  cases j with
  | call => exact raised_call part hp hf (join_call_fails.mp h)
  | binary op => exact hf (join_binary_fails.mp h)
  | and =>
    rcases conjunction_fails.mp (join_and_fails.mp h) with h | ⟨t, ht, -, rfl⟩
    · exact ⟨(hf h).groups, (hf h).depth⟩
    · exact ⟨(hp ht).groups.ge, (hp ht).depth.ge⟩
  | or =>
    rcases alternative_fails.mp (join_or_fails.mp h) with ⟨-, rfl⟩ | ⟨-, h | ⟨t, ht, -, rfl⟩⟩
    · exact ⟨Nat.le_refl _, Nat.le_refl _⟩
    · exact ⟨(hf h).groups, (hf h).depth⟩
    · exact ⟨(hp ht).groups.ge, (hp ht).depth.ge⟩

theorem raised_following {p : Precedence} {rounds : List α}
    (h : Fails (following part p rounds) s s') :
    Raised s s' := by
  induction rounds generalizing s with
  | nil => exact (following_nil_fails.mp h).elim
  | cons a rounds ih =>
    obtain ⟨j, -, -, h | ⟨t, ht, h | ⟨t', ht', h⟩⟩⟩ := following_cons_fails h
    · exact raised_advance h
    · exact (intact_advance ht).raised.trans (raised_join part hp hf h)
    · exact ((intact_advance ht).trans (intact_join hp ht')).raised.trans (ih h)

end Parts

/-- **Operands that fail** have been counted and stay counted, by induction on the number of
operands that may still be opened. -/
theorem raised_operand (levels : Nat) {p : Precedence} (h : Fails (operand levels p) s s') :
    Raised { s with depth := s.depth + 1 } s' := by
  induction levels generalizing p s s' with
  | zero =>
    rw [operand_zero_fails.mp h]
    exact .refl _
  | succ levels ih =>
    have hp : ∀ {p : Precedence} {s s' : Compiler}, operand levels p s = .ok () s' → Intact s s' :=
      intact_operand levels
    have hf : ∀ {p : Precedence} {s s' : Compiler}, Fails (operand levels p) s s' →
        Raised s s' := fun h =>
      have hraised := ih h
      ⟨hraised.groups, (Nat.le_succ _).trans hraised.depth⟩
    rcases operand_succ_fails h with h | ⟨s₁, h₁, h | ⟨s₂, h₂, h | ⟨s₃, h₃, h⟩⟩⟩
    · exact raised_skipLines h
    · exact (intact_skipLines h₁).raised.trans (raised_advance h)
    · exact ((intact_skipLines h₁).trans (intact_advance h₂)).raised.trans
        (raised_leading (operand levels) hp hf h)
    · have hbefore := ((intact_skipLines h₁).trans (intact_advance h₂)).trans (intact_leading hp h₃)
      exact hbefore.raised.trans (raised_following (operand levels) hp hf h)

/-! ## Calls -/

theorem intact_expression (h : expression s = .ok () s') : Intact s s' := intact_operand _ h

/-- A call that fails leaves the depth higher by at least one. -/
theorem raised_expression (h : Fails expression s s') : Raised { s with depth := s.depth + 1 } s' :=
  raised_operand _ h

/-- Once the depth is used up, each call fails at once and changes nothing else. -/
theorem expression_of_maxDepth_le (h : maxDepth ≤ s.depth) :
    expression s = .error (.parse (.nestingTooDeep s.current.token))
      { s with depth := s.depth + 1 } := by
  show operand (maxDepth - s.depth) .or s = _
  rw [Nat.sub_eq_zero_of_le h]
  rfl

/-- Whether the next call fails for another reason than the depth. -/
def failsOtherwise (s : Compiler) : Bool :=
  match expression s with
  | .ok _ _ | .error (.parse (.nestingTooDeep _)) _ => false
  | .error _ _ => true

theorem succeeds_of_failsOtherwise (h : failsOtherwise s = true) :
    succeeds expression s = false := by
  cases hx : expression s with
  | ok u s' =>
    rw [failsOtherwise, hx] at h
    cases h
  | error e s' => rw [succeeds, hx]

/-- A call fails for another reason only while there is depth left. -/
theorem depth_lt_of_failsOtherwise (h : failsOtherwise s = true) : s.depth < maxDepth := by
  by_contra hle
  rw [failsOtherwise, expression_of_maxDepth_le (Nat.not_lt.mp hle)] at h
  cases h

variable {source : String} {k : Nat}

theorem intact_attempted_succ (h : succeeds expression (attempted source k) = true) :
    Intact (attempted source k) (attempted source (k + 1)) := by
  obtain ⟨_, h⟩ := exists_of_succeeds h
  exact intact_expression h

theorem raised_attempted_succ (h : succeeds expression (attempted source k) = false) :
    Raised { attempted source k with depth := (attempted source k).depth + 1 }
      (attempted source (k + 1)) :=
  raised_expression (fails_of_not_succeeds h)

/-- After the depth has been used up, a call only counts itself. -/
theorem attempted_succ_of_maxDepth_le (h : maxDepth ≤ (attempted source k).depth) :
    attempted source (k + 1) =
      { attempted source k with depth := (attempted source k).depth + 1 } := by
  show left expression (attempted source k) = _
  rw [left, expression_of_maxDepth_le h]

/-- So do `j` more calls. -/
theorem attempted_add_of_maxDepth_le (h : maxDepth ≤ (attempted source k).depth) (j : Nat) :
    attempted source (k + j) =
      { attempted source k with depth := (attempted source k).depth + j } := by
  induction j with
  | zero => rfl
  | succ j ih =>
    have hle : maxDepth ≤ (attempted source (k + j)).depth := by
      rw [ih]
      exact h.trans (Nat.le_add_right _ j)
    show attempted source (k + j + 1) = _
    rw [attempted_succ_of_maxDepth_le hle, ih]
    rfl

/-- Each call that fails for another reason than the depth uses up some of it. -/
theorem countP_failsOtherwise_le (source : String) (n : Nat) :
    (List.range n).countP (fun k => failsOtherwise (attempted source k)) ≤
      min maxDepth (attempted source n).depth := by
  induction n with
  | zero => exact Nat.zero_le _
  | succ n ih =>
    rw [List.range_succ, List.countP_append, List.countP_singleton]
    cases hn : failsOtherwise (attempted source n) with
    | true =>
      have hlt := depth_lt_of_failsOtherwise hn
      have hdepth : (attempted source n).depth + 1 ≤ (attempted source (n + 1)).depth :=
        (raised_attempted_succ (succeeds_of_failsOtherwise hn)).depth
      rw [if_pos rfl]
      omega
    | false =>
      have hdepth : (attempted source n).depth ≤ (attempted source (n + 1)).depth := by
        cases hs : succeeds expression (attempted source n) with
        | true => exact (intact_attempted_succ hs).depth.ge
        | false => exact (Nat.le_succ _).trans (raised_attempted_succ hs).depth
      rw [if_neg Bool.false_ne_true]
      omega

/-- **What calls leave behind.** A call that succeeds leaves the counters as they were. One that
fails raises the depth by at least one, and closes no parenthesis that was open before. Once the
depth is used up, all further calls fail at the same lexeme and change nothing but the depth. So
there are never more calls that fail for another reason than the depth allows. -/
theorem depth_attempted (source : String) :
    (∀ k, succeeds expression (attempted source k) = true →
      (attempted source (k + 1)).depth = (attempted source k).depth ∧
      (attempted source (k + 1)).groups = (attempted source k).groups) ∧
    (∀ k, succeeds expression (attempted source k) = false →
      (attempted source k).depth + 1 ≤ (attempted source (k + 1)).depth ∧
      (attempted source k).groups ≤ (attempted source (k + 1)).groups) ∧
    (∀ k, maxDepth ≤ (attempted source k).depth → ∀ j,
      attempted source (k + j) =
        { attempted source k with depth := (attempted source k).depth + j } ∧
      expression (attempted source (k + j)) =
        .error (.parse (.nestingTooDeep (attempted source k).current.token))
          (attempted source (k + j + 1))) ∧
    ∀ n, (List.range n).countP (fun k => failsOtherwise (attempted source k)) ≤ maxDepth := by
  refine ⟨fun k h => ?_, fun k h => ?_, fun k h j => ?_, fun n => ?_⟩
  · exact ⟨(intact_attempted_succ h).depth, (intact_attempted_succ h).groups⟩
  · exact ⟨(raised_attempted_succ h).depth, (raised_attempted_succ h).groups⟩
  · have hj := attempted_add_of_maxDepth_le h j
    have hle : maxDepth ≤ (attempted source (k + j)).depth := by
      rw [hj]
      exact h.trans (Nat.le_add_right _ j)
    rw [expression_of_maxDepth_le hle, attempted_succ_of_maxDepth_le hle, hj]
    exact ⟨rfl, rfl⟩
  · exact (countP_failsOtherwise_le source n).trans (Nat.min_le_left _ _)

/-- The first call finds no lexeme, and the second one fails inside two parentheses. -/
example : (attempted "((" 2).depth = 4 ∧ (attempted "((" 2).groups = 2 := by
  constructor <;> cbv

end LuaExpr.Compiler
