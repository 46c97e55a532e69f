import LuaExpr.Proofs.Chunk.Pool
import LuaExpr.Proofs.Compiler.Reading
/-!
# What successful parts leave as it was

A part of the compiler that succeeds has closed all parentheses and ended all expressions that it
has begun, and it has only added instructions or turned jumps. This holds wherever it begins, also
after a fault.

* `Compiler.Intact`: the counters are as they were, and where there was a jump, there is one still.
* `Compiler.intact_operand`: so it is after each operand that succeeds.
-/

namespace LuaExpr

variable {α : Type} {s s' t : Compiler}

/-! ## Jumps -/

namespace Chunk

variable {c : Chunk} {i : Nat}

theorem isJumpAt_push (op : Op) (offset : Nat) (h : c.isJumpAt i = true) :
    (c.push op offset).isJumpAt i = true := by
  unfold isJumpAt at h ⊢
  cases hi : c.code[i]? with
  | none =>
    rw [hi] at h
    cases h
  | some instruction =>
    obtain ⟨hlt, -⟩ := Array.getElem?_eq_some_iff.mp hi
    rw [hi] at h
    rw [push, Array.getElem?_push_lt hlt, ← Array.getElem?_eq_getElem hlt, hi]
    exact h

/-- There is a jump where one has just been added. -/
theorem isJumpAt_push_size (c : Chunk) {op : Op} (offset : Nat) (h : op.isJump = true) :
    (c.push op offset).isJumpAt c.code.size = true := by
  rw [isJumpAt, push, Array.getElem?_push_size]
  exact h

theorem isJumpAt_retarget (j : Nat) (target : UInt16) :
    (c.retarget j target).isJumpAt i = c.isJumpAt i := by
  have hop : ∀ op : Op, (op.withTarget target).isJump = op.isJump := by
    intro op
    cases op <;> rfl
  rw [isJumpAt, isJumpAt, retarget, Array.getElem?_modify]
  split
  · cases c.code[i]? with
    | none => rfl
    | some instruction => exact hop instruction.op
  · rfl

end Chunk

namespace Compiler

/-! ## Counters and jumps -/

/-- The counters are as they were, and where there was a jump, there is one still. -/
structure Intact (s s' : Compiler) : Prop where
  groups : s'.groups = s.groups
  depth : s'.depth = s.depth
  jumps : ∀ i, s.chunk.isJumpAt i = true → s'.chunk.isJumpAt i = true

theorem Intact.refl (s : Compiler) : Intact s s := ⟨rfl, rfl, fun _ h => h⟩

theorem Intact.trans (h : Intact s t) (h' : Intact t s') : Intact s s' :=
  ⟨h'.groups.trans h.groups, h'.depth.trans h.depth, fun i hi => h'.jumps i (h.jumps i hi)⟩

/-- One more instruction. -/
theorem Intact.push (h : Intact s t) (op : Op) (offset : Nat) :
    Intact s { t with chunk := t.chunk.push op offset } :=
  h.trans ⟨rfl, rfl, fun _ hi => Chunk.isJumpAt_push op offset hi⟩

theorem Intact.retarget (h : Intact s t) (j : Nat) (target : UInt16) :
    Intact s { t with chunk := t.chunk.retarget j target } :=
  h.trans ⟨rfl, rfl, fun i hi => (Chunk.isJumpAt_retarget (i := i) j target).trans hi⟩

/-- The instruction for a constant, which may be a new one. -/
theorem Intact.slotOf {v : Value} {slot : UInt8} {c : Chunk}
    (h : s.chunk.slotOf? v = some (slot, c)) (op : Op)
    (offset : Nat) : Intact s { s with chunk := c.push op offset } := by
  refine ⟨rfl, rfl, fun i hi => Chunk.isJumpAt_push op offset ?_⟩
  rw [Chunk.isJumpAt, (Chunk.slotOf?_eq_some h).1]
  exact hi

theorem intact_look {u : Unit} (h : look s = .ok u s') : Intact s s' := by
  obtain ⟨-, -, ⟨-, rfl⟩ | ⟨l, rest, -, -, rfl⟩⟩ := look_go_eq_ok h
  all_goals exact ⟨rfl, rfl, fun _ hi => hi⟩

theorem intact_advance {u : Unit} (h : advance s = .ok u s') : Intact s s' :=
  have hprevious : Intact s { s with previous := s.current } := ⟨rfl, rfl, fun _ hi => hi⟩
  hprevious.trans (intact_look (advance_eq_ok.mp h))

theorem intact_repeatWhile {holds : TokenKind → Bool} {rounds : List α} {u : Unit}
    (h : repeatWhile holds advance rounds s = .ok u s') : Intact s s' := by
  induction rounds generalizing s with
  | nil =>
    rw [repeatWhile_nil_eq_ok.mp h]
    exact .refl s
  | cons b rounds ih =>
    rcases repeatWhile_cons_eq_ok.mp h with ⟨-, t, ht, h⟩ | ⟨-, rfl⟩
    · exact (intact_advance ht).trans (ih h)
    · exact .refl _

theorem intact_skipLines {u : Unit} (h : skipLines s = .ok u s') : Intact s s' :=
  intact_repeatWhile (skipLines_eq_ok.mp h)

/-- What is between an opening parenthesis that has been counted and a closing one. -/
theorem Intact.closed (h : Intact { s with groups := s.groups + 1 } t)
    (hadv : advance { t with groups := t.groups - 1 } = .ok () s') : Intact s s' := by
  have hgroups : t.groups - 1 = s.groups := Nat.sub_eq_of_eq_add h.groups
  have hclosed : Intact s { t with groups := t.groups - 1 } := ⟨hgroups, h.depth, h.jumps⟩
  exact hclosed.trans (intact_advance hadv)

section Parts

variable {part : Precedence → CompileM Unit}
  (hp : ∀ {p : Precedence} {s s' : Compiler}, part p s = .ok () s' → Intact s s')
include hp

theorem intact_leading (h : leading part s = .ok () s') : Intact s s' := by
  rcases leading_eq_ok.mp h with ⟨-, h⟩ | ⟨-, h⟩ | ⟨-, h⟩ | ⟨-, h⟩ | ⟨-, h⟩ | ⟨-, h⟩ | ⟨-, h⟩ | ⟨op,
    t, -, ht, rfl⟩
  · exact literal_eq_ok.mp h ▸ (Intact.refl s).push _ _
  · exact literal_eq_ok.mp h ▸ (Intact.refl s).push _ _
  · exact literal_eq_ok.mp h ▸ (Intact.refl s).push _ _
  · obtain ⟨n, -, slot, c, hc, rfl⟩ := numberLiteral_eq_ok.mp h
    exact .slotOf hc _ _
  · obtain ⟨text, -, slot, c, hc, rfl⟩ := stringLiteral_eq_ok.mp h
    exact .slotOf hc _ _
  · obtain ⟨slot, c, hc, rfl⟩ := name_eq_ok.mp h
    exact .slotOf hc _ _
  · obtain ⟨t, ht, -, hadv⟩ := group_eq_ok.mp h
    exact (hp ht).closed hadv
  · exact (hp ht).push _ _

theorem intact_arguments {count n : Nat} {rounds : List α}
    (h : arguments (part .or) count rounds s = .ok n s') :
    Intact s s' := by
  induction rounds generalizing s count with
  | nil =>
    obtain ⟨-, rfl⟩ := pure_eq_ok.mp h
    exact .refl _
  | cons a rounds ih =>
    obtain ⟨t, ht, ⟨-, t', ht', h⟩ | ⟨-, -, rfl⟩⟩ := arguments_cons_eq_ok.mp h
    · exact ((hp ht).trans (intact_advance ht')).trans (ih h)
    · exact hp ht

theorem intact_join {j : Joint} (h : join part j s = .ok () s') : Intact s s' := by
  cases j with
  | call =>
    obtain ⟨t, n, t', t'', hskip, hargs, -, hadv, -, rfl⟩ := call_eq_ok.mp (join_call_eq_ok.mp h)
    have hinside : Intact { s with groups := s.groups + 1 } t' := by
      refine (intact_skipLines hskip).trans ?_
      rcases hargs with ⟨-, -, rfl⟩ | ⟨-, hargs⟩
      · exact .refl _
      · exact intact_arguments hp hargs
    exact (hinside.closed hadv).push _ _
  | binary op =>
    obtain ⟨t, ht, rfl⟩ := join_binary_eq_ok.mp h
    exact (hp ht).push _ _
  | and =>
    obtain ⟨t, ht, hland⟩ := conjunction_eq_ok.mp (join_and_eq_ok.mp h)
    obtain ⟨-, rfl⟩ := land_eq_ok.mp hland
    exact (((((Intact.refl s).push _ _).push _ _).push _ _).trans (hp ht)).retarget _ _
  | or =>
    obtain ⟨-, t, ht, hland⟩ := alternative_eq_ok.mp (join_or_eq_ok.mp h)
    obtain ⟨-, rfl⟩ := land_eq_ok.mp hland
    exact (((((((Intact.refl s).push _ _).push _ _).push _ _).retarget _ _).push _ _).trans
      (hp ht)).retarget _ _

theorem intact_following {p : Precedence} {rounds : List α}
    (h : following part p rounds s = .ok () s') :
    Intact s s' := by
  induction rounds generalizing s with
  | nil =>
    rw [following_nil_eq_ok.mp h]
    exact .refl s
  | cons b rounds ih =>
    rcases following_cons_eq_ok.mp h with ⟨j, t, t', -, -, ht, ht', h⟩ | ⟨-, rfl⟩
    · exact ((intact_advance ht).trans (intact_join hp ht')).trans (ih h)
    · exact .refl _

/-- What is between the beginning of an expression and its end. -/
theorem intact_inside {s₁ s₂ s₃ s₄ : Compiler} {p : Precedence} {rounds : List α}
    (h₁ : skipLines { s with depth := s.depth + 1 } = .ok () s₁) (h₂ : advance s₁ = .ok () s₂)
    (h₃ : leading part s₂ = .ok () s₃) (h₄ : following part p rounds s₃ = .ok () s₄) :
    Intact { s with depth := s.depth + 1 } s₄ :=
  (((intact_skipLines h₁).trans (intact_advance h₂)).trans (intact_leading hp h₃)).trans
    (intact_following hp h₄)

end Parts

/-- **Operands** leave the counters and the jumps as they were, by induction on the number of
operands that may still be opened. -/
theorem intact_operand (levels : Nat) {p : Precedence} (h : operand levels p s = .ok () s') :
    Intact s s' := by
  induction levels generalizing p s s' with
  | zero => exact (operand_zero_eq_ok.mp h).elim
  | succ levels ih =>
    obtain ⟨s₁, s₂, s₃, s₄, h₁, h₂, h₃, h₄, rfl⟩ := operand_succ_eq_ok.mp h
    have hinside := intact_inside ih h₁ h₂ h₃ h₄
    exact ⟨hinside.groups, Nat.sub_eq_of_eq_add hinside.depth, hinside.jumps⟩

end Compiler

end LuaExpr
