import LuaExpr.Proofs.Compiler.Lasting
import LuaExpr.Proofs.Compiler.Remains
/-!
# How much is left to read

The loops of the compiler have the unread lexemes as their budget. No part of the compiler makes
more of them, and an advance makes fewer, so that a loop that advances in each round comes to the
end of the source before its budget does.

* `Compiler.Within`: at most so much has not been used. `Compiler.steady_within`: so it stays.
* `Compiler.Within.of_advance`, `Compiler.Within.of_operand`: an advance and an operand use some of
  it up.
* `Compiler.steady_size`: code only grows.
-/

namespace LuaExpr.Compiler

variable {α : Type} {n k : Nat} {s t : Compiler}

/-- Not more than `n` lexemes and faults have not been used, the current lexeme included. The end of
the source is read last, and it is current only when all has been read. -/
structure Within (n : Nat) (s : Compiler) : Prop where
  eofLast : s.EofLast
  ended : s.current.kind = .eof → s.unread = []
  length : s.remaining.length ≤ n

theorem InOrder.within (h : s.InOrder) : Within s.remaining.length s :=
  ⟨h.eofLast, h.ended, Nat.le_refl _⟩

namespace Within

theorem mono (h : Within n s) (hk : n ≤ k) : Within k s := ⟨h.eofLast, h.ended, h.length.trans hk⟩

theorem of_eq (h : Within n s) (hu : t.unread = s.unread) (hc : t.current = s.current)
    (hl : t.last = s.last) :
    Within n t := by
  refine ⟨⟨hl ▸ h.eofLast.last, hu ▸ h.eofLast.unread⟩, hc ▸ hu ▸ h.ended, ?_⟩
  rw [remaining, hc, hu]
  exact h.length

/-- At the end of the source nothing is left. -/
theorem of_eof (h : Within n s) (hk : s.current.kind = .eof) : Within 0 s :=
  ⟨h.eofLast, h.ended, by rw [remaining_of_eof hk]; exact Nat.le_refl 0⟩

theorem length_unread (h : Within n s) (hk : s.current.kind ≠ .eof) : s.unread.length + 1 ≤ n := by
  have := h.length
  rwa [remaining_of_not_eof hk, List.length_cons] at this

/-- If nothing is left, the end of the source has been reached. -/
theorem eof (h : Within 0 s) : s.current.kind = .eof := by
  by_contra hk
  exact Nat.not_succ_le_zero _ (h.length_unread hk)

theorem of_not_eof (hs : s.EofLast) (hk : s.current.kind ≠ .eof) (hn : s.unread.length + 1 ≤ n) :
    Within n s := by
  refine ⟨hs, fun he => absurd he hk, ?_⟩
  rw [remaining_of_not_eof hk]
  exact hn

end Within

/-- Looking uses up one lexeme at least, if there is one. A fault leaves the lexeme in front of it
behind. -/
theorem within_look_go (inside : Bool) {os : List (Except LexError Lexeme)}
    (hl : s.last.kind = .eof) (hos : ∀ l, .ok l ∈ os → l.kind ≠ .eof) (hn : os.length ≤ n) :
    match look.go inside os s with
    | .ok _ t => Within n t
    | .error _ t => s.current.kind ≠ .eof → Within (n + 1) t := by
  induction os generalizing s n with
  | nil =>
    show Within n { s with unread := [], ends := s.ends + 1, current := s.last }
    refine ⟨⟨hl, nofun⟩, fun _ => rfl, ?_⟩
    rw [remaining_of_eof hl]
    exact Nat.zero_le _
  | cons o os ih =>
    have hrest : ∀ l, .ok l ∈ os → l.kind ≠ .eof := fun l h => hos l (List.mem_cons_of_mem _ h)
    rw [List.length_cons] at hn
    cases o with
    | error e =>
      show s.current.kind ≠ .eof → Within (n + 1) { s with unread := os }
      exact fun hk => .of_not_eof ⟨hl, hrest⟩ hk (hn.trans n.le_succ)
    | ok l =>
      have hne : l.kind ≠ .eof := hos l List.mem_cons_self
      have hstep : look.go inside (.ok l :: os) s =
          (if isSkipped inside l.kind then look.go inside os
            else pure ()) { s with unread := os, current := l } := rfl
      rw [hstep]
      by_cases hskipped : isSkipped inside l.kind = true
      · rw [if_pos hskipped]
        have hgo := ih (s := { s with unread := os, current := l }) hl hrest (Nat.le_of_succ_le hn)
        cases hs : look.go inside os { s with unread := os, current := l } with
        | ok u t =>
          rw [hs] at hgo
          exact hgo
        | error e t =>
          rw [hs] at hgo
          exact fun _ => hgo hne
      · rw [if_neg hskipped]
        exact .of_not_eof (s := { s with unread := os, current := l }) ⟨hl, hrest⟩ hne hn

theorem Within.of_look (hs : s.EofLast) (hn : s.unread.length ≤ n) {u : Unit}
    (h : look s = .ok u t) : Within n t := by
  have hlook := within_look_go (decide (0 < s.groups)) hs.last hs.unread hn
  rwa [show look.go (decide (0 < s.groups)) s.unread s = .ok u t from h] at hlook

/-- **Nothing is added to what is left to read.** -/
theorem steady_within (n : Nat) : Steady (Within n) := by
  refine Lasting.steady ⟨fun hu hc hl h => h.of_eq hu hc hl, fun s h => ?_⟩
  have hgo :=
    within_look_go (decide (0 < s.groups))
      h.eofLast.last h.eofLast.unread (Nat.le_refl s.unread.length)
  rw [show look.go (decide (0 < s.groups)) s.unread s = look s from rfl] at hgo
  by_cases hk : s.current.kind = .eof
  · have hlook : look s =
        .ok () { s with unread := [], ends := s.ends + 1, current := s.last } := by
      show look.go (decide (0 < s.groups)) s.unread s = _
      rw [h.ended hk]
      rfl
    rw [h.ended hk] at hgo
    rw [hlook] at hgo ⊢
    exact hgo.mono (Nat.zero_le n)
  · have hn := h.length_unread hk
    cases hs : look s with
    | ok u t =>
      rw [hs] at hgo
      exact hgo.mono (Nat.le_of_succ_le hn)
    | error e t =>
      rw [hs] at hgo
      exact (hgo hk).mono hn

/-- An advance uses the current lexeme up. -/
theorem Within.of_advance (h : Within (n + 1) s) (hk : s.current.kind ≠ .eof)
    (ha : advance s = .ok () t) :
    Within n t :=
  .of_look (s := { s with previous := s.current }) ⟨h.eofLast.last, h.eofLast.unread⟩
    (Nat.le_of_succ_le_succ (h.length_unread hk)) (advance_eq_ok.mp ha)

/-- An operand uses the current lexeme up, or line breaks at the least. -/
theorem Within.of_operand {levels : Nat} {level : Precedence} (h : Within (n + 1) s)
    (ho : operand levels level s = .ok () t) : Within n t := by
  cases levels with
  | zero => exact (operand_zero_eq_ok.mp ho).elim
  | succ levels =>
    obtain ⟨s₁, s₂, s₃, s₄, h₁, h₂, h₃, h₄, rfl⟩ := operand_succ_eq_ok.mp ho
    have hs₁ : Within (n + 1) s₁ :=
      (steady_within _).skipLines.of_ok (s := { s with depth := s.depth + 1 })
        (h.of_eq rfl rfl rfl) h₁
    by_cases hk₁ : s₁.current.kind = .eof
    · -- nothing is left of the line breaks, and no operand begins with the end of the source
      obtain ⟨ho₂, hprevious, -⟩ := hs₁.eofLast.of_advance h₂
      rw [leading_of_stuck _ (.inl (hprevious ▸ hk₁))] at h₃
      cases h₃
    · have hs₃ :=
        ((steady_within n).leading ((steady_within n).operand levels)).of_ok
          (hs₁.of_advance hk₁ h₂) h₃
      have hs₄ :=
        ((steady_within n).following ((steady_within n).operand levels) level _).of_ok hs₃ h₄
      exact hs₄.of_eq rfl rfl rfl

/-! ## Code -/

/-- **Code only grows.** -/
theorem steady_size (n : Nat) : Steady fun s => n ≤ s.chunk.code.size where
  of_eq _ _ _ hc h := by rwa [hc]
  look := preserves_look_chunk (P := (n ≤ ·.code.size))
  emit := preserves_emit_chunk (P := (n ≤ ·.code.size)) fun op offset h => by
    rw [Chunk.push, Array.size_push]
    exact h.trans (Nat.le_succ _)
  land jump operator := by
    refine preserves_get_bind fun _ =>
      preserves_ite (preserves_modify fun s h => ?_) (preserves_fail _)
    rwa [Chunk.retarget, Array.size_modify]
  slotOf := preserves_slotOf_chunk (P := (n ≤ ·.code.size)) fun hslot h => by
    rwa [(Chunk.slotOf?_eq_some hslot).1]

end LuaExpr.Compiler
