import LuaExpr.Proofs.Compiler.Steps
import LuaExpr.Proofs.Expr.Layout
/-!
# What the compiler reads

The compiler skips comments, and line breaks inside parentheses, while it looks for the next lexeme,
and other line breaks where an operand is expected. Here its place in the source is seen as the
sequence of the lexemes ahead that mean something, and what is left over of the layout is gone.

* `Compiler.remaining`: what has not been used, the current lexeme included.
* `Compiler.ahead`: the lexemes of it that mean something.
* `Compiler.after`: the same right after the previous lexeme, which decides what the layout is
  worth.
* `Compiler.InOrder`: what holds of every state once the first lexeme has been read.
* `Compiler.Keeps`: what any part of the compiler keeps, and `Compiler.Advanced`: what one advance
  does.
-/

namespace LuaExpr.Compiler

open Layout

/-! ## The lexemes ahead -/

/-- The lexemes among lexemes and faults. -/
def legible (os : List (Except LexError Lexeme)) : List Lexeme := os.filterMap Except.toOption

@[simp] theorem legible_nil : legible [] = [] := rfl

@[simp] theorem legible_cons_ok (l : Lexeme) (os : List (Except LexError Lexeme)) :
    legible (.ok l :: os) = l :: legible os := rfl

@[simp] theorem legible_append (os ps : List (Except LexError Lexeme)) :
    legible (os ++ ps) = legible os ++ legible ps := List.filterMap_append

@[simp] theorem legible_map_ok (ls : List Lexeme) : legible (ls.map .ok) = ls := by
  induction ls with
  | nil => rfl
  | cons l ls ih => rw [List.map_cons, legible_cons_ok, ih]

/-- What has not been used: nothing at the end of the source. -/
def remaining (s : Compiler) : List (Except LexError Lexeme) :=
  if s.current.kind = .eof then [] else .ok s.current :: s.unread

/-- The lexemes that have not been used and mean something. -/
def ahead (s : Compiler) (awaited : Bool) : List Lexeme :=
  significantFrom s.groups awaited (legible s.remaining)

variable {s t s' : Compiler}

theorem remaining_of_eof (h : s.current.kind = .eof) : s.remaining = [] := if_pos h

theorem remaining_of_not_eof (h : s.current.kind ≠ .eof) :
    s.remaining = .ok s.current :: s.unread := if_neg h

theorem ahead_of_eof (h : s.current.kind = .eof) (awaited : Bool) : s.ahead awaited = [] := by
  rw [ahead, remaining_of_eof h, legible_nil, significantFrom_nil]

theorem ahead_of_not_dropped {awaited : Bool} (h : s.current.kind ≠ .eof)
    (hd : isDropped s.groups awaited s.current.kind = false) :
    s.ahead awaited = s.current ::
      significantFrom (s.current.kind.depthAfter s.groups)
        s.current.kind.awaitsOperand (legible s.unread) := by
  rw [ahead, remaining_of_not_eof h, legible_cons_ok, significantFrom_cons_of_not_isDropped _ hd]

theorem ahead_of_dropped {awaited : Bool} (h : s.current.kind ≠ .eof)
    (hd : isDropped s.groups awaited s.current.kind = true) :
    s.ahead awaited = significantFrom s.groups awaited (legible s.unread) := by
  rw [ahead, remaining_of_not_eof h, legible_cons_ok, significantFrom_cons_of_isDropped _ hd]

/-- Inside parentheses it does not matter whether an operand is awaited. -/
theorem ahead_inside (h : 0 < s.groups) (a b : Bool) : s.ahead a = s.ahead b :=
  significantFrom_inside h a b _

/-- The lexemes that have not been used and mean something, right after the previous lexeme. -/
def after (s : Compiler) : List Lexeme :=
  significantFrom (s.previous.kind.depthAfter s.groups)
    s.previous.kind.awaitsOperand (legible s.remaining)

/-- The current lexeme means something unless an operand is expected. -/
def Settled (s : Compiler) : Prop := isDropped s.groups false s.current.kind = false

section Current

variable {awaited : Bool} (h : isDropped s.groups awaited s.current.kind = false)
include h

theorem exists_ahead_eq_cons (hk : s.current.kind ≠ .eof) :
    ∃ ls, s.ahead awaited = s.current :: ls :=
  ⟨_, ahead_of_not_dropped hk h⟩

theorem eof_of_ahead_eq_nil (ha : s.ahead awaited = []) : s.current.kind = .eof := by
  by_cases hk : s.current.kind = .eof
  · exact hk
  · obtain ⟨ls, hls⟩ := exists_ahead_eq_cons h hk
    rw [hls] at ha
    cases ha

theorem current_eq_of_ahead_eq_cons {l : Lexeme} {ls : List Lexeme}
    (ha : s.ahead awaited = l :: ls) :
    s.current = l := by
  by_cases hk : s.current.kind = .eof
  · rw [ahead_of_eof hk] at ha
    cases ha
  · obtain ⟨ks, hks⟩ := exists_ahead_eq_cons h hk
    rw [hks] at ha
    exact (List.cons_eq_cons.mp ha).1

end Current

/-! ## What is kept -/

/-- The current lexeme is not a comment, and it is the end of the source only when all has been
read. -/
structure InOrder (s : Compiler) : Prop where
  last : s.last.kind = .eof
  unread : ∀ l, .ok l ∈ s.unread → l.kind ≠ .eof
  ended : s.current.kind = .eof → s.unread = []
  current : s.current.kind ≠ .comment

theorem InOrder.of_eq (h : s.InOrder) (hl : t.last = s.last) (hu : t.unread = s.unread)
    (hc : t.current = s.current) : t.InOrder := by
  refine ⟨?_, ?_, ?_, ?_⟩
  · rw [hl]; exact h.last
  · rw [hu]; exact h.unread
  · rw [hc, hu]; exact h.ended
  · rw [hc]; exact h.current

/-- What is kept by each part of the compiler that succeeds. -/
structure Keeps (s s' : Compiler) : Prop where
  groups : s'.groups = s.groups
  depth : s'.depth = s.depth
  inOrder : s'.InOrder
  /-- Only lexemes have been read, no faults. -/
  read : ∃ ls : List Lexeme, s.remaining = ls.map .ok ++ s'.remaining

theorem Keeps.refl (h : s.InOrder) : Keeps s s := ⟨rfl, rfl, h, [], rfl⟩

theorem Keeps.trans (h : Keeps s t) (h' : Keeps t s') : Keeps s s' := by
  obtain ⟨ls, hls⟩ := h.read
  obtain ⟨ls', hls'⟩ := h'.read
  refine ⟨h'.groups.trans h.groups, h'.depth.trans h.depth, h'.inOrder, ls ++ ls', ?_⟩
  rw [hls, hls', List.map_append, List.append_assoc]

/-- There are no faults in what has not been used. -/
def Faultless (s : Compiler) : Prop := ∃ ls : List Lexeme, s.remaining = ls.map .ok

theorem Keeps.faultless (h : Keeps s s') (hs : s.Faultless) : s'.Faultless := by
  obtain ⟨ls, hls⟩ := h.read
  obtain ⟨ks, hks⟩ := hs
  rw [hks] at hls
  obtain ⟨us, vs, -, -, hvs⟩ := List.map_eq_append_iff.mp hls
  exact ⟨vs, hvs.symm⟩

theorem Faultless.unread (h : s.Faultless) (ho : s.InOrder) :
    ∃ ls : List Lexeme, s.unread = ls.map .ok := by
  obtain ⟨ls, hls⟩ := h
  by_cases hk : s.current.kind = .eof
  · exact ⟨[], ho.ended hk⟩
  · rw [remaining_of_not_eof hk] at hls
    cases ls with
    | nil => cases hls
    | cons l ls => exact ⟨ls, (List.cons_eq_cons.mp hls).2⟩

/-! ## Looking for the next lexeme -/

/-- What looking for the next lexeme amounts to: some lexemes are skipped, and the one after them is
current. -/
theorem look_go_eq_ok {inside : Bool} {os : List (Except LexError Lexeme)}
    (h : look.go inside os s = .ok () s') :
    ∃ skipped : List Lexeme, (∀ l ∈ skipped, isSkipped inside l.kind = true) ∧
      ((os = skipped.map .ok ∧
        s' = { s with unread := [], ends := s.ends + 1, current := s.last }) ∨
        ∃ l rest, os = skipped.map .ok ++ .ok l :: rest ∧ isSkipped inside l.kind = false ∧
          s' = { s with unread := rest, current := l }) := by
  induction os generalizing s with
  | nil =>
    rw [look.go, modify_eq_ok] at h
    exact ⟨[], by simp, .inl ⟨rfl, h⟩⟩
  | cons o os ih =>
    cases o with
    | error e => simp only [look.go, bind_unit_eq_ok, throw_eq_ok, and_false, exists_false] at h
    | ok l =>
      simp only [look.go, bind_unit_eq_ok, modify_eq_ok, exists_eq_left, ite_eq_ok,
        pure_eq_ok, true_and, Bool.not_eq_true] at h
      rcases h with ⟨hk, h⟩ | ⟨hk, rfl⟩
      · obtain ⟨skipped, hs, h'⟩ := ih h
        refine ⟨l :: skipped, by simpa using ⟨hk, hs⟩, h'.imp (fun h' => ?_) (fun h' => ?_)⟩
        · exact ⟨by rw [h'.1]; rfl, h'.2⟩
        · obtain ⟨k, rest, rfl, hk', rfl⟩ := h'
          exact ⟨k, rest, rfl, hk', rfl⟩
      · exact ⟨[], by simp, .inr ⟨l, os, rfl, hk, rfl⟩⟩

/-- Looking for the next lexeme succeeds unless there is a fault. -/
theorem exists_look_go (inside : Bool) (ls : List Lexeme) (s : Compiler) :
    ∃ s', look.go inside (ls.map .ok) s = .ok () s' := by
  induction ls generalizing s with
  | nil => exact ⟨_, rfl⟩
  | cons l ls ih =>
    simp only [List.map_cons, look.go, bind_unit_eq_ok, modify_eq_ok, exists_eq_left,
      ite_eq_ok, pure_eq_ok]
    by_cases hk : isSkipped inside l.kind = true
    · obtain ⟨s', hs'⟩ := ih { s with unread := ls.map .ok, current := l }
      exact ⟨s', .inl ⟨hk, hs'⟩⟩
    · exact ⟨_, .inr ⟨hk, trivial, rfl⟩⟩

/-- What one look does to the compiler. -/
theorem look_eq_ok (hl : s.last.kind = .eof) (hu : ∀ l, .ok l ∈ s.unread → l.kind ≠ .eof)
    (h : look s = .ok () s') :
    s'.InOrder ∧ s'.Settled ∧ s'.groups = s.groups ∧ s'.depth = s.depth ∧ s'.chunk = s.chunk ∧
      s'.previous = s.previous ∧
        ∃ skipped : List Lexeme, (∀ l ∈ skipped, isSkipped (0 < s.groups) l.kind = true) ∧
        s.unread = skipped.map .ok ++ s'.remaining := by
  obtain ⟨skipped, hs, ⟨hos, rfl⟩ | ⟨l, rest, hos, hk, rfl⟩⟩ := look_go_eq_ok h
  · refine ⟨⟨hl, by simp, fun _ => rfl, by simp [hl]⟩, by simp [Settled, isDropped, hl], rfl,
      rfl, rfl, rfl, skipped, hs, ?_⟩
    rw [remaining_of_eof hl, hos, List.append_nil]
  · have hne : l.kind ≠ .eof := hu l (by rw [hos]; simp)
    have hd : isDropped s.groups false l.kind = false := by
      simp only [isSkipped, Bool.or_eq_false_iff, Bool.and_eq_false_iff,
        decide_eq_false_iff_not] at hk
      simp only [isDropped, Bool.or_false, Bool.or_eq_false_iff, Bool.and_eq_false_iff,
        decide_eq_false_iff_not]
      exact ⟨hk.1, hk.2.symm⟩
    have hc : l.kind ≠ .comment := by
      intro hc
      rw [hc] at hk
      cases hk
    refine ⟨⟨hl, fun k hk => hu k ?_, fun he => absurd he hne, hc⟩, hd, rfl, rfl, rfl, rfl,
      skipped, hs, ?_⟩
    · rw [hos]
      exact List.mem_append_right _ (List.mem_cons_of_mem _ hk)
    · rw [remaining_of_not_eof (s := { s with unread := rest, current := l }) hne, hos]

theorem exists_look (h : ∃ ls : List Lexeme, s.unread = ls.map .ok) : ∃ s', look s = .ok () s' := by
  obtain ⟨ls, hls⟩ := h
  show ∃ s', look.go (decide (0 < s.groups)) s.unread s = .ok () s'
  rw [hls]
  exact exists_look_go _ ls s

/-! ## Advancing -/

/-- What one advance does: the current lexeme is used up, and what is skipped after it means
nothing. -/
structure Advanced (s s' : Compiler) : Prop where
  keeps : Keeps s s'
  settled : s'.Settled
  chunk : s'.chunk = s.chunk
  previous : s'.previous = s.current
  unread : ∀ depth awaited, (0 < s.groups → 0 < depth) →
    significantFrom depth awaited (legible s.unread) =
      significantFrom depth awaited (legible s'.remaining)
  shorter : s.current.kind ≠ .eof → s'.remaining.length < s.remaining.length

theorem isDropped_of_isSkipped {depth depth' : Nat} {awaited : Bool} {kind : TokenKind}
    (hd : 0 < depth → 0 < depth') (h : isSkipped (0 < depth) kind = true) :
    isDropped depth' awaited kind = true := by
  simp only [isSkipped, isDropped, Bool.or_eq_true, Bool.and_eq_true, decide_eq_true_eq] at h ⊢
  rcases h with h | ⟨hdepth, h⟩
  · exact .inl h
  · exact .inr ⟨h, .inl (hd hdepth)⟩

theorem advanced_of_advance (h : s.InOrder) (ha : advance s = .ok () s') : Advanced s s' := by
  obtain ⟨ho, hset, hg, hd, hc, hp, skipped, hs, hu⟩ :=
    look_eq_ok (s := { s with previous := s.current }) h.last h.unread (advance_eq_ok.mp ha)
  have hu : s.unread = skipped.map .ok ++ s'.remaining := hu
  refine ⟨⟨hg, hd, ho, ?_⟩, hset, hc, hp, fun depth awaited hdepth => ?_, fun hk => ?_⟩
  · by_cases hk : s.current.kind = .eof
    · rw [h.ended hk] at hu
      exact ⟨[], by rw [remaining_of_eof hk, (List.append_eq_nil_iff.mp hu.symm).2]; rfl⟩
    · exact ⟨s.current :: skipped, by rw [remaining_of_not_eof hk, hu]; rfl⟩
  · rw [hu, legible_append, legible_map_ok]
    exact significantFrom_append_of_isDropped _ fun l hl => isDropped_of_isSkipped hdepth (hs l hl)
  · rw [remaining_of_not_eof hk, hu, List.length_cons, List.length_append]
    omega

theorem exists_advance (h : s.InOrder) (hf : s.Faultless) : ∃ s', advance s = .ok () s' := by
  obtain ⟨s', hs'⟩ := exists_look (s := { s with previous := s.current }) (hf.unread h)
  exact ⟨s', advance_eq_ok.mpr hs'⟩

/-- The lexemes ahead of an advance are the current one and those after it. -/
theorem Advanced.ahead_eq_cons (h : Advanced s s') {awaited : Bool} (hk : s.current.kind ≠ .eof)
    (hd : isDropped s.groups awaited s.current.kind = false)
    (hp : s.current.kind ≠ .symbol .rightParen) :
    s.ahead awaited = s.current :: s'.after := by
  have hdepth : ∀ k : TokenKind, k ≠ .symbol .rightParen → 0 < s.groups →
      0 < k.depthAfter s.groups := by
    intro k hk hg
    unfold TokenKind.depthAfter
    split
    · exact Nat.succ_pos _
    · exact absurd rfl hk
    · exact hg
  rw [ahead_of_not_dropped hk hd, h.unread _ _ (hdepth _ hp), after, h.previous, h.keeps.groups]

/-- The lexemes ahead once a closing parenthesis is counted and used up. -/
theorem Advanced.ahead_closed (h : Advanced { s with groups := s.groups - 1 } s') {awaited : Bool}
    (hk : s.current.kind = .symbol .rightParen) :
    s.ahead awaited = s.current :: s'.ahead false := by
  have hd : isDropped s.groups awaited s.current.kind = false := by rw [hk]; rfl
  rw [ahead_of_not_dropped (by rw [hk]; decide) hd, hk, ahead, h.keeps.groups, ← h.unread _ _ id]
  rfl

/-- Nothing is left out after a lexeme that neither opens nor closes a parenthesis. -/
theorem after_eq_ahead (hd : ∀ depth, s.previous.kind.depthAfter depth = depth) :
    s.after = s.ahead s.previous.kind.awaitsOperand := by
  rw [after, hd, ahead]

/-- After an opening parenthesis, once it has been counted. -/
theorem after_leftParen (hk : s.previous.kind = .symbol .leftParen) :
    s.after = ({ s with groups := s.groups + 1 } : Compiler).ahead true := by
  rw [after, hk]
  exact significantFrom_inside (Nat.succ_pos _) _ _ _

/-- After a comma inside parentheses. -/
theorem Advanced.ahead_comma (h : Advanced s s') (hset : s.Settled) (hg : 0 < s.groups)
    (hk : s.current.kind = .symbol .comma) : s.ahead false = s.current :: s'.ahead true := by
  have hafter : s'.after = s'.ahead true := by
    rw [after_eq_ahead (by rw [h.previous, hk]; exact fun _ => rfl)]
    exact ahead_inside (by rw [h.keeps.groups]; exact hg) _ _
  rw [h.ahead_eq_cons (by rw [hk]; decide) hset (by rw [hk]; decide), hafter]

/-! ## Loops over separators -/

/-- Repeated advances, for a relation that holds of no advances and goes on with one more at the
front. -/
theorem repeatWhile_advance {R : Compiler → Compiler → Prop} {holds : TokenKind → Bool} {α : Type}
    (refl : ∀ s, s.InOrder → R s s)
    (step : ∀ s t s', s.InOrder → holds s.current.kind = true → s.current.kind ≠ .eof →
      Advanced s t → R t s' → R s s')
    (heof : holds .eof = false) {rounds : List α} (ho : s.InOrder)
    (hr : s.remaining.length ≤ rounds.length) (h : repeatWhile holds advance rounds s = .ok () s') :
    R s s' ∧ holds s'.current.kind = false := by
  induction rounds generalizing s with
  | nil =>
    rw [repeatWhile_nil_eq_ok] at h
    rw [h]
    refine ⟨refl s ho, ?_⟩
    by_cases hk : s.current.kind = .eof
    · rw [hk, heof]
    · rw [remaining_of_not_eof hk] at hr
      simp at hr
  | cons a rounds ih =>
    rcases repeatWhile_cons_eq_ok.mp h with ⟨hk, t, ht, h'⟩ | ⟨hk, rfl⟩
    · have hne : s.current.kind ≠ .eof := by
        intro he
        rw [he, heof] at hk
        cases hk
      have hadv := advanced_of_advance ho ht
      have hlen := hadv.shorter hne
      obtain ⟨hR, hend⟩ := ih hadv.keeps.inOrder (by simp at hr; omega) h'
      exact ⟨step s t s' ho hk hne hadv hR, hend⟩
    · exact ⟨refl s' ho, hk⟩

theorem length_remaining_le_budget (s : Compiler) :
    s.remaining.length ≤ ((.ok s.current :: s.unread : List (Except LexError Lexeme))).length := by
  by_cases hk : s.current.kind = .eof
  · rw [remaining_of_eof hk]
    exact Nat.zero_le _
  · exact Nat.le_of_eq (by rw [remaining_of_not_eof hk])

theorem length_ahead_le_budget (s : Compiler) (awaited : Bool) :
    (s.ahead awaited).length ≤
      ((.ok s.current :: s.unread : List (Except LexError Lexeme))).length :=
  calc (s.ahead awaited).length
    _ ≤ (legible s.remaining).length := significantFrom_length_le _
    _ ≤ s.remaining.length := List.length_filterMap_le _ _
    _ ≤ _ := length_remaining_le_budget s

theorem exists_repeatWhile (holds : TokenKind → Bool) {α : Type} (rounds : List α) (ho : s.InOrder)
    (hf : s.Faultless) : ∃ s', repeatWhile holds advance rounds s = .ok () s' := by
  induction rounds generalizing s with
  | nil => exact ⟨s, repeatWhile_nil_eq_ok.mpr rfl⟩
  | cons a rounds ih =>
    by_cases hk : holds s.current.kind = true
    · obtain ⟨t, ht⟩ := exists_advance ho hf
      have hkeeps := (advanced_of_advance ho ht).keeps
      obtain ⟨s', hs'⟩ := ih hkeeps.inOrder (hkeeps.faultless hf)
      exact ⟨s', repeatWhile_cons_eq_ok.mpr (.inl ⟨hk, t, ht, hs'⟩)⟩
    · exact ⟨s, repeatWhile_cons_eq_ok.mpr (.inr ⟨by simpa using hk, rfl⟩)⟩

/-- Line breaks that cannot end an expression are passed over. -/
theorem skipLines_spec (ho : s.InOrder) (h : skipLines s = .ok () s') :
    Keeps s s' ∧ s'.chunk = s.chunk ∧ isDropped s'.groups true s'.current.kind = false ∧
      s.ahead true = s'.ahead true := by
  have hR := repeatWhile_advance
    (R := fun s s' => Keeps s s' ∧ s'.chunk = s.chunk ∧ s.ahead true = s'.ahead true)
    (fun s hs => ⟨.refl hs, rfl, rfl⟩) ?_ (by decide)
    ho (length_remaining_le_budget s) (skipLines_eq_ok.mp h)
  · obtain ⟨⟨hkeeps, hc, ha⟩, hend⟩ := hR
    exact ⟨hkeeps, hc, isDropped_eq_false hkeeps.inOrder.current (by simpa using hend), ha⟩
  · rintro s t s' - hline hne hadv ⟨hkeeps, hc, ha⟩
    have hd : isDropped s.groups true s.current.kind = true := by
      simpa [isDropped] using Or.inr (of_decide_eq_true hline)
    refine ⟨hadv.keeps.trans hkeeps, hc.trans hadv.chunk, ?_⟩
    rw [← ha, ahead_of_dropped hne hd, hadv.unread _ _ id, ahead, hadv.keeps.groups]

/-- Outside of parentheses, separators are passed over one by one. -/
theorem separators_spec (ho : s.InOrder) (hg : s.groups = 0)
    (h : repeatWhile isSeparator advance (.ok s.current :: s.unread) s = .ok () s') :
    Keeps s s' ∧ s'.chunk = s.chunk ∧ isSeparator s'.current.kind = false ∧
      ∃ ss : List Lexeme, (∀ l ∈ ss, isSeparator l.kind = true) ∧
      s.ahead false = ss ++ s'.ahead false := by
  have hR := repeatWhile_advance
    (R := fun s s' => s.groups = 0 → Keeps s s' ∧ s'.chunk = s.chunk ∧
      ∃ ss : List Lexeme, (∀ l ∈ ss, isSeparator l.kind = true) ∧
      s.ahead false = ss ++ s'.ahead false)
    (fun s hs _ => ⟨.refl hs, rfl, [], by simp, rfl⟩) ?_ (by decide)
    ho (length_remaining_le_budget s) h
  · obtain ⟨hkeeps, hc, hss⟩ := hR.1 hg
    exact ⟨hkeeps, hc, hR.2, hss⟩
  · intro s t s' _ hsep hne hadv hrest hg
    obtain ⟨hkeeps, hc, ss, hss, ha⟩ := hrest (hadv.keeps.groups.trans hg)
    have hkind : s.current.kind = .line ∨ s.current.kind = .symbol .semicolon := by
      simpa [isSeparator] using hsep
    have hd : isDropped s.groups false s.current.kind = false := by
      rcases hkind with hk | hk <;> simp [isDropped, hk, hg]
    have hdepth : ∀ depth, s.current.kind.depthAfter depth = depth := by
      rcases hkind with hk | hk <;> rw [hk] <;> exact fun _ => rfl
    have hparen : s.current.kind ≠ .symbol .rightParen := by
      rcases hkind with hk | hk <;> rw [hk] <;> decide
    have hawaits : s.current.kind.awaitsOperand = false := by
      rcases hkind with hk | hk <;> rw [hk] <;> rfl
    refine ⟨hadv.keeps.trans hkeeps, hc.trans hadv.chunk,
      s.current :: ss, by simpa using ⟨hsep, hss⟩, ?_⟩
    have hafter : t.after = t.ahead false := by
      rw [after_eq_ahead (by rw [hadv.previous]; exact hdepth), hadv.previous, hawaits]
    rw [hadv.ahead_eq_cons hne hd hparen, hafter, ha, List.cons_append]

end LuaExpr.Compiler
