import LuaExpr.Proofs.Compiler.Blame
import LuaExpr.Proofs.Compiler.Budget
import LuaExpr.Proofs.Lexeme.Extension
/-!
# Faults that more text does not repair

The compiler is run on a text and on the same text with more text behind it. The two runs do the
same until the first one has come to the end of its text. From there on it can only fail at this
end, or be content with less code than the other one, so that a fault about anything else is a fault
of both runs.

* `SourceError.IsOpen`: faults that more text may repair.
* `Compiler.Alike`: two compilers that have done the same, and see the same unless the first one is
  at its end.
* `Compiler.Behind`: the first compiler is at its end, and the second one has written no less code.
* `Compiler.Persists`: what success of a part of the second run says of the first run, which is
  shown along the steps.
* `Compiler.persists_operand`, `Compiler.persists_program`: so it is with operands, and with
  programs.
* `compile_extended_eq_error`: other faults stay.
-/

namespace LuaExpr

/-- A fault that more text may repair: a string without an end, or a token that is the end of the
source. -/
def SourceError.IsOpen (e : SourceError) : Prop :=
  (∃ offset, e = .lex (.unterminatedString offset)) ∨ ∃ t, e.token? = some t ∧ t.kind = .eof

namespace Compiler

variable {α β : Type} {n m k l : Nat} {s s' t t' : Compiler} {x y : CompileM α}
  {f g : α → CompileM β}

/-! ## Two runs -/

/-- Two compilers that have done the same. -/
structure Matched (s s' : Compiler) : Prop where
  previous : s'.previous = s.previous
  chunk : s'.chunk = s.chunk
  groups : s'.groups = s.groups
  depth : s'.depth = s.depth

/-- Two compilers that see the same, where what the second one will read begins with what the first
one will, unless the first one is at the end of its text. -/
def SameAhead (s s' : Compiler) : Prop :=
  s.current.kind = .eof ∨ s'.current = s.current ∧ Continues s.unread s'.unread

/-- Two compilers that have done the same and see the same, with so much left to read. -/
structure Alike (n m : Nat) (s s' : Compiler) : Prop where
  matched : Matched s s'
  left : Within n s
  right : Within m s'
  ahead : SameAhead s s'

/-- The first compiler is at the end of its text, and the second one has written no less code. -/
structure Behind (s s' : Compiler) : Prop where
  ended : Within 0 s
  size : s.chunk.code.size ≤ s'.chunk.code.size

theorem Alike.mono (h : Alike k l s s') (hn : k ≤ n) (hm : l ≤ m) : Alike n m s s' :=
  ⟨h.matched, h.left.mono hn, h.right.mono hm, h.ahead⟩

theorem Alike.behind (h : Alike n m s s') (hk : s.current.kind = .eof) : Behind s s' :=
  ⟨h.left.of_eof hk, by rw [h.matched.chunk]⟩

/-- Bounds on what is left that are as small as they can be. -/
theorem Alike.tight (h : Alike n m s s') : Alike s.remaining.length s'.remaining.length s s' :=
  ⟨h.matched, ⟨h.left.eofLast, h.left.ended, Nat.le_refl _⟩,
    ⟨h.right.eofLast, h.right.ended, Nat.le_refl _⟩, h.ahead⟩

/-- Alike compilers may change what they have done, if they do it in the same way. -/
theorem Alike.of_eq (h : Alike n m s s') (hm : Matched t t') (hu : t.unread = s.unread)
    (hc : t.current = s.current) (hl : t.last = s.last) (hu' : t'.unread = s'.unread)
    (hc' : t'.current = s'.current) (hl' : t'.last = s'.last) :
    Alike n m t t' := by
  refine ⟨hm, h.left.of_eq hu hc hl, h.right.of_eq hu' hc' hl', ?_⟩
  rw [SameAhead, hu, hc, hu', hc']
  exact h.ahead

theorem Alike.withChunk (h : Alike n m s s') {c c' : Chunk} (hc : c' = c) :
    Alike n m { s with chunk := c } { s' with chunk := c' } :=
  h.of_eq ⟨h.matched.previous, hc, h.matched.groups, h.matched.depth⟩ rfl rfl rfl rfl rfl rfl

theorem Alike.withGroups (h : Alike n m s s') (f : Nat → Nat) :
    Alike n m { s with groups := f s.groups } { s' with groups := f s'.groups } :=
  h.of_eq ⟨h.matched.previous, h.matched.chunk, congrArg f h.matched.groups, h.matched.depth⟩
    rfl rfl rfl rfl rfl rfl

theorem Alike.withDepth (h : Alike n m s s') (f : Nat → Nat) :
    Alike n m { s with depth := f s.depth } { s' with depth := f s'.depth } :=
  h.of_eq ⟨h.matched.previous, h.matched.chunk, h.matched.groups, congrArg f h.matched.depth⟩
    rfl rfl rfl rfl rfl rfl

/-! ## Steps of two runs -/

/-- A part fails in a way that more text may repair. -/
def Opens (x : CompileM α) (s : Compiler) : Prop := ∃ e t, x s = .error e t ∧ e.IsOpen

/-- If the second run succeeds with a part, then the first one gives the same and is related to the
second one, or it fails in a way that more text may repair. -/
def KeepsUp (R : Compiler → Compiler → Prop) (x y : CompileM α) (s s' : Compiler) : Prop :=
  ∀ b t', y s' = .ok b t' → Opens x s ∨ ∃ t, x s = .ok b t ∧ R t t'

/-- The same, but the first run may also have come to its end in this part, and be behind. -/
def Persists (R : Compiler → Compiler → Prop) (x y : CompileM α) (s s' : Compiler) : Prop :=
  ∀ b t', y s' = .ok b t' → Opens x s ∨ (∃ a t, x s = .ok a t ∧ Behind t t') ∨
    ∃ t, x s = .ok b t ∧ R t t'

/-- The first run, which is at its end, stays behind. -/
abbrev Lags (x y : CompileM α) (s s' : Compiler) : Prop := Persists (fun _ _ => False) x y s s'

section Steps

variable {R Q : Compiler → Compiler → Prop}

theorem Opens.bind (h : Opens x s) : Opens (x >>= f) s := by
  obtain ⟨e, t, hx, he⟩ := h
  refine ⟨e, t, ?_, he⟩
  show EStateM.bind x f s = _
  rw [EStateM.bind, hx]

theorem bind_of_ok {a : α} (h : x s = .ok a t) : (x >>= f) s = f a t := by
  show EStateM.bind x f s = _
  rw [EStateM.bind, h]

theorem Opens.persists (h : Opens x s) : Persists R x y s s' := fun _ _ _ => .inl h

theorem Persists.mono (h : Persists Q x y s s') (hR : ∀ {t t'}, Q t t' → R t t') :
    Persists R x y s s' :=
  fun b t' hy => (h b t' hy).imp_right (.imp_right fun ⟨t, ht, hQ⟩ => ⟨t, ht, hR hQ⟩)

theorem Lags.persists (h : Lags x y s s') : Persists R x y s s' := h.mono fun h => h.elim

theorem Opens.keepsUp (h : Opens x s) : KeepsUp R x y s s' := fun _ _ _ => .inl h

theorem KeepsUp.persists (h : KeepsUp R x y s s') : Persists R x y s s' :=
  fun b t' hy => (h b t' hy).imp_right .inr

theorem keepsUp_fail {e e' : ParseError} : KeepsUp R (fail e : CompileM α) (fail e') s s' :=
  fun _ _ hy => (fail_eq_ok.mp hy).elim

theorem keepsUp_pure (a : α) (h : R s s') : KeepsUp R (pure a) (pure a) s s' := by
  intro b t' hy
  obtain ⟨rfl, rfl⟩ := pure_eq_ok.mp hy
  exact .inr ⟨s, rfl, h⟩

theorem keepsUp_bind (hx : KeepsUp Q x y s s')
    (hf : ∀ a {t t'}, Q t t' → Persists R (f a) (g a) t t') :
    Persists R (x >>= f) (y >>= g) s s' := by
  intro b t' hy
  obtain ⟨a, r', hy', hg⟩ := bind_eq_ok.mp hy
  rcases hx _ _ hy' with h | ⟨r, hr, hQ⟩
  · exact .inl h.bind
  · rw [Opens, bind_of_ok hr]
    exact hf a hQ _ _ hg

theorem persists_bind (hx : Persists Q x y s s')
    (hf : ∀ a {t t'}, Q t t' → Persists R (f a) (g a) t t')
    (hl : ∀ a b {t t'}, Behind t t' → Lags (f a) (g b) t t') :
    Persists R (x >>= f) (y >>= g) s s' := by
  intro b t' hy
  obtain ⟨a', r', hy', hg⟩ := bind_eq_ok.mp hy
  rcases hx _ _ hy' with h | ⟨a, r, hr, hbehind⟩ | ⟨r, hr, hQ⟩
  · exact .inl h.bind
  · rw [Opens, bind_of_ok hr]
    exact (hl a a' hbehind).persists _ _ hg
  · rw [Opens, bind_of_ok hr]
    exact hf a' hQ _ _ hg

theorem lags_bind (hx : Lags x y s s') (hl : ∀ a b {t t'}, Behind t t' → Lags (f a) (g b) t t') :
    Lags (x >>= f) (y >>= g) s s' := persists_bind hx (fun _ _ _ h => h.elim) hl

theorem persists_pure (a : α) (h : R s s') : Persists R (pure a) (pure a) s s' :=
  (keepsUp_pure a h).persists

theorem persists_fail {e e' : ParseError} : Persists R (fail e : CompileM α) (fail e') s s' :=
  keepsUp_fail.persists

theorem persists_modify_bind {F F' : Compiler → Compiler} {f g : Unit → CompileM β}
    (h : Persists R (f ()) (g ()) (F s) (F' s')) :
    Persists R (modify F >>= f) (modify F' >>= g) s s' := h

theorem persists_budget_bind {f g : List (Except LexError Lexeme) → CompileM β}
    (h : Persists R (f (.ok s.current :: s.unread)) (g (.ok s'.current :: s'.unread)) s s') :
    Persists R (budget >>= f) (budget >>= g) s s' := h

/-- What follows a look at the compiler does the same, if it is the same after both compilers. -/
theorem persists_get_bind {f g : Compiler → CompileM β} (hg : g s' = g s)
    (h : Persists R (f s) (g s) s s') :
    Persists R (get >>= f) (get >>= g) s s' := by
  intro b t' hy
  exact h b t' (hg ▸ hy)

/-- A branch on the kind of the current lexeme: both runs take the same one, unless the first one is
at its end. -/
theorem Alike.persists_currentKind_bind {f g : TokenKind → CompileM β} (h : Alike n m s s')
    (hend : Behind s s' → Lags (currentKind >>= f) (currentKind >>= g) s s')
    (hsame : s.current.kind ≠ .eof → Persists R (f s.current.kind) (g s.current.kind) s s') :
    Persists R (currentKind >>= f) (currentKind >>= g) s s' := by
  by_cases hk : s.current.kind = .eof
  · exact (hend (h.behind hk)).mono fun h => h.elim
  · intro b t' hy
    refine hsame hk b t' ?_
    rw [← (h.ahead.resolve_left hk).1]
    exact hy

/-- Where the first run does nothing at its end, it stays behind: code only grows. -/
theorem lags_of_still {a : α} (h : Behind s s') (hx : x s = .ok a s)
    (hy : ∀ k, Preserves (fun s => k ≤ s.chunk.code.size) y) : Lags x y s s' :=
  fun _ _ hok => .inr (.inl ⟨a, s, hx, h.ended, (hy _).of_ok h.size hok⟩)

/-- A branch on the kind of the current lexeme, if the first run is at its end. -/
theorem lags_currentKind_bind {f : TokenKind → CompileM α} (h : Behind s s')
    (hl : Lags (f .eof) y s s') :
    Lags (currentKind >>= f) y s s' := by
  have hx : (currentKind >>= f) s = f .eof s := congrArg (fun kind => f kind s) h.ended.eof
  intro b t' hy
  rw [Opens, hx]
  exact hl b t' hy

/-- A part, and then a branch on the kind of the current lexeme. -/
theorem persists_bind_currentKind {x y : CompileM Unit} {f g : TokenKind → CompileM β}
    (hx : Persists (Alike n m) x y s s')
    (hl : ∀ {t t'}, Behind t t' → Lags (f .eof) (currentKind >>= g) t t')
    (hf : ∀ {t t'}, Alike n m t t' → t.current.kind ≠ .eof →
      Persists R (f t.current.kind) (g t.current.kind) t t') :
    Persists R (x >>= fun _ => currentKind >>= f) (y >>= fun _ => currentKind >>= g) s s' :=
  persists_bind hx (fun _ _ _ ht => ht.persists_currentKind_bind
    (fun hb => lags_currentKind_bind hb (hl hb)) (hf ht))
    fun _ _ _ _ hb => lags_currentKind_bind hb (hl hb)

end Steps

/-! ## Reading -/

/-- Looking for the next lexeme in a sequence and in one that begins with it. -/
theorem keepsUp_look_go {inside : Bool} {os os' : List (Except LexError Lexeme)}
    (hc : Continues os os') (hm : Matched s s') (hl : s.last.kind = .eof) :
    KeepsUp (fun t t' => Matched t t' ∧ SameAhead t t') (look.go inside os)
      (look.go inside os') s s' := by
  induction hc generalizing s s' with
  | nil os' =>
    intro b t' hy
    refine .inr ⟨_, rfl, ?_, .inl hl⟩
    obtain ⟨-, -, ⟨-, rfl⟩ | ⟨l, rest, -, -, rfl⟩⟩ := look_go_eq_ok hy
    all_goals exact ⟨hm.previous, hm.chunk, hm.groups, hm.depth⟩
  | cut offset os os' => exact Opens.keepsUp ⟨_, _, rfl, .inl ⟨offset, rfl⟩⟩
  | @cons o os os' hc ih =>
    cases o with
    | error e => exact fun _ _ hy => nomatch hy
    | ok l =>
      have hm' : Matched { s with unread := os, current := l }
          { s' with unread := os', current := l } :=
        ⟨hm.previous, hm.chunk, hm.groups, hm.depth⟩
      have hbody : KeepsUp (fun t t' => Matched t t' ∧ SameAhead t t')
          (if isSkipped inside l.kind then look.go inside os else pure ())
          (if isSkipped inside l.kind then look.go inside os' else pure ())
          { s with unread := os, current := l } { s' with unread := os', current := l } := by
        split
        · exact ih hm' hl
        · exact keepsUp_pure () ⟨hm', .inr ⟨rfl, hc⟩⟩
      exact hbody

/-- Looking for the next lexeme, where what the second run will read begins with what the first one
will. -/
theorem keepsUp_look (hm : Matched s s') (hc : Continues s.unread s'.unread) (hl : s.EofLast)
    (hr : s'.EofLast) (hn : s.unread.length ≤ n) (hn' : s'.unread.length ≤ m) :
    KeepsUp (Alike n m) look look s s' := by
  intro b t' hy
  have hgo : KeepsUp (fun t t' => Matched t t' ∧ SameAhead t t')
      (look.go (decide (0 < s.groups)) s.unread)
      (look.go (decide (0 < s'.groups)) s'.unread) s s' := by
    rw [hm.groups]
    exact keepsUp_look_go hc hm hl.last
  refine (hgo b t' hy).imp_right ?_
  rintro ⟨t, ht, hmt, hahead⟩
  exact ⟨t, ht, hmt, .of_look hl hn ht, .of_look hr hn' hy, hahead⟩

/-- An advance of compilers that see the same. -/
theorem keepsUp_advance (h : Alike (n + 1) (m + 1) s s') (hk : s.current.kind ≠ .eof) :
    KeepsUp (Alike n m) advance advance s s' := by
  obtain ⟨hc, hcontinues⟩ := h.ahead.resolve_left hk
  have hm : Matched { s with previous := s.current } { s' with previous := s'.current } :=
    ⟨hc, h.matched.chunk, h.matched.groups, h.matched.depth⟩
  have hlook : KeepsUp (Alike n m) look look { s with previous := s.current }
      { s' with previous := s'.current } :=
    keepsUp_look hm hcontinues ⟨h.left.eofLast.last, h.left.eofLast.unread⟩
      ⟨h.right.eofLast.last, h.right.eofLast.unread⟩
      (Nat.le_of_succ_le_succ (h.left.length_unread hk))
      (Nat.le_of_succ_le_succ (h.right.length_unread (hc ▸ hk)))
  exact hlook

/-- Compilers that see the same have something left to read. -/
theorem Alike.exists_succ (h : Alike n m s s') (hk : s.current.kind ≠ .eof) :
    ∃ n' m', n = n' + 1 ∧ m = m' + 1 := by
  obtain ⟨hc, -⟩ := h.ahead.resolve_left hk
  obtain ⟨n', rfl⟩ := Nat.exists_eq_add_of_le' (Nat.le_of_add_left_le (h.left.length_unread hk))
  obtain ⟨m', rfl⟩ :=
    Nat.exists_eq_add_of_le' (Nat.le_of_add_left_le (h.right.length_unread (hc ▸ hk)))
  exact ⟨n', m', rfl, rfl⟩

section Loops

variable {ι : Type} {holds : TokenKind → Bool} {rounds rounds' : List α}

/-- **Loops of two runs**, by induction on the rounds of the first one. The loop stops at the end of
the text, and each round uses up a lexeme before it goes on, so that neither budget is used up
before. -/
theorem persists_rounds (loop : ι → List α → CompileM β)
    (hend : ∀ {i rounds rounds' s s'}, Behind s s' → Lags (loop i rounds) (loop i rounds') s s')
    (hround : ∀ {i a a' rounds rounds' n m s s'}, Alike (n + 1) (m + 1) s s' →
      s.current.kind ≠ .eof →
      (∀ {j t t'}, Alike n m t t' →
        Persists (Alike (n + 1) (m + 1)) (loop j rounds) (loop j rounds') t t') →
      Persists (Alike (n + 1) (m + 1)) (loop i (a :: rounds)) (loop i (a' :: rounds')) s s')
    {i : ι} (h : Alike n m s s') (hn : n ≤ rounds.length) (hm : m ≤ rounds'.length) :
    Persists (Alike n m) (loop i rounds) (loop i rounds') s s' := by
  induction rounds generalizing n m s s' i rounds' with
  | nil => exact (hend (h.behind (h.left.mono hn).eof)).persists
  | cons a rounds ih =>
    by_cases hk : s.current.kind = .eof
    · exact (hend (h.behind hk)).persists
    obtain ⟨n, m, rfl, rfl⟩ := h.exists_succ hk
    cases rounds' with
    | nil => exact absurd hm (Nat.not_succ_le_zero m)
    | cons a' rounds' =>
      exact hround h hk fun ht =>
        (ih ht (Nat.le_of_succ_le_succ hn) (Nat.le_of_succ_le_succ hm)).mono fun h =>
        h.mono n.le_succ m.le_succ

/-- A loop that stops at the end does nothing there. -/
theorem repeatWhile_of_eof {step : CompileM Unit} (heof : holds .eof = false)
    (hk : s.current.kind = .eof) :
    repeatWhile holds step rounds s = .ok () s := by
  cases rounds with
  | nil => rfl
  | cons a rounds => exact repeatWhile_cons_eq_ok.mpr (.inr ⟨hk ▸ heof, rfl⟩)

theorem persists_repeatWhile (heof : holds .eof = false) (h : Alike n m s s')
    (hn : n ≤ rounds.length) (hm : m ≤ rounds'.length) :
    Persists (Alike n m) (repeatWhile holds advance rounds)
      (repeatWhile holds advance rounds') s s' := by
  refine persists_rounds (fun (_ : Unit) rounds => repeatWhile holds advance rounds) (fun hb => ?_)
    (fun h hk hrest => ?_) (i := ()) h hn hm
  · exact lags_of_still hb (repeatWhile_of_eof heof hb.ended.eof) fun k =>
      preserves_repeatWhile (steady_size k).advance _
  · refine h.persists_currentKind_bind (fun hb => absurd hb.ended.eof hk) fun _ => ?_
    split
    · exact keepsUp_bind (keepsUp_advance h hk) fun _ _ _ ht => hrest (j := ()) ht
    · exact persists_pure () h

theorem persists_skipLines (h : Alike n m s s') :
    Persists (Alike n m) skipLines skipLines s s' := by
  have hloop : Persists (Alike _ _) (repeatWhile (· = .line) advance _)
      (repeatWhile (· = .line) advance _) s s' :=
    persists_repeatWhile rfl h.tight (length_remaining_le_budget s) (length_remaining_le_budget s')
  exact hloop.mono fun ht => ht.mono h.left.length h.right.length

end Loops

/-- At its end a compiler finds no symbol. -/
theorem opens_consume {symbol : Symbol} {expected : String} (hk : s.current.kind = .eof) :
    Opens (consume symbol expected) s := by
  refine ⟨.parse (.unexpectedToken expected s.current.token), s, ?_, .inr ⟨_, rfl, hk⟩⟩
  show (if s.current.kind = .symbol symbol then advance else fail _) s = _
  rw [if_neg (by rw [hk]; exact nofun)]
  rfl

theorem keepsUp_consume {symbol : Symbol} {expected : String} (h : Alike n m s s') :
    KeepsUp (Alike n m) (consume symbol expected) (consume symbol expected) s s' := by
  by_cases hk : s.current.kind = .eof
  · exact (opens_consume hk).keepsUp
  obtain ⟨n, m, rfl, rfl⟩ := h.exists_succ hk
  intro b t' hy
  obtain ⟨hsymbol, hadvance⟩ := consume_eq_ok.mp hy
  rw [(h.ahead.resolve_left hk).1] at hsymbol
  have hconsume : consume symbol expected s = advance s := by
    show (if s.current.kind = .symbol symbol then advance else fail _) s = _
    rw [if_pos hsymbol]
  rw [Opens, hconsume]
  exact (keepsUp_advance h hk b t' hadvance).imp_right fun ⟨t, ht, h⟩ => ⟨t, ht,
    h.mono n.le_succ m.le_succ⟩

/-! ## Writing -/

section Writing

variable {R : Compiler → Compiler → Prop}

theorem persists_emit_bind {op op' : Op} {offset offset' : Nat} {f g : Nat → CompileM β}
    (h : Persists R (f s.chunk.code.size) (g s'.chunk.code.size)
      { s with chunk := s.chunk.push op offset } { s' with chunk := s'.chunk.push op' offset' }) :
    Persists R (emit op offset >>= f) (emit op' offset' >>= g) s s' := h

/-- The same instruction in both runs. -/
theorem Alike.persists_emit_bind {op : Op} {offset : Nat} {f g : Nat → CompileM β}
    (h : Alike n m s s')
    (hf : ∀ {t t'}, Alike n m t t' → Persists R (f s.chunk.code.size) (g s.chunk.code.size) t t') :
    Persists R (emit op offset >>= f) (emit op offset >>= g) s s' := by
  refine Compiler.persists_emit_bind ?_
  rw [h.matched.chunk]
  exact hf (h.withChunk rfl)

theorem lags_emit {op op' : Op} {offset offset' : Nat} (h : Behind s s') :
    Lags (do let _ ← emit op offset : CompileM Unit) (do let _ ← emit op' offset') s s' := by
  refine persists_emit_bind fun b t' hy => .inr (.inl ⟨(), _, rfl, h.ended.of_eq rfl rfl rfl, ?_⟩)
  obtain ⟨-, rfl⟩ := pure_eq_ok.mp hy
  simpa [Chunk.push] using h.size

theorem lags_land {jump jump' : Nat} {operator operator' : Token} (h : Behind s s') :
    Lags (land jump operator) (land jump' operator') s s' := by
  intro b t' hy
  obtain ⟨hsize, rfl⟩ := land_eq_ok.mp hy
  refine .inr (.inl ⟨(), _, land_eq_ok.mpr ⟨h.size.trans_lt hsize, rfl⟩,
    h.ended.of_eq rfl rfl rfl, ?_⟩)
  simpa [Chunk.retarget] using h.size

theorem keepsUp_land {jump : Nat} {operator : Token} (h : Alike n m s s') :
    KeepsUp (Alike n m) (land jump operator) (land jump operator) s s' := by
  intro b t' hy
  obtain ⟨hsize, rfl⟩ := land_eq_ok.mp hy
  have hc := h.matched.chunk
  exact .inr ⟨_, land_eq_ok.mpr ⟨hc ▸ hsize, rfl⟩, h.withChunk (by rw [hc])⟩

/-- A part, and then the same instruction in both runs. -/
theorem Persists.bind_emit {x y : CompileM Unit} {op : Op} {offset : Nat}
    (h : Persists (Alike n m) x y s s') :
    Persists (Alike n m) (do x; let _ ← emit op offset) (do y; let _ ← emit op offset) s s' :=
  persists_bind h (fun _ _ _ ht => ht.persists_emit_bind fun ht => persists_pure () ht)
    fun _ _ _ _ => lags_emit

/-- A part, and then the landing of the same jump in both runs. -/
theorem Persists.bind_land {x y : CompileM Unit} {jump : Nat} {operator : Token}
    (h : Persists (Alike n m) x y s s') :
    Persists (Alike n m) (do x; land jump operator) (do y; land jump operator) s s' :=
  persists_bind h (fun _ _ _ ht => (keepsUp_land ht).persists) fun _ _ _ _ => lags_land

end Writing

/-! ## Operands -/

/-- Nothing begins at the end. -/
theorem opens_leading (part : Precedence → CompileM Unit) (f : Unit → CompileM α) (h : Within 0 s) :
    Opens (advance >>= fun _ => leading part >>= f) s := by
  have hunread := h.ended h.eof
  have hadvance : advance s =
      .ok () { s with previous := s.current, ends := s.ends + 1, current := s.last } := by
    show look.go (decide (0 < s.groups)) s.unread { s with previous := s.current } = _
    rw [hunread]
    rfl
  rw [Opens, bind_of_ok hadvance]
  refine Opens.bind ⟨_, _, leading_of_stuck part (.inl h.eof), .inr ⟨_, rfl, h.eof⟩⟩

theorem opens_operand (levels : Nat) (level : Precedence) (h : Within 0 s) :
    Opens (operand levels level) s := by
  cases levels with
  | zero => exact ⟨.parse (.nestingTooDeep s.current.token), _, rfl, .inr ⟨_, rfl, h.eof⟩⟩
  | succ levels =>
    have hskip := skipLines_of_stuck (s := { s with depth := s.depth + 1 }) (.inl h.eof)
    have hstart : Within 0 { s with depth := s.depth + 1 } := h.of_eq rfl rfl rfl
    show Opens (skipLines >>= fun _ => advance >>= fun _ =>
      leading (fun p => operand levels p) >>= fun _ =>
      budget >>= fun os => following (fun p => operand levels p) level os >>= fun _ => leave) _
    rw [Opens, bind_of_ok hskip]
    exact opens_leading _ _ hstart

theorem keepsUp_literal {op : Op} (h : Alike n m s s') :
    KeepsUp (Alike n m) (literal op) (literal op) s s' := by
  intro b t' hy
  obtain rfl := literal_eq_ok.mp hy
  exact .inr ⟨_, literal_eq_ok.mpr rfl, h.withChunk (by rw [h.matched.previous, h.matched.chunk])⟩

theorem keepsUp_numberLiteral (h : Alike n m s s') :
    KeepsUp (Alike n m) numberLiteral numberLiteral s s' := by
  intro b t' hy
  obtain ⟨v, hv, slot, c, hc, rfl⟩ := numberLiteral_eq_ok.mp hy
  rw [h.matched.previous] at hv
  rw [h.matched.chunk] at hc
  exact .inr ⟨_, numberLiteral_eq_ok.mpr ⟨v, hv, slot, c, hc, rfl⟩,
    h.withChunk (by rw [h.matched.previous])⟩

theorem keepsUp_stringLiteral (h : Alike n m s s') :
    KeepsUp (Alike n m) stringLiteral stringLiteral s s' := by
  intro b t' hy
  obtain ⟨v, hv, slot, c, hc, rfl⟩ := stringLiteral_eq_ok.mp hy
  rw [h.matched.previous] at hv
  rw [h.matched.chunk] at hc
  exact .inr ⟨_, stringLiteral_eq_ok.mpr ⟨v, hv, slot, c, hc, rfl⟩,
    h.withChunk (by rw [h.matched.previous])⟩

theorem keepsUp_name (h : Alike n m s s') : KeepsUp (Alike n m) name name s s' := by
  intro b t' hy
  obtain ⟨slot, c, hc, rfl⟩ := name_eq_ok.mp hy
  rw [h.matched.previous, h.matched.chunk] at hc
  exact .inr ⟨_, name_eq_ok.mpr ⟨slot, c, hc, rfl⟩, h.withChunk (by rw [h.matched.previous])⟩

section Parts

variable {levels : Nat} (hp : ∀ {p : Precedence} {n m : Nat} {s s' : Compiler}, Alike n m s s' →
  Persists (Alike n m) (operand levels p) (operand levels p) s s')
include hp

theorem persists_group (h : Alike n m s s') :
    Persists (Alike n m) (group (operand levels .or)) (group (operand levels .or)) s s' := by
  refine persists_modify_bind (persists_bind (hp (h.withGroups (· + 1))) (fun _ _ _ ht => ?_)
    fun _ _ t _ ht => ?_)
  · exact persists_modify_bind (keepsUp_consume (ht.withGroups (· - 1))).persists
  · exact (opens_consume (s := { t with groups := t.groups - 1 }) ht.ended.eof).persists

theorem persists_leading (h : Alike n m s s') :
    Persists (Alike n m) (leading fun p => operand levels p)
      (leading fun p => operand levels p) s s' := by
  refine persists_get_bind (by dsimp only; rw [h.matched.previous]) ?_
  dsimp only
  split
  · exact (keepsUp_literal h).persists
  · exact (keepsUp_literal h).persists
  · exact (keepsUp_literal h).persists
  · exact (keepsUp_numberLiteral h).persists
  · exact (keepsUp_stringLiteral h).persists
  · exact (keepsUp_name h).persists
  · exact persists_group hp h
  · split
    · exact (hp h).bind_emit
    · exact persists_fail

/-! ## Joints -/

theorem persists_arguments {rounds rounds' : List α} {count : Nat} (h : Alike n m s s')
    (hn : n ≤ rounds.length) (hm : m ≤ rounds'.length) :
    Persists (Alike n m) (arguments (operand levels .or) count rounds)
      (arguments (operand levels .or) count rounds') s s' := by
  have hsize : ∀ k count (rounds : List α), Preserves (fun s => k ≤ s.chunk.code.size)
      (arguments (operand levels .or) count rounds) :=
    fun k => (steady_size k).arguments ((steady_size k).operand levels)
  refine persists_rounds (fun count rounds => arguments (operand levels .or) count rounds)
    (fun {count rounds _ _ _} hb => ?_) (fun {count _ _ _ _ _ _ _ _} h _ hrest => ?_) h hn hm
  · cases rounds with
    | nil => exact lags_of_still hb rfl fun k => hsize k _ _
    | cons a rounds => exact (opens_operand levels .or hb.ended).bind.persists
  · refine persists_bind_currentKind (hp h) (fun {t t'} ht => ?_) fun {t t'} ht hkt => ?_
    · exact lags_of_still (a := count + 1) ht (congrFun (if_neg nofun) t) fun k =>
        preserves_currentKind_bind fun _ =>
        preserves_ite (preserves_bind (steady_size k).advance fun _ => hsize k _ _)
          (preserves_pure _)
    · split
      · exact keepsUp_bind (keepsUp_advance ht hkt) fun _ _ _ ht => hrest ht
      · exact persists_pure _ ht

omit hp in
/-- At its end a compiler does not find the end of a call. -/
theorem opens_callEnd (paren : Token) (count : Nat) (h : s.current.kind = .eof) :
    Opens (callEnd paren count) s :=
  (opens_consume (s := { s with groups := s.groups - 1 }) h).bind

omit hp in
theorem persists_callEnd {paren : Token} {count : Nat} (h : Alike n m s s') :
    Persists (Alike n m) (callEnd paren count) (callEnd paren count) s s' := by
  refine persists_modify_bind (keepsUp_bind (keepsUp_consume (h.withGroups (· - 1)))
    fun _ t t' ht => ?_)
  split
  · exact ht.persists_emit_bind fun ht => persists_pure () ht
  · exact persists_fail

theorem persists_call {paren : Token} (h : Alike n m s s') :
    Persists (Alike n m) (call (operand levels .or) paren)
      (call (operand levels .or) paren) s s' := by
  rw [call_eq]
  refine persists_modify_bind (persists_bind_currentKind (persists_skipLines (h.withGroups (· + 1)))
    (fun ht => ?_) fun {t t'} ht _ => ?_)
  · rw [if_neg nofun]
    exact (opens_operand levels .or ht.ended).bind.bind.persists
  split
  · exact persists_callEnd ht
  · refine persists_budget_bind
      (persists_bind (persists_arguments hp ht.tight (length_remaining_le_budget t)
      (length_remaining_le_budget t')) (fun _ _ _ ht' =>
        persists_callEnd (ht'.mono ht.left.length ht.right.length))
      fun _ _ _ _ ht' => (opens_callEnd _ _ ht'.ended.eof).persists)

theorem persists_conjunction {p : Precedence} {operator : Token} (h : Alike n m s s') :
    Persists (Alike n m) (conjunction (operand levels p) operator)
      (conjunction (operand levels p) operator) s s' := by
  refine h.persists_emit_bind fun h => h.persists_emit_bind fun h =>
    h.persists_emit_bind fun h => ?_
  exact (hp h).bind_land

theorem persists_alternative {p : Precedence} {operator : Token} (h : Alike n m s s') :
    Persists (Alike n m) (alternative (operand levels p) operator)
      (alternative (operand levels p) operator) s s' := by
  refine h.persists_emit_bind fun h => h.persists_emit_bind fun h =>
    h.persists_emit_bind fun h => ?_
  refine keepsUp_bind (keepsUp_land h) fun _ _ _ ht => ht.persists_emit_bind fun ht => ?_
  exact (hp ht).bind_land

theorem persists_join {joint : Joint} (h : Alike n m s s') : Persists (Alike n m)
    (join (fun p => operand levels p) joint) (join (fun p => operand levels p) joint) s s' := by
  refine persists_get_bind (by dsimp only; rw [h.matched.previous]) ?_
  cases joint with
  | call => exact persists_call hp h
  | binary op =>
    exact (hp h).bind_emit
  | and => exact persists_conjunction hp h
  | or => exact persists_alternative hp h

omit hp in
theorem lags_following {level : Precedence} {rounds rounds' : List α} (h : Behind s s') :
    Lags (following (fun p => operand levels p) level rounds)
      (following (fun p => operand levels p) level rounds') s s' := by
  refine lags_of_still (a := ()) h ?_ fun k =>
    (steady_size k).following ((steady_size k).operand levels) _ _
  cases rounds with
  | nil => rfl
  | cons a rounds =>
    refine following_cons_eq_ok.mpr (.inr ⟨fun joint hj => ?_, rfl⟩)
    rw [h.ended.eof] at hj
    cases hj

theorem persists_following {level : Precedence} {rounds rounds' : List α} (h : Alike n m s s')
    (hn : n ≤ rounds.length) (hm : m ≤ rounds'.length) :
    Persists (Alike n m) (following (fun p => operand levels p) level rounds)
      (following (fun p => operand levels p) level rounds') s s' := by
  refine persists_rounds (fun (_ : Unit) rounds => following
    (fun p => operand levels p) level rounds) lags_following
    (fun h hk hrest => ?_) (i := ()) h hn hm
  refine h.persists_currentKind_bind (fun hb => absurd hb.ended.eof hk) fun _ => ?_
  split
  · split
    · refine keepsUp_bind (keepsUp_advance h hk) fun _ _ _ ht => ?_
      refine persists_bind (persists_join hp ht) (fun _ _ _ ht => ?_) fun _ _ _ _ => lags_following
      exact hrest (j := ()) ht
    · exact persists_pure () h
  · exact persists_pure () h

end Parts

/-! ## Expressions -/

theorem lags_leave (h : Behind s s') : Lags leave leave s s' := by
  intro b t' hy
  obtain rfl := modify_eq_ok.mp hy
  exact .inr (.inl ⟨(), _, rfl, h.ended.of_eq rfl rfl rfl, h.size⟩)

/-- **Operands of two runs**, by induction on the number of operands that may still be opened. -/
theorem persists_operand (levels : Nat) {level : Precedence} (h : Alike n m s s') :
    Persists (Alike n m) (operand levels level) (operand levels level) s s' := by
  induction levels generalizing n m s s' level with
  | zero => exact fun _ _ hy => (operand_zero_eq_ok.mp hy).elim
  | succ levels ih =>
    by_cases hk : s.current.kind = .eof
    · exact (opens_operand _ level (h.left.of_eof hk)).persists
    refine persists_modify_bind (persists_bind (persists_skipLines (h.withDepth (· + 1)))
      (fun _ t t' ht => ?_)
      fun _ _ _ _ ht => (opens_leading _ _ ht.ended).persists)
    by_cases hkt : t.current.kind = .eof
    · exact (opens_leading _ _ (ht.left.of_eof hkt)).persists
    obtain ⟨n, m, rfl, rfl⟩ := ht.exists_succ hkt
    refine keepsUp_bind (keepsUp_advance ht hkt) fun _ _ _ ht =>
      persists_bind (persists_leading ih ht)
      (fun _ r r' hr => persists_budget_bind ?_)
      fun _ _ _ _ hr => persists_budget_bind
        (lags_bind (lags_following hr) fun _ _ _ _ => lags_leave)
    refine persists_bind (persists_following ih hr.tight (length_remaining_le_budget r)
      (length_remaining_le_budget r'))
      (fun _ _ _ hend => ?_) fun _ _ _ _ => lags_leave
    have hend := hend.mono (hr.left.length.trans n.le_succ) (hr.right.length.trans m.le_succ)
    exact persists_modify_bind (persists_pure () (hend.withDepth (· - 1)))

theorem persists_expression (h : Alike n m s s') :
    Persists (Alike n m) expression expression s s' :=
  persists_get_bind (by rw [h.matched.depth]) (persists_operand _ h)

/-- An expression of two runs uses something up in both of them. -/
theorem Alike.persists_expression (h : Alike (n + 1) (m + 1) s s') :
    Persists (Alike n m) expression expression s s' := by
  intro b t' hy
  refine (Compiler.persists_expression h b t' hy).imp_right (.imp_right ?_)
  rintro ⟨t, ht, halike⟩
  exact ⟨t, ht, halike.matched, h.left.of_operand (expression_eq_ok.mp ht),
    h.right.of_operand (expression_eq_ok.mp hy), halike.ahead⟩

/-- At its end a compiler has all expressions of its source. -/
theorem expressions_of_eof (first : Bool) (rounds : List α) (h : s.current.kind = .eof) :
    expressions first rounds s = .ok () s := by
  cases rounds with
  | nil => rfl
  | cons a rounds => exact expressions_cons_eq_ok.mpr ⟨s, repeatWhile_of_eof rfl h, .inl ⟨h, rfl⟩⟩

theorem lags_expressions {first first' : Bool} {rounds rounds' : List α} (h : Behind s s') :
    Lags (expressions first rounds) (expressions first' rounds') s s' :=
  lags_of_still h (expressions_of_eof _ _ h.ended.eof) fun k => (steady_size k).expressions _ _

/-- An expression of a program and what follows it, if something is left of the first text. -/
theorem persists_expressionThen {R : Compiler → Compiler → Prop} {x y : CompileM Unit}
    (h : Alike (n + 1) (m + 1) s s') (hxy : ∀ {t t'}, Alike n m t t' → Persists R x y t t')
    (hl : ∀ {t t'}, Behind t t' → Lags x y t t') :
    Persists R (expressionThen x) (expressionThen y) s s' := by
  refine persists_bind_currentKind h.persists_expression (fun ht => ?_) fun ht _ => ?_
  · intro b r' hy
    obtain ⟨-, hy⟩ | ⟨-, hy⟩ := ite_eq_ok.mp (currentKind_bind_eq_ok.mp hy)
    · exact hl ht b r' hy
    · exact (fail_eq_ok.mp (get_bind_eq_ok.mp hy)).elim
  · split
    · exact hxy ht
    · exact fun _ _ hy => (fail_eq_ok.mp hy).elim

/-- **Expressions of two runs.** -/
theorem persists_expressions {first : Bool} {rounds rounds' : List α} (h : Alike n m s s')
    (hn : n ≤ rounds.length) (hm : m ≤ rounds'.length) :
    Persists (Alike n m) (expressions first rounds) (expressions first rounds') s s' := by
  refine persists_rounds (fun first rounds => expressions first rounds) lags_expressions
    (fun {_ _ _ _ rounds' _ _ s s'} h _ hrest => ?_) h hn hm
  rw [expressions_cons, expressions_cons]
  have hseparators := persists_repeatWhile (show isSeparator .eof = false from rfl) h.tight
    (length_remaining_le_budget s) (length_remaining_le_budget s')
  refine persists_budget_bind (persists_bind_currentKind
    (hseparators.mono fun ht => ht.mono h.left.length h.right.length) (fun {t t'} ht => ?_)
      fun ht hkt => ?_)
  · have hthen :=
      fun k => (steady_size k).expressionThen ((steady_size k).expressions false rounds')
    exact lags_of_still (a := ()) ht (congrFun (if_neg (not_not_intro rfl)) t) fun k =>
      preserves_currentKind_bind fun _ => preserves_ite (preserves_ite (hthen k)
        (preserves_get_bind fun _ => (steady_size k).emit_bind fun _ => hthen k)) (preserves_pure _)
  · rw [if_pos hkt, if_pos hkt]
    split
    · exact persists_expressionThen ht hrest lags_expressions
    · refine persists_get_bind (by rw [(ht.ahead.resolve_left hkt).1])
        (ht.persists_emit_bind fun ht => ?_)
      exact persists_expressionThen ht hrest lags_expressions

/-! ## Programs -/

/-- **The programs of a text that ends with a line feed and of the same text with more behind
it.** -/
theorem persists_program (source tail : String) :
    Persists (fun t t' => ∃ n m, Alike n m t t') program program (ofSource (source ++ "\n"))
      (ofSource (source ++ "\n" ++ tail)) := by
  have hcontinues : Continues (ofSource (source ++ "\n")).unread
      (ofSource (source ++ "\n" ++ tail)).unread := by
    show Continues (Cursor.outcomes { rest := (source ++ "\n").toList })
      (Cursor.outcomes { rest := (source ++ "\n" ++ tail).toList })
    rw [String.toList_append (s := source ++ "\n")]
    exact Cursor.continues_outcomes (by simp) tail.toList 0
  have hlook : KeepsUp (Alike _ _) look look { ofSource (source ++ "\n") with previous := .eof 0 }
      { ofSource (source ++ "\n" ++ tail) with previous := .eof 0 } :=
    keepsUp_look ⟨rfl, rfl, rfl, rfl⟩ hcontinues (eofLast_ofSource _) (eofLast_ofSource _)
      (Nat.le_refl _) (Nat.le_refl _)
  refine keepsUp_bind (x := advance) (y := advance) hlook fun _ t t' ht => ?_
  refine persists_budget_bind ((persists_expressions ht.tight (length_remaining_le_budget t)
    (length_remaining_le_budget t')).mono fun h => ⟨_, _, h⟩)

end Compiler

/-- **Faults that more text does not repair.** If a text that ends with a line feed has a fault that
is not about a string without an end or about the end of the text, then it has a fault with any more
text behind it. -/
theorem compile_extended_eq_error {source tail : String} {e : SourceError}
    (h : compile (source ++ "\n") = .error e)
    (hstring : ∀ offset, e ≠ .lex (.unterminatedString offset))
    (heof : ∀ t, e.token? = some t → t.kind ≠ .eof) :
    ∃ e', compile (source ++ "\n" ++ tail) = .error e' := by
  cases hy : Compiler.program (.ofSource (source ++ "\n" ++ tail)) with
  | error e' t' => exact ⟨e', by rw [compile, EStateM.run, hy]⟩
  | ok u t' =>
    exfalso
    rw [compile, EStateM.run] at h
    rcases Compiler.persists_program source tail u t' hy with ⟨e', t, ht, hopen⟩ | ⟨⟨⟩, t, ht, -⟩
      | ⟨t, ht, -⟩
    · rw [ht] at h
      cases h
      rcases hopen with ⟨offset, rfl⟩ | ⟨found, hfound, hk⟩
      · exact hstring offset rfl
      · exact heof found hfound hk
    · rw [ht] at h
      cases h
    · rw [ht] at h
      cases h

/-- An unknown escape in a call that is not closed, and the same call closed. -/
theorem compile_extended_eq_error_escape :
    compile "f('\\z'\n" = .error (.parse (.invalidEscape 3 'z')) ∧
      ∃ e', compile "f('\\z'\n)" = .error e' := by
  have h : compile ("f('\\z'" ++ "\n") = .error (.parse (.invalidEscape 3 'z')) := by cbv
  have hmore : ∃ e', compile ("f('\\z'" ++ "\n" ++ ")") = .error e' :=
    compile_extended_eq_error h (fun _ he => by cases he) fun _ ht => by cases ht
  exact ⟨h, hmore⟩

end LuaExpr
