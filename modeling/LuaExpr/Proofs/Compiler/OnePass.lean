import LuaExpr.Proofs.Compiler.Budget
import LuaExpr.Proofs.Compiler.OnDemand
import LuaExpr.Proofs.Lexeme.Insertion
import LuaExpr.Proofs.Lexeme.Tiling
/-!
# One pass

The compiler on demand comes to an end, and does the same as the compiler. Both are run side by
side: `Reader.compiler` is the compiler that has read in advance what the compiler on demand has
still to ask for. For a loop this is shown by induction on the budget that the compiler has for it,
which lasts up to the end of the source, and for an expression by induction on the number of
expressions that may still be opened.

* `OnDemand.Orderly`: what holds of the events at all times. `OnDemand.Ready`: what holds of a
  reader between two parts.
* `OnDemand.Tracked`: a result of the compiler on demand and the same result of the compiler.
* `OnDemand.tracks_operand`, `OnDemand.tracks_program`: operands and programs.
* `compile_onDemand`: compilation ends after one pass.
-/

namespace LuaExpr

/-- The compiler that has read everything in advance. -/
def Reader.compiler (source : String) (r : Reader) : Compiler :=
  { r.writer with
    unread := r.cursor.outcomes, last := .eof source.utf8ByteSize,
      ends := r.events.countP Event.isEnd }

theorem Reader.compiler_previous {source : String} {r : Reader} :
    (r.compiler source).previous = r.previous := rfl

/-- The compiler on demand after the lexer has given the end of the source. -/
def Reader.atEnd (r : Reader) : Reader :=
  { r with
    cursor := r.cursor.skipBlanks, current := .eof r.cursor.skipBlanks.offset,
    events := .read (.ok (.eof r.cursor.skipBlanks.offset)) :: r.events }

namespace OnDemand

open Compiler (isSkipped isSeparator)

variable {α β : Type} {source : String} {levels : Nat} {r : Reader} {P Q : Reader → Prop}

/-! ## Readers -/

/-- What holds at all times: a reading that does not give the end of the source has moved the lexer
on by a byte at the least, there have been at most two that do, and no more expressions have been
open than are allowed. -/
structure Orderly (source : String) (r : Reader) : Prop where
  isAt : r.cursor.IsAt source
  reads : r.events.countP Event.isRead ≤ r.cursor.offset + r.events.countP Event.isEnd
  ends : r.events.countP Event.isEnd ≤ 2
  active : ∀ earlier, earlier <:+ r.events → Event.active earlier ≤ maxDepth

theorem Orderly.reads_le (h : Orderly source r) :
    r.events.countP Event.isRead ≤ source.utf8ByteSize + 2 := by
  have hreads := h.reads
  have hoffset := h.isAt.offset_le
  have hends := h.ends
  omega

/-- The expressions that are open are counted, and so many more may still be opened. -/
structure Nested (source : String) (levels : Nat) (r : Reader) : Prop extends Orderly source r where
  depth : Event.active r.events = r.depth
  room : r.depth + levels = maxDepth

/-- The end of the source has been read once if it is the current lexeme, and it has not been read
otherwise. -/
structure Ready (source : String) (levels : Nat)
    (r : Reader) : Prop extends Nested source levels r where
  drained : r.current.kind = .eof → r.cursor.outcomes = []
  once : r.events.countP Event.isEnd = if r.current.kind = .eof then 1 else 0

theorem Nested.of_eq {r' : Reader} (h : Nested source levels r) (hc : r'.cursor = r.cursor)
    (he : r'.events = r.events) (hd : r'.depth = r.depth) : Nested source levels r' := by
  refine ⟨⟨hc ▸ h.isAt, ?_, he ▸ h.ends, he ▸ h.active⟩, ?_, hd ▸ h.room⟩
  · rw [he, hc]
    exact h.reads
  · rw [he, hd]
    exact h.depth

theorem Ready.of_eq {r' : Reader} (h : Ready source levels r) (hc : r'.cursor = r.cursor)
    (he : r'.events = r.events) (hd : r'.depth = r.depth) (hcurrent : r'.current = r.current) :
    Ready source levels r' := by
  refine ⟨h.toNested.of_eq hc he hd, hcurrent ▸ hc ▸ h.drained, ?_⟩
  rw [he, hcurrent]
  exact h.once

/-- The budget of a loop lasts up to the end of the source. -/
theorem Ready.within (h : Ready source levels r) :
    (r.compiler source).Within (Except.ok r.current :: r.cursor.outcomes).length :=
  ⟨⟨rfl, fun _ hl => Cursor.kind_ne_eof_of_mem_outcomes hl⟩, h.drained,
    Compiler.length_remaining_le_budget _⟩

/-! ## Results -/

/-- A result of the compiler on demand, which leaves the reader in a certain way if it is a success,
and the same result of the compiler. -/
inductive Tracked (source : String) (P : Reader → Prop) :
    Option (Except SourceError α × Reader) → EStateM.Result SourceError Compiler α → Prop
  | ok (a : α) {r : Reader} (h : P r) :
      Tracked source P (some (.ok a, r)) (.ok a (r.compiler source))
  | error (e : SourceError) {r : Reader} (h : Orderly source r) :
      Tracked source P (some (.error e, r)) (.error e (r.compiler source))

/-- A part of the compiler on demand ends and does the same as the same part of the compiler. -/
abbrev Tracks (source : String) (P : Reader → Prop) (x : ReadM α) (y : CompileM α)
    (r : Reader) : Prop :=
  Tracked source P (x r) (y (r.compiler source))

section Results

variable {x : ReadM α} {y : CompileM α} {f : α → ReadM β} {g : α → CompileM β}

theorem bind_of_ok {a : α} {r' : Reader} (h : x r = some (.ok a, r')) : (x >>= f) r = f a r' := by
  show (x r >>= fun p => _) = _
  rw [h]
  rfl

theorem bind_of_error {e : SourceError} {r' : Reader} (h : x r = some (.error e, r')) :
    (x >>= f) r = some (.error e, r') := by
  show (x r >>= fun p => _) = _
  rw [h]
  rfl

/-- One part after the other. The second one may use that the compiler has succeeded with the first
one. -/
theorem tracks_bind (h : Tracks source P x y r) (hf : ∀ a r', P r' →
    y (r.compiler source) = .ok a (r'.compiler source) → Tracks source Q (f a) (g a) r') :
    Tracks source Q (x >>= f) (y >>= g) r := by
  have hy : (y >>= g) (r.compiler source) = EStateM.bind y g (r.compiler source) := rfl
  rw [Tracks, hy, EStateM.bind]
  rw [Tracks] at h
  generalize hx : x r = o at h
  generalize hy : y (r.compiler source) = p at h hf
  cases h with
  | ok a hP =>
    rw [bind_of_ok hx]
    exact hf a _ hP rfl
  | error e hr =>
    rw [bind_of_error hx]
    exact .error e hr

theorem tracks_pure (a : α) (h : P r) : Tracks source P (pure a) (pure a) r := .ok a h

theorem tracks_fail {e : ParseError} (h : Orderly source r) :
    Tracks source P (fail e : ReadM α) (Compiler.fail e) r := .error _ h

theorem tracks_modify_bind {F : Reader → Reader} {G : Compiler → Compiler} {f : Unit → ReadM β}
    {g : Unit → CompileM β} (hFG : (F r).compiler source = G (r.compiler source))
    (h : Tracks source Q (f ()) (g ()) (F r)) :
    Tracks source Q (modify F >>= f) (modify G >>= g) r := by
  rw [Tracks, hFG] at h
  exact h

theorem currentKind_eq (r : Reader) : currentKind r = some (.ok r.current.kind, r) := rfl

theorem tracks_budget_bind {f : ReadM β} {g : List (Except LexError Lexeme) → CompileM β}
    (h : Tracks source Q f (g (.ok r.current :: r.cursor.outcomes)) r) :
    Tracks source Q f (Compiler.budget >>= g) r := h

theorem tracks_currentKind_bind {f : TokenKind → ReadM β} {g : TokenKind → CompileM β}
    (h : Tracks source Q (f r.current.kind) (g r.current.kind) r) :
    Tracks source Q (currentKind >>= f) (Compiler.currentKind >>= g) r := h

theorem tracks_get_bind_left {f : Reader → ReadM β} {g : CompileM β}
    (h : Tracks source Q (f r) g r) :
    Tracks source Q (get >>= f) g r := h

theorem tracks_get_bind_right {f : ReadM β} {g : Compiler → CompileM β}
    (h : Tracks source Q f (g (r.compiler source)) r) : Tracks source Q f (get >>= g) r := h

theorem tracks_get_bind {f : Reader → ReadM β} {g : Compiler → CompileM β}
    (h : Tracks source Q (f r) (g (r.compiler source)) r) :
    Tracks source Q (get >>= f) (get >>= g) r := h

end Results

/-! ## Reading -/

theorem next_eq (r : Reader) : next r = some (.ok r.cursor.next.1,
    { r with cursor := r.cursor.next.2, events := .read r.cursor.next.1 :: r.events }) := rfl

/-- The lexer gives a lexeme, which becomes the current one. -/
theorem search_of_ok {inside : Bool} {l : Lexeme} {d : Cursor} (h : r.cursor.next = (.ok l, d)) :
    search inside r = (if isSkipped inside l.kind then search inside else pure () : ReadM Unit)
      { r with cursor := d, current := l, events := .read (.ok l) :: r.events } := by
  have hnext := next_eq r
  rw [h] at hnext
  conv_lhs => rw [search, bind_of_ok hnext]
  rfl

theorem search_of_error {inside : Bool} {e : LexError} {d : Cursor}
    (h : r.cursor.next = (.error e, d)) :
    search inside r = some (.error (.lex e),
      { r with cursor := d, events := .read (.error e) :: r.events }) := by
  have hnext := next_eq r
  rw [h] at hnext
  rw [search, bind_of_ok hnext]
  rfl

/-- One more event keeps the bound on open expressions, if it keeps it after itself. -/
theorem active_le_of_suffix_cons {e : Event} {events earlier : List Event}
    (h : ∀ earlier, earlier <:+ events → Event.active earlier ≤ maxDepth)
    (he : Event.active (e :: events) ≤ maxDepth) (hearlier : earlier <:+ e :: events) :
    Event.active earlier ≤ maxDepth := by
  rcases List.suffix_cons_iff.mp hearlier with rfl | hearlier
  · exact he
  · exact h _ hearlier

/-- A reading that does not give the end of the source moves the lexer on by a byte at the least. -/
theorem Orderly.of_some {t : Reader} {o : Except LexError Lexeme} (h : Orderly source r)
    (hnext : r.cursor.next? = some (o, t.cursor)) (he : t.events = .read o :: r.events) :
    Orderly source t ∧ t.events.countP Event.isEnd = r.events.countP Event.isEnd := by
  obtain ⟨text, hne, -, hoffset, hsegment⟩ := Cursor.exists_segment_of_next? hnext
  have hend : Event.isEnd (.read o) = false := by
    cases o with
    | error e => rfl
    | ok l => exact decide_eq_false hsegment.kind_ne_eof
  have hends : t.events.countP Event.isEnd = r.events.countP Event.isEnd := by
    rw [he, List.countP_cons, hend]
    rfl
  refine ⟨⟨?_, ?_, hends ▸ h.ends, ?_⟩, hends⟩
  · have := h.isAt.next
    rwa [Cursor.next_of_some hnext] at this
  · have hreads : t.events.countP Event.isRead = r.events.countP Event.isRead + 1 := by
      rw [he, List.countP_cons]
      rfl
    have hskip : r.cursor.offset ≤ r.cursor.skipBlanks.offset := Nat.le_add_right _ _
    have htext := Text.utf8Length_pos hne
    have := h.reads
    omega
  · rw [he]
    exact fun _ => active_le_of_suffix_cons h.active (h.active r.events List.suffix_rfl)

theorem search_of_none {inside : Bool} (h : r.cursor.next? = none) :
    search inside r = some (.ok (), r.atEnd) := by
  rw [search_of_ok (Cursor.next_of_none h), if_neg (by simp [isSkipped, Lexeme.eof])]
  rfl

theorem countP_isEnd_atEnd (r : Reader) :
    r.atEnd.events.countP Event.isEnd = r.events.countP Event.isEnd + 1 :=
  List.countP_cons_of_pos rfl

theorem outcomes_atEnd (h : r.cursor.next? = none) : r.atEnd.cursor.outcomes = [] :=
  Cursor.outcomes_of_none (Cursor.next?_of_rest_eq_nil (Cursor.rest_skipBlanks_of_none h))

theorem Nested.atEnd (h : Nested source levels r) (hends : r.events.countP Event.isEnd ≤ 1) :
    Nested source levels r.atEnd := by
  refine ⟨⟨h.isAt.drop _, ?_, ?_, fun _ =>
    active_le_of_suffix_cons h.active (h.active r.events List.suffix_rfl)⟩, h.depth, h.room⟩
  · have hreads : r.atEnd.events.countP Event.isRead = r.events.countP Event.isRead + 1 :=
      List.countP_cons_of_pos rfl
    have hskip : r.cursor.offset ≤ r.atEnd.cursor.offset := Nat.le_add_right _ _
    have := h.reads
    rw [countP_isEnd_atEnd]
    omega
  · rw [countP_isEnd_atEnd]
    exact Nat.succ_le_succ hends

theorem compiler_atEnd (h : Orderly source r) (hnext : r.cursor.next? = none) :
    r.atEnd.compiler source = { r.compiler source with
      unread := [], ends := (r.compiler source).ends + 1,
        current := (r.compiler source).last } := by
  have hoffset : r.cursor.skipBlanks.offset = source.utf8ByteSize :=
    (h.isAt.drop _ : r.cursor.skipBlanks.IsAt source).offset_eq
      (Cursor.rest_skipBlanks_of_none hnext)
  rw [Reader.compiler, outcomes_atEnd hnext, countP_isEnd_atEnd, Reader.writer,
    Reader.atEnd, hoffset]
  rfl

theorem compiler_look_of_none (h : Orderly source r) (hnext : r.cursor.next? = none) :
    Compiler.look (r.compiler source) = .ok () (r.atEnd.compiler source) := by
  show Compiler.look.go (decide (0 < r.groups)) r.cursor.outcomes (r.compiler source) = _
  rw [compiler_atEnd h hnext, Cursor.outcomes_of_none hnext]
  rfl

/-- Looking for the next lexeme that means anything, by induction on what is left to read. -/
theorem tracks_search {inside : Bool} {os : List (Except LexError Lexeme)}
    (h : Nested source levels r) (hends : r.events.countP Event.isEnd = 0)
    (hos : r.cursor.outcomes = os) :
    Tracks source (Ready source levels) (search inside) (Compiler.look.go inside os) r := by
  induction os generalizing r with
  | nil =>
    have hnext := Cursor.next?_of_outcomes_eq_nil hos
    have hgo : Compiler.look.go inside [] (r.compiler source) =
        .ok () (r.atEnd.compiler source) := by
      rw [compiler_atEnd h.toOrderly hnext]
      rfl
    rw [Tracks, search_of_none hnext, hgo]
    refine .ok () ⟨h.atEnd (hends.trans_le (Nat.zero_le 1)), fun _ => outcomes_atEnd hnext, ?_⟩
    rw [countP_isEnd_atEnd, hends]
    rfl
  | cons o os ih =>
    obtain ⟨d, hnext, rfl⟩ := Cursor.exists_next?_of_outcomes_eq_cons hos
    cases o with
    | error e =>
      obtain ⟨horderly, hcount⟩ := h.toOrderly.of_some
        (t := { r with cursor := d, events := .read (.error e) :: r.events }) hnext rfl
      rw [Tracks, search_of_error (Cursor.next_of_some hnext)]
      have herror := Tracked.error (α := Unit) (P := Ready source levels) (.lex e) horderly
      rw [Reader.compiler, hcount] at herror
      exact herror
    | ok l =>
      have hne : l.kind ≠ .eof := Cursor.kind_ne_eof_of_mem_outcomes (hos ▸ List.mem_cons_self)
      obtain ⟨horderly, hcount⟩ := h.toOrderly.of_some
        (t := { r with cursor := d, current := l, events := .read (.ok l) :: r.events }) hnext rfl
      have hstep : Compiler.look.go inside (.ok l :: d.outcomes) (r.compiler source) =
          (if isSkipped inside l.kind then Compiler.look.go inside d.outcomes
            else pure () : CompileM Unit)
            (Reader.compiler source
              { r with cursor := d, current := l, events := .read (.ok l) :: r.events }) := by
        rw [Reader.compiler, Reader.compiler, hcount]
        rfl
      rw [Tracks, search_of_ok (Cursor.next_of_some hnext), hstep]
      split
      · exact ih ⟨horderly, h.depth, h.room⟩ (hcount.trans hends) rfl
      · refine .ok () ⟨⟨horderly, h.depth, h.room⟩, fun he => absurd he hne, ?_⟩
        rw [if_neg hne, hcount, hends]

/-- **The next lexeme that means anything.** -/
theorem tracks_look (h : Nested source levels r) (hends : r.events.countP Event.isEnd = 0) :
    Tracks source (Ready source levels) look Compiler.look r :=
  tracks_get_bind (tracks_search h hends rfl)

theorem Ready.tracks_advance (h : Ready source levels r) (hk : r.current.kind ≠ .eof) :
    Tracks source (Ready source levels) advance Compiler.advance r := by
  refine tracks_modify_bind rfl (tracks_look (h.toNested.of_eq rfl rfl rfl) ?_)
  exact h.once.trans (if_neg hk)

/-- A loop that stops at the end of the source does nothing there. -/
theorem skipWhile_of_eof {holds : TokenKind → Bool} (heof : holds .eof = false)
    (hk : r.current.kind = .eof) :
    skipWhile holds r = some (.ok (), r) := by
  rw [skipWhile, bind_of_ok (currentKind_eq r), if_neg (by rw [hk, heof]; exact nofun)]
  rfl

theorem tracks_skipWhile {holds : TokenKind → Bool} {rounds : List α} (heof : holds .eof = false)
    (h : Ready source levels r) (hn : (r.compiler source).Within rounds.length) :
    Tracks source (Ready source levels) (skipWhile holds)
      (Compiler.repeatWhile holds Compiler.advance rounds) r := by
  induction rounds generalizing r with
  | nil =>
    rw [Tracks, skipWhile_of_eof heof hn.eof]
    exact .ok () h
  | cons a rounds ih =>
    rw [skipWhile]
    refine tracks_currentKind_bind ?_
    split
    case isTrue hholds =>
      have hk : r.current.kind ≠ .eof := fun he => by rw [he, heof] at hholds; cases hholds
      exact tracks_bind (h.tracks_advance hk) fun _ r' hr hy => ih hr (hn.of_advance hk hy)
    case isFalse => exact tracks_pure () h

theorem tracks_skipLines (h : Ready source levels r) :
    Tracks source (Ready source levels) skipLines Compiler.skipLines r :=
  tracks_budget_bind (tracks_skipWhile rfl h h.within)

theorem tracks_consume {symbol : Symbol} {expected : String} (h : Ready source levels r) :
    Tracks source (Ready source levels) (consume symbol expected)
      (Compiler.consume symbol expected) r := by
  refine tracks_get_bind ?_
  show Tracks source _ (if r.current.kind = .symbol symbol then _ else _)
    (if r.current.kind = .symbol symbol then _ else _) r
  split
  case isTrue hk => exact h.tracks_advance (by rw [hk]; exact nofun)
  case isFalse => exact tracks_fail h.toOrderly

/-! ## Writing -/

/-- The same result for two compilers, of which nothing but the chunk has been changed, in the same
way. -/
inductive Wrote (s s' : Compiler) :
    EStateM.Result SourceError Compiler α → EStateM.Result SourceError Compiler α → Prop
  | ok (a : α) (c : Chunk) : Wrote s s' (.ok a { s with chunk := c }) (.ok a { s' with chunk := c })
  | error (e : SourceError) (c : Chunk) :
      Wrote s s' (.error e { s with chunk := c }) (.error e { s' with chunk := c })

/-- A part of the compiler that looks at nothing but the previous lexeme and the chunk, and changes
the chunk. -/
def Writes (y : CompileM α) : Prop :=
  ∀ s s' : Compiler, s'.previous = s.previous → s'.chunk = s.chunk → Wrote s s' (y s) (y s')

theorem tracks_write {y : CompileM α} (hy : Writes y) (h : Ready source levels r) :
    Tracks source (Ready source levels) (write y) y r := by
  have hwrote := hy r.writer (r.compiler source) rfl rfl
  rw [Tracks, write]
  generalize y r.writer = o, y (r.compiler source) = o' at hwrote
  cases hwrote with
  | ok a c => exact .ok a (r := { r with chunk := c }) (h.of_eq rfl rfl rfl rfl)
  | error e c =>
    have hr : Ready source levels { r with chunk := c } := h.of_eq rfl rfl rfl rfl
    exact .error e hr.toOrderly

section Writing

variable {x : CompileM α} {f : α → CompileM β}

theorem withChunk_of_eq {s : Compiler} {c : Chunk} (h : s.chunk = c) :
    { s with chunk := c } = s := by rw [← h]

theorem writes_pure (a : α) : Writes (pure a : CompileM α) := by
  intro s s' _ hc
  have hwrote : Wrote s s' (.ok a { s with chunk := s.chunk })
      (.ok a { s' with chunk := s.chunk }) := .ok a s.chunk
  rwa [withChunk_of_eq hc] at hwrote

theorem writes_fail {e : ParseError} : Writes (Compiler.fail e : CompileM α) := by
  intro s s' _ hc
  have hwrote : Wrote (α := α) s s' (.error (.parse e) { s with chunk := s.chunk })
      (.error (.parse e) { s' with chunk := s.chunk }) := .error _ s.chunk
  rwa [withChunk_of_eq hc] at hwrote

theorem writes_chunk (F : Chunk → Chunk) :
    Writes (modify fun s => { s with chunk := F s.chunk } : CompileM Unit) := by
  intro s s' _ hc
  show Wrote s s' (.ok () { s with chunk := F s.chunk }) (.ok () { s' with chunk := F s'.chunk })
  rw [hc]
  exact .ok () _

theorem writes_bind (hx : Writes x) (hf : ∀ a, Writes (f a)) : Writes (x >>= f) := by
  intro s s' hp hc
  have hs := hx s s' hp hc
  show Wrote s s' (EStateM.bind x f s) (EStateM.bind x f s')
  rw [EStateM.bind, EStateM.bind]
  generalize x s = o, x s' = o' at hs
  cases hs with
  | error e c => exact .error e c
  | ok a c =>
    have ht := hf a { s with chunk := c } { s' with chunk := c } hp rfl
    show Wrote s s' (f a { s with chunk := c }) (f a { s' with chunk := c })
    generalize f a { s with chunk := c } = o, f a { s' with chunk := c } = o' at ht ⊢
    cases ht with
    | ok b d => exact .ok b d
    | error e d => exact .error e d

theorem writes_get_bind {f : Compiler → CompileM β}
    (hf : ∀ s s' : Compiler, s'.previous = s.previous → s'.chunk = s.chunk → f s' = f s)
    (h : ∀ s, Writes (f s)) :
    Writes (get >>= f) := by
  intro s s' hp hc
  show Wrote s s' (f s s) (f s' s')
  rw [hf s s' hp hc]
  exact h s s s' hp hc

theorem writes_emit (op : Op) (offset : Nat) : Writes (Compiler.emit op offset) :=
  writes_get_bind (fun _ _ _ hc => by simp only [hc]) fun _ =>
    writes_bind (writes_chunk (·.push op offset)) fun _ => writes_pure _

theorem writes_land (jump : Nat) (operator : Token) : Writes (Compiler.land jump operator) := by
  refine writes_get_bind (fun _ _ _ hc => by simp only [hc]) fun s => ?_
  dsimp only
  split
  · exact writes_chunk (·.retarget jump (UInt16.ofNat s.chunk.code.size))
  · exact writes_fail

theorem writes_slotOf (literal : Token) (v : Value) : Writes (Compiler.slotOf literal v) := by
  refine writes_get_bind (fun _ _ _ hc => by simp only [hc]) fun s => ?_
  split
  case h_1 slot chunk _ => exact writes_bind (writes_chunk fun _ => chunk) fun _ => writes_pure _
  · exact writes_fail

theorem writes_literal (op : Op) : Writes (Compiler.literal op) :=
  writes_get_bind (fun _ _ hp _ => by simp only [hp]) fun _ =>
    writes_bind (writes_emit _ _) fun _ => writes_pure _

theorem writes_constant {literal : Token} {v : Value} {op : UInt8 → Op} {offset : Nat} :
    Writes (do
      let slot ← Compiler.slotOf literal v
      let _ ← Compiler.emit (op slot) offset : CompileM Unit) :=
  writes_bind (writes_slotOf _ _) fun _ => writes_bind (writes_emit _ _) fun _ => writes_pure _

theorem writes_numberLiteral : Writes Compiler.numberLiteral := by
  refine writes_get_bind (fun _ _ hp _ => by simp only [hp]) fun s => ?_
  dsimp only
  split
  · exact writes_constant
  · exact writes_fail

theorem writes_stringLiteral : Writes Compiler.stringLiteral := by
  refine writes_get_bind (fun _ _ hp _ => by simp only [hp]) fun s => ?_
  dsimp only
  split
  · exact writes_constant
  · exact writes_fail

theorem writes_name : Writes Compiler.name :=
  writes_get_bind (fun _ _ hp _ => by simp only [hp]) fun _ => writes_constant

end Writing

theorem tracks_emit_bind {op : Op} {offset : Nat} {f : Nat → ReadM β} {g : Nat → CompileM β}
    (h : Ready source levels r)
    (hf : ∀ i r', Ready source levels r' → Tracks source Q (f i) (g i) r') :
    Tracks source Q (emit op offset >>= f) (Compiler.emit op offset >>= g) r :=
  tracks_bind (tracks_write (writes_emit op offset) h) fun i r' hr _ => hf i r' hr

/-! ## Operands -/

/-- The beginning and the end of an expression are written down, and change nothing but the number
of open ones. -/
theorem Ready.of_event {e : Event} {depth k : Nat} (h : Ready source levels r)
    (he : e.isRead = false) (hactive : Event.active (e :: r.events) = depth)
    (hroom : depth + k = maxDepth) :
    Ready source k { r with depth, events := e :: r.events } := by
  have hreads : (e :: r.events).countP Event.isRead = r.events.countP Event.isRead :=
    List.countP_cons_of_neg (by rw [he]; exact nofun)
  have hends : (e :: r.events).countP Event.isEnd = r.events.countP Event.isEnd := by
    cases e with
    | read o => cases he
    | begun => rfl
    | ended => rfl
  refine ⟨⟨⟨h.isAt, ?_, hends ▸ h.ends, fun _ => active_le_of_suffix_cons h.active ?_⟩, hactive,
    hroom⟩, h.drained, hends.trans h.once⟩
  · rw [hreads, hends]
    exact h.reads
  · rw [hactive]
    exact Nat.le.intro hroom

/-- Opening an expression. -/
theorem tracks_enter (h : Ready source (levels + 1) r) :
    Tracks source (Ready source levels) enter Compiler.enter r := by
  have hroom := h.room
  have henter : enter r = some (.ok (),
      { r with depth := r.depth + 1, events := .begun :: r.events }) := by
    show (if maxDepth < r.depth + 1 then _ else _ : ReadM Unit) { r with depth := r.depth + 1 } = _
    rw [if_neg (by omega)]
    rfl
  have hactive : Event.active (.begun :: r.events) = r.depth + 1 := congrArg (· + 1) h.depth
  rw [Tracks, henter]
  exact .ok () (h.of_event rfl hactive (by omega))

/-- Ending an expression. -/
theorem tracks_leave (h : Ready source levels r) (hlevels : levels < maxDepth) :
    Tracks source (Ready source (levels + 1)) leave Compiler.leave r := by
  have hroom := h.room
  have hactive : Event.active (.ended :: r.events) = r.depth - 1 := congrArg (· - 1) h.depth
  exact .ok () (h.of_event rfl hactive (by omega))

theorem leading_of_eof {l : Lexeme} (hk : l.kind = .eof) :
    leading l r = some (.error (.parse (.expectedOperand l.token)), r) := by
  rw [leading, hk]
  rfl

/-- At the end of the source the lexer gives the end once more, and no operand begins with it. -/
theorem tracks_leading_of_eof {part : Precedence → CompileM Unit} {f : Unit → ReadM β}
    {g : Unit → CompileM β} (h : Ready source levels r) (hk : r.current.kind = .eof) :
    Tracks source Q (advance >>= fun _ => get >>= fun r => leading r.previous >>= f)
      (Compiler.advance >>= fun _ => Compiler.leading part >>= g) r := by
  have hadvance : Tracks source (fun r' => Orderly source r' ∧ r'.previous.kind =
      .eof) advance Compiler.advance r := by
    have hends : r.events.countP Event.isEnd ≤ 1 := (h.once.trans (if_pos hk)).le
    have hr : Nested source levels { r with previous := r.current } := h.toNested.of_eq rfl rfl rfl
    have hnext : r.cursor.next? = none := Cursor.next?_of_outcomes_eq_nil (h.drained hk)
    have hadvance : advance r = some (.ok (), Reader.atEnd { r with previous := r.current }) :=
      search_of_none hnext
    have hcompiler : Compiler.advance (r.compiler source) = _ :=
      compiler_look_of_none hr.toOrderly hnext
    rw [Tracks, hadvance, hcompiler]
    exact .ok () ⟨(hr.atEnd hends).toOrderly, hk⟩
  refine tracks_bind hadvance fun _ r' ⟨hr, hprevious⟩ _ => tracks_get_bind_left ?_
  refine tracks_bind (P := fun _ => False) ?_ fun _ _ h _ => h.elim
  rw [Tracks, leading_of_eof hprevious, Compiler.leading_of_stuck part (.inl hprevious)]
  exact .error _ hr

theorem tracks_openGroup_bind {f : Unit → ReadM β} {g : Unit → CompileM β}
    (h : Ready source levels r)
    (hf : ∀ r', Ready source levels r' → Tracks source Q (f ()) (g ()) r') :
    Tracks source Q (openGroup >>= f)
      ((modify fun s => { s with groups := s.groups + 1 }) >>= g) r :=
  tracks_modify_bind rfl (hf _ (h.of_eq rfl rfl rfl rfl))

theorem tracks_closeGroup_bind {f : Unit → ReadM β} {g : Unit → CompileM β}
    (h : Ready source levels r)
    (hf : ∀ r', Ready source levels r' → Tracks source Q (f ()) (g ()) r') :
    Tracks source Q (closeGroup >>= f)
      ((modify fun s => { s with groups := s.groups - 1 }) >>= g) r :=
  tracks_modify_bind rfl (hf _ (h.of_eq rfl rfl rfl rfl))

theorem tracks_callEnd {paren : Token} {count : Nat} (h : Ready source levels r) :
    Tracks source (Ready source levels) (callEnd paren count) (Compiler.callEnd paren count) r := by
  refine tracks_closeGroup_bind h fun r' hr => tracks_bind (tracks_consume hr) fun _ r' hr _ => ?_
  split
  · exact tracks_emit_bind hr fun _ _ hr => tracks_pure () hr
  · exact tracks_fail hr.toOrderly

section Parts

variable (hp : ∀ {p : Precedence} {r : Reader}, Ready source levels r →
  Tracks source (Ready source levels) (operand p) (Compiler.operand levels p) r)
include hp

theorem tracks_leading (h : Ready source levels r) :
    Tracks source (Ready source levels) (leading r.previous)
    (Compiler.leading fun p => Compiler.operand levels p) r := by
  rw [Compiler.leading]
  refine tracks_get_bind_right ?_
  rw [Reader.compiler_previous]
  dsimp only
  split
  case h_1 hk | h_2 hk | h_3 hk =>
    rw [leading, hk]
    exact tracks_write (writes_literal _) h
  case h_4 hk =>
    rw [leading, hk]
    exact tracks_write writes_numberLiteral h
  case h_5 hk =>
    rw [leading, hk]
    exact tracks_write writes_stringLiteral h
  case h_6 hk =>
    rw [leading, hk]
    exact tracks_write writes_name h
  case h_7 hk =>
    rw [leading, hk]
    exact tracks_openGroup_bind h fun _ hr => tracks_bind (hp hr) fun _ _ hr _ =>
      tracks_closeGroup_bind hr fun _ hr => tracks_consume hr
  case h_8 =>
    rw [leading]
    split
    case h_8 =>
      cases r.previous.kind.unaryOp? with
      | some op =>
        exact tracks_bind (hp h) fun _ _ hr _ => tracks_emit_bind hr fun _ _ hr => tracks_pure () hr
      | none => exact tracks_fail h.toOrderly
    all_goals contradiction

/-! ## Joints -/

/-- The arguments of a call. The budget has a round for each of them, and one more for the one that
is missing if the source ends with a comma. -/
theorem tracks_arguments {rounds : List α} {count : Nat} (h : Ready source levels r)
    (hne : rounds ≠ []) (hn : (r.compiler source).Within rounds.length) :
    Tracks source (Ready source levels) (arguments count)
      (Compiler.arguments (Compiler.operand levels .or) count rounds) r := by
  induction rounds generalizing r count with
  | nil => exact absurd rfl hne
  | cons a rounds ih =>
    rw [arguments]
    refine tracks_bind (hp h) fun _ r' hr hy => tracks_currentKind_bind ?_
    have hn : (r'.compiler source).Within rounds.length := hn.of_operand hy
    split
    case isTrue hk =>
      have hk : r'.current.kind ≠ .eof := by rw [hk]; exact nofun
      have hne : rounds ≠ [] :=
        List.ne_nil_of_length_pos (Nat.le_of_add_left_le (hn.length_unread hk))
      exact tracks_bind (hr.tracks_advance hk) fun _ r'' hr' hy' =>
        ih hr' hne ((Compiler.steady_within _).advance.of_ok hn hy')
    case isFalse => exact tracks_pure _ hr

theorem tracks_call {paren : Token} (h : Ready source levels r) :
    Tracks source (Ready source levels) (call paren)
    (Compiler.call (Compiler.operand levels .or) paren) r := by
  rw [call, Compiler.call_eq]
  refine tracks_openGroup_bind h fun r' hr => tracks_bind (tracks_skipLines hr) fun _ r' hr _ => ?_
  refine tracks_currentKind_bind ?_
  split
  · exact tracks_callEnd hr
  · refine tracks_budget_bind
      (tracks_bind (tracks_arguments hp hr (List.cons_ne_nil _ _) hr.within) ?_)
    exact fun _ _ hr _ => tracks_callEnd hr

theorem tracks_conjunction {operator : Token} (h : Ready source levels r) :
    Tracks source (Ready source levels)
    (conjunction operator) (Compiler.conjunction
      (Compiler.operand levels Precedence.and.next) operator) r := by
  rw [conjunction]
  refine tracks_emit_bind h fun _ _ hr => tracks_emit_bind hr fun _ _ hr =>
    tracks_emit_bind hr fun _ _ hr => ?_
  exact tracks_bind (hp hr) fun _ _ hr _ => tracks_write (writes_land _ _) hr

theorem tracks_alternative {operator : Token} (h : Ready source levels r) :
    Tracks source (Ready source levels)
    (alternative operator) (Compiler.alternative
      (Compiler.operand levels Precedence.or.next) operator) r := by
  rw [alternative]
  refine tracks_emit_bind h fun _ _ hr => tracks_emit_bind hr fun _ _ hr =>
    tracks_emit_bind hr fun _ _ hr => ?_
  refine tracks_bind (tracks_write (writes_land _ _) hr) fun _ _ hr _ =>
    tracks_emit_bind hr fun _ _ hr => ?_
  exact tracks_bind (hp hr) fun _ _ hr _ => tracks_write (writes_land _ _) hr

theorem tracks_join {joint : Joint} (h : Ready source levels r) :
    Tracks source (Ready source levels) (join joint)
    (Compiler.join (fun p => Compiler.operand levels p) joint) r := by
  rw [join]
  refine tracks_get_bind ?_
  cases joint with
  | call => exact tracks_call hp h
  | binary op =>
    exact tracks_bind (hp h) fun _ _ hr _ => tracks_emit_bind hr fun _ _ hr => tracks_pure () hr
  | and => exact tracks_conjunction hp h
  | or => exact tracks_alternative hp h

omit hp in
/-- At the end of the source no joint follows. -/
theorem following_of_eof (level : Precedence) (hk : r.current.kind = .eof) :
    following level r = some (.ok (), r) := by
  rw [following, bind_of_ok (currentKind_eq r), hk]
  rfl

theorem tracks_following {level : Precedence} {rounds : List α} (h : Ready source levels r)
    (hn : (r.compiler source).Within rounds.length) :
    Tracks source (Ready source levels) (following level)
      (Compiler.following (fun p => Compiler.operand levels p) level rounds) r := by
  induction rounds generalizing r with
  | nil =>
    rw [Tracks, following_of_eof level hn.eof]
    exact .ok () h
  | cons a rounds ih =>
    rw [following]
    refine tracks_currentKind_bind ?_
    cases hjoint : r.current.kind.joint? with
    | none => exact tracks_pure () h
    | some joint =>
      dsimp only
      split
      · have hk : r.current.kind ≠ .eof := fun he => by rw [he] at hjoint; cases hjoint
        have hsteady := Compiler.steady_within rounds.length
        refine tracks_bind (h.tracks_advance hk) fun _ r' hr hy =>
          tracks_bind (tracks_join hp hr) fun _ _ hr' hy' => ?_
        exact ih hr' ((hsteady.join (hsteady.operand levels) joint).of_ok (hn.of_advance hk hy) hy')
      · exact tracks_pure () h

end Parts

/-! ## Expressions -/

/-- **Operands**, by induction on the number of expressions that may still be opened. -/
theorem tracks_operand (levels : Nat) {level : Precedence} (h : Ready source levels r) :
    Tracks source (Ready source levels) (operand level) (Compiler.operand levels level) r := by
  induction levels generalizing r level with
  | zero =>
    have henter : enter r =
        some (.error (.parse (.nestingTooDeep r.current.token)),
          { r with depth := r.depth + 1 }) := by
      have hroom := h.room
      show (if maxDepth < r.depth + 1 then _
        else _ : ReadM Unit) { r with depth := r.depth + 1 } = _
      rw [if_pos (by omega)]
      rfl
    rw [operand, Tracks, bind_of_error henter]
    exact .error _ (r := { r with depth := r.depth + 1 }) ⟨h.isAt, h.reads, h.ends, h.active⟩
  | succ levels ih =>
    have hlevels : levels < maxDepth := by
      have := h.room
      omega
    rw [operand]
    refine tracks_bind (tracks_enter h) fun _ r₁ h₁ _ =>
      tracks_bind (tracks_skipLines h₁) fun _ r₂ h₂ _ => ?_
    by_cases hk : r₂.current.kind = .eof
    · exact tracks_leading_of_eof h₂ hk
    refine tracks_bind (h₂.tracks_advance hk) fun _ r₃ h₃ _ =>
      tracks_bind (tracks_leading ih h₃) fun _ r₄ h₄ _ => ?_
    exact tracks_budget_bind (tracks_bind (tracks_following ih h₄ h₄.within) fun _ _ h₅ _ =>
      tracks_leave h₅ hlevels)

/-! ## Programs -/

/-- Between the expressions of a program. -/
theorem tracks_expression (h : Ready source maxDepth r) :
    Tracks source (Ready source maxDepth) (operand .or) Compiler.expression r := by
  have hdepth : maxDepth - r.depth = maxDepth := by
    have := h.room
    omega
  show Tracked source _ (operand .or r)
    (Compiler.operand (maxDepth - r.depth) .or (r.compiler source))
  rw [hdepth]
  exact tracks_operand maxDepth h

/-- One expression of a program, and what comes after it. -/
def expressionThen (rest : ReadM Unit) : ReadM Unit := do
  operand .or
  let kind ← currentKind
  if isSeparator kind || kind = .eof then rest
  else fail (.unexpectedToken "end of expression" (← get).current.token)

theorem expressions_eq (first : Bool) : expressions first = (do
    skipWhile isSeparator
    if (← currentKind) ≠ .eof then
      if first then expressionThen (expressions false)
      else
        let _ ← emit .pop (← get).current.start
        expressionThen (expressions false)) := by
  conv_lhs => rw [expressions]
  cases first <;> rfl

theorem expressions_of_eof (first : Bool) (hk : r.current.kind = .eof) :
    expressions first r = some (.ok (), r) := by
  rw [expressions_eq, bind_of_ok (skipWhile_of_eof rfl hk), bind_of_ok (currentKind_eq r),
    if_neg (not_not_intro hk)]
  rfl

theorem tracks_expressionThen {n : Nat} {x : ReadM Unit} {y : CompileM Unit}
    (h : Ready source maxDepth r) (hn : (r.compiler source).Within (n + 1))
    (hxy : ∀ {r'}, Ready source maxDepth r' →
      (r'.compiler source).Within n → Tracks source (Ready source maxDepth) x y r') :
    Tracks source (Ready source maxDepth) (expressionThen x) (Compiler.expressionThen y) r := by
  refine tracks_bind (tracks_expression h) fun _ r' hr hy => tracks_currentKind_bind ?_
  split
  · exact hxy hr (hn.of_operand (Compiler.expression_eq_ok.mp hy))
  · exact tracks_get_bind (tracks_fail hr.toOrderly)

/-- **Expressions**, by induction on the rounds of the compiler. -/
theorem tracks_expressions {first : Bool} {rounds : List α} (h : Ready source maxDepth r)
    (hn : (r.compiler source).Within rounds.length) :
    Tracks source (Ready source maxDepth) (expressions first)
      (Compiler.expressions first rounds) r := by
  induction rounds generalizing r first with
  | nil =>
    rw [Tracks, expressions_of_eof first hn.eof]
    exact .ok () h
  | cons a rounds ih =>
    have hsteady := Compiler.steady_within (rounds.length + 1)
    rw [expressions_eq, Compiler.expressions_cons]
    have hskip := tracks_skipWhile (show isSeparator .eof = false from rfl) h h.within
    refine tracks_budget_bind (tracks_bind hskip fun _ r₁ h₁ hy₁ => tracks_currentKind_bind ?_)
    have hn₁ : (r₁.compiler source).Within (rounds.length + 1) :=
      (Compiler.preserves_repeatWhile hsteady.advance _).of_ok hn hy₁
    split
    · split
      · exact tracks_expressionThen h₁ hn₁ ih
      · refine tracks_get_bind (tracks_bind (tracks_write (writes_emit _ _) h₁)
          fun _ r₂ h₂ hy₂ => ?_)
        exact tracks_expressionThen h₂ ((hsteady.emit _ _).of_ok hn₁ hy₂) ih
    · exact tracks_pure () h₁

theorem tracks_program (source : String) :
    Tracks source (Ready source maxDepth) program Compiler.program (.ofSource source) := by
  have hactive : ∀ earlier, earlier <:+ [] → Event.active earlier ≤ maxDepth := by
    intro earlier h
    rw [List.suffix_nil.mp h]
    exact Nat.zero_le maxDepth
  have hstart : Nested source maxDepth { Reader.ofSource source with previous := .eof 0 } :=
    ⟨⟨Cursor.isAt_ofSource source, Nat.zero_le _, Nat.zero_le _, hactive⟩, rfl, Nat.zero_add _⟩
  have hadvance : Tracks source (Ready source maxDepth)
      advance Compiler.advance (.ofSource source) :=
    tracks_modify_bind rfl (tracks_look hstart rfl)
  exact tracks_bind hadvance fun _ r h _ => tracks_budget_bind (tracks_expressions h h.within)

end OnDemand

/-- **Compilation ends after one pass.** The compiler on demand comes to an end with what the
compiler gives. It asks the lexer at most twice more than the source has bytes, at most two answers
are the end of the source, and no more than `maxDepth` expressions are open at any time. -/
theorem compile_onDemand (source : String) :
    ∃ events, OnDemand.compile? source = some (compile source, events) ∧
    events.countP Event.isRead ≤ source.utf8ByteSize + 2 ∧ events.countP Event.isEnd ≤ 2 ∧
    ∀ earlier, earlier <:+ events → Event.active earlier ≤ maxDepth := by
  have hprogram : OnDemand.Tracked source _ (OnDemand.program (.ofSource source))
    (Compiler.program (.ofSource source)) := OnDemand.tracks_program source
  have hdemand : OnDemand.compile? source = (OnDemand.program (.ofSource source)).bind fun p =>
      some (p.1.map fun () => p.2.chunk, p.2.events) := rfl
  rw [hdemand, compile, EStateM.run]
  generalize OnDemand.program (.ofSource source) = o,
    Compiler.program (.ofSource source) = o' at hprogram
  cases hprogram with
  | ok u hr => exact ⟨_, rfl, hr.reads_le, hr.ends, hr.active⟩
  | error e hr => exact ⟨_, rfl, hr.reads_le, hr.ends, hr.active⟩

end LuaExpr
