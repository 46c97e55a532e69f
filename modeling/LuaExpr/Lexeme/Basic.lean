import LuaExpr.Lexeme.Reading
import LuaExpr.SourceError
import LuaExpr.Text.Utf8
/-!
# Lexemes

A source read as a sequence of lexemes. Blanks between lexemes are skipped; a fault covers the
characters it is about, and reading goes on after it. At the end of the source every further reading
is the end.

* `Cursor.next`: the next lexeme or fault, and the cursor after it.
* `Cursor.outcomes`: everything up to the end, faults included.
* `Lexer`: a cursor that remembers its source and whether its sequence of lexemes is over.
-/

namespace LuaExpr

/-- A token together with its text. -/
structure Lexeme where
  /-- The kind. -/
  kind : TokenKind
  /-- The offset of the first byte. -/
  start : Nat
  /-- The characters. -/
  text : List Char
deriving DecidableEq, Repr

/-- The token of a lexeme: its length is that of its text. -/
def Lexeme.token (l : Lexeme) : Token :=
  { kind := l.kind, start := l.start, length := Text.utf8Length l.text }

/-- The end of a source of the given length. -/
def Lexeme.eof (offset : Nat) : Lexeme :=
  { kind := .eof, start := offset, text := [] }

/-! ## Cursors -/

/-- A place in a source between two characters: what is left to read, and the number of bytes
already read. -/
structure Cursor where
  /-- The characters that are left. -/
  rest : List Char
  /-- The offset of the place. -/
  offset : Nat := 0
deriving DecidableEq, Repr

namespace Cursor

/-- The cursor after the next `n` characters. -/
def drop (c : Cursor) (n : Nat) : Cursor :=
  { rest := c.rest.drop n, offset := c.offset + Text.utf8Length (c.rest.take n) }

/-- The cursor after the blanks at its place. -/
def skipBlanks (c : Cursor) : Cursor := c.drop (Reading.run Reading.isBlank c.rest)

/-- What a reading amounts to at an offset: a lexeme, or a fault. -/
def outcome (offset : Nat) (first : Char) (rest : List Char) : Reading → Except LexError Lexeme
  | .lexeme kind more => .ok { kind, start := offset, text := first :: rest.take more }
  | .unterminated _ => .error (.unterminatedString offset)
  | .unexpected => .error (.unexpectedCharacter first offset)

/-- The next lexeme or fault and the cursor after it, or `none` at the end of the source. -/
def next? (c : Cursor) : Option (Except LexError Lexeme × Cursor) :=
  let c := c.skipBlanks
  match c.rest with
  | [] => none
  | first :: rest =>
    let reading := Reading.ofFront first rest
    some (outcome c.offset first rest reading, c.drop (reading.more + 1))

/-- The next lexeme or fault and the cursor after it. At the end of the source this is the end,
again and again. -/
def next (c : Cursor) : Except LexError Lexeme × Cursor :=
  match c.next? with
  | some r => r
  | none => (.ok (.eof c.skipBlanks.offset), c.skipBlanks)

/-- Reading something leaves less to read. -/
theorem rest_length_lt_of_next?_eq_some {c d : Cursor} {r : Except LexError Lexeme}
    (h : c.next? = some (r, d)) : d.rest.length < c.rest.length := by
  simp only [next?] at h
  split at h
  · simp at h
  · next first rest hrest =>
    simp only [Option.some.injEq, Prod.mk.injEq] at h
    have hskip : c.skipBlanks.rest.length ≤ c.rest.length := by
      simp [skipBlanks, drop]
    rw [hrest] at hskip
    rw [← h.2]
    simp only [drop, hrest, List.length_drop, List.length_cons] at hskip ⊢
    omega

/-- The lexemes and faults from a cursor up to the end of the source. -/
def outcomes (c : Cursor) : List (Except LexError Lexeme) :=
  go c []
where
  /-- Reads on, with what has been read before, the latest first. -/
  go (c : Cursor) (seen : List (Except LexError Lexeme)) : List (Except LexError Lexeme) :=
    match _h : c.next? with
    | none => seen.reverse
    | some (r, d) => go d (r :: seen)
  termination_by c.rest.length
  decreasing_by exact rest_length_lt_of_next?_eq_some (by assumption)

/-- The start of a source. -/
def ofSource (source : String) : Cursor := { rest := source.toList }

end Cursor

/-! ## Lexers -/

/-- A reader of one source. -/
structure Lexer where
  /-- The whole source. -/
  source : String
  /-- The place that has been reached. -/
  cursor : Cursor
  /-- Whether the sequence of lexemes has ended, at the end of the source or at a fault. -/
  finished : Bool := false

namespace Lexer

/-- A reader at the start of a source. -/
def ofSource (source : String) : Lexer := { source, cursor := .ofSource source }

/-- The next lexeme or fault, whether or not the sequence has ended. -/
def read (l : Lexer) : Except LexError Lexeme × Lexer :=
  let (r, cursor) := l.cursor.next
  (r, { l with cursor })

/-- The next member of the sequence of lexemes, which ends before the end of the source and after
the first fault. -/
def next? (l : Lexer) : Option (Except LexError Lexeme) × Lexer :=
  if l.finished then (none, l)
  else
    match l.read with
    | (.ok lexeme, l) =>
      if lexeme.kind = .eof then (none, { l with finished := true }) else (some (.ok lexeme), l)
    | (.error e, l) => (some (.error e), { l with finished := true })

/-- The rest of the sequence of lexemes. -/
def toList (l : Lexer) : List (Except LexError Lexeme) :=
  if l.finished then []
  else
    let outcomes := l.cursor.outcomes
    let fine := outcomes.takeWhile (·.toBool)
    fine ++ (outcomes.drop fine.length).take 1

end Lexer

end LuaExpr
