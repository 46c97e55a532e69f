import LuaExpr.Token
/-!
# Reading one lexeme

What the front of a text is. The first character decides the class, and the class decides how far
the lexeme goes: as far as a text of that class can.

* `Reading`: the outcome, with the number of characters that follow the first one.
* `stringBody`: a string ends at its own quote. A backslash takes the next character with it, or a
  whole line break, and a bare line break ends the string too early.
-/

namespace LuaExpr

/-- What the front of a text turned out to be. Each case covers its first character and `more`
characters after it. -/
inductive Reading where
  /-- A lexeme of a kind. -/
  | lexeme (kind : TokenKind) (more : Nat)
  /-- A string that no quote ends. -/
  | unterminated (more : Nat)
  /-- A character that no lexeme begins with. -/
  | unexpected
deriving DecidableEq, Repr

namespace Reading

/-- The number of characters after the first one. -/
def more : Reading → Nat
  | lexeme _ n => n
  | unterminated n => n
  | unexpected => 0

/-! ## Character classes -/

/-- Blanks separate lexemes and mean nothing else. -/
def isBlank (c : Char) : Bool := c == ' ' || c == '\t'

/-- Line breaks are made of these. -/
def isBreak (c : Char) : Bool := c == '\n' || c == '\r'

/-- Names begin with an ASCII letter or an underscore. -/
def isNameStart (c : Char) : Bool := c.isAlpha || c == '_'

/-- Names go on with the characters they begin with and with ASCII digits. -/
def isNamePart (c : Char) : Bool := isNameStart c || c.isDigit

/-- The two quotes, either of which begins a string. -/
def isQuote (c : Char) : Bool := c == '"' || c == '\''

/-! ## How far each class goes -/

/-- The length of the run of characters of a class at the front of a text. -/
def run (p : Char → Bool) (text : List Char) : Nat := (text.takeWhile p).length

/-- A number that began with a digit: further digits, and then perhaps a point and the digits after
it. -/
def numberTail (text : List Char) : Nat :=
  let whole := run Char.isDigit text
  match text.drop whole with
  | '.' :: fraction => whole + 1 + run Char.isDigit fraction
  | _ => whole

/-- The number of characters that a backslash takes with it. -/
def escapeWidth : List Char → Nat
  | '\r' :: '\n' :: _ => 2
  | _ :: _ => 1
  | [] => 0

/-- The rest of a string after its first quote: whether its last quote was found, and the number of
characters up to and including the one that ended the search, `seen` of which have been passed. -/
def stringBody (quote : Char) (seen : Nat) (text : List Char) : Bool × Nat :=
  match text with
  | [] => (false, seen)
  | c :: rest =>
    if c = quote then (true, seen + 1)
    else if isBreak c then (false, seen + 1)
    else if c = '\\' then
      let n := escapeWidth rest
      stringBody quote (seen + 1 + n) (rest.drop n)
    else stringBody quote (seen + 1) rest
termination_by text.length
decreasing_by all_goals simp only [List.length_drop, List.length_cons]; omega

/-- A string that began with the given quote. -/
def string (quote : Char) (text : List Char) : Reading :=
  match stringBody quote 0 text with
  | (true, n) => lexeme .string n
  | (false, n) => unterminated n

/-! ## The front of a text -/

/-- What a text that begins with `c` and goes on with `rest` begins with. -/
def ofFront (c : Char) (rest : List Char) : Reading :=
  if c = '\n' then lexeme .line 0
  else if c = '\r' then lexeme .line (if rest.head? = some '\n' then 1 else 0)
  else if isNameStart c then
    let tail := rest.takeWhile isNamePart
    lexeme (.ofName (String.ofList (c :: tail))) tail.length
  else if c.isDigit then lexeme .number (numberTail rest)
  else if c = '.' ∧ rest.head?.any Char.isDigit then lexeme .number (run Char.isDigit rest)
  else if isQuote c then string c rest
  else if c = '-' ∧ rest.head? = some '-' then lexeme .comment (run (fun d => !isBreak d) rest)
  else match Symbol.longest? (c :: rest) with
    | some s => lexeme (.symbol s) (s.text.length - 1)
    | none => unexpected

end Reading

end LuaExpr
