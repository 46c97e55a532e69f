import LuaExpr.Token
/-!
# Faults of a source

What can be wrong with a source, as causes: in its characters (`LexError`), or in what its tokens
amount to (`ParseError`). Each has one message, and each has an offset in the source.
-/

namespace LuaExpr

/-- Why a text has no lexeme at some place. -/
inductive LexError where
  /-- No lexeme begins with the character at the offset. -/
  | unexpectedCharacter (c : Char) (offset : Nat)
  /-- The string that begins at the offset has no end. -/
  | unterminatedString (offset : Nat)
deriving DecidableEq, Repr

/-- Why a sequence of tokens is not a program. -/
inductive ParseError where
  /-- The token stands where an operand is needed and begins none. -/
  | expectedOperand (found : Token)
  /-- The token stands where something else is needed. -/
  | unexpectedToken (expected : String) (found : Token)
  /-- The literal or name finds no room among the constants. -/
  | tooManyConstants (literal : Token)
  /-- The operator has to jump further than a jump can go. -/
  | jumpTooLarge (operator : Token)
  /-- The call that the parenthesis opens has too many arguments. -/
  | tooManyArguments (paren : Token)
  /-- The operand that the token begins is nested too deeply. -/
  | nestingTooDeep (found : Token)
  /-- The text of a number token is not a numeral. -/
  | malformedNumber (literal : Token)
  /-- The backslash at the offset has an unknown character after it. -/
  | invalidEscape (offset : Nat) (escape : Char)
deriving DecidableEq, Repr

/-- What is wrong with a source. -/
inductive SourceError where
  /-- A fault in the characters. -/
  | lex (e : LexError)
  /-- A fault in the sequence of tokens. -/
  | parse (e : ParseError)
deriving DecidableEq, Repr

/-! ## Messages -/

/-- The message for a fault in the characters. -/
def LexError.message : LexError → String
  | unexpectedCharacter c offset => s!"Error at offset {offset}: Unexpected character '{c}'."
  | unterminatedString offset => s!"Error at offset {offset}: Unterminated string."

/-- The message for a fault in the sequence of tokens. -/
def ParseError.message : ParseError → String
  | expectedOperand found => s!"Error at {found}: Expect expression."
  | unexpectedToken expected found => s!"Error at {found}: Expect {expected}."
  | tooManyConstants literal => s!"Error at {literal}: Too many constants in one chunk."
  | jumpTooLarge operator => s!"Error at {operator}: Too much code to jump over."
  | tooManyArguments paren => s!"Error at {paren}: Can't have more than 255 arguments."
  | nestingTooDeep found => s!"Error at {found}: Expression nested too deeply."
  | malformedNumber literal => s!"Error at {literal}: Malformed number."
  | invalidEscape offset escape =>
    s!"Error at offset {offset}: Invalid escape sequence '\\{escape}'."

/-- The message for a fault of a source. -/
def SourceError.message : SourceError → String
  | lex e => e.message
  | parse e => e.message

/-! ## Places -/

/-- The offset in the source that a fault is about. -/
def SourceError.offset : SourceError → Nat
  | lex (.unexpectedCharacter _ offset) => offset
  | lex (.unterminatedString offset) => offset
  | parse (.invalidEscape offset _) => offset
  | parse (.expectedOperand t) | parse (.unexpectedToken _ t) | parse (.tooManyConstants t)
  | parse (.jumpTooLarge t) | parse (.tooManyArguments t) | parse (.nestingTooDeep t)
  | parse (.malformedNumber t) => t.start

/-- The kind of the token that a fault reports as found, for the faults that report one. -/
def SourceError.foundKind? : SourceError → Option TokenKind
  | parse (.expectedOperand t) => some t.kind
  | parse (.unexpectedToken _ t) => some t.kind
  | _ => none

end LuaExpr
