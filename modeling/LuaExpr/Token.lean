/-!
# Tokens

The kinds of words a source is made of. A keyword or a symbol is its own text; the other kinds are
classes of texts.

* `Keyword.ofText?` reads a keyword, which has to be spelled exactly.
* `Symbol.longest?` finds the longest symbol at the front of a text: the symbols stand in the order
  of falling length.
* `Token` is a kind with the place it was found at.
-/

namespace LuaExpr

/-! ## Keywords -/

/-- The reserved words of the language. The expressions use only some of them. -/
inductive Keyword where
  | and | «break» | «do» | «else» | elseif | «end» | false | «for» | function | goto | «if» | «in»
  | «local» | nil | not | or | «repeat» | «return» | «then» | true | «until» | «while»
deriving DecidableEq, Repr

namespace Keyword

/-- The spelling of a keyword. -/
def text : Keyword → String
  | and => "and"
  | «break» => "break"
  | «do» => "do"
  | «else» => "else"
  | elseif => "elseif"
  | «end» => "end"
  | false => "false"
  | «for» => "for"
  | function => "function"
  | goto => "goto"
  | «if» => "if"
  | «in» => "in"
  | «local» => "local"
  | nil => "nil"
  | not => "not"
  | or => "or"
  | «repeat» => "repeat"
  | «return» => "return"
  | «then» => "then"
  | true => "true"
  | «until» => "until"
  | «while» => "while"

/-- All keywords. -/
def all : List Keyword :=
  [and, «break», «do», «else», elseif, «end», false, «for», function, goto, «if», «in»,
   «local», nil, not, or, «repeat», «return», «then», true, «until», «while»]

/-- The keyword with the given spelling. -/
def ofText? (s : String) : Option Keyword :=
  all.find? fun k => k.text == s

end Keyword

/-! ## Symbols -/

/-- Operators and punctuation. -/
inductive Symbol where
  | tripleDot
  | doubleSlash | doubleLess | doubleGreater | doubleEqual | tildeEqual | lessEqual | greaterEqual
  | doubleColon | doubleDot
  | semicolon | plus | minus | star | slash | percent | caret | hash | ampersand | tilde | pipe
  | less | greater | equal | leftParen | rightParen | leftBrace | rightBrace | leftBracket
      | rightBracket
  | colon | comma | dot
deriving DecidableEq, Repr

namespace Symbol

/-- The spelling of a symbol. -/
def text : Symbol → String
  | tripleDot => "..."
  | doubleSlash => "//"
  | doubleLess => "<<"
  | doubleGreater => ">>"
  | doubleEqual => "=="
  | tildeEqual => "~="
  | lessEqual => "<="
  | greaterEqual => ">="
  | doubleColon => "::"
  | doubleDot => ".."
  | semicolon => ";"
  | plus => "+"
  | minus => "-"
  | star => "*"
  | slash => "/"
  | percent => "%"
  | caret => "^"
  | hash => "#"
  | ampersand => "&"
  | tilde => "~"
  | pipe => "|"
  | less => "<"
  | greater => ">"
  | equal => "="
  | leftParen => "("
  | rightParen => ")"
  | leftBrace => "\x7b"
  | rightBrace => "\x7d"
  | leftBracket => "["
  | rightBracket => "]"
  | colon => ":"
  | comma => ","
  | dot => "."

/-- All symbols, the longer ones first. -/
def all : List Symbol :=
  [tripleDot,
   doubleSlash, doubleLess, doubleGreater, doubleEqual, tildeEqual, lessEqual, greaterEqual,
   doubleColon, doubleDot,
   semicolon, plus, minus, star, slash, percent, caret, hash, ampersand, tilde, pipe,
   less, greater, equal, leftParen, rightParen, leftBrace, rightBrace, leftBracket, rightBracket,
   colon, comma, dot]

/-- The longest symbol that a text begins with. -/
def longest? (text : List Char) : Option Symbol :=
  all.find? fun s => s.text.toList.isPrefixOf text

end Symbol

/-! ## Kinds and tokens -/

/-- The kind of a token. -/
inductive TokenKind where
  /-- A reserved word. -/
  | keyword (k : Keyword)
  /-- An operator or a punctuation mark. -/
  | symbol (s : Symbol)
  /-- A name that is not reserved. -/
  | name
  /-- A string literal with its quotes. -/
  | string
  /-- A number literal. -/
  | number
  /-- A line break. -/
  | line
  /-- A comment up to the end of its line. -/
  | comment
  /-- The end of the source. -/
  | eof
deriving DecidableEq, Repr

namespace TokenKind

/-- How messages call a kind: keywords and symbols by their spelling, the other kinds by a word in
brackets. -/
def text : TokenKind → String
  | keyword k => k.text
  | symbol s => s.text
  | name => "<name>"
  | string => "<string>"
  | number => "<number>"
  | line => "<newline>"
  | comment => "<comment>"
  | eof => "<eof>"

instance : ToString TokenKind := ⟨text⟩

/-- The kind of a text that has the form of a name. -/
def ofName (s : String) : TokenKind :=
  match Keyword.ofText? s with
  | some k => keyword k
  | none => name

end TokenKind

/-- A kind of token and the bytes of the source it covers. -/
structure Token where
  /-- The kind. -/
  kind : TokenKind
  /-- The offset of the first byte. -/
  start : Nat
  /-- The number of bytes. -/
  length : Nat
deriving DecidableEq, Repr

instance : ToString Token where
  toString t := s!"'{t.kind}' at offset {t.start}"

end LuaExpr
