import LuaExpr.Decimal.Digits
import LuaExpr.SourceError
import LuaExpr.Text.Utf8
/-!
# Escapes in string literals

The body of a string literal, between its quotes, is a sequence of pieces: plain characters, and
escapes that begin with a backslash.

* `Piece.ofBody`: the only way to split a body from left to right. An escape takes a whole line
  break, or up to three digits, or else one character.
* `Piece.decode?`: the character that a piece stands for, if its escape is a known one.
* `StringLiteral.decode`: the text that a literal denotes, or its first unknown escape.
-/

namespace LuaExpr

/-- A piece of the body of a string literal. -/
inductive Piece where
  /-- A character that stands for itself. -/
  | plain (c : Char)
  /-- A backslash and the characters that belong to it. -/
  | escape (spelling : List Char)
deriving DecidableEq, Repr

namespace Piece

/-- The characters of a piece as they stand in the source. -/
def spelled : Piece → List Char
  | plain c => [c]
  | escape spelling => '\\' :: spelling

/-- The number of characters that belong to a backslash: a line break, up to three digits, or one
character. -/
def escapeWidth (text : List Char) : Nat :=
  match text with
  | '\r' :: '\n' :: _ => 2
  | c :: _ => if c.isDigit then ((text.take 3).takeWhile Char.isDigit).length else 1
  | [] => 0

/-- The pieces of a body. -/
def ofBody (body : List Char) : List Piece :=
  go [] body
where
  /-- Splits on, with the pieces already found, the last one first. -/
  go (found : List Piece) (text : List Char) : List Piece :=
    match text with
    | [] => found.reverse
    | c :: rest =>
      if c = '\\' then
        let n := escapeWidth rest
        go (escape (rest.take n) :: found) (rest.drop n)
      else go (plain c :: found) rest
  termination_by text.length
  decreasing_by all_goals simp only [List.length_drop, List.length_cons]; omega

/-- The character that a backslash and the given one stand for: letters stand for controls, line
breaks for a line feed, quotes and the backslash for themselves. -/
def ofMark? (c : Char) : Option Char :=
  match c with
  | 'n' | '\n' | '\r' => some '\n'
  | 't' => some '\t'
  | 'r' => some '\r'
  | 'a' => some '\x07'
  | 'b' => some '\x08'
  | 'f' => some '\x0c'
  | 'v' => some '\x0b'
  | '\\' | '"' | '\'' => some c
  | _ => none

/-- The character that a piece stands for, if it stands for one. Digits after a backslash are the
code of an ASCII character, and a backslash with nothing after it is itself. -/
def decode? : Piece → Option Char
  | plain c => some c
  | escape [] => some '\\'
  | escape (c :: rest) =>
    if c.isDigit then
      let code := Decimal.ofDigits (c :: rest)
      if code ≤ 127 then some (Char.ofNat code) else none
    else ofMark? c

/-- The text that pieces stand for, the first of which is at an offset; or the place and the mark of
the first escape that stands for nothing. -/
def decodeAll (offset : Nat) (pieces : List Piece) : Except ParseError String :=
  go offset [] pieces
where
  /-- Goes on with the characters already found, the last one first. -/
  go (offset : Nat) (found : List Char) : List Piece → Except ParseError String
    | [] => .ok (String.ofList found.reverse)
    | piece :: rest =>
      match piece.decode?, piece with
      | some c, _ => go (offset + Text.utf8Length piece.spelled) (c :: found) rest
      | none, escape (mark :: _) => .error (.invalidEscape offset mark)
      | none, _ => .error (.invalidEscape offset '\\')

end Piece

namespace StringLiteral

/-- The body of a string literal: all but its two quotes. -/
def body (literal : List Char) : List Char := (literal.drop 1).dropLast

/-- The text that a string literal at an offset denotes. -/
def decode (offset : Nat) (literal : List Char) : Except ParseError String :=
  Piece.decodeAll (offset + 1) (Piece.ofBody (body literal))

end StringLiteral

end LuaExpr
