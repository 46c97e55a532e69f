/-!
# Positions

A place in a source as people count it: lines from one, and columns from one within a line. Only a
line feed ends a line, and every other character, a carriage return too, is a column.
-/

namespace LuaExpr

/-- A line and a column, both counted from one. -/
structure Position where
  /-- The line. -/
  line : Nat := 1
  /-- The column within the line, in characters. -/
  column : Nat := 1
deriving DecidableEq, Repr

namespace Position

/-- The start of the next line. -/
def nextLine (p : Position) : Position := { line := p.line + 1, column := 1 }

/-- The next column of the same line. -/
def nextColumn (p : Position) : Position := { p with column := p.column + 1 }

/-- The position after a character. -/
def after (p : Position) (c : Char) : Position :=
  if c = '\n' then p.nextLine else p.nextColumn

/-- The position after the characters that begin in the next `bytes` bytes. -/
def advance (p : Position) (bytes : Nat) : List Char → Position
  | [] => p
  | c :: rest => if bytes = 0 then p else (p.after c).advance (bytes - c.utf8Size) rest

/-- The position of a byte offset in a source. An offset past the end is the end, and one inside a
character is the position after it. -/
def locate (source : List Char) (offset : Nat) : Position :=
  ({} : Position).advance offset source

instance : ToString Position where
  toString p := s!"[line {p.line}:{p.column}]"

end Position

end LuaExpr
