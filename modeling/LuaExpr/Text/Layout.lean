import LuaExpr.Text.Unprintable
/-!
# Padding and quoting

The two ways in which listings set a text: in a column of a given width, and between double quotes
with everything that a terminal would not show spelled out.
-/

namespace LuaExpr.Text

/-! ## Columns -/

/-- The text at the right end of a column, which is filled from the left with `fill`. -/
def alignRight (width : Nat) (fill : Char) (text : String) : String :=
  String.ofList (List.replicate (width - text.length) fill) ++ text

/-- The text at the left end of a column, which is filled with blanks. -/
def alignLeft (width : Nat) (text : String) : String :=
  text ++ String.ofList (List.replicate (width - text.length) ' ')

/-! ## Quoted text -/

/-- The spelling of a character between double quotes. Four controls have letters, the quote and the
backslash are marked with a backslash, and what cannot be shown is spelled by its code point in
hexadecimal. -/
def quotedChar (c : Char) : List Char :=
  if c = '\t' then ['\\', 't']
  else if c = '\r' then ['\\', 'r']
  else if c = '\n' then ['\\', 'n']
  else if c = Char.ofNat 0 then ['\\', '0']
  else if c = '"' then ['\\', '"']
  else if c = '\\' then ['\\', '\\']
  else if isUnprintable c then ['\\', 'u', '{'] ++ Nat.toDigits 16 c.toNat ++ ['}']
  else [c]

/-- The text between double quotes. -/
def quoted (text : String) : String :=
  String.ofList ('"' :: text.toList.flatMap quotedChar ++ ['"'])

end LuaExpr.Text
