/-!
# Byte lengths and byte slices

Offsets into a text count the bytes of its UTF-8 form. Characters are never cut: a slice whose ends
do not both lie between two characters does not exist.
-/

namespace LuaExpr.Text

/-- The number of bytes of the UTF-8 form. -/
def utf8Length (text : List Char) : Nat :=
  text.foldr (fun c n => c.utf8Size + n) 0

@[simp] theorem utf8Length_nil : utf8Length [] = 0 := rfl

@[simp] theorem utf8Length_cons (c : Char) (text : List Char) :
    utf8Length (c :: text) = c.utf8Size + utf8Length text := rfl

@[simp] theorem utf8Length_append (s t : List Char) :
    utf8Length (s ++ t) = utf8Length s + utf8Length t := by
  induction s with
  | nil => simp
  | cons c s ih => rw [List.cons_append, utf8Length_cons, utf8Length_cons, ih, Nat.add_assoc]

/-- Splits off the first `n` bytes, if a character ends there. -/
def splitBytes? (n : Nat) (text : List Char) : Option (List Char × List Char) :=
  go n [] text
where
  /-- Splits with the characters already passed, the last one first. -/
  go (n : Nat) (passed : List Char) : List Char → Option (List Char × List Char)
    | [] => if n = 0 then some (passed.reverse, []) else none
    | c :: rest =>
      if n = 0 then some (passed.reverse, c :: rest)
      else if c.utf8Size ≤ n then go (n - c.utf8Size) (c :: passed) rest
      else none

/-- The `length` bytes that follow the first `start` bytes, if characters begin and end there. -/
def slice? (text : List Char) (start length : Nat) : Option (List Char) :=
  match splitBytes? start text with
  | some (_, rest) => (splitBytes? length rest).map (·.1)
  | none => none

end LuaExpr.Text
