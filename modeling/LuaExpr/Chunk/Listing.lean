import LuaExpr.Chunk.Basic
import LuaExpr.Position
import LuaExpr.Text.Layout
/-!
# Listings of chunks

A chunk as text: a heading, a line for each instruction, and the constants if there are any. With a
source at hand the second column is the line that an instruction comes from, with a bar where it is
that of the instruction above; without one it is the offset.
-/

namespace LuaExpr

namespace Chunk

open Text

/-- A number in a column of four. -/
def column (n : Nat) : String := alignRight 4 ' ' (toString n)

/-- How a listing shows the constant of a slot: texts between apostrophes, and a slot without a
constant by a word. -/
def describeConstant (c : Chunk) (slot : UInt8) : String :=
  match c.constant? slot with
  | some (.string s) => s!"'{s}'"
  | some v => v.display
  | none => "<invalid>"

/-- An instruction in a listing: its name, its operand, and the constant that it refers to. -/
def describe (c : Chunk) (op : Op) : String :=
  match op.operand? with
  | none => op.name
  | some n =>
    let text := alignLeft 16 op.name ++ " " ++ column n
    match op with
    | .constant slot | .global slot => text ++ " " ++ c.describeConstant slot
    | _ => text

/-- The second column of each line: offsets, or lines of a source of which repeated ones are a
bar. -/
def places (source? : Option String) (code : List Instruction) : List String :=
  match source? with
  | none => code.map fun i => column i.offset
  | some source =>
    let text := source.toList
    let lines := code.map fun i => (Position.locate text i.offset).line
    (lines.zip (none :: lines.map some)).map fun (line, above?) =>
      if above? = some line then "   |" else column line

/-- The lines of a listing. -/
def listingLines (c : Chunk) (name : String) (source? : Option String) : List String :=
  let code := c.code.toList
  let instructions := ((places source? code).zip code).zipIdx.map fun ((place, i), index) =>
    alignRight 4 '0' (toString index) ++ " " ++ place ++ " " ++ c.describe i.op
  let constants := ", ".intercalate (c.constants.toList.map fun v => quoted v.display)
  ("== " ++ name ++ " ==") :: instructions ++
    if c.constants.isEmpty then [] else ["constants: [" ++ constants ++ "]"]

/-- The listing of a chunk under a name; each line ends with a line feed. -/
def listing (c : Chunk) (name : String) (source? : Option String) : String :=
  String.join ((c.listingLines name source?).map (· ++ "\n"))

end Chunk

end LuaExpr
