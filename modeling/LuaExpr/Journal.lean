import LuaExpr.Chunk.Listing
import LuaExpr.Compiler
import LuaExpr.Machine
/-!
# The journal of an evaluation

What an evaluation writes down for people who look into it: the listing of the code once it is
compiled, and, at the finer level, the stack and the instruction before each step of the run.
-/

namespace LuaExpr

/-- How much is written down; the finer level includes the coarser one. -/
inductive Level where
  | debug | trace
deriving DecidableEq, Repr

/-- A line of the journal, or several lines that belong together. -/
structure Record where
  /-- The level it is written at. -/
  level : Level
  /-- Its text. -/
  message : String
deriving DecidableEq, Repr

namespace Level

/-- The name of a level. -/
def name : Level → String
  | debug => "DEBUG"
  | trace => "TRACE"

end Level

namespace Record

/-- The name under which a journal lists a chunk. -/
def chunkName : String := "script"

/-- The record of a compiled source. -/
def ofChunk (chunk : Chunk) (source : String) : Record :=
  { level := .debug, message := chunk.listing chunkName (some source) }

/-- The records before one step: the stack from its bottom, and the instruction. -/
def ofStep (m : Machine) (i : Instruction) : List Record :=
  let values := String.join (m.stack.values.toList.map fun v => "[ " ++ v.display ++ " ]")
  let index := Text.alignRight 4 '0' (toString m.next)
  [{ level := .trace, message := "          " ++ values },
   { level := .trace, message := index ++ " " ++ Chunk.column i.offset ++ " " ++ i.op.name }]

/-- The records of the run of a chunk. -/
def ofRun (chunk : Chunk) (globals : Globals) (limits : Limits) : List Record :=
  (Machine.visits chunk globals (limits.allowance chunk) limits.start).flatMap fun (m,
    i) => ofStep m i

/-- The records of the compilation of a source, if it comes from one, and of the run of its
chunk. -/
def ofEvaluation (level : Level) (source? : Option String) (chunk : Chunk) (globals : Globals)
    (limits : Limits) :
    List Record :=
  (source?.map fun source => ofChunk chunk source).toList ++
    if level = .trace then ofRun chunk globals limits else []

end Record

end LuaExpr
