import LuaExpr.CommandLine
/-!
# The program

Hands the arguments and, if the source is not among them, standard input to `CommandLine.respond`.
-/

/-- Evaluates the source given in the arguments or on standard input. -/
def main (arguments : List String) : IO UInt32 := do
  let input ←
    if LuaExpr.CommandLine.readsInput arguments then (← IO.getStdin).readBinToEnd
      else pure ByteArray.empty
  let response := LuaExpr.CommandLine.respond arguments input
  (← IO.getStderr).putStr response.errors
  (← IO.getStdout).putStr response.output
  return response.exitCode.toUInt32
