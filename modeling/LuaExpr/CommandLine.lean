import LuaExpr.Journal
/-!
# The command line

A source is given in the arguments or on standard input; its value goes to standard output, and what
is wrong with it to standard error, with the place in the source where there is one. With `-d` in
front, the code is listed first.
-/

namespace LuaExpr

/-- The value of a source, or what is wrong with it; `none` if its run does not end. -/
def interpret? (source : String) : Option (Except Error Value) :=
  match compile source with
  | .error e => some (.error (.source e))
  | .ok chunk => chunk.evaluate?.map fun r => r.mapError .runtime

/-- What a call of the program leaves behind. -/
structure Response where
  /-- The exit code. -/
  exitCode : Nat := 0
  /-- The text on standard output. -/
  output : String := ""
  /-- The text on standard error. -/
  errors : String := ""
deriving DecidableEq, Repr

namespace CommandLine

/-- The exit code for a source that cannot be compiled. -/
def dataError : Nat := 65

/-- The exit code for a run that fails. -/
def softwareError : Nat := 70

/-- The exit code for input that is no text. -/
def inputError : Nat := 74

/-- What is written about a fault of a source. -/
def report (source : String) (e : Error) : String :=
  match e.offset? with
  | some offset => s!"{Position.locate source.toList offset} {e.message}\n"
  | none => e.message ++ "\n"

/-- What the program does with a source. -/
def evaluate (isListing : Bool) (source : String) : Response :=
  match compile source with
  | .error e => { exitCode := dataError, errors := report source (.source e) }
  | .ok chunk =>
    let listing := if isListing then (Record.ofChunk chunk source).message else ""
    match chunk.evaluate? with
    | some (.ok v) => { output := v.display ++ "\n", errors := listing }
    | some (.error f) =>
      { exitCode := softwareError, errors := listing ++ report source (.runtime f) }
    | none => { exitCode := softwareError, errors := listing }

/-- Whether the arguments ask for a listing, and the arguments that make up the source. -/
def parse : List String → Bool × List String
  | "-d" :: rest => (true, rest)
  | arguments => (false, arguments)

/-- Whether the source is read from standard input: it is when no argument holds a part of it. -/
def readsInput (arguments : List String) : Bool := (parse arguments).2.isEmpty

/-- What the program does with its arguments and the bytes of its standard input. -/
def respond (arguments : List String) (input : ByteArray) : Response :=
  let (isListing, parts) := parse arguments
  if parts.isEmpty then
    match String.fromUTF8? input with
    | some source => evaluate isListing source
    | none =>
      { exitCode := inputError,
        errors := "Could not read source: stream did not contain valid UTF-8\n" }
  else evaluate isListing (" ".intercalate parts)

end CommandLine

end LuaExpr
