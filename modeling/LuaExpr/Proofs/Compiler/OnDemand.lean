import LuaExpr.Compiler
/-!
# The compiler on demand

The compiler finds all lexemes of its source read when it starts, its loops have budgets, and it
knows how many expressions it may still open. The compiler on demand has the same parts, but asks
the lexer for one lexeme after the other, repeats its loops without a budget, and looks each time it
opens an expression how many are open. Nothing in its text says that it comes to an end. It writes
down when it asks the lexer, and when it begins and ends an expression.

* `Event`: what it writes down. `Event.active`: the number of expressions that are open after some
  events.
* `OnDemand.operand`, `OnDemand.program`: the compiler on demand, part by part.
* `OnDemand.compile?`: what becomes of a source, and the events.
-/

namespace LuaExpr

/-! ## Events -/

/-- What happens while a source is compiled. -/
inductive Event where
  /-- The lexer is asked for the next lexeme, and gives this. -/
  | read (outcome : Except LexError Lexeme)
  /-- An expression is begun, which is not nested too deeply. -/
  | begun
  /-- The expression that was begun last is ended. -/
  | ended

namespace Event

/-- The lexer is asked. -/
def isRead : Event → Bool
  | read _ => true
  | _ => false

/-- The lexer is asked, and gives the end of the source. -/
def isEnd : Event → Bool
  | read (.ok l) => l.kind = .eof
  | _ => false

/-- The number of expressions that are open after some events, the latest event first. -/
def active : List Event → Nat
  | [] => 0
  | read _ :: earlier => active earlier
  | begun :: earlier => active earlier + 1
  | ended :: earlier => active earlier - 1

end Event

/-! ## State -/

/-- What the compiler on demand remembers between two lexemes. -/
structure Reader where
  /-- The place that the lexer has come to. -/
  cursor : Cursor
  /-- The lexeme before the current one. -/
  previous : Lexeme := .eof 0
  /-- The lexeme that has been looked at but not been used. -/
  current : Lexeme := .eof 0
  /-- The code and the constants so far. -/
  chunk : Chunk := {}
  /-- The number of open parentheses. -/
  groups : Nat := 0
  /-- The number of expressions that have been begun and not been ended. -/
  depth : Nat := 0
  /-- What has happened, the latest event first. -/
  events : List Event := []

/-- A part of the compiler on demand. It has no result if it does not come to an end. -/
abbrev ReadM := ExceptT SourceError (StateT Reader Option)

/-- A part that is given something, such as a level. -/
abbrev PartM (ι α : Type) := ReaderT ι ReadM α

/-- The compiler on demand at the start of a source. -/
def Reader.ofSource (source : String) : Reader := { cursor := .ofSource source }

/-- A compiler that has done the same, but has nothing to read. -/
def Reader.writer (r : Reader) : Compiler :=
  { unread := [], last := .eof 0, previous := r.previous, current := r.current, chunk := r.chunk,
    groups := r.groups, depth := r.depth }

namespace OnDemand

open Compiler (isSkipped isSeparator unlanded)

/-- Fails with a fault in the sequence of tokens. -/
def fail {α : Type} (e : ParseError) : ReadM α := throw (.parse e)

/-- The kind of the current lexeme. -/
def currentKind : ReadM TokenKind := return (← get).current.kind

/-! ## Reading -/

/-- Asks the lexer for the next lexeme or fault. -/
def next : ReadM (Except LexError Lexeme) := do
  let r ← get
  let (outcome, cursor) := r.cursor.next
  set { r with cursor, events := .read outcome :: r.events }
  return outcome

/-- Asks the lexer until it gives a lexeme that means anything, inside parentheses or outside of
them. -/
def search : PartM Bool Unit := fun inside => do
  match ← next with
  | .error e => throw (.lex e)
  | .ok lexeme =>
    modify fun r => { r with current := lexeme }
    if isSkipped inside lexeme.kind then search.run inside
partial_fixpoint

/-- Makes the next lexeme that means anything the current one. -/
def look : ReadM Unit := do
  search (decide (0 < (← get).groups))

/-- Uses the current lexeme up: it becomes the previous one. -/
def advance : ReadM Unit := do
  modify fun r => { r with previous := r.current }
  look

/-- Uses up the current lexemes of certain kinds. -/
def skipWhile : PartM (TokenKind → Bool) Unit := fun holds => do
  if holds (← currentKind) then
    advance
    skipWhile.run holds
partial_fixpoint

/-- Uses the current line breaks up. -/
def skipLines : ReadM Unit := skipWhile (· = .line)

/-- Uses up a symbol that has to be here. -/
def consume (symbol : Symbol) (expected : String) : ReadM Unit := do
  let r ← get
  if r.current.kind = .symbol symbol then advance
  else fail (.unexpectedToken expected r.current.token)

/-! ## Writing -/

/-- A part that reads nothing and writes in the same way. -/
def write {α : Type} (x : CompileM α) : ReadM α := fun r =>
  match x r.writer with
  | .ok a s => some (.ok a, { r with chunk := s.chunk })
  | .error e s => some (.error e, { r with chunk := s.chunk })

/-- Adds an instruction and gives its index. -/
def emit (op : Op) (offset : Nat) : ReadM Nat := write (Compiler.emit op offset)

/-- Turns the jump at an index to the end of the code, on behalf of an operator. -/
def land (jump : Nat) (operator : Token) : ReadM Unit := write (Compiler.land jump operator)

/-! ## Expressions -/

/-- Opens a parenthesis. -/
def openGroup : ReadM Unit := modify fun r => { r with groups := r.groups + 1 }

/-- Closes a parenthesis. -/
def closeGroup : ReadM Unit := modify fun r => { r with groups := r.groups - 1 }

/-- Opens an expression, unless too many are open. -/
def enter : ReadM Unit := do
  modify fun r => { r with depth := r.depth + 1 }
  let r ← get
  if maxDepth < r.depth then fail (.nestingTooDeep r.current.token)
  modify fun r => { r with events := .begun :: r.events }

/-- Ends an expression. -/
def leave : ReadM Unit :=
  modify fun r => { r with depth := r.depth - 1, events := .ended :: r.events }

/-- The end of a call, once its arguments have been counted. -/
def callEnd (paren : Token) (count : Nat) : ReadM Unit := do
  closeGroup
  consume .rightParen "')' after arguments"
  if count < UInt8.size then
    let _ ← emit (.call (UInt8.ofNat count)) paren.start
  else fail (.tooManyArguments paren)

mutual

/-- An expression whose joints bind at least as tightly as a level. A line break before it cannot
end it. -/
def operand : PartM Precedence Unit := fun level => do
  enter
  skipLines
  advance
  leading.run (← get).previous
  following.run level
  leave
partial_fixpoint

/-- The operand that a lexeme begins. -/
def leading : PartM Lexeme Unit := fun lexeme => do
  match lexeme.kind with
  | .keyword .nil => write (Compiler.literal .nil)
  | .keyword .true => write (Compiler.literal .true)
  | .keyword .false => write (Compiler.literal .false)
  | .number => write Compiler.numberLiteral
  | .string => write Compiler.stringLiteral
  | .name => write Compiler.name
  | .symbol .leftParen => do
    openGroup
    operand.run .or
    closeGroup
    consume .rightParen "')' after expression"
  | kind =>
    match kind.unaryOp? with
    | some op => do
      operand.run .unary
      let _ ← emit (.unary op) lexeme.start
    | none => fail (.expectedOperand lexeme.token)
partial_fixpoint

/-- The joints after an operand that bind at least as tightly as a level. -/
def following : PartM Precedence Unit := fun level => do
  match (← currentKind).joint? with
  | some joint =>
    if level ≤ joint.precedence then
      advance
      join.run joint
      following.run level
  | none => pure ()
partial_fixpoint

/-- What the previous lexeme, a joint, adds to the operand before it. -/
def join : PartM Joint Unit := fun joint => do
  let operator := (← get).previous.token
  match joint with
  | .call => call.run operator
  | .binary op => do
    operand.run op.rightPrecedence
    let _ ← emit (.binary op) operator.start
  | .and => conjunction.run operator
  | .or => alternative.run operator
partial_fixpoint

/-- A call after its parenthesis. -/
def call : PartM Token Unit := fun paren => do
  openGroup
  skipLines
  if (← currentKind) = .symbol .rightParen then callEnd paren 0
  else callEnd paren (← arguments.run 0)
partial_fixpoint

/-- The arguments of a call, of which some have been compiled before; gives their number. -/
def arguments : PartM Nat Nat := fun count => do
  operand.run .or
  if (← currentKind) = .symbol .comma then
    advance
    arguments.run (count + 1)
  else return count + 1
partial_fixpoint

/-- The rest of a conjunction after its operator. -/
def conjunction : PartM Token Unit := fun operator => do
  let _ ← emit .dup operator.start
  let done ← emit (.jumpIfFalse unlanded) operator.start
  let _ ← emit .pop operator.start
  operand.run Precedence.and.next
  land done operator
partial_fixpoint

/-- The rest of an alternative after its operator. -/
def alternative : PartM Token Unit := fun operator => do
  let _ ← emit .dup operator.start
  let otherwise ← emit (.jumpIfFalse unlanded) operator.start
  let done ← emit (.jump unlanded) operator.start
  land otherwise operator
  let _ ← emit .pop operator.start
  operand.run Precedence.or.next
  land done operator
partial_fixpoint

end

/-! ## Programs -/

/-- The expressions up to the end of the source; whether none has been compiled before. -/
def expressions : PartM Bool Unit := fun first => do
  skipWhile isSeparator
  if (← currentKind) ≠ .eof then
    if !first then
      let _ ← emit .pop (← get).current.start
    operand .or
    let kind ← currentKind
    if isSeparator kind || kind = .eof then expressions.run false
    else fail (.unexpectedToken "end of expression" (← get).current.token)
partial_fixpoint

/-- All expressions of the source. -/
def program : ReadM Unit := do
  advance
  expressions true

/-- The code of a source, or what is wrong with it, and everything that has happened, the latest
event first; `none` if the compiler on demand does not come to an end. -/
def compile? (source : String) : Option (Except SourceError Chunk × List Event) := do
  let (result, r) ← program.run.run (.ofSource source)
  return (result.map fun () => r.chunk, r.events)

end OnDemand

end LuaExpr
