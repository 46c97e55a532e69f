import LuaExpr.Chunk.Basic
import LuaExpr.Escape
import LuaExpr.Lexeme.Basic
import LuaExpr.Precedence
/-!
# The compiler

One pass over the lexemes of a source that writes the instructions as it recognises the expressions.
It looks one lexeme ahead, and the next lexeme decides whether an expression goes on.

* `Compiler`: everything the compiler remembers. A fault leaves it as it was at that moment, so that
  a compiler can be asked for another expression after a fault.
* `Compiler.operand`: an expression all of whose joints bind at least as tightly as a given level.
  The recursion is on the number of levels that may still be opened, of which there are `maxDepth`
  to begin with.
* `Compiler.program`: expressions separated by line breaks and semicolons; the value of the last one
  counts.
* Loops have the unread lexemes as their budget: each round reads at least one.
-/

namespace LuaExpr

/-! ## State -/

/-- What the compiler remembers between two lexemes. -/
structure Compiler where
  /-- The lexemes and faults that have not been read. -/
  unread : List (Except LexError Lexeme)
  /-- The lexeme that is read after all others, again and again. -/
  last : Lexeme
  /-- How often the last lexeme has been read. -/
  ends : Nat := 0
  /-- The lexeme before the current one. -/
  previous : Lexeme := .eof 0
  /-- The lexeme that has been looked at but not been used. -/
  current : Lexeme := .eof 0
  /-- The code and the constants so far. -/
  chunk : Chunk := {}
  /-- The number of open parentheses, inside which line breaks mean nothing. -/
  groups : Nat := 0
  /-- The number of expressions that have been begun and not been ended. -/
  depth : Nat := 0

/-- A step of the compiler. It keeps what it remembers when it fails. -/
abbrev CompileM := EStateM SourceError Compiler

/-- The number of expressions that may be open at once. -/
def maxDepth : Nat := 200

namespace Compiler

/-- A compiler at the start of a source, before the first lexeme. -/
def ofSource (source : String) : Compiler :=
  { unread := (Cursor.ofSource source).outcomes, last := .eof source.utf8ByteSize }

/-! ## Reading -/

/-- Fails with a fault in the sequence of tokens. -/
def fail {α : Type} (e : ParseError) : CompileM α := throw (.parse e)

/-- The kind of the current lexeme. -/
def currentKind : CompileM TokenKind := return (← get).current.kind

/-- Repeats a step while the current lexeme is of certain kinds, at most once for each member of the
budget. -/
def repeatWhile {α : Type} (holds : TokenKind → Bool) (step : CompileM Unit) :
    List α → CompileM Unit
  | [] => pure ()
  | _ :: budget => do
    if holds (← currentKind) then
      step
      repeatWhile holds step budget

/-- Whether a lexeme means nothing: comments mean nothing anywhere, and line breaks nothing inside
parentheses. -/
def isSkipped (inside : Bool) (kind : TokenKind) : Bool := kind = .comment || inside && kind = .line

/-- Makes the next lexeme that means anything the current one. -/
def look : CompileM Unit := do
  let s ← get
  go (decide (0 < s.groups)) s.unread
where
  /-- Looks through the lexemes that have not been read. -/
  go (inside : Bool) : List (Except LexError Lexeme) → CompileM Unit
    | [] => modify fun s => { s with unread := [], ends := s.ends + 1, current := s.last }
    | .error e :: rest => do
      modify fun s => { s with unread := rest }
      throw (.lex e)
    | .ok lexeme :: rest => do
      modify fun s => { s with unread := rest, current := lexeme }
      if isSkipped inside lexeme.kind then go inside rest

/-- Uses the current lexeme up: it becomes the previous one. -/
def advance : CompileM Unit := do
  modify fun s => { s with previous := s.current }
  look

/-- The budget of a loop that uses at least one lexeme up in each round: the current lexeme and
those after it. -/
def budget : CompileM (List (Except LexError Lexeme)) := do
  let s ← get
  return .ok s.current :: s.unread

/-- Uses the current line breaks up. -/
def skipLines : CompileM Unit := do
  repeatWhile (· = .line) advance (← budget)

/-- Uses up a symbol that has to be here. -/
def consume (symbol : Symbol) (expected : String) : CompileM Unit := do
  let s ← get
  if s.current.kind = .symbol symbol then advance
  else fail (.unexpectedToken expected s.current.token)

/-! ## Writing -/

/-- Adds an instruction and gives its index. -/
def emit (op : Op) (offset : Nat) : CompileM Nat := do
  let i := (← get).chunk.code.size
  modify fun s => { s with chunk := s.chunk.push op offset }
  return i

/-- The target of a jump that has not been turned to its target yet. -/
def unlanded : UInt16 := 0xffff

/-- Turns the jump at an index to the end of the code, on behalf of an operator. -/
def land (jump : Nat) (operator : Token) : CompileM Unit := do
  let target := (← get).chunk.code.size
  if target < UInt16.size then
    modify fun s => { s with chunk := s.chunk.retarget jump (UInt16.ofNat target) }
  else fail (.jumpTooLarge operator)

/-- The slot of a literal, which joins the constants if it is a new one. -/
def slotOf (literal : Token) (v : Value) : CompileM UInt8 := do
  match (← get).chunk.slotOf? v with
  | some (slot, chunk) =>
    modify fun s => { s with chunk }
    return slot
  | none => fail (.tooManyConstants literal)

/-! ## Operands -/

/-- A parenthesised expression after its parenthesis. -/
def group (expression : CompileM Unit) : CompileM Unit := do
  modify fun s => { s with groups := s.groups + 1 }
  expression
  modify fun s => { s with groups := s.groups - 1 }
  consume .rightParen "')' after expression"

/-- A literal without a text of its own. -/
def literal (op : Op) : CompileM Unit := do
  let _ ← emit op (← get).previous.start

/-- A number literal. -/
def numberLiteral : CompileM Unit := do
  let lexeme := (← get).previous
  match Decimal.ofNumeral? lexeme.text with
  | some n =>
    let slot ← slotOf lexeme.token (.number n)
    let _ ← emit (.constant slot) lexeme.start
  | none => fail (.malformedNumber lexeme.token)

/-- A string literal. -/
def stringLiteral : CompileM Unit := do
  let lexeme := (← get).previous
  match StringLiteral.decode lexeme.start lexeme.text with
  | .ok text =>
    let slot ← slotOf lexeme.token (.string text)
    let _ ← emit (.constant slot) lexeme.start
  | .error e => fail e

/-- A name. -/
def name : CompileM Unit := do
  let lexeme := (← get).previous
  let slot ← slotOf lexeme.token (.string (String.ofList lexeme.text))
  let _ ← emit (.global slot) lexeme.start

/-- The operand that the previous lexeme begins, with a way to compile its parts. -/
def leading (part : Precedence → CompileM Unit) : CompileM Unit := do
  let lexeme := (← get).previous
  match lexeme.kind with
  | .keyword .nil => literal .nil
  | .keyword .true => literal .true
  | .keyword .false => literal .false
  | .number => numberLiteral
  | .string => stringLiteral
  | .name => name
  | .symbol .leftParen => group (part .or)
  | kind =>
    match kind.unaryOp? with
    | some op => do
      part .unary
      let _ ← emit (.unary op) lexeme.start
    | none => fail (.expectedOperand lexeme.token)

/-! ## Joints -/

/-- The arguments of a call, of which `count` have been compiled before; gives their number. -/
def arguments {α : Type} (expression : CompileM Unit) (count : Nat) : List α → CompileM Nat
  | [] => return count
  | _ :: budget => do
    expression
    if (← currentKind) = .symbol .comma then
      advance
      arguments expression (count + 1) budget
    else return count + 1

/-- A call after its parenthesis. -/
def call (expression : CompileM Unit) (paren : Token) : CompileM Unit := do
  modify fun s => { s with groups := s.groups + 1 }
  skipLines
  let count ←
    if (← currentKind) = .symbol .rightParen then pure 0
    else arguments expression 0 (← budget)
  modify fun s => { s with groups := s.groups - 1 }
  consume .rightParen "')' after arguments"
  if count < UInt8.size then
    let _ ← emit (.call (UInt8.ofNat count)) paren.start
  else fail (.tooManyArguments paren)

/-- The rest of a conjunction after its operator. The left operand is the value if it is falsy. -/
def conjunction (right : CompileM Unit) (operator : Token) : CompileM Unit := do
  let _ ← emit .dup operator.start
  let done ← emit (.jumpIfFalse unlanded) operator.start
  let _ ← emit .pop operator.start
  right
  land done operator

/-- The rest of an alternative after its operator. The left operand is the value if it is truthy. -/
def alternative (right : CompileM Unit) (operator : Token) : CompileM Unit := do
  let _ ← emit .dup operator.start
  let otherwise ← emit (.jumpIfFalse unlanded) operator.start
  let done ← emit (.jump unlanded) operator.start
  land otherwise operator
  let _ ← emit .pop operator.start
  right
  land done operator

/-- What the previous lexeme, a joint, adds to the operand before it. -/
def join (part : Precedence → CompileM Unit) (joint : Joint) : CompileM Unit := do
  let operator := (← get).previous.token
  match joint with
  | .call => call (part .or) operator
  | .binary op => do
    part op.rightPrecedence
    let _ ← emit (.binary op) operator.start
  | .and => conjunction (part Precedence.and.next) operator
  | .or => alternative (part Precedence.or.next) operator

/-- The joints after an operand that bind at least as tightly as a level. -/
def following {α : Type} (part : Precedence → CompileM Unit) (level : Precedence) :
    List α → CompileM Unit
  | [] => pure ()
  | _ :: budget => do
    match (← currentKind).joint? with
    | some joint =>
      if level ≤ joint.precedence then
        advance
        join part joint
        following part level budget
    | none => pure ()

/-! ## Expressions -/

/-- Opens an expression. -/
def enter : CompileM Unit := modify fun s => { s with depth := s.depth + 1 }

/-- Ends an expression. -/
def leave : CompileM Unit := modify fun s => { s with depth := s.depth - 1 }

/-- An expression whose joints bind at least as tightly as a level, with at most so many expressions
still to be opened. A line break before it cannot end it. -/
def operand : Nat → Precedence → CompileM Unit
  | 0, _ => do
    enter
    fail (.nestingTooDeep (← get).current.token)
  | levels + 1, level => do
    enter
    skipLines
    advance
    leading fun p => operand levels p
    following (fun p => operand levels p) level (← budget)
    leave

/-- One expression. -/
def expression : CompileM Unit := do
  operand (maxDepth - (← get).depth) .or

/-! ## Programs -/

/-- Whether a kind of lexeme separates expressions. -/
def isSeparator (kind : TokenKind) : Bool := kind = .line || kind = .symbol .semicolon

/-- The expressions up to the end of the source. The value of one is dropped before the next one is
computed. -/
def expressions {α : Type} (first : Bool) : List α → CompileM Unit
  | [] => pure ()
  | _ :: rounds => do
    repeatWhile isSeparator advance (← budget)
    if (← currentKind) ≠ .eof then
      if !first then
        let _ ← emit .pop (← get).current.start
      expression
      let kind ← currentKind
      if isSeparator kind || kind = .eof then expressions false rounds
      else fail (.unexpectedToken "end of expression" (← get).current.token)

/-- All expressions of the source. -/
def program : CompileM Unit := do
  advance
  expressions true (← budget)

end Compiler

/-- The code of a source, or what is wrong with it. -/
def compile (source : String) : Except SourceError Chunk :=
  match Compiler.program.run (.ofSource source) with
  | .ok _ s => .ok s.chunk
  | .error e _ => .error e

end LuaExpr
