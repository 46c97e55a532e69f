import LuaExpr.Compiler
/-!
# The checked compiler

Some of the operations that a compiler needs have a result at some of their arguments only: slices
of the source, tables without an entry for each kind of token, turning a jump, counting down. The
compiler does without a result where there is none. The checked compiler has the same parts, but
takes the texts of its tokens from the source, looks its tokens up in one table of rules, and stops
with a misuse wherever there is no result.

* `Misuse`: the operations that can be misused, and where.
* `ParseRule.of`: the table, with one row for each kind of token.
* `Checked.expression`, `Checked.program`: the checked compiler, part by part.
* `Checked.attempted`: the checked compiler of a source after some calls for an expression.
-/

namespace LuaExpr

/-! ## Misuses -/

/-- An operation that has no result at its arguments. -/
inductive Misuse where
  /-- The bytes of the token are no slice of the source. -/
  | slice (token : Token)
  /-- There are no two quotes to leave out around the body of the string literal. -/
  | body (token : Token)
  /-- The body of the string literal ends with a backslash that nothing follows. -/
  | backslash (token : Token)
  /-- The text of the number literal is not a numeral. -/
  | numeral (token : Token)
  /-- The instruction at the index is not a jump, or there is none. -/
  | jump (index : Nat)
  /-- The token has no rule that goes on with an operand before it. -/
  | rule (token : Token)
  /-- The rule of the token has no instruction for it. -/
  | instruction (token : Token)
  /-- More parentheses are closed than have been opened. -/
  | groups
  /-- More expressions are ended than have been begun. -/
  | depth
deriving DecidableEq, Repr

/-- Why the checked compiler stops. -/
inductive Stop where
  /-- An operation is misused. -/
  | misuse (m : Misuse)
  /-- The source has a fault, for which the compiler stops too. -/
  | fault (e : SourceError)
deriving DecidableEq, Repr

/-! ## Rules of tokens -/

/-- What is done with a token that begins an operand. -/
inductive FrontRule where
  | group | unary | literal | number | string | name
deriving DecidableEq, Repr

/-- What is done with a token after an operand. -/
inductive JointRule where
  | call | binary | and | or
deriving DecidableEq, Repr

/-- A row of the table of rules. -/
structure ParseRule where
  /-- The rule for the token at the front of an operand. -/
  front? : Option FrontRule := none
  /-- The rule for the token after an operand. -/
  joint? : Option JointRule := none
  /-- How tightly the token binds after an operand. -/
  precedence : Precedence := .none

/-- The rules for a kind of token. -/
def ParseRule.of : TokenKind → ParseRule
  | .symbol .leftParen => ⟨some .group, some .call, .call⟩
  | .symbol .minus => ⟨some .unary, some .binary, .term⟩
  | .symbol .plus => ⟨none, some .binary, .term⟩
  | .symbol .star | .symbol .slash | .symbol .doubleSlash | .symbol .percent =>
    ⟨none, some .binary, .factor⟩
  | .symbol .caret => ⟨none, some .binary, .exponent⟩
  | .symbol .doubleDot => ⟨none, some .binary, .concat⟩
  | .symbol .tilde => ⟨some .unary, some .binary, .bitXor⟩
  | .symbol .ampersand => ⟨none, some .binary, .bitAnd⟩
  | .symbol .pipe => ⟨none, some .binary, .bitOr⟩
  | .symbol .doubleLess | .symbol .doubleGreater => ⟨none, some .binary, .shift⟩
  | .symbol .doubleEqual | .symbol .tildeEqual | .symbol .less | .symbol .lessEqual
      | .symbol .greater
  | .symbol .greaterEqual => ⟨none, some .binary, .comparison⟩
  | .keyword .and => ⟨none, some .and, .and⟩
  | .keyword .or => ⟨none, some .or, .or⟩
  | .keyword .not | .symbol .hash => ⟨some .unary, none, .none⟩
  | .keyword .nil | .keyword .true | .keyword .false => ⟨some .literal, none, .none⟩
  | .number => ⟨some .number, none, .none⟩
  | .string => ⟨some .string, none, .none⟩
  | .name => ⟨some .name, none, .none⟩
  | .keyword _ | .symbol _ | .line | .comment | .eof => {}

namespace TokenKind

/-- The instruction for a literal without a text of its own. -/
def literalOp? : TokenKind → Option Op
  | keyword .nil => some .nil
  | keyword .true => some .true
  | keyword .false => some .false
  | _ => none

/-- The binary operator that a token is. -/
def binaryOp? : TokenKind → Option BinaryOp
  | symbol s => s.binaryOp?
  | _ => none

/-- Whether operators of this kind in a row group to the right. -/
def groupsRight (kind : TokenKind) : Bool := kind = symbol .caret || kind = symbol .doubleDot

end TokenKind

/-- The joint that falls under a rule. -/
def Joint.rule : Joint → JointRule
  | call => .call
  | binary _ => .binary
  | and => .and
  | or => .or

namespace Compiler

/-- A step of the checked compiler. -/
abbrev CheckedM := EStateM Stop Compiler

namespace Checked

variable {α : Type}

/-! ## Checks -/

/-- A part of the compiler in which nothing can be misused. -/
def total (x : CompileM α) : CheckedM α := x.adaptExcept .fault

/-- The result of an operation that may have none. -/
def demand (m : Misuse) : Option α → CheckedM α
  | some a => pure a
  | none => throw (.misuse m)

/-- The text of a token, which is a slice of the source. -/
def textOf (source : String) (token : Token) : CheckedM (List Char) :=
  demand (.slice token) (Text.slice? source.toList token.start token.length)

/-- The slice of a string literal between its first byte and its last one. -/
def bodyOf? (text : List Char) : Option (List Char) :=
  if 2 ≤ Text.utf8Length text then Text.slice? text 1 (Text.utf8Length text - 2) else none

/-- The pieces of a body, if something follows each backslash that begins an escape. -/
def piecesOf? (body : List Char) : Option (List Piece) :=
  if Piece.escape [] ∈ Piece.ofBody body then none else some (Piece.ofBody body)

/-- Counts a parenthesis that is closed. -/
def closeGroup : CheckedM Unit := do
  if 0 < (← get).groups then modify fun s => { s with groups := s.groups - 1 }
  else throw (.misuse .groups)

/-- Ends an expression. -/
def leave : CheckedM Unit := do
  if 0 < (← get).depth then modify fun s => { s with depth := s.depth - 1 }
  else throw (.misuse .depth)

/-- Turns the jump at an index to the end of the code. -/
def land (jump : Nat) (operator : Token) : CheckedM Unit := do
  let chunk := (← get).chunk
  if chunk.code.size < UInt16.size then
    let chunk ← demand (.jump jump) (chunk.retarget? jump (UInt16.ofNat chunk.code.size))
    modify fun s => { s with chunk }
  else total (fail (.jumpTooLarge operator))

/-- A slice that would cut a character is a misuse. -/
example : textOf "é" ⟨.name, 0, 1⟩ (ofSource "é") =
    .error (.misuse (.slice ⟨.name, 0, 1⟩)) (ofSource "é") := by cbv

/-- Turning a jump is a misuse before it has been written. -/
example : land 0 ⟨.keyword .and, 0, 3⟩ (ofSource "and") =
    .error (.misuse (.jump 0)) (ofSource "and") := by cbv

/-! ## Operands -/

/-- A parenthesised expression after its parenthesis. -/
def group (expression : CheckedM Unit) : CheckedM Unit := do
  modify fun s => { s with groups := s.groups + 1 }
  expression
  closeGroup
  total (consume .rightParen "')' after expression")

/-- An operand after its unary operator. -/
def unary (inner : CheckedM Unit) (operator : Token) : CheckedM Unit := do
  inner
  let op ← demand (.instruction operator) operator.kind.unaryOp?
  let _ ← total (emit (.unary op) operator.start)

/-- A literal without a text of its own. -/
def literal (token : Token) : CheckedM Unit := do
  let op ← demand (.instruction token) token.kind.literalOp?
  let _ ← total (emit op token.start)

/-- A number literal. -/
def number (source : String) (token : Token) : CheckedM Unit := do
  let text ← textOf source token
  let n ← demand (.numeral token) (Decimal.ofNumeral? text)
  let slot ← total (slotOf token (.number n))
  let _ ← total (emit (.constant slot) token.start)

/-- A string literal. -/
def string (source : String) (token : Token) : CheckedM Unit := do
  let text ← textOf source token
  let body ← demand (.body token) (bodyOf? text)
  let pieces ← demand (.backslash token) (piecesOf? body)
  match Piece.decodeAll (token.start + 1) pieces with
  | .ok value =>
    let slot ← total (slotOf token (.string value))
    let _ ← total (emit (.constant slot) token.start)
  | .error e => total (fail e)

/-- A name. -/
def name (source : String) (token : Token) : CheckedM Unit := do
  let text ← textOf source token
  let slot ← total (slotOf token (.string (String.ofList text)))
  let _ ← total (emit (.global slot) token.start)

/-- The operand that a token begins, by a rule for it. -/
def front (source : String) (part : Precedence → CheckedM Unit) (token : Token) :
    FrontRule → CheckedM Unit
  | .group => group (part .or)
  | .unary => unary (part .unary) token
  | .literal => literal token
  | .number => number source token
  | .string => string source token
  | .name => name source token

/-- The operand that the previous lexeme begins, if there is a rule for it. -/
def leading (source : String) (part : Precedence → CheckedM Unit) : CheckedM Unit := do
  let token := (← get).previous.token
  match (ParseRule.of token.kind).front? with
  | some rule => front source part token rule
  | none => total (fail (.expectedOperand token))

/-! ## Joints -/

/-- The arguments of a call, of which `count` have been compiled before; gives their number. -/
def arguments {α : Type} (expression : CheckedM Unit) (count : Nat) : List α → CheckedM Nat
  | [] => return count
  | _ :: budget => do
    expression
    if (← total currentKind) = .symbol .comma then
      total advance
      arguments expression (count + 1) budget
    else return count + 1

/-- The end of a call, once its arguments have been counted. -/
def callEnd (paren : Token) (count : Nat) : CheckedM Unit := do
  closeGroup
  total (consume .rightParen "')' after arguments")
  if count < UInt8.size then
    let _ ← total (emit (.call (UInt8.ofNat count)) paren.start)
  else total (fail (.tooManyArguments paren))

/-- A call after its parenthesis. -/
def call (expression : CheckedM Unit) (paren : Token) : CheckedM Unit := do
  modify fun s => { s with groups := s.groups + 1 }
  total skipLines
  if (← total currentKind) = .symbol .rightParen then callEnd paren 0
  else callEnd paren (← arguments expression 0 (← total budget))

/-- The right operand of a binary operator, at a level that the table gives. -/
def binary (part : Precedence → CheckedM Unit) (operator : Token) : CheckedM Unit := do
  let precedence := (ParseRule.of operator.kind).precedence
  part (if operator.kind.groupsRight then precedence else precedence.next)
  let op ← demand (.instruction operator) operator.kind.binaryOp?
  let _ ← total (emit (.binary op) operator.start)

/-- The rest of a conjunction after its operator. -/
def conjunction (right : CheckedM Unit) (operator : Token) : CheckedM Unit := do
  let _ ← total (emit .dup operator.start)
  let done ← total (emit (.jumpIfFalse unlanded) operator.start)
  let _ ← total (emit .pop operator.start)
  right
  land done operator

/-- The rest of an alternative after its operator. -/
def alternative (right : CheckedM Unit) (operator : Token) : CheckedM Unit := do
  let _ ← total (emit .dup operator.start)
  let otherwise ← total (emit (.jumpIfFalse unlanded) operator.start)
  let done ← total (emit (.jump unlanded) operator.start)
  land otherwise operator
  let _ ← total (emit .pop operator.start)
  right
  land done operator

/-- What a token adds to the operand before it, by the rule for it. -/
def join (part : Precedence → CheckedM Unit) (operator : Token) : JointRule → CheckedM Unit
  | .call => call (part .or) operator
  | .binary => binary part operator
  | .and => conjunction (part Precedence.and.next) operator
  | .or => alternative (part Precedence.or.next) operator

/-- The joints after an operand that bind at least as tightly as a level. The rule of each is looked
up after the token has been used up. -/
def following {α : Type} (part : Precedence → CheckedM Unit) (level : Precedence) :
    List α → CheckedM Unit
  | [] => pure ()
  | _ :: budget => do
    if level ≤ (ParseRule.of (← total currentKind)).precedence then
      total advance
      let operator := (← get).previous.token
      let rule ← demand (.rule operator) (ParseRule.of operator.kind).joint?
      join part operator rule
      following part level budget

/-! ## Expressions and programs -/

/-- An expression whose joints bind at least as tightly as a level, with at most so many expressions
still to be opened. -/
def operand (source : String) : Nat → Precedence → CheckedM Unit
  | 0, _ => do
    total enter
    total (fail (.nestingTooDeep (← get).current.token))
  | levels + 1, level => do
    total enter
    total skipLines
    total advance
    leading source fun p => operand source levels p
    following (fun p => operand source levels p) level (← total budget)
    leave

/-- One expression. -/
def expression (source : String) : CheckedM Unit := do
  operand source (maxDepth - (← get).depth) .or

/-- One expression of a program, and what comes after it. -/
def expressionThen (source : String) (rest : CheckedM Unit) : CheckedM Unit := do
  expression source
  let kind ← total currentKind
  if isSeparator kind || kind = .eof then rest
  else total (fail (.unexpectedToken "end of expression" (← get).current.token))

/-- The expressions up to the end of the source. -/
def expressions {α : Type} (source : String) (first : Bool) : List α → CheckedM Unit
  | [] => pure ()
  | _ :: rounds => do
    total (repeatWhile isSeparator advance (← total budget))
    if (← total currentKind) ≠ .eof then
      if first then expressionThen source (expressions source false rounds)
      else
        let _ ← total (emit .pop (← get).current.start)
        expressionThen source (expressions source false rounds)

/-- All expressions of the source. -/
def program (source : String) : CheckedM Unit := do
  total advance
  expressions source true (← total budget)

/-- The checked compiler of a source after some calls for an expression, whatever each of them has
come to. -/
def attempted (source : String) : Nat → Compiler
  | 0 => ofSource source
  | k + 1 =>
    match expression source (attempted source k) with
    | .ok _ s | .error _ s => s

end Checked

end Compiler

end LuaExpr
