import LuaExpr.Chunk.Basic
import LuaExpr.Stack
/-!
# The stack machine

A machine is the index of its next instruction and a stack; the chunk and the globals stay the same
while it runs.

* `Machine.execute`: what one instruction does.
* `Machine.runFor`: a run of a limited number of instructions, with `none` for a run that has not
  ended by then.
* `Machine.run?`: a run to its end, with `none` for a run that has none.
* `Chunk.run?`: the run of a chunk from the start under limits. A run that uses up a limit on its
  steps is a fault.
-/

namespace LuaExpr

/-! ## Globals -/

/-- The definitions of global names, the latest first. -/
structure Globals where
  /-- Names and their values. -/
  definitions : List (String × Value) := []

namespace Globals

/-- The globals with one more definition, which hides earlier ones of the same name. -/
def define (g : Globals) (name : String) (v : Value) : Globals :=
  { definitions := (name, v) :: g.definitions }

/-- The value of a name; names without a definition have the value `nil`. -/
def value (g : Globals) (name : String) : Value := (g.definitions.lookup name).getD .nil

/-- The globals after definitions in the given order. -/
def ofList (definitions : List (String × Value)) : Globals :=
  definitions.foldl (fun g d => g.define d.1 d.2) {}

end Globals

/-! ## Single steps -/

/-- The state of a run. -/
structure Machine where
  /-- The index of the next instruction. -/
  next : Nat := 0
  /-- The operands. -/
  stack : Stack := {}
deriving DecidableEq

namespace Machine

/-- The machine with a value pushed. -/
def push (m : Machine) (v : Value) : Except Fault Machine := do
  return { m with stack := ← m.stack.push v }

/-- The machine with the value of an operator pushed, if it has one at its operands. -/
def pushResult (m : Machine) (op : Op) (operands : List Value) (r : Except OperandError Value) :
    Except Fault Machine :=
  match r with
  | .ok v => m.push v
  | .error e => .error (.ofOperandError op operands e)

/-- The machine at another instruction of a chunk, or at its end. -/
def jumpTo (m : Machine) (chunk : Chunk) (target : UInt16) : Except Fault Machine :=
  if chunk.code.size < target.toNat then .error (.invalidJump target.toNat)
  else .ok { m with next := target.toNat }

/-- The constant of a slot. -/
def constant (chunk : Chunk) (slot : UInt8) : Except Fault Value :=
  match chunk.constant? slot with
  | some v => .ok v
  | none => .error (.invalidConstant slot.toNat)

/-- The name in a slot. -/
def globalName (chunk : Chunk) (slot : UInt8) : Except Fault String := do
  match ← constant chunk slot with
  | .string name => return name
  | _ => throw (.invalidConstant slot.toNat)

/-- What an instruction does to a machine that has already passed it. -/
def execute (chunk : Chunk) (globals : Globals) (op : Op) (m : Machine) : Except Fault Machine :=
  match op with
  | .nil => m.push .nil
  | .true => m.push (.bool true)
  | .false => m.push (.bool false)
  | .constant slot => do m.push (← constant chunk slot)
  | .global slot => do m.push (globals.value (← globalName chunk slot))
  | .call count => do
    let stack ← m.stack.drop count.toNat
    let (callee, _) ← stack.pop
    throw (.notCallable callee.kind)
  | .pop => do
    let (_, stack) ← m.stack.pop
    return { m with stack }
  | .dup => do m.push (← m.stack.peek 0)
  | .unary op => do
    let (v, stack) ← m.stack.pop
    pushResult { m with stack } (.unary op) [v] (op.apply v)
  | .binary op => do
    let (right, stack) ← m.stack.pop
    let (left, stack) ← stack.pop
    pushResult { m with stack } (.binary op) [left, right] (op.apply left right)
  | .jumpIfFalse target => do
    let (v, stack) ← m.stack.pop
    if v.isFalsy then jumpTo { m with stack } chunk target else return { m with stack }
  | .jump target => m.jumpTo chunk target

/-- One step: the next instruction is passed and then executed. -/
def step (chunk : Chunk) (globals : Globals) (i : Instruction) (m : Machine) :
    Except Fault Machine :=
  execute chunk globals i.op { m with next := m.next + 1 }

/-- The value of a run that has come to the end of its code: the only value on the stack. -/
def result (m : Machine) : Except Fault Value :=
  if m.stack.size = 1 then m.stack.pop.map (·.1) else .error (.stackImbalance m.stack.size)

/-! ## Runs -/

/-- The outcome of a run of at most `n` instructions; `none` if there are more to execute. -/
def runFor (chunk : Chunk) (globals : Globals) : Nat → Machine → Option (Except Fault Value)
  | 0, m => if m.next < chunk.code.size then none else some m.result
  | n + 1, m =>
    match chunk.code[m.next]? with
    | none => some m.result
    | some i =>
      match m.step chunk globals i with
      | .ok m => runFor chunk globals n m
      | .error f => some (.error f)

section

variable (chunk : Chunk)

/-- The outcome of a run, which reads the globals; `none` if it does not end. -/
def run? (m : Machine) : ReaderT Globals Option (Except Fault Value) := fun globals =>
  match chunk.code[m.next]? with
  | none => some m.result
  | some i =>
    match m.step chunk globals i with
    | .ok m => m.run?.run globals
    | .error f => some (.error f)
partial_fixpoint

end

/-- The machines of a run of at most `n` instructions just before each instruction, together with
it. -/
def visits (chunk : Chunk) (globals : Globals) (n : Nat) (m : Machine) :
    List (Machine × Instruction) :=
  go n m []
where
  /-- Goes on with the machines already seen, the latest first. -/
  go (n : Nat) (m : Machine) (seen : List (Machine × Instruction)) : List (Machine × Instruction) :=
    match n, chunk.code[m.next]? with
    | 0, _ => seen.reverse
    | _ + 1, none => seen.reverse
    | n + 1, some i =>
      match m.step chunk globals i with
      | .ok m' => go n m' ((m, i) :: seen)
      | .error _ => ((m, i) :: seen).reverse

end Machine

/-! ## Limits -/

/-- Limits on a run. -/
structure Limits where
  /-- The number of values on the stack. -/
  stack : Nat := maxStack
  /-- The number of steps, if it is limited. -/
  steps? : Option Nat := none

namespace Limits

/-- The machine at the start of a run under limits. -/
def start (l : Limits) : Machine := { stack := { capacity := l.stack } }

/-- The number of instructions after which a run without a limit on its steps is no longer watched.
A run that never jumps back ends before that. -/
def patience (chunk : Chunk) : Nat := chunk.code.size + Nat.pow 2 62

/-- The number of instructions of a run under limits that are watched: all that it may execute, if
that is limited. -/
def allowance (l : Limits) (chunk : Chunk) : Nat := l.steps?.getD (patience chunk)

end Limits

namespace Chunk

/-- The outcome of the run of a chunk under limits; `none` if it does not end. The empty chunk has
the value `nil`. -/
def run? (chunk : Chunk) (globals : Globals) (limits : Limits) : Option (Except Fault Value) :=
  if chunk.code.isEmpty then some (.ok .nil)
  else
    match limits.steps? with
    | none => limits.start.run? chunk globals
    | some n => some ((Machine.runFor chunk globals n limits.start).getD (.error (.aborted n)))

/-- The outcome of the run of a chunk without globals and under the default limits. -/
def evaluate? (chunk : Chunk) : Option (Except Fault Value) := chunk.run? {} {}

end Chunk

end LuaExpr
