import LuaExpr.Machine
import LuaExpr.Proofs.Expr.Tree
/-!
# Evaluation of trees

What an expression means, without code and without a stack: a value, or the first fault on the way
from left to right.

* `Expr.eval`: the value of an expression where names have values. The right operand of `and` and
  `or` is evaluated only if it is needed; a call evaluates the callee and the arguments and is then
  a fault, as no value can be called.
* `Expr.evalProgram`: the value of the last expression of a program.
* `lastDefinition`: the value of a name after some definitions.
-/

namespace LuaExpr

/-- The value of a leaf where names have the values of an environment. -/
def Lexeme.value (env : String → Value) (l : Lexeme) : Value :=
  match l.kind with
  | .keyword .true => .bool true
  | .keyword .false => .bool false
  | .name => env (String.ofList l.text)
  | .number | .string => l.constant?.getD .nil
  | _ => .nil

/-- The value of an operator at its operands, or the fault of the instruction that computes it. -/
def Op.result (op : Op) (operands : List Value) : Except OperandError Value → Except Fault Value
  | .ok v => return v
  | .error e => throw (.ofOperandError op operands e)

namespace Expr

variable (env : String → Value)

mutual

/-- The value of an expression. -/
def eval : Expr → Except Fault Value
  | leaf l => return l.value env
  | group _ e => e.eval
  | unary op _ e => do
    let v ← e.eval
    (Op.unary op).result [v] (op.apply v)
  | join (.binary op) _ l r => do
    let a ← l.eval
    let b ← r.eval
    (Op.binary op).result [a, b] (op.apply a b)
  | join .and _ l r => do
    let a ← l.eval
    if a.isFalsy then return a else r.eval
  | join .or _ l r => do
    let a ← l.eval
    if a.isFalsy then r.eval else return a
  | call f _ args => do
    let callee ← f.eval
    let _ ← evalAll args
    throw (.notCallable callee.kind)

/-- The values of several expressions. -/
def evalAll : List Expr → Except Fault (List Value)
  | [] => return []
  | e :: es => do
    let v ← e.eval
    let vs ← evalAll es
    return v :: vs

end

/-- The value of a program: that of its last expression, or `nil` if there is none. -/
def evalProgram : List Expr → Except Fault Value
  | [] => return .nil
  | [e] => e.eval env
  | e :: d :: es => do
    let _ ← e.eval env
    evalProgram (d :: es)

theorem evalProgram_cons (e : Expr) (es : List Expr) :
    evalProgram env (e :: es) =
      e.eval env >>= fun v => if es = [] then return v else evalProgram env es := by
  cases es with
  | nil => exact (bind_pure _).symm
  | cons d es => rfl

end Expr

/-! ## Names -/

/-- The value of a name after some definitions: that of its last definition, or `nil` if there is
none. -/
def lastDefinition (definitions : List (String × Value)) (name : String) : Value :=
  match (definitions.filter fun d => d.1 = name).getLast? with
  | some d => d.2
  | none => .nil

theorem Globals.value_define (g : Globals) (d : String × Value) (name : String) :
    (g.define d.1 d.2).value name = if d.1 = name then d.2 else g.value name := by
  by_cases h : d.1 = name
  · rw [if_pos h, Globals.value, Globals.define, List.lookup, beq_iff_eq.mpr h.symm]
    rfl
  · rw [if_neg h, Globals.value, Globals.define, List.lookup, beq_false_of_ne (Ne.symm h)]
    rfl

theorem lastDefinition_concat (definitions : List (String × Value)) (d : String × Value)
    (name : String) :
    lastDefinition (definitions ++ [d]) name = if d.1 = name then d.2
      else lastDefinition definitions name := by
  by_cases h : d.1 = name
  · simp [lastDefinition, List.filter_append, h]
  · simp [lastDefinition, List.filter_append, h]

/-- The globals of a machine are the last definitions. -/
theorem Globals.value_ofList (definitions : List (String × Value)) :
    (Globals.ofList definitions).value = lastDefinition definitions := by
  funext name
  induction definitions using List.reverseRecOn with
  | nil => rfl
  | append_singleton definitions d ih =>
    rw [Globals.ofList, List.foldl_append, List.foldl_cons, List.foldl_nil, Globals.value_define,
      lastDefinition_concat, ← ih]
    rfl

end LuaExpr
