import LuaExpr.Instruction
/-!
# Chunks

Compiled code: a sequence of instructions and the pool of constants they refer to. A slot of the
pool is a byte, so the pool holds at most 256 constants.

* `addConstant?` adds a constant as it is, `slotOf?` only if the pool does not hold that literal
  yet.
* `retarget` turns a jump to another target and changes nothing else; `retarget?` refuses what is
  not a jump.
-/

namespace LuaExpr

/-- Instructions and the constants they refer to. -/
structure Chunk where
  /-- The instructions in order. -/
  code : Array Instruction := #[]
  /-- The constants by slot. -/
  constants : Array Value := #[]
deriving DecidableEq, Inhabited

namespace Chunk

/-- The number of slots that a byte can name. -/
def maxConstants : Nat := 256

/-- The chunk with one more instruction. -/
def push (c : Chunk) (op : Op) (offset : Nat) : Chunk :=
  { c with code := c.code.push { op, offset } }

/-- The chunk with one more constant, and its slot; `none` when all slots are taken. -/
def addConstant? (c : Chunk) (v : Value) : Option (UInt8 × Chunk) :=
  if c.constants.size < maxConstants then
    some (UInt8.ofNat c.constants.size, { c with constants := c.constants.push v })
  else none

/-- The slot of a literal in a chunk that holds it; `none` when the pool does not hold it and all
slots are taken. Numbers are the same literal when their bit patterns are the same. -/
def slotOf? (c : Chunk) (v : Value) : Option (UInt8 × Chunk) :=
  match c.constants.findIdx? (· = v) with
  | some i => some (UInt8.ofNat i, c)
  | none => c.addConstant? v

/-- The constant of a slot. -/
def constant? (c : Chunk) (slot : UInt8) : Option Value := c.constants[slot.toNat]?

/-- Whether there is a jump at an index. -/
def isJumpAt (c : Chunk) (i : Nat) : Bool := c.code[i]?.any fun instruction => instruction.op.isJump

/-- The chunk with the jump at an index turned to a target. Nothing else changes. -/
def retarget (c : Chunk) (i : Nat) (target : UInt16) : Chunk :=
  { c with code := c.code.modify i fun instruction =>
    { instruction with op := instruction.op.withTarget target } }

/-- The chunk with the jump at an index turned to a target; `none` if there is no jump at the
index. -/
def retarget? (c : Chunk) (i : Nat) (target : UInt16) : Option Chunk :=
  if c.isJumpAt i then some (c.retarget i target) else none

/-- Whether two chunks have the same instructions from the same places, and constants that are equal
values. -/
def equals (a b : Chunk) : Bool :=
  a.code == b.code && a.constants.size == b.constants.size &&
    (a.constants.toList.zip b.constants.toList).all fun p => p.1.equals p.2

end Chunk

end LuaExpr
