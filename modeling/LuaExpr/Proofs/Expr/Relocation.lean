import LuaExpr.Proofs.Expr.Mapping
import LuaExpr.Proofs.Lexeme.Continuation
/-!
# Trees in another place

A tree that stands later in a source, and the code of which begins later in a chunk, has the same
code up to its offsets, its targets and its slots.

* `Expr.moved`: a tree with its lexemes later in the source; what it refers to and how it is nested
  stay the same.
* `Program.moved`: the lexemes of a program are a program in every place.
* `Instruction.relocated`: an instruction with other slots, later targets and a later offset.
* `Expr.codeNext_moved`: the code of a program after another one is its own code, relocated, after
  one instruction.
-/

namespace LuaExpr

/-! ## Literals -/

namespace Lexeme

variable {l : Lexeme} (bytes : Nat)

@[simp] theorem kind_moved : (l.moved bytes).kind = l.kind := rfl

@[simp] theorem constant?_moved : (l.moved bytes).constant? = l.constant? := constant?_congr rfl rfl

theorem relabelling_moved : Relabelling (Lexeme.moved bytes) (· + bytes) :=
  ⟨fun _ => kind_moved bytes, fun _ => constant?_moved bytes, fun _ => rfl⟩

theorem IsValid.moved (h : l.IsValid) : (l.moved bytes).IsValid :=
  (relabelling_moved bytes).isValid_iff.mpr h

end Lexeme

/-! ## Trees -/

namespace Expr

mutual

/-- The expression a number of bytes later in the source. -/
def moved (bytes : Nat) : Expr → Expr
  | leaf l => leaf (l.moved bytes)
  | group paren e => group (paren.moved bytes) (e.moved bytes)
  | unary op mark e => unary op (mark.moved bytes) (e.moved bytes)
  | join c mark l r => join c (mark.moved bytes) (l.moved bytes) (r.moved bytes)
  | call f paren args => call (f.moved bytes) (paren.moved bytes) (movedAll bytes args)

/-- Several expressions a number of bytes later in the source. -/
def movedAll (bytes : Nat) : List Expr → List Expr
  | [] => []
  | e :: es => e.moved bytes :: movedAll bytes es

end

variable (bytes : Nat)

@[simp] theorem movedAll_eq_map (es : List Expr) : movedAll bytes es = es.map (moved bytes) := by
  induction es with
  | nil => rfl
  | cons e es ih => rw [movedAll, ih, List.map_cons]

/-- A tree in another place is the tree with its lexemes there. -/
theorem moved_eq_map : moved bytes = map (Lexeme.moved bytes) := by
  funext e
  induction e with
  | leaf l => rfl
  | group paren e ih => rw [moved, map, ih]
  | unary op mark e ih => rw [moved, map, ih]
  | join c mark l r ihl ihr => rw [moved, map, ihl, ihr]
  | call e paren args ih ihargs =>
    rw [moved, map, ih, movedAll_eq_map, mapAll_eq_map, List.map_congr_left ihargs]

@[simp] theorem nesting_moved (e : Expr) : (e.moved bytes).nesting = e.nesting := by
  rw [moved_eq_map, nesting_map]

theorem leavesAll_moved (es : List Expr) :
    leavesAll (es.map (moved bytes)) = (leavesAll es).map (Lexeme.moved bytes) := by
  rw [moved_eq_map, leavesAll_map]

@[simp] theorem constantsAll_moved (es : List Expr) :
    constantsAll (es.map (moved bytes)) = constantsAll es := by
  rw [moved_eq_map, constantsAll_map (Lexeme.relabelling_moved bytes)]

/-- A part of an expression that begins a number of bytes and of instructions later. -/
def movedPart (shift : Nat) (part : Nat × Expr) : Nat × Expr := (part.1 + shift, part.2.moved bytes)

theorem movedPart_eq_mapPart (shift : Nat) :
    movedPart bytes shift = mapPart (Lexeme.moved bytes) shift := by
  funext part
  rw [movedPart, mapPart, moved_eq_map]

/-- The parts of a program after another one begin where its code does. -/
theorem partsNext_moved_cons (e : Expr) (es : List Expr) (base : Nat) :
    partsNext base ((e :: es).map (moved bytes)) =
      (programParts (e :: es)).map (movedPart bytes (base + 1)) := by
  have he := parts_map (Lexeme.moved bytes) (base + 1) e 0
  have hes := partsNext_map (Lexeme.moved bytes) (base + 1) es e.size
  rw [Nat.zero_add] at he
  rw [moved_eq_map, movedPart_eq_mapPart, List.map_cons, partsNext, programParts, he, size_map,
    Nat.add_comm (base + 1), hes, List.map_append]

end Expr

/-- The lexemes of a program are a program in every place. -/
theorem Program.moved {ts : List Lexeme} {es : List Expr} (h : Program ts es) (bytes : Nat) :
    Program (ts.map (Lexeme.moved bytes)) (es.map (Expr.moved bytes)) := by
  rw [Expr.moved_eq_map]
  exact h.map (Lexeme.relabelling_moved bytes)

/-- The layout does not depend on offsets. -/
theorem Layout.significant_moved (ls : List Lexeme) (bytes : Nat) :
    Layout.significant (ls.map (Lexeme.moved bytes)) =
      (Layout.significant ls).map (Lexeme.moved bytes) :=
  significantFrom_map (Lexeme.relabelling_moved bytes) 0 false ls

/-! ## Code -/

/-- The instruction with other slots, later targets, and an offset that is a number of bytes
later. -/
def Instruction.relocated (rename : UInt8 → UInt8) (shift bytes : Nat) (i : Instruction) :
    Instruction :=
  { op := i.op.relocated rename shift, offset := i.offset + bytes }

namespace Expr

variable {slot slot' : Value → UInt8} {rename : UInt8 → UInt8} (bytes : Nat)

/-- The code of a program after another one: an instruction that drops a value, and the code of the
program. -/
theorem codeNext_moved {e : Expr} {es : List Expr} (hleaves : ∀ l ∈ leavesAll (e :: es), l.IsValid)
    (hslot : ∀ v ∈ constantsAll (e :: es), slot' v = rename (slot v)) (base : Nat) :
    codeNext slot' base ((e :: es).map (moved bytes)) = ⟨.pop, e.start + bytes⟩ ::
      (programCode slot (e :: es)).map (Instruction.relocated rename (base + 1) bytes) := by
  have hf := Lexeme.relabelling_moved bytes
  have hrelocates : Relocates (Lexeme.moved bytes) (· + bytes) slot slot' rename (base + 1) e :=
    code_map hf e
  have he :=
    hrelocates (fun l hl => hleaves l (List.mem_append_left _ hl))
      (fun v hv => hslot v (by simp [hv])) 0
  have hes := codeNext_map (base + 1) hf (fun l hl => hleaves l (List.mem_append_right _ hl))
    (fun v hv => hslot v (by simp [hv])) e.size
  rw [Nat.zero_add] at he
  rw [moved_eq_map, List.map_cons, codeNext, programCode, he, size_map, Nat.add_comm (base + 1),
    hes, start_map hf, ← List.map_append]
  rfl

end Expr

end LuaExpr
