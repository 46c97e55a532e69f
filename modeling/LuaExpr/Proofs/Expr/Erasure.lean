import LuaExpr.Proofs.Expr.Leaves
import LuaExpr.Proofs.Expr.Mapping
/-!
# What the compiler sees

Of a lexeme the compiler sees the kind, and the text if it is a literal or a name. Two sequences of
lexemes that look the same to it are the same program, and their chunks differ in nothing but
offsets.

* `Lexeme.bare`: a lexeme without what the compiler does not see.
* `Program.exists_of_bare_eq`: lexemes that look like those of a program are a program, with trees
  that look alike.
* `Chunk.ofProgram_of_bare_eq`: trees that look alike have the same constants and operations.
-/

namespace LuaExpr

/-- The lexeme without its place, and without its text if that is not the text of a literal or a
name. -/
def Lexeme.bare (l : Lexeme) : Lexeme :=
  { kind := l.kind, start := 0, text := if l.isLeaf then l.text else [] }

namespace Lexeme

variable {l l' : Lexeme}

theorem relabelling_bare : Relabelling bare fun _ => 0 := by
  refine ⟨fun _ => rfl, fun l => ?_, fun _ => rfl⟩
  cases h : l.isLeaf with
  | true => exact constant?_congr rfl (by rw [bare, h]; rfl)
  | false => rw [constant?_eq_none h, constant?_eq_none (l := l.bare) h]

/-- Lexemes of a kind and with a text look alike wherever they stand. -/
theorem bare_congr (hk : l'.kind = l.kind) (ht : l'.text = l.text) : l'.bare = l.bare := by
  rw [bare, bare, isLeaf, isLeaf, hk, ht]

/-- The text of a lexeme that is no literal or name is not seen. -/
theorem bare_eq_of_kind (hk : l'.kind = l.kind) (hl : l.isLeaf = false) : l'.bare = l.bare := by
  have hl' : l'.isLeaf = false := by
    rw [isLeaf, hk]
    exact hl
  rw [bare, bare, hl, hl', hk]
  rfl

end Lexeme

variable {ts ts' : List Lexeme} {es es' : List Expr}

/-- The layout looks alike for lexemes that look alike. -/
theorem Layout.bare_significant (ls : List Lexeme) :
    (significant ls).map Lexeme.bare = significant (ls.map Lexeme.bare) :=
  (significantFrom_map Lexeme.relabelling_bare 0 false ls).symm

/-- **What looks like a program is one.** -/
theorem Program.exists_of_bare_eq (h : Program ts es)
    (hts : ts'.map Lexeme.bare = ts.map Lexeme.bare) :
    ∃ es', Program ts' es' ∧ es'.map (Expr.map Lexeme.bare) = es.map (Expr.map Lexeme.bare) := by
  have hbare := h.map Lexeme.relabelling_bare
  rw [← hts] at hbare
  exact hbare.exists_of_map Lexeme.relabelling_bare

/-- Trees that look alike keep the limits alike, and have the same constants and the same
operations. -/
theorem Chunk.ofProgram_of_bare_eq (h : Expr.Acceptable es)
    (hes : es'.map (Expr.map Lexeme.bare) = es.map (Expr.map Lexeme.bare)) :
    Expr.Acceptable es' ∧ (ofProgram es').constants = (ofProgram es).constants ∧
      (ofProgram es').code.map (·.op) = (ofProgram es).code.map (·.op) := by
  have hf := Lexeme.relabelling_bare
  have h' : Expr.Acceptable es' :=
    (Expr.acceptable_map_iff hf es').mp (hes ▸ (Expr.acceptable_map_iff hf es).mpr h)
  have hconstants : Expr.constantsAll es' = Expr.constantsAll es := by
    rw [← Expr.constantsAll_map hf es', hes, Expr.constantsAll_map hf]
  have hops : ∀ (slot : Value → UInt8) {ds : List Expr}, Expr.Acceptable ds →
      (Expr.programCode slot (ds.map (Expr.map Lexeme.bare))).map (·.op) =
        (Expr.programCode slot ds).map (·.op) := by
    intro slot ds hds
    have hcode : Expr.programCode slot (ds.map (Expr.map Lexeme.bare)) =
        (Expr.programCode slot ds).map (Instruction.relabelled id 0 fun _ => 0) :=
      Expr.programCode_map hf hds.leaves fun _ _ => rfl
    rw [hcode, List.map_map]
    exact List.map_congr_left fun i _ => Op.relocated_id i.op
  refine ⟨h', ?_, ?_⟩
  · rw [ofProgram, ofProgram, hconstants]
  · rw [ofProgram, ofProgram, List.map_toArray, List.map_toArray, hconstants, ← hops _ h',
      hes, hops _ h]

end LuaExpr
