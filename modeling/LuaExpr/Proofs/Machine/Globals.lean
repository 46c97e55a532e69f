import LuaExpr.Proofs.Expr.Evaluation
import LuaExpr.Proofs.Machine.Runs
/-!
# What a run reads of the globals

An instruction that pushes a global asks for the value of one name, and no other instruction asks
the globals for anything. So two runs of a chunk whose globals agree on the names that its
instructions refer to are the same, step by step.

* `lastDefinition_of_ne`, `lastDefinition_of_overwritten`: definitions that leave the value of a
  name as it is.
* `Chunk.Reads`: the names that a chunk reads; names that it only holds as texts are not among them.
* `Machine.step_congr`, `Machine.run?_congr`: steps and runs with other globals.
* `Chunk.run?_unread`: what the outcome of a run does not depend on.
-/

namespace LuaExpr

/-! ## Definitions of names -/

section Definitions

variable {front back : List (String × Value)} {d : String × Value} {name : String}

/-- A definition matters for its own name only. -/
theorem lastDefinition_of_ne (h : d.1 ≠ name) :
    lastDefinition (front ++ d :: back) name = lastDefinition (front ++ back) name := by
  simp [lastDefinition, List.filter_append, h]

/-- A definition before another one of the same name does not matter. -/
theorem lastDefinition_of_overwritten (h : d.1 ∈ back.map Prod.fst) :
    lastDefinition (front ++ d :: back) name = lastDefinition (front ++ back) name := by
  by_cases hname : d.1 = name
  · obtain ⟨e, he, heq⟩ := List.mem_map.mp h
    have hne : back.filter (fun d => d.1 = name) ≠ [] :=
      List.ne_nil_of_mem (List.mem_filter.mpr ⟨he, by simp [heq, hname]⟩)
    rw [lastDefinition, lastDefinition, List.filter_append, List.filter_append,
      List.filter_cons_of_pos (by simpa using hname),
      List.getLast?_append_of_ne_nil _ (List.cons_ne_nil _ _),
      List.getLast?_append_of_ne_nil _ hne, List.getLast?_cons, List.getLast?_eq_some_getLast hne]
    rfl
  · exact lastDefinition_of_ne hname

end Definitions

/-- A chunk reads a name if one of its instructions pushes the global of that name. -/
def Chunk.Reads (chunk : Chunk) (name : String) : Prop :=
  ∃ i ∈ chunk.code, ∃ slot, i.op = .global slot ∧ chunk.constant? slot = some (.string name)

/-! ## Steps and runs with other globals -/

namespace Machine

variable {chunk : Chunk} {g g' : Globals} {m : Machine} {i : Instruction}

/-- **One step with other globals** that agree on the names that the chunk reads. -/
theorem step_congr (h : ∀ name, chunk.Reads name → g.value name = g'.value name)
    (hi : i ∈ chunk.code) (m : Machine) :
    m.step chunk g i = m.step chunk g' i := by
  rw [step, step]
  cases hop : i.op with
  | global slot =>
    simp only [execute, globalName, constant]
    cases hconstant : chunk.constant? slot with
    | none => rfl
    | some v =>
      cases v with
      | string name =>
        have hname := h name ⟨i, hi, slot, hop, hconstant⟩
        show push _ (g.value name) = push _ (g'.value name)
        rw [hname]
      | nil => rfl
      | bool b => rfl
      | number n => rfl
  | _ => rfl

theorem runFor_congr (h : ∀ name, chunk.Reads name → g.value name = g'.value name) (n : Nat)
    (m : Machine) :
    runFor chunk g n m = runFor chunk g' n m := by
  induction n generalizing m with
  | zero => rfl
  | succ n ih =>
    cases hi : chunk.code[m.next]? with
    | none => rw [runFor_of_none hi, runFor_of_none hi]
    | some i =>
      have hstep := step_congr h (Array.mem_of_getElem? hi) m
      cases hs : m.step chunk g i with
      | ok m' => rw [runFor_succ_of_ok hi hs, runFor_succ_of_ok hi (hstep ▸ hs), ih]
      | error f => rw [runFor_succ_of_error hi hs, runFor_succ_of_error hi (hstep ▸ hs)]

/-- **A whole run with other globals**, whether or not it ends. -/
theorem run?_congr (h : ∀ name, chunk.Reads name → g.value name = g'.value name) (m : Machine) :
    m.run? chunk g = m.run? chunk g' := by
  ext r
  simp only [run?_eq_some_iff, runFor_congr h]

end Machine

/-! ## Runs of chunks -/

namespace Chunk

variable {chunk : Chunk} {limits : Limits}

theorem run?_congr {g g' : Globals} (h : ∀ name, chunk.Reads name → g.value name = g'.value name) :
    chunk.run? g limits = chunk.run? g' limits := by
  rw [run?, run?]
  cases limits.steps? with
  | none => simp only [Machine.run?_congr h]
  | some n => simp only [Machine.runFor_congr h]

theorem run?_ofList_congr {definitions definitions' : List (String × Value)}
    (h : ∀ name, chunk.Reads name → lastDefinition definitions name =
      lastDefinition definitions' name) :
    chunk.run? (.ofList definitions) limits = chunk.run? (.ofList definitions') limits :=
  run?_congr fun name hname => by rw [Globals.value_ofList, Globals.value_ofList, h name hname]

/-- **What a run does not depend on.** Definitions that leave each name that the chunk reads with
the same value, which is `nil` where there is none, give the same outcome. So it does not matter in
which order different names are defined, whether a definition is overwritten by a later one, and how
names are defined that the chunk does not read. -/
theorem run?_unread (chunk : Chunk) (limits : Limits) :
    (∀ definitions definitions' : List (String × Value),
      (∀ name, chunk.Reads name → lastDefinition definitions name =
          lastDefinition definitions' name) →
        chunk.run? (.ofList definitions) limits = chunk.run? (.ofList definitions') limits) ∧
    (∀ definitions definitions' : List (String × Value),
      (∀ name, (definitions.filter fun d => d.1 = name) = definitions'.filter fun d => d.1 = name) →
        chunk.run? (.ofList definitions) limits = chunk.run? (.ofList definitions') limits) ∧
    ∀ (front back : List (String × Value)) (d : String × Value),
      d.1 ∈ back.map Prod.fst ∨ ¬ chunk.Reads d.1 →
        chunk.run? (.ofList (front ++ d :: back)) limits =
          chunk.run? (.ofList (front ++ back)) limits := by
  refine ⟨fun definitions definitions' h => run?_ofList_congr h,
    fun definitions definitions' h => ?_, fun front back d h => ?_⟩
  · exact run?_ofList_congr fun name _ => by rw [lastDefinition, lastDefinition, h name]
  · refine run?_ofList_congr fun name hname => ?_
    rcases h with hover | hunread
    · exact lastDefinition_of_overwritten hover
    · exact lastDefinition_of_ne fun heq => hunread (heq ▸ hname)

/-- A chunk that joins a global and a text. The text is the name of another global, which does not
matter. -/
theorem run?_unread_text :
    let chunk : Chunk := { code := #[⟨.global 0, 0⟩, ⟨.constant 1, 5⟩, ⟨.binary .concat, 2⟩],
                           constants := #[.string "x", .string "y"] }
    let outcome := fun definitions => chunk.run? (.ofList definitions) {}
    outcome [("y", .nil), ("x", .bool true), ("x", .string "z")] =
        outcome [("x", .string "z"), ("y", .string "w")] ∧
      outcome [("x", .string "z"), ("y", .string "w")] =
        outcome [("y", .string "w"), ("x", .string "z")] ∧
      outcome [("y", .string "w"), ("x", .string "z")] = outcome [("x", .string "z")] ∧
      outcome [("x", .nil), ("x", .string "z")] = outcome [("x", .string "z")] ∧
      outcome [("x", .string "z")] = some (.ok (.string "zy")) := by
  intro chunk outcome
  obtain ⟨hlast, horder, hleft⟩ := run?_unread chunk {}
  have hreads : ∀ name, chunk.Reads name → name = "x" := by
    rintro name ⟨i, hi, slot, hop, hslot⟩
    have hcode : i = ⟨.global 0, 0⟩ ∨ i = ⟨.constant 1, 5⟩ ∨ i = ⟨.binary .concat, 2⟩ := by
      simpa [chunk] using hi
    rcases hcode with rfl | rfl | rfl <;> cases hop
    cases hslot
    rfl
  refine ⟨hlast _ _ fun name hname => ?_, horder _ _ fun name => ?_,
    hleft [] [("x", .string "z")] ("y", .string "w") ?_,
    hleft [] [("x", .string "z")] ("x", .nil) ?_, ?_⟩
  · rw [hreads name hname]
    decide
  · by_cases hx : "x" = name
    · subst hx
      decide
    · simp [List.filter_cons, hx]
  · exact .inr fun hy => absurd (hreads "y" hy) (by decide)
  · exact .inl (by simp)
  · show chunk.run? (.ofList [("x", .string "z")]) {} = _
    cbv

end Chunk

end LuaExpr
