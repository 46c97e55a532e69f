import LuaExpr.Proofs.Compiler.Lasting
import LuaExpr.Proofs.Compiler.Sessions
import LuaExpr.Proofs.Machine.Forward
/-!
# What has been written stays

The compiler writes at the end of its chunk, and the jumps that it turns later are always among
those that it has written since. So what earlier calls for an expression have written stays, whether
a call succeeds or fails, and wherever it fails.

* `Chunk.IsPrefix`: a chunk has all that another one has, in the same places.
* `Compiler.durable_isPrefix`: all parts of the compiler keep what is there when they begin.
* `Compiler.isPrefix_expression`: so does a call for an expression, and
  `Compiler.isPrefix_attempted` any number of them.
* `Compiled.leadsForward`: the jumps of a tree that has been written lead forward, and at most to
  the end of its code.
* `Compiler.appends_attempted`: what one call after others adds.
-/

namespace LuaExpr

/-! ## Longer chunks -/

/-- The second chunk has all instructions and constants of the first one, in the same places, and
perhaps more of them. -/
structure Chunk.IsPrefix (c c' : Chunk) : Prop where
  code : c.code.toList <+: c'.code.toList
  constants : c.constants.toList <+: c'.constants.toList

namespace Chunk

variable {c c₁ c₂ : Chunk} {v : Value} {slot : UInt8}

theorem IsPrefix.refl (c : Chunk) : c.IsPrefix c := ⟨List.prefix_rfl, List.prefix_rfl⟩

theorem IsPrefix.trans (h : c.IsPrefix c₁) (h' : c₁.IsPrefix c₂) : c.IsPrefix c₂ :=
  ⟨h.code.trans h'.code, h.constants.trans h'.constants⟩

theorem IsPrefix.size_le (h : c.IsPrefix c₁) : c.code.size ≤ c₁.code.size := by
  simpa using h.code.length_le

theorem isPrefix_push (c : Chunk) (op : Op) (offset : Nat) : c.IsPrefix (c.push op offset) :=
  ⟨by simp [push], List.prefix_rfl⟩

theorem isPrefix_of_slotOf? (h : c.slotOf? v = some (slot, c₁)) : c.IsPrefix c₁ := by
  obtain ⟨hcode, hconstants, -, -⟩ := slotOf?_eq_some h
  refine ⟨?_, ?_⟩
  · rw [hcode]
  · rw [hconstants]
    exact Pool.isPrefix_add _ _

/-- A jump behind the code of a chunk may be turned. -/
theorem IsPrefix.retarget (h : c.IsPrefix c₁) {jump : Nat} (hjump : c.code.size ≤ jump)
    (target : UInt16) :
    c.IsPrefix (c₁.retarget jump target) := by
  refine ⟨?_, h.constants⟩
  rw [List.prefix_iff_getElem?]
  intro i hi
  have hne : jump ≠ i := by
    rw [Array.length_toList] at hi
    omega
  show (c₁.code.modify jump _).toList[i]? = _
  rw [Array.getElem?_toList, Array.getElem?_modify, if_neg hne, ← Array.getElem?_toList]
  exact List.prefix_iff_getElem?.mp h.code i hi

/-- A literal keeps its slot. -/
theorem IsPrefix.slotOf?_eq (h : c.IsPrefix c₁) (hv : c.slotOf? v = some (slot, c)) :
    c₁.slotOf? v = some (slot, c₁) := by
  have hmem := mem_of_slotOf? hv
  rw [slotOf?_of_mem hmem] at hv
  obtain ⟨rfl, -⟩ := Prod.mk.inj (Option.some.inj hv)
  rw [slotOf?_of_mem (h.constants.subset hmem), Pool.slot_eq_of_isPrefix h.constants hmem]

end Chunk

/-! ## Code that has been written -/

/-- The jumps of a tree that has been written lead forward, and at most to the end of its code. -/
theorem Compiled.leadsForward {c c' : Chunk} {e : Expr} (h : Compiled c c' e)
    (hroom : c'.constants.size ≤ Chunk.maxConstants) {i : Nat} {ins : Instruction}
    (hi : c.code.size ≤ i) (hins : c'.code[i]? = some ins) :
    ins.op.LeadsForward i c'.code.size := by
  have halong :=
    leadsForward_of_placed e c.code.size c'.code.size (placed_of_compiled h hroom) h.size.ge
  rw [← Array.getElem?_toList, h.writes.code _ List.prefix_rfl,
    List.getElem?_append_right (by simpa using hi), Array.length_toList] at hins
  have hforward := halong.getElem? hins
  rwa [Nat.add_sub_cancel' hi] at hforward

namespace Compiler

/-! ## Parts that write -/

section Parts

variable {β : Type} {c : Chunk}

/-- The next instruction has an index behind all code that is there. -/
theorem preserves_emit_bind {op : Op} {offset : Nat} {f : Nat → CompileM β}
    (h : ∀ i, c.code.size ≤ i → Preserves (fun s => c.IsPrefix s.chunk) (f i)) :
    Preserves (fun s => c.IsPrefix s.chunk) (emit op offset >>= f) := by
  intro s hs
  exact h s.chunk.code.size hs.size_le { s with chunk := s.chunk.push op offset }
    (hs.trans (Chunk.isPrefix_push _ _ _))

theorem preserves_land {jump : Nat} (h : c.code.size ≤ jump) (operator : Token) :
    Preserves (fun s => c.IsPrefix s.chunk) (land jump operator) :=
  preserves_get_bind fun _ => preserves_ite (preserves_modify fun _ hs => hs.retarget h _)
    (preserves_fail _)

end Parts

/-- **What is there stays.** A jump is turned only by the conjunction or the alternative that has
written it. -/
theorem durable_isPrefix (c : Chunk) : Durable fun s => c.IsPrefix s.chunk where
  of_eq _ _ _ hc h := by rwa [hc]
  look := preserves_look_chunk
  emit := preserves_emit_chunk fun op offset h => h.trans (Chunk.isPrefix_push _ op offset)
  slotOf := preserves_slotOf_chunk fun hslot h => h.trans (Chunk.isPrefix_of_slotOf? hslot)
  conjunction operator hright := preserves_emit_bind fun _ _ => preserves_emit_bind fun _ hdone =>
    preserves_emit_bind fun _ _ => preserves_bind hright fun _ => preserves_land hdone operator
  alternative operator hright :=
  preserves_emit_bind fun _ _ => preserves_emit_bind fun _ hotherwise =>
    preserves_emit_bind fun _ hdone => preserves_bind (preserves_land hotherwise operator) fun _ =>
    preserves_emit_bind fun _ _ => preserves_bind hright fun _ => preserves_land hdone operator

/-! ## Calls for an expression -/

/-- **A call** leaves what has been written before it, whether it succeeds or fails. -/
theorem isPrefix_expression (s : Compiler) : s.chunk.IsPrefix (left expression s).chunk := by
  have hexpression := (durable_isPrefix s.chunk).expression
  unfold left
  cases hx : expression s with
  | ok u s' => exact hexpression.of_ok (.refl _) hx
  | error e s' => exact hexpression.of_error (.refl _) hx

variable (source : String)

/-- **Any number of calls** does, by induction on their number. -/
theorem isPrefix_attempted (k n : Nat) :
    (attempted source k).chunk.IsPrefix (attempted source (k + n)).chunk := by
  induction n with
  | zero => exact .refl _
  | succ n ih => exact ih.trans (isPrefix_expression _)

theorem constants_size_attempted_le (k : Nat) :
    (attempted source k).chunk.constants.size ≤ Chunk.maxConstants := by
  obtain ⟨n, hn⟩ := exists_yields_attempted source k
  obtain ⟨d, hd⟩ := exists_balanced_of_yields hn
  exact hd.room

/-- **Calls only append.** After any number of calls, successful or not, further ones leave all
instructions with their offsets and all constants where they are, and a literal that has a slot
keeps it. A call that succeeds appends some code. The jumps in it lead forward, and at most to its
end. -/
theorem appends_attempted (k : Nat) :
    (∀ n, (attempted source k).chunk.code.toList <+: (attempted source (k + n)).chunk.code.toList ∧
      (attempted source k).chunk.constants.toList <+:
        (attempted source (k + n)).chunk.constants.toList ∧
      ∀ v slot, (attempted source k).chunk.slotOf? v = some (slot, (attempted source k).chunk) →
        (attempted source (k + n)).chunk.slotOf? v =
          some (slot, (attempted source (k + n)).chunk)) ∧
    (succeeds expression (attempted source k) = true →
      (attempted source k).chunk.code.size < (attempted source (k + 1)).chunk.code.size ∧
      ∀ (i : Nat) (ins : Instruction) (target : UInt16), (attempted source k).chunk.code.size ≤ i →
        (attempted source (k + 1)).chunk.code[i]? = some ins →
        ins.op = .jump target ∨ ins.op = .jumpIfFalse target →
        i < target.toNat ∧ target.toNat ≤ (attempted source (k + 1)).chunk.code.size) := by
  constructor
  · intro n
    have hlonger := isPrefix_attempted source k n
    exact ⟨hlonger.code, hlonger.constants, fun v slot => hlonger.slotOf?_eq⟩
  · intro hsucceeds
    obtain ⟨_, h⟩ := exists_of_succeeds hsucceeds
    obtain ⟨-, e, he⟩ := compiled_expression (eofLast_attempted source k) h
    have he : Compiled (attempted source k).chunk (attempted source (k + 1)).chunk e := he
    refine ⟨?_, fun i ins target hi hins hop => ?_⟩
    · have hsize := he.size
      have hpos := e.size_pos
      omega
    · exact he.leadsForward (constants_size_attempted_le source (k + 1)) hi hins target hop

/-- The second call fails inside a conjunction, and the third one compiles an alternative behind
what is left of it. -/
theorem appends_attempted_alternative :
    (attempted "1 and ) 2 or 1" 2).chunk.code =
      #[⟨.constant 0, 0⟩, ⟨.dup, 2⟩, ⟨.jumpIfFalse unlanded, 2⟩, ⟨.pop, 2⟩] ∧
    (attempted "1 and ) 2 or 1" 2).chunk.code.toList <+:
      (attempted "1 and ) 2 or 1" 3).chunk.code.toList ∧
    (attempted "1 and ) 2 or 1" 3).chunk.slotOf? (.number (.ofInt 1)) =
      some (0, (attempted "1 and ) 2 or 1" 3).chunk) ∧
    ∀ (i : Nat) (ins : Instruction) (target : UInt16), 4 ≤ i →
      (attempted "1 and ) 2 or 1" 3).chunk.code[i]? = some ins →
      ins.op = .jump target ∨ ins.op = .jumpIfFalse target →
      i < target.toNat ∧ target.toNat ≤ 10 := by
  have hchunk : (attempted "1 and ) 2 or 1" 2).chunk =
      { code := #[⟨.constant 0, 0⟩, ⟨.dup, 2⟩, ⟨.jumpIfFalse unlanded, 2⟩, ⟨.pop, 2⟩],
        constants := #[.number (.ofInt 1)] } := by decide +kernel
  have hsize : (attempted "1 and ) 2 or 1" 3).chunk.code.size = 10 := by decide +kernel
  have hsucceeds : succeeds expression (attempted "1 and ) 2 or 1" 2) = true := by decide +kernel
  obtain ⟨hstays, happends⟩ := appends_attempted "1 and ) 2 or 1" 2
  obtain ⟨-, hforward⟩ := happends hsucceeds
  rw [hchunk, hsize] at hforward
  refine ⟨by rw [hchunk], (hstays 1).1, (hstays 1).2.2 _ _ ?_, hforward⟩
  rw [hchunk]
  decide +kernel

end Compiler

end LuaExpr
