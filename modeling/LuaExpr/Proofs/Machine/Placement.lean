import LuaExpr.Proofs.Expr.Code
/-!
# Code in its place

A chunk holds the code of a tree from some index on, its pool holds the constants of the tree, and
the tree keeps the limits there. Each form of trees is taken apart here, once, into the same for its
parts and its own instructions.

* `Chunk.CodeAt`: a chunk holds instructions from an index on.
* `Placed`, `PlacedAll`, `PlacedNext`: the code of a tree, of arguments and of further expressions
  of a program.
* `placed_ofProgram`: the code of a program is in its place in its chunk;
  `exists_placed_of_mem_programParts`: so is the code of each of its parts.
-/

namespace LuaExpr

/-! ## Instructions in their place -/

/-- A chunk holds instructions from an index on. -/
def Chunk.CodeAt (chunk : Chunk) (base : Nat) (code : List Instruction) : Prop :=
  ∃ before after, chunk.code.toList = before ++ (code ++ after) ∧ before.length = base

namespace Chunk.CodeAt

variable {chunk : Chunk} {base : Nat} {xs ys : List Instruction} {i : Instruction}

theorem left (h : chunk.CodeAt base (xs ++ ys)) : chunk.CodeAt base xs := by
  obtain ⟨before, after, hcode, hlen⟩ := h
  exact ⟨before, ys ++ after, by rw [hcode, List.append_assoc], hlen⟩

theorem right (h : chunk.CodeAt base (xs ++ ys)) : chunk.CodeAt (base + xs.length) ys := by
  obtain ⟨before, after, hcode, hlen⟩ := h
  exact ⟨before ++ xs, after, by rw [hcode]; simp, by rw [List.length_append, hlen]⟩

theorem head (h : chunk.CodeAt base (i :: xs)) : chunk.code[base]? = some i := by
  obtain ⟨before, after, hcode, rfl⟩ := h
  rw [← Array.getElem?_toList, hcode]
  simp

theorem tail (h : chunk.CodeAt base (i :: xs)) : chunk.CodeAt (base + 1) xs := by
  have h : chunk.CodeAt base ([i] ++ xs) := h
  exact h.right

theorem le_size (h : chunk.CodeAt base xs) : base + xs.length ≤ chunk.code.size := by
  obtain ⟨before, after, hcode, rfl⟩ := h
  rw [← Array.length_toList, hcode]
  simp only [List.length_append]
  omega

end Chunk.CodeAt

/-! ## Trees in their place -/

/-- A chunk holds the code of a tree from an index on, and all that the code refers to. -/
structure Placed (chunk : Chunk) (slot : Value → UInt8) (base : Nat) (e : Expr) : Prop where
  code : chunk.CodeAt base (e.code slot base)
  constants : ∀ v ∈ e.constants, chunk.constant? (slot v) = some v
  leaves : ∀ l ∈ e.leaves, l.IsValid
  parts : ∀ part ∈ e.parts base, part.2.Fits part.1

/-- The same for several trees in a row. -/
structure PlacedAll (chunk : Chunk) (slot : Value → UInt8) (base : Nat)
    (es : List Expr) : Prop where
  code : chunk.CodeAt base (Expr.codeAll slot base es)
  constants : ∀ v ∈ Expr.constantsAll es, chunk.constant? (slot v) = some v
  leaves : ∀ l ∈ Expr.leavesAll es, l.IsValid
  parts : ∀ part ∈ Expr.partsAll base es, part.2.Fits part.1

/-- The same for further expressions of a program. -/
structure PlacedNext (chunk : Chunk) (slot : Value → UInt8) (base : Nat)
    (es : List Expr) : Prop where
  code : chunk.CodeAt base (Expr.codeNext slot base es)
  constants : ∀ v ∈ Expr.constantsAll es, chunk.constant? (slot v) = some v
  leaves : ∀ l ∈ Expr.leavesAll es, l.IsValid
  parts : ∀ part ∈ Expr.partsNext base es, part.2.Fits part.1

section Forms

variable {chunk : Chunk} {slot : Value → UInt8} {base : Nat} {e l r f : Expr} {es args : List Expr}
  {paren mark leaf : Lexeme} {op : UnaryOp} {k : Connective}

theorem Placed.le_size (h : Placed chunk slot base e) : base + e.size ≤ chunk.code.size := by
  have := h.code.le_size
  rwa [Expr.length_code] at this

namespace Placed

theorem leaf_instruction (h : Placed chunk slot base (.leaf leaf)) :
    chunk.code[base]? = some ⟨leaf.op slot, leaf.start⟩ := h.code.head

theorem group (h : Placed chunk slot base (.group paren e)) : Placed chunk slot base e :=
  ⟨h.code, h.constants, h.leaves, fun part hpart => h.parts part (List.mem_cons_of_mem _ hpart)⟩

theorem unary (h : Placed chunk slot base (.unary op mark e)) :
    Placed chunk slot base e ∧ chunk.code[base + e.size]? = some ⟨.unary op, mark.start⟩ := by
  refine ⟨⟨h.code.left, h.constants, h.leaves,
    fun part hpart => h.parts part (List.mem_cons_of_mem _ hpart)⟩, ?_⟩
  have := h.code.right.head
  rwa [Expr.length_code] at this

theorem join_left (h : Placed chunk slot base (.join k mark l r)) : Placed chunk slot base l := by
  refine ⟨h.code.left, fun v hv => ?_, fun x hx => h.leaves x (List.mem_append_left _ hx),
    fun part hpart => ?_⟩
  · exact h.constants v (by simp [hv])
  · exact h.parts part (List.mem_cons_of_mem _ (List.mem_append_left _ hpart))

theorem join_right (h : Placed chunk slot base (.join k mark l r)) :
    Placed chunk slot (base + l.size + k.lead) r := by
  refine ⟨?_, fun v hv => ?_, fun x hx => h.leaves x (List.mem_append_right _ hx),
    fun part hpart => ?_⟩
  · have := h.code.right.right.left
    rwa [Expr.length_code, Connective.length_between] at this
  · exact h.constants v (by simp [hv])
  · exact h.parts part (List.mem_cons_of_mem _ (List.mem_append_right _ hpart))

/-- The instructions between the operands. -/
theorem between (h : Placed chunk slot base (.join k mark l r)) :
    chunk.CodeAt (base + l.size)
      (k.between mark.start (base + l.size) (base + l.size + k.lead + r.size)) := by
  have := h.code.right.left
  rwa [Expr.length_code] at this

/-- The instructions after the operands. -/
theorem after (h : Placed chunk slot base (.join k mark l r)) :
    chunk.CodeAt (base + l.size + k.lead + r.size) (k.after mark.start) := by
  have := h.code.right.right.right
  rwa [Expr.length_code, Connective.length_between, Expr.length_code] at this

/-- A jump over the right operand of a conjunction or an alternative leads where it has to. -/
theorem toNat_done (h : Placed chunk slot base (.join k mark l r)) (hk : k = .and ∨ k = .or) :
    (UInt16.ofNat (base + l.size + k.lead + r.size)).toNat = base + l.size + k.lead + r.size ∧
      base + l.size + k.lead + r.size ≤ chunk.code.size := by
  have hfits := h.parts _ (List.mem_cons_self ..)
  have hsize := h.le_size
  rw [UInt16.toNat_ofNat']
  rcases hk with rfl | rfl
  all_goals
    simp only [Expr.Fits, Expr.size, Connective.size, Connective.lead] at hfits hsize ⊢
    exact ⟨Nat.mod_eq_of_lt (by omega), by omega⟩

/-- The first jump of an alternative leads to its right operand. -/
theorem toNat_otherwise (h : Placed chunk slot base (.join .or mark l r)) :
    (UInt16.ofNat (base + l.size + 3)).toNat = base + l.size + 3 ∧
      base + l.size + 3 ≤ chunk.code.size := by
  have hfits := h.parts _ (List.mem_cons_self ..)
  have hsize := h.le_size
  rw [UInt16.toNat_ofNat']
  simp only [Expr.Fits, Expr.size, Connective.size] at hfits hsize
  exact ⟨Nat.mod_eq_of_lt (by omega), by omega⟩

theorem callee (h : Placed chunk slot base (.call f paren args)) : Placed chunk slot base f := by
  refine ⟨h.code.left, fun v hv => ?_, fun x hx => h.leaves x (List.mem_append_left _ hx),
    fun part hpart => ?_⟩
  · exact h.constants v (by simp [hv])
  · exact h.parts part (List.mem_cons_of_mem _ (List.mem_append_left _ hpart))

theorem arguments (h : Placed chunk slot base (.call f paren args)) :
    PlacedAll chunk slot (base + f.size) args := by
  refine ⟨?_, fun v hv => ?_, fun x hx => h.leaves x (List.mem_append_right _ hx),
    fun part hpart => ?_⟩
  · have := h.code.right.left
    rwa [Expr.length_code] at this
  · exact h.constants v (by simp [hv])
  · exact h.parts part (List.mem_cons_of_mem _ (List.mem_append_right _ hpart))

theorem call_instruction (h : Placed chunk slot base (.call f paren args)) :
    chunk.code[base + f.size + Expr.sizeAll args]? =
        some ⟨.call (UInt8.ofNat args.length), paren.start⟩ ∧
      (UInt8.ofNat args.length).toNat = args.length := by
  refine ⟨?_, ?_⟩
  · have := h.code.right.right.head
    rwa [Expr.length_code, Expr.length_codeAll] at this
  · have hfits : args.length ≤ 255 := h.parts _ (List.mem_cons_self ..)
    rw [UInt8.toNat_ofNat']
    exact Nat.mod_eq_of_lt (by omega)

end Placed

namespace PlacedAll

theorem head (h : PlacedAll chunk slot base (e :: es)) : Placed chunk slot base e := by
  refine ⟨h.code.left, fun v hv => ?_, fun x hx => h.leaves x (List.mem_append_left _ hx),
    fun part hpart => ?_⟩
  · exact h.constants v (by simp [hv])
  · exact h.parts part (List.mem_append_left _ hpart)

theorem tail (h : PlacedAll chunk slot base (e :: es)) :
    PlacedAll chunk slot (base + e.size) es := by
  refine ⟨?_, fun v hv => ?_, fun x hx => h.leaves x (List.mem_append_right _ hx),
    fun part hpart => ?_⟩
  · have := h.code.right
    rwa [Expr.length_code] at this
  · exact h.constants v (by simp [hv])
  · exact h.parts part (List.mem_append_right _ hpart)

end PlacedAll

namespace PlacedNext

theorem pop (h : PlacedNext chunk slot base (e :: es)) :
    chunk.code[base]? = some ⟨.pop, e.start⟩ := h.code.head

theorem head (h : PlacedNext chunk slot base (e :: es)) : Placed chunk slot (base + 1) e := by
  refine ⟨h.code.tail.left, fun v hv => ?_, fun x hx => h.leaves x (List.mem_append_left _ hx),
    fun part hpart => ?_⟩
  · exact h.constants v (by simp [hv])
  · exact h.parts part (List.mem_append_left _ hpart)

theorem tail (h : PlacedNext chunk slot base (e :: es)) :
    PlacedNext chunk slot (base + 1 + e.size) es := by
  refine ⟨?_, fun v hv => ?_, fun x hx => h.leaves x (List.mem_append_right _ hx),
    fun part hpart => ?_⟩
  · have := h.code.tail.right
    rwa [Expr.length_code] at this
  · exact h.constants v (by simp [hv])
  · exact h.parts part (List.mem_append_right _ hpart)

end PlacedNext

/-! ## Parts in their place -/

theorem placed_of_mem_partsAll {i : Nat} {d : Expr}
    (hargs : ∀ a ∈ es, ∀ base, Placed chunk slot base a → (i, d) ∈ a.parts base →
      Placed chunk slot i d)
    (h : PlacedAll chunk slot base es) (hd : (i, d) ∈ Expr.partsAll base es) :
    Placed chunk slot i d := by
  induction es generalizing base with
  | nil => cases hd
  | cons a es ih =>
    rcases List.mem_append.mp hd with hd | hd
    · exact hargs a (by simp) base h.head hd
    · exact ih (fun b hb => hargs b (by simp [hb])) h.tail hd

/-- Where a tree is in its place, each part of it is, at the index that it is listed with. -/
theorem Placed.of_mem_parts {i : Nat} {d : Expr} (e : Expr) :
    ∀ base, Placed chunk slot base e → (i, d) ∈ e.parts base → Placed chunk slot i d := by
  induction e with
  | leaf l =>
    intro base h hd
    obtain ⟨rfl, rfl⟩ : i = base ∧ d = .leaf l := by simpa [Expr.parts] using hd
    exact h
  | group paren e ih =>
    intro base h hd
    rcases List.mem_cons.mp hd with heq | hd
    · cases heq
      exact h
    · exact ih base h.group hd
  | unary op mark e ih =>
    intro base h hd
    rcases List.mem_cons.mp hd with heq | hd
    · cases heq
      exact h
    · exact ih base h.unary.1 hd
  | join k mark l r ihl ihr =>
    intro base h hd
    rcases List.mem_cons.mp hd with heq | hd
    · cases heq
      exact h
    · rcases List.mem_append.mp hd with hd | hd
      · exact ihl base h.join_left hd
      · exact ihr _ h.join_right hd
  | call f paren args ihf ihargs =>
    intro base h hd
    rcases List.mem_cons.mp hd with heq | hd
    · cases heq
      exact h
    · rcases List.mem_append.mp hd with hd | hd
      · exact ihf base h.callee hd
      · exact placed_of_mem_partsAll ihargs h.arguments hd

theorem placed_of_mem_partsNext {i : Nat} {d : Expr} (h : PlacedNext chunk slot base es)
    (hd : (i, d) ∈ Expr.partsNext base es) : Placed chunk slot i d := by
  induction es generalizing base with
  | nil => cases hd
  | cons e es ih =>
    rcases List.mem_append.mp hd with hd | hd
    · exact Placed.of_mem_parts e _ h.head hd
    · exact ih h.tail hd

/-! ## Programs in their place -/

/-- The code of an acceptable program is in its place in its chunk. -/
theorem placed_ofProgram (h : Expr.Acceptable (e :: es)) :
    ∃ slot, (Chunk.ofProgram (e :: es)).code.toList = Expr.programCode slot (e :: es) ∧
      Placed (Chunk.ofProgram (e :: es)) slot 0 e ∧
      PlacedNext (Chunk.ofProgram (e :: es)) slot e.size es := by
  have hcode : (Chunk.ofProgram (e :: es)).CodeAt 0
      (Expr.programCode (Pool.slot (Pool.addAll [] (Expr.constantsAll (e :: es)))) (e :: es)) :=
    ⟨[], [], by simp [Chunk.ofProgram], rfl⟩
  have hconstants : ∀ v ∈ Expr.constantsAll (e :: es),
      (Chunk.ofProgram (e :: es)).constant?
        (Pool.slot (Pool.addAll [] (Expr.constantsAll (e :: es))) v) = some v := by
    intro v hv
    have := Pool.getElem?_slot h.constants (Pool.mem_addAll.mpr (.inr hv))
    simpa [Chunk.constant?, Chunk.ofProgram] using this
  refine ⟨_, rfl, ⟨hcode.left, fun v hv => hconstants v (by simp [hv]),
    fun x hx => h.leaves x (List.mem_append_left _ hx),
    fun part hpart => h.parts part (List.mem_append_left _ hpart)⟩,
    ⟨?_, fun v hv => hconstants v (by simp [hv]),
      fun x hx => h.leaves x (List.mem_append_right _ hx),
      fun part hpart => h.parts part (List.mem_append_right _ hpart)⟩⟩
  have := hcode.right
  rwa [Expr.length_code, Nat.zero_add] at this

/-- The code of each part of an acceptable program is in its place, at the index that the part is
listed with. -/
theorem exists_placed_of_mem_programParts {i : Nat} {d : Expr} (h : Expr.Acceptable es)
    (hd : (i, d) ∈ Expr.programParts es) : ∃ slot, Placed (Chunk.ofProgram es) slot i d := by
  cases es with
  | nil => cases hd
  | cons e es =>
    obtain ⟨slot, -, he, hes⟩ := placed_ofProgram h
    refine ⟨slot, ?_⟩
    rcases List.mem_append.mp hd with hd | hd
    · exact Placed.of_mem_parts e 0 he hd
    · exact placed_of_mem_partsNext hes hd

theorem size_ofProgram (e : Expr) (es : List Expr) :
    (Chunk.ofProgram (e :: es)).code.size = e.size + Expr.sizeNext es := by
  simp [Chunk.ofProgram, Expr.programCode]

end Forms

end LuaExpr
