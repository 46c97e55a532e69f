import LuaExpr.Proofs.Compiler.Acceptance
import LuaExpr.Proofs.Expr.Concatenation
import LuaExpr.Proofs.Expr.Relocation
import LuaExpr.Proofs.Machine.Placement
/-!
# Sources in a row

The chunk of two sources with a line feed between them is made of their two chunks: the constants of
the second one that the first one lacks are added to the pool, and its code is relocated.

* `Denotes.append_lineFeed`: the expressions of the two sources in a row.
* `Expr.acceptable_append_iff`: which limits the second source may break only because of the first
  one.
* `compile_append_lineFeed`: when the two sources compile in a row, and the chunk that they compile
  to.
-/

namespace LuaExpr

/-! ## Pools in a row -/

namespace Pool

variable {pool vs ws : List Value}

/-- The pool with several constants: those that it lacks are added, each of them once. -/
theorem addAll_eq_append_filter (pool vs : List Value) :
    addAll pool vs = pool ++ (addAll [] vs).filter fun v => v ∉ pool := by
  induction vs using List.reverseRecOn with
  | nil => simp
  | append_singleton vs v ih =>
    rw [addAll_append, addAll_append, addAll_cons, addAll_nil, addAll_cons, addAll_nil, add, add]
    by_cases hv : v ∈ vs
    · have hmem : ∀ pool, v ∈ addAll pool vs := fun pool => mem_addAll.mpr (.inr hv)
      rw [if_pos (hmem pool), if_pos (hmem []), ih]
    · have hnone : v ∉ addAll [] vs := by simpa [mem_addAll] using hv
      rw [if_neg hnone, List.filter_append]
      by_cases hp : v ∈ pool
      · rw [if_pos (mem_addAll.mpr (.inl hp)), ih]
        simp [hp]
      · rw [if_neg (by simp [mem_addAll, hv, hp]), ih]
        simp [hp]

theorem length_addAll_append (vs ws : List Value) :
    (addAll [] (vs ++ ws)).length = (addAll [] vs ++ addAll [] ws).dedup.length := by
  rw [← length_addAll_nil]
  refine (List.Perm.length_eq ?_)
  rw [List.perm_ext_iff_of_nodup (nodup_addAll List.nodup_nil _) (nodup_addAll List.nodup_nil _)]
  intro w
  simp [mem_addAll]

end Pool

/-! ## Lexemes and trees in a row -/

/-- The expressions of two sources with a line feed between them. -/
theorem Denotes.append_lineFeed {a b : String} {ls ks : List Lexeme} {es ds : List Expr}
    (ha : Denotes a ls es) (hb : Denotes b ks ds) :
    ∃ lexemes, Denotes (a ++ "\n" ++ b)
      lexemes (es ++ ds.map (Expr.moved (Text.utf8Length a.toList + 1))) := by
  obtain ⟨front, last, br, rfl, hlast, hbr, hread⟩ := Cursor.outcomes_continued ha.read b.toList
  have hstop : (Cursor.ofSource a).stop = Text.utf8Length a.toList := Nat.zero_add _
  have hcursor : Cursor.ofSource (a ++ "\n" ++ b) = (Cursor.ofSource a).continued b.toList := by
    rw [Cursor.ofSource, Cursor.continued, String.toList_append, String.toList_append,
      List.append_assoc]
    rfl
  have hmoved : ({ rest := b.toList, offset := (Cursor.ofSource a).stop + 1 } : Cursor) =
      (Cursor.ofSource b).moved (Text.utf8Length a.toList + 1) := by
    rw [hstop, Cursor.moved, Cursor.ofSource, Nat.zero_add]
  rw [hmoved, Cursor.outcomes_moved hb.read, ← List.map_append, List.append_assoc] at hread
  refine ⟨_, hcursor ▸ hread, ?_⟩
  have hds := hb.derives.moved (Text.utf8Length a.toList + 1)
  rw [← Layout.significant_moved] at hds
  exact ha.derives.significant_append hlast hbr hds

namespace Expr

variable {e d : Expr} {es ds : List Expr} {bytes shift : Nat}

theorem leavesAll_append (es ds : List Expr) :
    leavesAll (es ++ ds) = leavesAll es ++ leavesAll ds := by
  induction es with
  | nil => rfl
  | cons e es ih => rw [List.cons_append, leavesAll, leavesAll, ih, List.append_assoc]

theorem constantsAll_append (es ds : List Expr) :
    constantsAll (es ++ ds) = constantsAll es ++ constantsAll ds := by
  rw [constantsAll, leavesAll_append, List.filterMap_append]
  rfl

theorem partsNext_append (es ds : List Expr) (base : Nat) :
    partsNext base (es ++ ds) = partsNext base es ++ partsNext (base + sizeNext es) ds := by
  induction es generalizing base with
  | nil => rfl
  | cons e es ih =>
    have hnext : base + 1 + e.size + sizeNext es = base + sizeNext (e :: es) := by
      rw [sizeNext]
      omega
    rw [List.cons_append, partsNext, partsNext, ih, hnext, List.append_assoc]

theorem codeNext_append (slot : Value → UInt8) (es ds : List Expr) (base : Nat) :
    codeNext slot base (es ++ ds) =
      codeNext slot base es ++ codeNext slot (base + sizeNext es) ds := by
  induction es generalizing base with
  | nil => rfl
  | cons e es ih =>
    have hnext : base + 1 + e.size + sizeNext es = base + sizeNext (e :: es) := by
      rw [sizeNext]
      omega
    rw [List.cons_append, codeNext, codeNext, ih, hnext, List.cons_append, List.append_assoc]

/-! ## Limits -/

theorem fits_movedPart {part : Nat × Expr} :
    (movedPart bytes shift part).2.Fits (movedPart bytes shift part).1 ↔
      part.2.Fits (part.1 + shift) := by
  rw [movedPart_eq_mapPart]
  exact fits_mapPart _

/-- Two programs in a row keep the limits if each of them does, together they have few enough
constants, and the second one is short enough where its code begins later. -/
theorem acceptable_append_iff (bytes : Nat) (he : Acceptable (e :: es))
    (hd : Acceptable (d :: ds)) :
    Acceptable ((e :: es) ++ (d :: ds).map (moved bytes)) ↔
      (Pool.addAll [] (constantsAll (e :: es) ++ constantsAll (d :: ds))).length ≤
          Chunk.maxConstants ∧
        ∀ part ∈ programParts (d :: ds), part.2.Fits (part.1 + (e.size + sizeNext es + 1)) := by
  have hparts : programParts ((e :: es) ++ (d :: ds).map (moved bytes)) = programParts (e :: es) ++
      (programParts (d :: ds)).map (movedPart bytes (e.size + sizeNext es + 1)) := by
    rw [List.cons_append, programParts, partsNext_append, partsNext_moved_cons, ← List.append_assoc]
    rfl
  have hconstants : constantsAll ((e :: es) ++ (d :: ds).map (moved bytes)) =
      constantsAll (e :: es) ++ constantsAll (d :: ds) := by
    rw [constantsAll_append, constantsAll_moved]
  constructor
  · intro h
    refine ⟨hconstants ▸ h.constants, fun part hpart => ?_⟩
    refine fits_movedPart.mp (h.parts (movedPart bytes _ part) ?_)
    rw [hparts]
    exact List.mem_append_right _ (List.mem_map_of_mem hpart)
  · rintro ⟨hpool, hfits⟩
    refine ⟨fun l hl => ?_, fun f hf => ?_, hconstants ▸ hpool, fun part hpart => ?_⟩
    · rw [leavesAll_append, leavesAll_moved] at hl
      rcases List.mem_append.mp hl with hl | hl
      · exact he.leaves l hl
      · obtain ⟨k, hk, rfl⟩ := List.mem_map.mp hl
        exact (hd.leaves k hk).moved bytes
    · rcases List.mem_append.mp hf with hf | hf
      · exact he.nesting f hf
      · obtain ⟨k, hk, rfl⟩ := List.mem_map.mp hf
        rw [nesting_moved]
        exact hd.nesting k hk
    · rw [hparts] at hpart
      rcases List.mem_append.mp hpart with hpart | hpart
      · exact he.parts part hpart
      · obtain ⟨k, hk, rfl⟩ := List.mem_map.mp hpart
        exact fits_movedPart.mpr (hfits k hk)

end Expr

/-! ## Jumps -/

section Jumps

variable {slot : Value → UInt8} {i : Instruction} {target : UInt16}

/-- Between the operands of a connective, only those of `and` and `or` jump, and not beyond the
right operand. -/
theorem Connective.jump_of_mem_between {k : Connective} {offset first done : Nat}
    (hop : i.op = .jump target ∨ i.op = .jumpIfFalse target) (hi : i ∈ k.between offset first done)
    (hdone : first + k.lead ≤ done) : (k = .and ∨ k = .or) ∧ target.toNat ≤ done := by
  have htarget : ∀ n ≤ done, (UInt16.ofNat n).toNat ≤ done := by
    intro n hn
    rw [UInt16.toNat_ofNat']
    exact (Nat.mod_le _ _).trans hn
  cases k with
  | binary op => cases hi
  | and =>
    refine ⟨.inl rfl, ?_⟩
    simp only [between, List.mem_cons, List.not_mem_nil, or_false] at hi
    rcases hi with rfl | rfl | rfl
    · simp at hop
    · obtain rfl : UInt16.ofNat done = target := by simpa using hop
      exact htarget done (Nat.le_refl _)
    · simp at hop
  | or =>
    refine ⟨.inr rfl, ?_⟩
    simp only [between, List.mem_cons, List.not_mem_nil, or_false] at hi
    rcases hi with rfl | rfl | rfl | rfl
    · simp at hop
    · obtain rfl : UInt16.ofNat (first + 3) = target :=
        Op.jumpIfFalse.inj (hop.resolve_left (by simp))
      simp only [lead] at hdone
      exact htarget _ (by omega)
    · obtain rfl : UInt16.ofNat done = target := Op.jump.inj (hop.resolve_right (by simp))
      exact htarget done (Nat.le_refl _)
    · simp at hop

namespace Expr

/-- A conjunction or an alternative among some parts that a target does not go beyond. -/
def Reached (target : UInt16) (parts : List (Nat × Expr)) : Prop :=
  ∃ j k mark l r, (j, join k mark l r) ∈ parts ∧ (k = .and ∨ k = .or) ∧
    target.toNat ≤ j + (join k mark l r).size

theorem Reached.mono {parts parts' : List (Nat × Expr)} (h : Reached target parts)
    (hsub : parts ⊆ parts') :
    Reached target parts' := by
  obtain ⟨j, k, mark, l, r, hmem, hk, ht⟩ := h
  exact ⟨j, k, mark, l, r, hsub hmem, hk, ht⟩

theorem reached_of_mem_codeAll {es : List Expr}
    (h : ∀ e ∈ es, ∀ base, i ∈ e.code slot base → Reached target (e.parts base))
    (base : Nat) (hi : i ∈ codeAll slot base es) : Reached target (partsAll base es) := by
  induction es generalizing base with
  | nil => cases hi
  | cons e es ih =>
    rcases List.mem_append.mp hi with hi | hi
    · exact (h e (by simp) base hi).mono (List.subset_append_left _ _)
    · exact (ih (fun d hd => h d (by simp [hd])) _ hi).mono (List.subset_append_right _ _)

/-- Each jump in the code of an expression belongs to one of its conjunctions and alternatives. -/
theorem reached_of_mem_code (hop : i.op = .jump target ∨ i.op = .jumpIfFalse target) (e : Expr) :
    ∀ base, i ∈ e.code slot base → Reached target (e.parts base) := by
  induction e with
  | leaf l =>
    intro base hi
    obtain rfl := List.mem_singleton.mp hi
    exact absurd hop l.op_ne_jump
  | group paren e ih => exact fun base hi => (ih base hi).mono (List.subset_cons_self _ _)
  | unary op mark e ih =>
    intro base hi
    rcases List.mem_append.mp hi with hi | hi
    · exact (ih base hi).mono (List.subset_cons_self _ _)
    · obtain rfl := List.mem_singleton.mp hi
      simp at hop
  | join k mark l r ihl ihr =>
    intro base hi
    rcases List.mem_append.mp hi with hi | hi
    · exact (ihl base hi).mono fun part hpart =>
        List.mem_cons_of_mem _ (List.mem_append_left _ hpart)
    rcases List.mem_append.mp hi with hi | hi
    · obtain ⟨hk, ht⟩ := Connective.jump_of_mem_between hop hi (by omega)
      refine ⟨base, k, mark, l, r, List.mem_cons_self, hk, ?_⟩
      rw [size_join_eq_lead hk]
      omega
    rcases List.mem_append.mp hi with hi | hi
    · exact (ihr _ hi).mono fun part hpart => List.mem_cons_of_mem _ (List.mem_append_right _ hpart)
    · cases k with
      | binary op =>
        obtain rfl := List.mem_singleton.mp hi
        simp at hop
      | _ => cases hi
  | call f paren args ihf ihargs =>
    intro base hi
    rcases List.mem_append.mp hi with hi | hi
    · exact (ihf base hi).mono fun part hpart =>
        List.mem_cons_of_mem _ (List.mem_append_left _ hpart)
    rcases List.mem_append.mp hi with hi | hi
    · exact (reached_of_mem_codeAll ihargs _ hi).mono fun part hpart =>
        List.mem_cons_of_mem _ (List.mem_append_right _ hpart)
    · obtain rfl := List.mem_singleton.mp hi
      simp at hop

theorem reached_of_mem_codeNext (hop : i.op = .jump target ∨ i.op = .jumpIfFalse target)
    (es : List Expr) (base : Nat) (hi : i ∈ codeNext slot base es) :
    Reached target (partsNext base es) := by
  induction es generalizing base with
  | nil => cases hi
  | cons e es ih =>
    rcases List.mem_cons.mp hi with rfl | hi
    · simp at hop
    rcases List.mem_append.mp hi with hi | hi
    · exact (reached_of_mem_code hop e _ hi).mono (List.subset_append_left _ _)
    · exact (ih _ hi).mono (List.subset_append_right _ _)

theorem reached_of_mem_programCode (hop : i.op = .jump target ∨ i.op = .jumpIfFalse target)
    (es : List Expr) (hi : i ∈ programCode slot es) : Reached target (programParts es) := by
  cases es with
  | nil => cases hi
  | cons e es =>
    rcases List.mem_append.mp hi with hi | hi
    · exact (reached_of_mem_code hop e _ hi).mono (List.subset_append_left _ _)
    · exact (reached_of_mem_codeNext hop es _ hi).mono (List.subset_append_right _ _)

/-- The last jump of a conjunction or an alternative goes to the index after its right operand. -/
theorem exists_jump_of_placed {chunk : Chunk} {j : Nat} {k : Connective} {mark : Lexeme}
    {l r : Expr} (h : Placed chunk slot j (join k mark l r)) (hk : k = .and ∨ k = .or) :
    ∃ i ∈ chunk.code, ∃ target, (i.op = .jump target ∨ i.op = .jumpIfFalse target) ∧
      target.toNat = j + (join k mark l r).size := by
  have hdone := (h.toNat_done hk).1
  have hsize : j + l.size + k.lead + r.size = j + (join k mark l r).size := by
    rw [size_join_eq_lead hk]
    omega
  rcases hk with rfl | rfl
  · exact ⟨_, Array.mem_of_getElem? h.between.tail.head, _, .inr rfl, hdone.trans hsize⟩
  · exact ⟨_, Array.mem_of_getElem? h.between.tail.tail.head, _, .inl rfl, hdone.trans hsize⟩

/-- The limits on an acceptable program that begins later are limits on the targets of its jumps. -/
theorem forall_fits_add_iff {es : List Expr} (h : Acceptable es) (shift : Nat) :
    (∀ part ∈ programParts es, part.2.Fits (part.1 + shift)) ↔
      ∀ i ∈ (Chunk.ofProgram es).code, ∀ target, i.op = .jump target ∨ i.op = .jumpIfFalse target →
        target.toNat + shift ≤ 65535 := by
  constructor
  · intro hfits i hi target hop
    obtain ⟨j, k, mark, l, r, hmem, hk, ht⟩ :=
      reached_of_mem_programCode hop es (by simpa [Chunk.ofProgram] using hi)
    have hfit := hfits _ hmem
    rcases hk with rfl | rfl
    all_goals
      simp only [Fits] at hfit
      omega
  · rintro hjumps ⟨j, e⟩ hmem
    obtain ⟨slot, hplaced⟩ := exists_placed_of_mem_programParts h hmem
    cases e with
    | call f paren args => exact h.parts _ hmem
    | join k mark l r =>
      by_cases hk : k = .and ∨ k = .or
      · obtain ⟨i, hi, target, hop, ht⟩ := exists_jump_of_placed hplaced hk
        have hle := hjumps i hi target hop
        rcases hk with rfl | rfl
        all_goals
          simp only [Fits]
          omega
      · cases k with
        | binary op => trivial
        | and => exact absurd (.inl rfl) hk
        | or => exact absurd (.inr rfl) hk
    | _ => trivial

end Expr

end Jumps

/-! ## Chunks in a row -/

section Chunks

variable {e d : Expr} {es ds : List Expr}

/-- The pool of two programs in a row. -/
theorem Chunk.constants_ofProgram_append (es ds : List Expr) (bytes : Nat) :
    (Chunk.ofProgram (es ++ ds.map (Expr.moved bytes))).constants.toList =
      (Chunk.ofProgram es).constants.toList ++
        (Chunk.ofProgram ds).constants.toList.filter fun v =>
          v ∉ (Chunk.ofProgram es).constants.toList := by
  have hpool :=
    Pool.addAll_eq_append_filter (Pool.addAll [] (Expr.constantsAll es)) (Expr.constantsAll ds)
  rw [← Pool.addAll_append, ← Expr.constantsAll_moved bytes ds, ← Expr.constantsAll_append,
    Expr.constantsAll_moved] at hpool
  exact hpool

/-- The code of a program stays the same where its pool has grown. -/
theorem Chunk.programCode_of_isPrefix (h : Expr.Acceptable es) {pool : List Value}
    (hp : (Chunk.ofProgram es).constants.toList <+: pool) :
    Expr.programCode (Pool.slot pool) es = (Chunk.ofProgram es).code.toList :=
  Expr.programCode_congr h.leaves fun _ hv =>
    Pool.slot_eq_of_isPrefix hp (Pool.mem_addAll.mpr (.inr hv))

/-- The slot that a constant of the second program has in the common pool, by its slot in its own
pool. -/
def Chunk.commonSlot (B C : Chunk) (slot : UInt8) : UInt8 :=
  Pool.slot C.constants.toList ((B.constant? slot).getD .nil)

theorem Chunk.commonSlot_slot {B C : Chunk} {v : Value} (hroom : B.constants.size ≤ maxConstants)
    (hv : v ∈ B.constants.toList) :
    commonSlot B C (Pool.slot B.constants.toList v) = Pool.slot C.constants.toList v := by
  rw [commonSlot, constant?_slot hroom hv]
  rfl

theorem Chunk.constant?_commonSlot {B C : Chunk} {slot : UInt8} {v : Value}
    (hroom : C.constants.size ≤ maxConstants) (hsub : B.constants.toList ⊆ C.constants.toList)
    (hv : B.constant? slot = some v) :
    C.constant? (commonSlot B C slot) = some v := by
  have hmem : v ∈ B.constants.toList := by
    rw [Array.mem_toList_iff]
    exact Array.mem_of_getElem? hv
  rw [commonSlot, hv]
  exact constant?_slot hroom (hsub hmem)

/-- The code of two programs in a row. Slots of the second program are renamed to those that its
constants have in the common pool. -/
theorem Chunk.code_ofProgram_append (bytes : Nat) (he : Expr.Acceptable (e :: es))
    (hd : Expr.Acceptable (d :: ds)) {A B C : Chunk} (hA : A = Chunk.ofProgram (e :: es))
    (hB : B = Chunk.ofProgram (d :: ds))
    (hC : C = Chunk.ofProgram ((e :: es) ++ (d :: ds).map (Expr.moved bytes))) :
    C.code.toList = A.code.toList ++ ⟨.pop, d.start + bytes⟩ ::
      B.code.toList.map (Instruction.relocated (commonSlot B C) (A.code.size + 1) bytes) := by
  have hfirst : Expr.programCode (Pool.slot C.constants.toList) (e :: es) = A.code.toList := by
    have hpool := constants_ofProgram_append (e :: es) (d :: ds) bytes
    rw [← hC] at hpool
    rw [hA]
    exact programCode_of_isPrefix he (hpool ▸ List.prefix_append _ _)
  have hslot : ∀ v ∈ Expr.constantsAll (d :: ds),
      Pool.slot C.constants.toList v = commonSlot B C (Pool.slot B.constants.toList v) := by
    intro v hv
    have hroom : B.constants.size ≤ maxConstants := by
      rw [hB]
      exact hd.constants
    refine (commonSlot_slot hroom ?_).symm
    rw [hB]
    exact Pool.mem_addAll.mpr (.inr hv)
  have hsize : A.code.size = e.size + Expr.sizeNext es := by rw [hA, size_ofProgram]
  calc C.code.toList
    _ = Expr.programCode (Pool.slot C.constants.toList)
      ((e :: es) ++ (d :: ds).map (Expr.moved bytes)) := by
      rw [hC]
      rfl
    _ = A.code.toList ++ Expr.codeNext (Pool.slot C.constants.toList)
      A.code.size ((d :: ds).map (Expr.moved bytes)) := by
      rw [List.cons_append, Expr.programCode, Expr.codeNext_append, ← List.append_assoc,
        ← Expr.programCode, hfirst, ← hsize]
    _ = A.code.toList ++ ⟨.pop, d.start + bytes⟩ ::
          B.code.toList.map (Instruction.relocated (commonSlot B C) (A.code.size + 1) bytes) := by
      rw [Expr.codeNext_moved bytes hd.leaves hslot, hB]
      rfl

/-- **Two sources in a row.** Let two sources have chunks with some code. With a line feed between
them they have a chunk exactly if they have few enough constants together and the targets of the
second one leave room for the code in front of it. This chunk has the constants of the first one and
those that the second one has besides. Its code is that of the first one, an instruction that drops
a value, and that of the second one, relocated. -/
theorem compile_append_lineFeed {a b : String} {A B : Chunk} (ha : compile a = .ok A)
    (hb : compile b = .ok B) (hA : A.code ≠ #[]) (hB : B.code ≠ #[]) :
    ((∃ chunk, compile (a ++ "\n" ++ b) = .ok chunk) ↔
      (A.constants.toList ++ B.constants.toList).dedup.length ≤ 256 ∧
        ∀ i ∈ B.code, ∀ target, i.op = .jump target ∨ i.op = .jumpIfFalse target →
          target.toNat + (A.code.size + 1) ≤ 65535) ∧
    ∀ chunk, compile (a ++ "\n" ++ b) = .ok chunk →
      chunk.constants.toList =
        A.constants.toList ++ B.constants.toList.filter (fun v => v ∉ A.constants.toList) ∧
      ∃ rename offset,
        (∀ slot v, B.constant? slot = some v → chunk.constant? (rename slot) = some v) ∧
        chunk.code.toList = A.code.toList ++ ⟨.pop, offset⟩ ::
          B.code.toList.map (Instruction.relocated rename (A.code.size + 1)
            (Text.utf8Length a.toList + 1)) := by
  obtain ⟨las, es, hdena, hacca, rfl⟩ := compile_eq_ok_iff.mp ha
  obtain ⟨lbs, ds, hdenb, haccb, rfl⟩ := compile_eq_ok_iff.mp hb
  obtain ⟨e, es, rfl⟩ := List.exists_cons_of_ne_nil (l := es) (by rintro rfl; exact hA rfl)
  obtain ⟨d, ds, rfl⟩ := List.exists_cons_of_ne_nil (l := ds) (by rintro rfl; exact hB rfl)
  obtain ⟨lexemes, hden⟩ := hdena.append_lineFeed hdenb
  have hcompile : ∀ chunk, compile (a ++ "\n" ++ b) = .ok chunk ↔
      Expr.Acceptable ((e :: es) ++ (d :: ds).map (Expr.moved (Text.utf8Length a.toList + 1))) ∧
        chunk = Chunk.ofProgram ((e :: es) ++
          (d :: ds).map (Expr.moved (Text.utf8Length a.toList + 1))) := by
    intro chunk
    constructor
    · intro h
      obtain ⟨lexemes', program, hden', hacc, rfl⟩ := compile_eq_ok_iff.mp h
      obtain ⟨-, rfl⟩ := hden'.unique hden
      exact ⟨hacc, rfl⟩
    · rintro ⟨hacc, rfl⟩
      exact compile_eq_ok_iff.mpr ⟨lexemes, _, hden, hacc, rfl⟩
  have hlimits := Expr.acceptable_append_iff (Text.utf8Length a.toList + 1) hacca haccb
  rw [Pool.length_addAll_append, ← size_ofProgram, Expr.forall_fits_add_iff haccb] at hlimits
  refine ⟨Iff.trans ?_ hlimits, fun chunk h => ?_⟩
  · exact ⟨fun ⟨chunk, h⟩ => ((hcompile chunk).mp h).1,
      fun hacc => ⟨_, (hcompile _).mpr ⟨hacc, rfl⟩⟩⟩
  · obtain ⟨hacc, rfl⟩ := (hcompile chunk).mp h
    have hpool :=
      Chunk.constants_ofProgram_append (e :: es) (d :: ds) (Text.utf8Length a.toList + 1)
    refine ⟨hpool, Chunk.commonSlot _ _, _,
      fun slot v => Chunk.constant?_commonSlot hacc.constants fun v hv => ?_,
      Chunk.code_ofProgram_append _ hacca haccb rfl rfl rfl⟩
    rw [hpool, List.mem_append, List.mem_filter]
    by_cases hva : v ∈ (Chunk.ofProgram (e :: es)).constants.toList
    · exact .inl hva
    · exact .inr ⟨hv, by simpa using hva⟩

end Chunks

/-- The second source brings a name that the first one has and one that it lacks, and a jump. -/
theorem compile_append_lineFeed_names :
    ∃ chunk, compile ("x -- first\r" ++ "\n" ++ "y and x") = .ok chunk ∧
    chunk.constants.toList = [.string "x", .string "y"] ∧ ∃ rename offset, chunk.code.toList =
      ⟨.global 0, 0⟩ :: ⟨.pop, offset⟩ :: List.map (Instruction.relocated rename 2 12)
        [⟨.global 0, 0⟩, ⟨.dup, 2⟩, ⟨.jumpIfFalse 5, 2⟩, ⟨.pop, 2⟩, ⟨.global 1, 6⟩] := by
  have ha : compile "x -- first\r" =
      .ok { code := #[⟨.global 0, 0⟩], constants := #[.string "x"] } := by cbv
  have hb : compile "y and x" = .ok
      { code := #[⟨.global 0, 0⟩, ⟨.dup, 2⟩, ⟨.jumpIfFalse 5, 2⟩, ⟨.pop, 2⟩, ⟨.global 1, 6⟩],
        constants := #[.string "y", .string "x"] } := by cbv
  obtain ⟨hiff, hall⟩ := compile_append_lineFeed ha hb (by decide) (by decide)
  obtain ⟨chunk, hchunk⟩ := hiff.mpr ⟨by decide, by simp⟩
  obtain ⟨hconstants, rename, offset, -, hcode⟩ := hall chunk hchunk
  exact ⟨chunk, hchunk, hconstants.trans (by decide), rename, offset, hcode⟩

end LuaExpr
