import LuaExpr.Proofs.Expr.Code
import LuaExpr.Proofs.Expr.Grammar
import LuaExpr.Proofs.Expr.Layout
/-!
# Trees with other lexemes

If other lexemes stand in the places of those of a program, and each of them has the same kind and
refers to the same constant, it is a program of the same form, and its code is the same up to
offsets. What the lexemes are called and where they stand is of no account.

* `Relabelling`: a change of lexemes that keeps what a program makes of them.
* `Expr.map`: a tree with changed lexemes; `Expr.size_map`, `Expr.leaves_map`, `Expr.parts_map` and
  so on.
* `Program.map` and `Program.exists_of_map`: the changed lexemes are a program exactly if the
  lexemes are one.
* `Instruction.relabelled`: an instruction with other slots, later targets and another offset;
  `Expr.code_map`: the code of a tree with changed lexemes, which may begin later in a chunk and
  have other slots.
-/

namespace LuaExpr

/-! ## Lexemes -/

/-- The offset of a literal matters to its faults alone. -/
theorem Piece.toOption_decodeAll_go (offset offset' : Nat) (found : List Char)
    (pieces : List Piece) :
    (decodeAll.go offset found pieces).toOption = (decodeAll.go offset' found pieces).toOption := by
  induction pieces generalizing offset offset' found with
  | nil => rfl
  | cons p pieces ih =>
    unfold decodeAll.go
    split
    · exact ih _ _ _
    · rfl
    · rfl

/-- The constant of a lexeme does not depend on its place. -/
theorem Lexeme.constant?_congr {l l' : Lexeme} (hk : l'.kind = l.kind) (ht : l'.text = l.text) :
    l'.constant? = l.constant? := by
  unfold constant?
  rw [hk, ht]
  split
  · rfl
  · exact congrArg _ (Piece.toOption_decodeAll_go _ _ _ _)
  · rfl
  · rfl

/-- A change of lexemes that keeps their kinds and constants, and that changes equal offsets
equally. -/
structure Relabelling (f : Lexeme → Lexeme) (offset : Nat → Nat) : Prop where
  kind : ∀ l, (f l).kind = l.kind
  constant : ∀ l, (f l).constant? = l.constant?
  start : ∀ l, (f l).start = offset l.start

section Lexemes

variable {f : Lexeme → Lexeme} {offset : Nat → Nat} {l : Lexeme}

theorem Relabelling.isLeaf (hf : Relabelling f offset) : (f l).isLeaf = l.isLeaf := by
  rw [Lexeme.isLeaf, hf.kind]
  rfl

theorem Relabelling.isValid_iff (hf : Relabelling f offset) : (f l).IsValid ↔ l.IsValid := by
  constructor
  · exact fun h => ⟨hf.isLeaf ▸ h.isLeaf, by simpa only [hf.kind, hf.constant] using h.constant⟩
  · exact fun h => ⟨hf.isLeaf.trans h.isLeaf, by simpa only [hf.kind, hf.constant] using h.constant⟩

theorem Relabelling.isSeparator_iff (hf : Relabelling f offset) :
    (f l).IsSeparator ↔ l.IsSeparator := by
  rw [Lexeme.IsSeparator, Lexeme.IsSeparator, hf.kind]

end Lexemes

/-! ## Trees -/

namespace Expr

mutual

/-- The expression with changed lexemes. -/
def map (f : Lexeme → Lexeme) : Expr → Expr
  | leaf l => leaf (f l)
  | group paren e => group (f paren) (e.map f)
  | unary op mark e => unary op (f mark) (e.map f)
  | join c mark l r => join c (f mark) (l.map f) (r.map f)
  | call e paren args => call (e.map f) (f paren) (mapAll f args)

/-- Several expressions with changed lexemes. -/
def mapAll (f : Lexeme → Lexeme) : List Expr → List Expr
  | [] => []
  | e :: es => e.map f :: mapAll f es

end

section Form

variable (f : Lexeme → Lexeme)

@[simp] theorem mapAll_eq_map (es : List Expr) : mapAll f es = es.map (map f) := by
  induction es with
  | nil => rfl
  | cons e es ih => rw [mapAll, ih, List.map_cons]

theorem sizeAll_map {es : List Expr} (h : ∀ e ∈ es, (e.map f).size = e.size) :
    sizeAll (es.map (map f)) = sizeAll es := by
  induction es with
  | nil => rfl
  | cons e es ih =>
    rw [List.map_cons, sizeAll, sizeAll, h e (by simp), ih fun d hd => h d (by simp [hd])]

@[simp] theorem size_map (e : Expr) : (e.map f).size = e.size := by
  induction e with
  | leaf l => rfl
  | group paren e ih => simpa only [map, size] using ih
  | unary op mark e ih => simp only [map, size, ih]
  | join c mark l r ihl ihr => simp only [map, size, ihl, ihr]
  | call e paren args ih ihargs => simp only [map, mapAll_eq_map, size, ih, sizeAll_map f ihargs]

theorem leavesAll_map_of_forall {es : List Expr} (h : ∀ e ∈ es, (e.map f).leaves = e.leaves.map f) :
    leavesAll (es.map (map f)) = (leavesAll es).map f := by
  induction es with
  | nil => rfl
  | cons e es ih =>
    rw [List.map_cons, leavesAll, leavesAll, h e (by simp), ih fun d hd => h d (by simp [hd]),
      List.map_append]

theorem leaves_map (e : Expr) : (e.map f).leaves = e.leaves.map f := by
  induction e with
  | leaf l => rfl
  | group paren e ih => simpa only [map, leaves] using ih
  | unary op mark e ih => simpa only [map, leaves] using ih
  | join c mark l r ihl ihr => simp only [map, leaves, ihl, ihr, List.map_append]
  | call e paren args ih ihargs =>
    simp only [map, mapAll_eq_map, leaves, ih, leavesAll_map_of_forall f ihargs, List.map_append]

theorem leavesAll_map (es : List Expr) : leavesAll (es.map (map f)) = (leavesAll es).map f :=
  leavesAll_map_of_forall f fun e _ => leaves_map f e

theorem nestingAll_map {es : List Expr} (h : ∀ e ∈ es, (e.map f).nesting = e.nesting) :
    nestingAll (es.map (map f)) = nestingAll es := by
  induction es with
  | nil => rfl
  | cons e es ih =>
    rw [List.map_cons, nestingAll, nestingAll, h e (by simp), ih fun d hd => h d (by simp [hd])]

@[simp] theorem nesting_map (e : Expr) : (e.map f).nesting = e.nesting := by
  induction e with
  | leaf l => rfl
  | group paren e ih => simp only [map, nesting, ih]
  | unary op mark e ih => simp only [map, nesting, ih]
  | join c mark l r ihl ihr => simp only [map, nesting, ihl, ihr]
  | call e paren args ih ihargs =>
    simp only [map, mapAll_eq_map, nesting, ih, nestingAll_map f ihargs]

/-! ### Parts -/

/-- A part of an expression with changed lexemes that begins a number of instructions later. -/
def mapPart (shift : Nat) (part : Nat × Expr) : Nat × Expr := (part.1 + shift, part.2.map f)

theorem partsAll_map {es : List Expr} {shift : Nat}
    (h : ∀ e ∈ es, ∀ base, (e.map f).parts (base + shift) = (e.parts base).map (mapPart f shift))
    (base : Nat) :
    partsAll (base + shift) (es.map (map f)) = (partsAll base es).map (mapPart f shift) := by
  induction es generalizing base with
  | nil => rfl
  | cons e es ih =>
    rw [List.map_cons, partsAll, partsAll, h e (by simp), size_map, Nat.add_right_comm,
      ih fun d hd => h d (by simp [hd]), List.map_append]

theorem parts_map (shift : Nat) (e : Expr) :
    ∀ base, (e.map f).parts (base + shift) = (e.parts base).map (mapPart f shift) := by
  induction e with
  | leaf l => intro base; rfl
  | group paren e ih =>
    intro base
    rw [map, parts, parts, ih, List.map_cons]
    rfl
  | unary op mark e ih =>
    intro base
    rw [map, parts, parts, ih, List.map_cons]
    rfl
  | join c mark l r ihl ihr =>
    intro base
    have hright : base + shift + l.size + c.lead = base + l.size + c.lead + shift := by omega
    rw [map, parts, parts, ihl, size_map, hright, ihr, List.map_cons, List.map_append]
    rfl
  | call e paren args ih ihargs =>
    intro base
    rw [map, parts, parts, ih, size_map, mapAll_eq_map, Nat.add_right_comm, partsAll_map f ihargs,
      List.map_cons, List.map_append]
    simp only [mapPart, map, mapAll_eq_map]

theorem partsNext_map (shift : Nat) (es : List Expr) (base : Nat) :
    partsNext (base + shift) (es.map (map f)) = (partsNext base es).map (mapPart f shift) := by
  induction es generalizing base with
  | nil => rfl
  | cons e es ih =>
    have hfirst : base + shift + 1 = base + 1 + shift := by omega
    have hnext : base + 1 + shift + e.size = base + 1 + e.size + shift := by omega
    rw [List.map_cons, partsNext, partsNext, hfirst, parts_map, size_map, hnext, ih,
      List.map_append]

theorem programParts_map (es : List Expr) :
    programParts (es.map (map f)) = (programParts es).map (mapPart f 0) := by
  cases es with
  | nil => rfl
  | cons e es =>
    have he := parts_map f 0 e 0
    have hes := partsNext_map f 0 es e.size
    rw [Nat.add_zero] at he hes
    rw [List.map_cons, programParts, programParts, he, size_map, hes, List.map_append]

theorem fits_mapPart {shift : Nat} {part : Nat × Expr} :
    (mapPart f shift part).2.Fits (mapPart f shift part).1 ↔ part.2.Fits (part.1 + shift) := by
  obtain ⟨i, e⟩ := part
  cases e with
  | join k mark l r => cases k <;> simp [mapPart, map, Fits, size]
  | call e paren args => simp [mapPart, map, Fits]
  | _ => simp [mapPart, map, Fits]

end Form

section Relabelled

variable {f : Lexeme → Lexeme} {offset : Nat → Nat}

theorem constantsAll_map (hf : Relabelling f offset) (es : List Expr) :
    constantsAll (es.map (map f)) = constantsAll es := by
  rw [constantsAll, constantsAll, leavesAll_map, List.filterMap_map]
  exact congrArg (List.filterMap · _) (funext hf.constant)

theorem start_map (hf : Relabelling f offset) (e : Expr) : (e.map f).start = offset e.start := by
  induction e with
  | join c mark l r ihl _ => simpa only [map, start] using ihl
  | call e paren args ih _ => simpa only [map, start] using ih
  | _ => exact hf.start _

/-- The limits on a program do not depend on its lexemes beyond their kinds and constants. -/
theorem acceptable_map_iff (hf : Relabelling f offset) (es : List Expr) :
    Acceptable (es.map (map f)) ↔ Acceptable es := by
  have hleaves : (∀ l ∈ leavesAll (es.map (map f)), l.IsValid) ↔ ∀ l ∈ leavesAll es, l.IsValid := by
    simp only [leavesAll_map, List.forall_mem_map, hf.isValid_iff]
  have hnesting : (∀ e ∈ es.map (map f), e.nesting ≤ 199) ↔ ∀ e ∈ es, e.nesting ≤ 199 := by
    simp only [List.forall_mem_map, nesting_map]
  have hparts : (∀ part ∈ programParts (es.map (map f)), part.2.Fits part.1) ↔
      ∀ part ∈ programParts es, part.2.Fits part.1 := by
    simp only [programParts_map, List.forall_mem_map, fits_mapPart, Nat.add_zero]
  have hconstants := constantsAll_map hf es
  constructor
  · exact fun h => ⟨hleaves.mp h.leaves, hnesting.mp h.nesting, hconstants ▸ h.constants,
      hparts.mp h.parts⟩
  · exact fun h => ⟨hleaves.mpr h.leaves, hnesting.mpr h.nesting, hconstants ▸ h.constants,
      hparts.mpr h.parts⟩

end Relabelled

end Expr

/-! ## Lexemes of trees -/

section Derivations

variable {f : Lexeme → Lexeme} {offset : Nat → Nat} {n : Nonterminal} {ts us : List Lexeme}
  {tss : List (List Lexeme)}
  {e : Expr} {es : List Expr}

theorem CommaSeparated.map (hf : Relabelling f offset) (h : CommaSeparated tss us) :
    CommaSeparated (tss.map (List.map f)) (us.map f) := by
  induction h with
  | nil => exact .nil
  | single ts => exact .single _
  | cons hc _ ih =>
    rw [List.map_append, List.map_cons]
    exact .cons ((hf.kind _).trans hc) ih

theorem Derives.map (hf : Relabelling f offset) (h : Derives n ts e) :
    Derives n (ts.map f) (e.map f) := by
  induction h with
  | lift hn _ ih => exact .lift hn ih
  | join hm _ _ ihl ihr =>
    rw [List.map_append, List.map_cons]
    exact .join ((hf.kind _).trans hm) ihl ihr
  | unary hm _ ih => exact .unary ((hf.kind _).trans hm) ih
  | @call paren close ts us e items hp hc he hi hu ih ihi =>
    let items' := items.map fun i => (i.1.map f, i.2.map f)
    have hitems : ∀ j ∈ items', Derives .or j.1 j.2 := by
      intro j hj
      obtain ⟨i, hmem, rfl⟩ := List.mem_map.mp hj
      exact ihi i hmem
    have hseparated : CommaSeparated (items'.map Prod.fst) (us.map f) := by
      simpa [items', Function.comp_def] using hu.map hf
    simpa [items', Expr.map, Function.comp_def] using
      Derives.call ((hf.kind _).trans hp) ((hf.kind _).trans hc) ih hitems hseparated
  | group hp hc _ ih =>
    rw [List.map_cons, List.map_append]
    exact .group ((hf.kind _).trans hp) ((hf.kind _).trans hc) ih
  | leaf h => exact .leaf (hf.isLeaf.trans h)

theorem Relabelling.isSeparator_map (hf : Relabelling f offset) (h : ∀ s ∈ ts, s.IsSeparator) :
    ∀ s ∈ ts.map f, s.IsSeparator := by
  intro s hs
  obtain ⟨k, hk, rfl⟩ := List.mem_map.mp hs
  exact hf.isSeparator_iff.mpr (h k hk)

/-- The changed lexemes of a program are a program. -/
theorem Program.map (hf : Relabelling f offset) (h : Program ts es) :
    Program (ts.map f) (es.map (Expr.map f)) := by
  induction h with
  | nil hs => exact .nil (hf.isSeparator_map hs)
  | cons hs he hu _ ih =>
    rw [List.map_append, List.map_append, List.map_cons]
    refine .cons (hf.isSeparator_map hs) (he.map hf) (fun s hs => ?_) ih
    rw [List.head?_map] at hs
    obtain ⟨k, hk, rfl⟩ := Option.mem_map.mp hs
    exact hf.isSeparator_iff.mpr (hu k hk)

/-! ### Back -/

theorem CommaSeparated.exists_of_map (hf : Relabelling f offset)
    (h : CommaSeparated tss (us.map f)) :
    ∃ uss, CommaSeparated uss us ∧ uss.map (List.map f) = tss := by
  generalize hvs : us.map f = vs at h
  induction h generalizing us with
  | nil => exact ⟨[], by rw [List.map_eq_nil_iff.mp hvs]; exact .nil, rfl⟩
  | single ts => exact ⟨[us], .single us, by rw [← hvs]; rfl⟩
  | cons hc _ ih =>
    obtain ⟨front, back, rfl, rfl, hback⟩ := List.map_eq_append_iff.mp hvs
    obtain ⟨comma, back, rfl, rfl, htail⟩ := List.map_eq_cons_iff.mp hback
    obtain ⟨uss, huss, hmap⟩ := ih htail
    cases uss with
    | nil => cases hmap
    | cons us uss =>
      exact ⟨front :: us :: uss,
        .cons ((hf.kind _).symm.trans hc) huss, by rw [List.map_cons, hmap]⟩

/-- Trees for the members of a sequence, if there is one for each of them. -/
theorem exists_items_of_map {items : List (List Lexeme × Expr)} {uss : List (List Lexeme)}
    (h : ∀ i ∈ items, ∀ us : List Lexeme, us.map f = i.1 → ∃ e, Derives .or us e ∧ e.map f = i.2)
    (hmap : uss.map (List.map f) = items.map Prod.fst) :
    ∃ items' : List (List Lexeme × Expr),
      items'.map Prod.fst = uss ∧ (∀ i ∈ items', Derives .or i.1 i.2) ∧
      (items'.map Prod.snd).map (Expr.map f) = items.map Prod.snd := by
  induction items generalizing uss with
  | nil => exact ⟨[], (List.map_eq_nil_iff.mp hmap).symm, by simp, rfl⟩
  | cons i items ih =>
    obtain ⟨us, uss, rfl, hus, huss⟩ := List.map_eq_cons_iff.mp hmap
    obtain ⟨e, he, hei⟩ := h i (by simp) us hus
    obtain ⟨items', hfst, hall, hsnd⟩ := ih (fun j hj => h j (by simp [hj])) huss
    refine ⟨(us, e) :: items', by rw [List.map_cons, hfst], fun j hj => ?_, ?_⟩
    · rcases List.mem_cons.mp hj with rfl | hj
      · exact he
      · exact hall j hj
    · rw [List.map_cons, List.map_cons, List.map_cons, hsnd, hei]

/-- What is a derivation for changed lexemes is one for the lexemes themselves. -/
theorem Derives.exists_of_map (hf : Relabelling f offset) {d : Expr} (h : Derives n (ts.map f) d) :
    ∃ e, Derives n ts e ∧ e.map f = d := by
  generalize hvs : ts.map f = vs at h
  induction h generalizing ts with
  | lift hn _ ih =>
    obtain ⟨e, he, rfl⟩ := ih hvs
    exact ⟨e, .lift hn he, rfl⟩
  | join hm _ _ ihl ihr =>
    obtain ⟨ls, back, rfl, hls, hback⟩ := List.map_eq_append_iff.mp hvs
    obtain ⟨mark, rs, rfl, rfl, hrs⟩ := List.map_eq_cons_iff.mp hback
    obtain ⟨l, hl, rfl⟩ := ihl hls
    obtain ⟨r, hr, rfl⟩ := ihr hrs
    exact ⟨_, .join ((hf.kind _).symm.trans hm) hl hr, rfl⟩
  | unary hm _ ih =>
    obtain ⟨mark, ts, rfl, rfl, hts⟩ := List.map_eq_cons_iff.mp hvs
    obtain ⟨e, he, rfl⟩ := ih hts
    exact ⟨_, .unary ((hf.kind _).symm.trans hm) he, rfl⟩
  | call hp hc _ _ hu ih ihi =>
    obtain ⟨fs, back, rfl, hfs, hback⟩ := List.map_eq_append_iff.mp hvs
    obtain ⟨paren, back, rfl, rfl, htail⟩ := List.map_eq_cons_iff.mp hback
    obtain ⟨us, last, rfl, rfl, hlast⟩ := List.map_eq_append_iff.mp htail
    obtain ⟨close, last, rfl, rfl, hnil⟩ := List.map_eq_cons_iff.mp hlast
    obtain rfl := List.map_eq_nil_iff.mp hnil
    obtain ⟨e, he, rfl⟩ := ih hfs
    obtain ⟨uss, huss, hmap⟩ := hu.exists_of_map hf
    obtain ⟨items, rfl, hitems, hsnd⟩ := exists_items_of_map (fun i hi us hus => ihi i hi hus) hmap
    refine ⟨_, .call ((hf.kind _).symm.trans hp) ((hf.kind _).symm.trans hc) he hitems huss, ?_⟩
    rw [Expr.map, Expr.mapAll_eq_map, hsnd]
  | group hp hc _ ih =>
    obtain ⟨paren, back, rfl, rfl, hback⟩ := List.map_eq_cons_iff.mp hvs
    obtain ⟨ts, last, rfl, hts, hlast⟩ := List.map_eq_append_iff.mp hback
    obtain ⟨close, last, rfl, rfl, hnil⟩ := List.map_eq_cons_iff.mp hlast
    obtain rfl := List.map_eq_nil_iff.mp hnil
    obtain ⟨e, he, rfl⟩ := ih hts
    exact ⟨_, .group ((hf.kind _).symm.trans hp) ((hf.kind _).symm.trans hc) he, rfl⟩
  | leaf h =>
    obtain ⟨l, back, rfl, rfl, hnil⟩ := List.map_eq_cons_iff.mp hvs
    obtain rfl := List.map_eq_nil_iff.mp hnil
    exact ⟨_, .leaf (hf.isLeaf.symm.trans h), rfl⟩

theorem Relabelling.isSeparator_of_map (hf : Relabelling f offset)
    (h : ∀ s ∈ ts.map f, s.IsSeparator) :
    ∀ s ∈ ts, s.IsSeparator := fun s hs => hf.isSeparator_iff.mp (h (f s) (List.mem_map_of_mem hs))

/-- **Only kinds matter to the grammar.** If the changed lexemes are a program, the lexemes
themselves are one. -/
theorem Program.exists_of_map (hf : Relabelling f offset) {ds : List Expr}
    (h : Program (ts.map f) ds) :
    ∃ es, Program ts es ∧ es.map (Expr.map f) = ds := by
  generalize hvs : ts.map f = vs at h
  induction h generalizing ts with
  | nil hs => exact ⟨[], .nil (hf.isSeparator_of_map (hvs ▸ hs)), rfl⟩
  | cons hs he hu _ ih =>
    obtain ⟨ss, back, rfl, rfl, hback⟩ := List.map_eq_append_iff.mp hvs
    obtain ⟨ts, us, rfl, rfl, rfl⟩ := List.map_eq_append_iff.mp hback
    obtain ⟨e, hts, rfl⟩ := he.exists_of_map hf
    obtain ⟨es, hes, rfl⟩ := ih rfl
    refine ⟨e :: es, .cons (hf.isSeparator_of_map hs) hts (fun s hs => ?_) hes, rfl⟩
    refine hf.isSeparator_iff.mp (hu (f s) ?_)
    rw [List.head?_map]
    exact Option.mem_map_of_mem f hs

/-- The layout depends on the kinds of lexemes alone. -/
theorem Layout.significantFrom_map (hf : Relabelling f offset) (depth : Nat) (awaited : Bool)
    (ls : List Lexeme) :
    significantFrom depth awaited (ls.map f) = (significantFrom depth awaited ls).map f := by
  induction ls generalizing depth awaited with
  | nil => rfl
  | cons l ls ih =>
    rw [List.map_cons, significantFrom, significantFrom, hf.kind, ih, ih]
    split <;> rfl

end Derivations

/-! ## Code -/

/-- The operation with other slots and with targets that are a number of instructions later. -/
def Op.relocated (rename : UInt8 → UInt8) (shift : Nat) : Op → Op
  | constant slot => constant (rename slot)
  | global slot => global (rename slot)
  | jumpIfFalse target => jumpIfFalse (UInt16.ofNat (target.toNat + shift))
  | jump target => jump (UInt16.ofNat (target.toNat + shift))
  | op => op

/-- The instruction with other slots, later targets, and another offset. -/
def Instruction.relabelled (rename : UInt8 → UInt8) (shift : Nat) (offset : Nat → Nat)
    (i : Instruction) :
    Instruction :=
  { op := i.op.relocated rename shift, offset := offset i.offset }

@[simp] theorem Op.relocated_id (op : Op) : op.relocated id 0 = op := by
  cases op <;> simp [Op.relocated]

theorem Instruction.relabelled_id (i : Instruction) : i.relabelled id 0 id = i := by
  rw [relabelled, Op.relocated_id]
  rfl

section Code

variable {f : Lexeme → Lexeme} {offset : Nat → Nat} {slot slot' : Value → UInt8}
  {rename : UInt8 → UInt8} {shift : Nat}

theorem ofNat_toNat_add (n shift : Nat) :
    UInt16.ofNat ((UInt16.ofNat n).toNat + shift) = UInt16.ofNat (n + shift) := by
  apply UInt16.toNat_inj.mp
  simp [UInt16.toNat_ofNat']

theorem Relabelling.op_eq (hf : Relabelling f offset) {l : Lexeme} (h : l.IsValid)
    (hslot : ∀ v ∈ l.constant?, slot' v = rename (slot v)) :
    (f l).op slot' = (l.op slot).relocated rename shift := by
  have hk := hf.kind l
  have hc := hf.constant l
  rcases h.op_cases slot with ⟨hkind, -⟩ | ⟨hkind, -⟩ | ⟨hkind, -⟩ | ⟨v, hkind, hv, -⟩
    | ⟨hkind, hv, -⟩
  · simp [Lexeme.op, hk, hkind, Op.relocated]
  · simp [Lexeme.op, hk, hkind, Op.relocated]
  · simp [Lexeme.op, hk, hkind, Op.relocated]
  · have hs := hslot v hv
    rcases hkind with hkind | hkind <;> simp [Lexeme.op, hk, hc, hkind, hv, Op.relocated, hs]
  · have hs := hslot _ hv
    simp [Lexeme.op, hk, hc, hkind, hv, Op.relocated, hs]

namespace Connective

theorem between_relabelled (c : Connective) (o first done : Nat) :
    c.between (offset o) (first + shift) (done + shift) =
      (c.between o first done).map (Instruction.relabelled rename shift offset) := by
  cases c with
  | binary op => rfl
  | and =>
    simp only [between, Instruction.relabelled, Op.relocated, List.map_cons, List.map_nil,
      ofNat_toNat_add]
  | or =>
    have hfirst : first + shift + 3 = first + 3 + shift := by omega
    simp only [between, Instruction.relabelled, Op.relocated, List.map_cons, List.map_nil,
      ofNat_toNat_add, hfirst]

theorem after_relabelled (c : Connective) (o : Nat) :
    c.after (offset o) = (c.after o).map (Instruction.relabelled rename shift offset) := by
  cases c <;> rfl

end Connective

namespace Expr

/-- What `code_map` says of an expression. -/
def Relocates (f : Lexeme → Lexeme) (offset : Nat → Nat) (slot slot' : Value → UInt8)
    (rename : UInt8 → UInt8) (shift : Nat) (e : Expr) : Prop :=
  (∀ l ∈ e.leaves, l.IsValid) → (∀ v ∈ e.constants, slot' v = rename (slot v)) →
    ∀ base, (e.map f).code slot' (base + shift) =
      (e.code slot base).map (Instruction.relabelled rename shift offset)

theorem codeAll_map {es : List Expr} (h : ∀ e ∈ es, Relocates f offset slot slot' rename shift e)
    (hleaves : ∀ l ∈ leavesAll es, l.IsValid)
    (hslot : ∀ v ∈ constantsAll es, slot' v = rename (slot v)) (base : Nat) :
    codeAll slot' (base + shift) (es.map (map f)) =
      (codeAll slot base es).map (Instruction.relabelled rename shift offset) := by
  induction es generalizing base with
  | nil => rfl
  | cons e es ih =>
    have he :=
      h e (by simp) (fun l hl => hleaves l (List.mem_append_left _ hl))
        (fun v hv => hslot v (by simp [hv])) base
    have hes := ih (fun d hd => h d (by simp [hd])) (fun l hl =>
      hleaves l (List.mem_append_right _ hl))
      (fun v hv => hslot v (by simp [hv])) (base + e.size)
    rw [List.map_cons, codeAll, codeAll, he, size_map, Nat.add_right_comm, hes, List.map_append]

/-- **Code with changed lexemes**, where it begins later in a chunk and its constants have other
slots. -/
theorem code_map (hf : Relabelling f offset) (e : Expr) :
    Relocates f offset slot slot' rename shift e := by
  induction e with
  | leaf l =>
    intro hleaves hslot base
    have hop : (f l).op slot' = (l.op slot).relocated rename shift :=
      hf.op_eq (hleaves l (by simp [leaves])) fun v hv => hslot v (by simpa using hv)
    rw [map, code, code, hop, hf.start]
    rfl
  | group paren e ih => exact ih
  | unary op mark e ih =>
    intro hleaves hslot base
    rw [map, code, code, ih hleaves hslot base, List.map_append, hf.start]
    rfl
  | join c mark l r ihl ihr =>
    intro hleaves hslot base
    have hl :=
      ihl (fun x hx => hleaves x (List.mem_append_left _ hx))
        (fun v hv => hslot v (by simp [hv])) base
    have hr := ihr (fun x hx => hleaves x (List.mem_append_right _ hx)) (fun v hv =>
      hslot v (by simp [hv]))
      (base + l.size + c.lead)
    have hleft : base + shift + l.size = base + l.size + shift := by omega
    have hright : base + l.size + shift + c.lead = base + l.size + c.lead + shift := by omega
    have hdone : base + l.size + c.lead + shift + r.size =
        base + l.size + c.lead + r.size + shift := by omega
    simp only [map, code, size_map, hleft, hright, hdone, hl, hr, List.map_append, hf.start]
    rw [← Connective.between_relabelled, ← Connective.after_relabelled]
  | call e paren args ih ihargs =>
    intro hleaves hslot base
    have he :=
      ih (fun x hx => hleaves x (List.mem_append_left _ hx))
        (fun v hv => hslot v (by simp [hv])) base
    have hargs := codeAll_map ihargs (fun x hx => hleaves x (List.mem_append_right _ hx))
      (fun v hv => hslot v (by simp [hv])) (base + e.size)
    have hleft : base + shift + e.size = base + e.size + shift := by omega
    simp only [map, mapAll_eq_map, code, size_map, hleft, he, hargs, List.map_append,
      List.length_map, hf.start]
    rfl

theorem codeNext_map (shift : Nat) (hf : Relabelling f offset) {es : List Expr}
    (hleaves : ∀ l ∈ leavesAll es, l.IsValid)
    (hslot : ∀ v ∈ constantsAll es, slot' v = rename (slot v)) (base : Nat) :
    codeNext slot' (base + shift) (es.map (map f)) =
      (codeNext slot base es).map (Instruction.relabelled rename shift offset) := by
  induction es generalizing base with
  | nil => rfl
  | cons e es ih =>
    have hrelocates : Relocates f offset slot slot' rename shift e := code_map hf e
    have he := hrelocates (fun l hl => hleaves l (List.mem_append_left _ hl)) (fun v hv =>
      hslot v (by simp [hv]))
      (base + 1)
    have hes := ih (fun l hl => hleaves l (List.mem_append_right _ hl)) (fun v hv =>
      hslot v (by simp [hv]))
      (base + 1 + e.size)
    have hfirst : base + shift + 1 = base + 1 + shift := by omega
    have hnext : base + 1 + shift + e.size = base + 1 + e.size + shift := by omega
    rw [List.map_cons, codeNext, codeNext, hfirst, he, size_map, hnext, hes, start_map hf,
      List.map_cons, List.map_append]
    rfl

/-- The code of a program with changed lexemes, the constants of which may have other slots. -/
theorem programCode_map (hf : Relabelling f offset) {es : List Expr}
    (hleaves : ∀ l ∈ leavesAll es, l.IsValid)
    (hslot : ∀ v ∈ constantsAll es, slot' v = rename (slot v)) :
    programCode slot' (es.map (map f)) =
      (programCode slot es).map (Instruction.relabelled rename 0 offset) := by
  cases es with
  | nil => rfl
  | cons e es =>
    have hrelocates : Relocates f offset slot slot' rename 0 e := code_map hf e
    have he :=
      hrelocates (fun l hl => hleaves l (List.mem_append_left _ hl))
        (fun v hv => hslot v (by simp [hv])) 0
    have hes := codeNext_map 0 hf (fun l hl => hleaves l (List.mem_append_right _ hl))
      (fun v hv => hslot v (by simp [hv])) e.size
    rw [List.map_cons, programCode, programCode, he, size_map, List.map_append]
    exact congrArg _ hes

/-! ### Slots alone -/

theorem map_id (e : Expr) : e.map id = e := by
  induction e with
  | leaf l => rfl
  | group paren e ih => rw [map, ih]; rfl
  | unary op mark e ih => rw [map, ih]; rfl
  | join c mark l r ihl ihr => rw [map, ihl, ihr]; rfl
  | call e paren args ih ihargs =>
    rw [map, ih, mapAll_eq_map, List.map_congr_left ihargs, List.map_id']; rfl

/-- The code of a program depends on the slots of its own constants only. -/
theorem programCode_congr {es : List Expr} (hleaves : ∀ l ∈ leavesAll es, l.IsValid)
    (hslot : ∀ v ∈ constantsAll es, slot' v = slot v) :
    programCode slot' es = programCode slot es := by
  have hid : Relabelling id id := ⟨fun _ => rfl, fun _ => rfl, fun _ => rfl⟩
  have h : programCode slot' (es.map (map id)) =
      (programCode slot es).map (Instruction.relabelled id 0 id) :=
    programCode_map hid hleaves hslot
  rwa [List.map_id'' map_id, List.map_id'' Instruction.relabelled_id] at h

end Expr

end Code

end LuaExpr
