import LuaExpr.Proofs.Binary64.Integer
import LuaExpr.Proofs.Machine.Simulation
/-!
# Trees of bitwise operators

A number that is an integer of 54 bits is a word in which all bits from the 53rd on are the same.
The operators on single bits keep words so, and a number can hold each of these words. So a tree of
these operators computes on the machine what it computes on words, whatever its size.

* `IsNarrow`: the integers of 54 bits; `isNarrow_iff`: as words.
* `BitTree`: the trees; `BitTree.word`: what they compute on words; `BitTree.number`: what they
  compute on numbers.
* `BitTree.Codes` and `BitTree.Spells`: a chunk holds the code of a tree, and an expression spells
  it.
* `BitTree.run?_eq_number`: both compute the same.
-/

namespace LuaExpr

/-! ## Integers of 54 bits -/

/-- An integer of 54 bits, with its sign. -/
def IsNarrow (i : ℤ) : Prop := -2 ^ 53 ≤ i ∧ i < 2 ^ 53

theorem IsNarrow.isShort {i : ℤ} (h : IsNarrow i) : IsShort i := by
  obtain ⟨hlow, hhigh⟩ := h
  exact isShort_of_natAbs_le (by omega)

section Words

variable {w x : Int64}

/-- The bits of a narrow word from the 53rd on are all zeros or all ones. -/
theorem isNarrow_iff :
    IsNarrow w.toInt ↔ w.toBitVec.sshiftRight 53 = 0#64 ∨
      w.toBitVec.sshiftRight 53 = BitVec.allOnes 64 := by
  have hshift : (w.toBitVec.sshiftRight 53).toInt = w.toInt / 2 ^ 53 := by
    rw [BitVec.toInt_sshiftRight, Int64.toInt_toBitVec, Int.shiftRight_eq_div_pow]
    rfl
  rw [← BitVec.toInt_inj, ← BitVec.toInt_inj, hshift, BitVec.toInt_zero,
    BitVec.toInt_allOnes, IsNarrow]
  omega

theorem IsNarrow.not (h : IsNarrow w.toInt) : IsNarrow (~~~w).toInt := by
  rw [isNarrow_iff] at h ⊢
  rw [Int64.toBitVec_not, ← BitVec.not_sshiftRight]
  rcases h with h | h <;> simp [h]

theorem IsNarrow.and (hw : IsNarrow w.toInt) (hx : IsNarrow x.toInt) :
    IsNarrow (w &&& x).toInt := by
  rw [isNarrow_iff] at hw hx ⊢
  rw [Int64.toBitVec_and, BitVec.sshiftRight_and_distrib]
  rcases hw with hw | hw <;> rcases hx with hx | hx <;> simp [hw, hx]

theorem IsNarrow.or (hw : IsNarrow w.toInt) (hx : IsNarrow x.toInt) : IsNarrow (w ||| x).toInt := by
  rw [isNarrow_iff] at hw hx ⊢
  rw [Int64.toBitVec_or, BitVec.sshiftRight_or_distrib]
  rcases hw with hw | hw <;> rcases hx with hx | hx <;> simp [hw, hx]

theorem IsNarrow.xor (hw : IsNarrow w.toInt) (hx : IsNarrow x.toInt) :
    IsNarrow (w ^^^ x).toInt := by
  rw [isNarrow_iff] at hw hx ⊢
  rw [Int64.toBitVec_xor, BitVec.sshiftRight_xor_distrib]
  rcases hw with hw | hw <;> rcases hx with hx | hx <;> simp [hw, hx]

end Words

/-! ## Trees -/

/-- A number that is an integer of 54 bits. -/
structure NarrowNumber where
  /-- The number. -/
  number : Binary64
  /-- Its value. -/
  value : ℤ
  toInt?_eq : number.toInt? = some value
  isNarrow : IsNarrow value

/-- The binary operators on single bits. -/
inductive BitOp where
  /-- `&`. -/
  | and
  /-- `|`. -/
  | or
  /-- `~`. -/
  | xor

namespace BitOp

/-- The operator of the machine. -/
def op : BitOp → BinaryOp
  | and => .bitAnd
  | or => .bitOr
  | xor => .bitXor

/-- What the operator computes of words. -/
def word : BitOp → Int64 → Int64 → Int64
  | and => (· &&& ·)
  | or => (· ||| ·)
  | xor => (· ^^^ ·)

theorem isNarrow_word (o : BitOp) {w x : Int64} (hw : IsNarrow w.toInt) (hx : IsNarrow x.toInt) :
    IsNarrow (o.word w x).toInt := by
  cases o with
  | and => exact hw.and hx
  | or => exact hw.or hx
  | xor => exact hw.xor hx

theorem apply_eq (o : BitOp) {a b : Binary64} {w x : Int64} (ha : a.toInt64? = some w)
    (hb : b.toInt64? = some x) :
    o.op.apply (.number a) (.number b) = .ok (.number (.ofInt64 (o.word w x))) := by
  cases o <;> exact BinaryOp.bitwise_eq ha hb

end BitOp

/-- A tree of bitwise operators over integers of 54 bits. -/
inductive BitTree where
  /-- A number. -/
  | leaf (n : NarrowNumber)
  /-- The unary operator `~`. -/
  | complement (t : BitTree)
  /-- A binary operator. -/
  | join (o : BitOp) (l r : BitTree)

namespace BitTree

/-- What a tree computes on words in two's complement. -/
def word : BitTree → Int64
  | leaf n => Int64.ofInt n.value
  | complement t => ~~~t.word
  | join o l r => o.word l.word r.word

/-- What a tree computes on numbers. -/
def number : BitTree → Binary64
  | leaf n => n.number
  | t => .ofInt64 t.word

/-- The number of values that a tree needs on the stack: the left operand waits for the right
one. -/
def height : BitTree → Nat
  | leaf _ => 1
  | complement t => t.height
  | join _ l r => max l.height (r.height + 1)

theorem height_pos (t : BitTree) : 0 < t.height := by
  induction t with
  | leaf n => exact Nat.one_pos
  | complement t ih => exact ih
  | join o l r ihl _ => exact Nat.lt_of_lt_of_le ihl (Nat.le_max_left _ _)

theorem toInt_word_leaf (n : NarrowNumber) : (leaf n).word.toInt = n.value := by
  obtain ⟨hlow, hhigh⟩ := n.isNarrow
  exact Int64.toInt_ofInt_of_le (by omega) (by omega)

/-- **The range is kept**: a tree computes a narrow word. -/
theorem isNarrow_word (t : BitTree) : IsNarrow t.word.toInt := by
  induction t with
  | leaf n =>
    rw [toInt_word_leaf]
    exact n.isNarrow
  | complement t ih => exact ih.not
  | join o l r ihl ihr => exact o.isNarrow_word ihl ihr

/-- The number of a tree is its word. -/
theorem toInt?_number (t : BitTree) : t.number.toInt? = some t.word.toInt := by
  have hexact : (Binary64.ofInt64 t.word).toInt? = some t.word.toInt :=
    Binary64.toInt64?_eq_some_iff.mp ((Binary64.toInt64?_ofInt64_iff _).mpr t.isNarrow_word.isShort)
  cases t with
  | leaf n =>
    rw [toInt_word_leaf]
    exact n.toInt?_eq
  | complement t => exact hexact
  | join o l r => exact hexact

/-- A tree can be the operand of a bitwise operator. -/
theorem toInt64?_number (t : BitTree) : t.number.toInt64? = some t.word :=
  Binary64.toInt64?_eq_some_iff.mpr t.toInt?_number

/-! ## Code -/

section Code

variable (chunk : Chunk) (globals : Globals)

/-- A chunk holds code that pushes a number, between two indices: a constant, a global, or the
opposite of a number. -/
inductive Pushes (base : Nat) : Binary64 → Nat → Prop
  | constant {n : Binary64} {i : Instruction} {slot : UInt8} (hi : chunk.code[base]? = some i)
      (hop : i.op = .constant slot) (hv : chunk.constant? slot = some (.number n)) :
      Pushes base n (base + 1)
  | global {n : Binary64} {i : Instruction} {slot : UInt8} {name : String}
      (hi : chunk.code[base]? = some i)
      (hop : i.op = .global slot) (hname : chunk.constant? slot = some (.string name))
      (hv : globals.value name = .number n) : Pushes base n (base + 1)
  | negate {n : Binary64} {stop : Nat} {i : Instruction} (h : Pushes base n stop)
      (hi : chunk.code[stop]? = some i)
      (hop : i.op = .unary .negate) : Pushes base n.negate (stop + 1)

/-- A chunk holds the code of a tree between two indices: the operands before their operator. -/
inductive Codes : Nat → BitTree → Nat → Prop
  | leaf {base stop : Nat} {n : NarrowNumber} (h : Pushes chunk globals base n.number stop) :
      Codes base (.leaf n) stop
  | complement {base stop : Nat} {t : BitTree} {i : Instruction} (h : Codes base t stop)
      (hi : chunk.code[stop]? = some i) (hop : i.op = .unary .bitNot) :
      Codes base (.complement t) (stop + 1)
  | join {base middle stop : Nat} {o : BitOp} {l r : BitTree} {i : Instruction}
      (hl : Codes base l middle)
      (hr : Codes middle r stop) (hi : chunk.code[stop]? = some i) (hop : i.op = .binary o.op) :
      Codes base (.join o l r) (stop + 1)

variable {chunk globals} {base stop : Nat} {s : Stack}

theorem Pushes.leads {n : Binary64} (h : Pushes chunk globals base n stop)
    (hs : s.size < s.capacity) :
    ∃ limit, Machine.Leads chunk globals ⟨base, s⟩ limit (.ok ⟨stop, s.put (.number n)⟩) := by
  induction h with
  | constant hi hop hv =>
    exact ⟨1, .step hi ((Machine.step_constant hop hv).trans (Machine.push_eq hs))⟩
  | global hi hop hname hv =>
    refine ⟨1, .step hi ((Machine.step_global hop hname).trans ?_)⟩
    rw [hv]
    exact Machine.push_eq hs
  | negate h hi hop ih =>
    obtain ⟨limit, hleads⟩ := ih
    exact ⟨limit + 1,
      hleads.trans (.step hi ((Machine.step_unary hop).trans (Machine.pushResult_eq hs)))⟩

theorem Pushes.lt {n : Binary64} (h : Pushes chunk globals base n stop) : base < stop := by
  induction h with
  | constant => exact Nat.lt_succ_self _
  | global => exact Nat.lt_succ_self _
  | negate _ _ _ ih => exact Nat.lt_succ_of_lt ih

theorem Codes.lt {t : BitTree} (h : Codes chunk globals base t stop) : base < stop := by
  induction h with
  | leaf h => exact h.lt
  | complement h _ _ ih => exact Nat.lt_succ_of_lt ih
  | join _ _ _ _ ihl ihr => exact Nat.lt_succ_of_lt (ihl.trans ihr)

/-- **The code of a tree** leaves the number of the tree on the stack. -/
theorem Codes.leads {t : BitTree} (h : Codes chunk globals base t stop)
    (hs : s.size + t.height ≤ s.capacity) :
    ∃ limit, Machine.Leads chunk globals ⟨base, s⟩
      limit (.ok ⟨stop, s.put (.number t.number)⟩) := by
  induction h generalizing s with
  | leaf h => exact h.leads hs
  | @complement base stop t i _ hi hop ih =>
    rw [height] at hs
    obtain ⟨limit, hleads⟩ := ih hs
    have hpos := t.height_pos
    have happly : UnaryOp.apply .bitNot (.number t.number) =
        .ok (.number (BitTree.complement t).number) := by
      simp only [UnaryOp.apply, Binary64.toWord, t.toInt64?_number]
      rfl
    refine ⟨limit + 1, hleads.trans (.step hi ((Machine.step_unary hop).trans ?_))⟩
    rw [Machine.pushResult_eq (by omega), happly]
    rfl
  | @join base middle stop o l r i _ _ hi hop ihl ihr =>
    rw [height] at hs
    have hpos := r.height_pos
    obtain ⟨limit, hl⟩ := ihl (s := s) (by omega)
    obtain ⟨limit', hr⟩ := ihr (s := s.put (.number l.number)) (by
      rw [Stack.size_put, Stack.capacity_put]
      omega)
    refine ⟨limit + limit' + 1, (hl.trans hr).trans (.step hi ((Machine.step_binary hop).trans ?_))⟩
    rw [Machine.pushResult_eq (by omega), o.apply_eq l.toInt64?_number r.toInt64?_number]
    rfl

/-- A chunk that is the code of a tree runs to the number of the tree, if the stack has room for its
height. -/
theorem Codes.run?_eq {t : BitTree} (h : Codes chunk globals 0 t chunk.code.size) {limits : Limits}
    (hsteps : limits.steps? = none) (hroom : t.height ≤ limits.stack) :
    chunk.run? globals limits = some (.ok (.number t.number)) := by
  obtain ⟨limit, k, -, hrun⟩ := h.leads (s := limits.start.stack) (by
    show 0 + t.height ≤ limits.stack
    omega)
  have hempty : chunk.code.isEmpty = false := by
    rw [Array.isEmpty_eq_false_iff, ← Array.size_pos_iff]
    exact h.lt
  rw [Chunk.run?, hempty, if_neg Bool.false_ne_true, hsteps]
  exact Machine.run?_of_runFor ((hrun 0).trans (Machine.runFor_end _ rfl))

end Code

/-! ## Expressions -/

section Expressions

variable (env : String → Value)

/-- An expression stands for a number where names have values: a numeral or a name, with any number
of minus signs and parentheses. -/
inductive Stands : Expr → Binary64 → Prop
  | leaf {l : Lexeme} {n : Binary64} (h : l.value env = .number n) : Stands (.leaf l) n
  | group {paren : Lexeme} {e : Expr} {n : Binary64} (h : Stands e n) : Stands (.group paren e) n
  | negate {mark : Lexeme} {e : Expr} {n : Binary64} (h : Stands e n) :
      Stands (.unary .negate mark e) n.negate

/-- An expression spells a tree where names have values. -/
inductive Spells : Expr → BitTree → Prop
  | leaf {e : Expr} {n : NarrowNumber} (h : Stands env e n.number) : Spells e (.leaf n)
  | group {paren : Lexeme} {e : Expr} {t : BitTree} (h : Spells e t) : Spells (.group paren e) t
  | complement {mark : Lexeme} {e : Expr} {t : BitTree} (h : Spells e t) :
      Spells (.unary .bitNot mark e) (.complement t)
  | join {o : BitOp} {mark : Lexeme} {e d : Expr} {l r : BitTree} (hl : Spells e l)
      (hr : Spells d r) :
      Spells (.join (.binary o.op) mark e d) (.join o l r)

variable {env} {chunk : Chunk} {globals : Globals} {slot : Value → UInt8} {base : Nat} {e : Expr}

theorem Stands.pushes {n : Binary64} (h : Stands globals.value e n)
    (hp : Placed chunk slot base e) :
    Pushes chunk globals base n (base + e.size) := by
  induction h with
  | @leaf l n h =>
    have hi := hp.leaf_instruction
    have hvalid := hp.leaves l (by simp [Expr.leaves])
    have hc : ∀ v, l.constant? = some v → chunk.constant? (slot v) = some v :=
      fun v hv => hp.constants v (by simp [hv])
    rcases hvalid.op_cases slot with ⟨hk, -⟩ | ⟨hk, -⟩ | ⟨hk, -⟩ | ⟨v, hk, hv, hop⟩ | ⟨hk, hv, hop⟩
    · simp [Lexeme.value, hk] at h
    · simp [Lexeme.value, hk] at h
    · simp [Lexeme.value, hk] at h
    · obtain rfl : v = .number n := by
        rcases hk with hk | hk <;> simpa [Lexeme.value, hk, hv] using h
      exact .constant hi hop (hc _ hv)
    · exact .global hi hop (hc _ hv) (by simpa [Lexeme.value, hk] using h)
  | group h ih => exact ih hp.group
  | negate h ih =>
    obtain ⟨he, hi⟩ := hp.unary
    exact .negate (ih he) hi rfl

/-- The code of an expression that spells a tree is the code of the tree. -/
theorem Spells.codes {t : BitTree} (h : Spells globals.value e t) (hp : Placed chunk slot base e) :
    Codes chunk globals base t (base + e.size) := by
  induction h generalizing base with
  | leaf h => exact .leaf (h.pushes hp)
  | group h ih => exact ih hp.group
  | complement h ih =>
    obtain ⟨he, hi⟩ := hp.unary
    exact .complement (ih he) hi rfl
  | @join o mark e d l r hl hr ihl ihr =>
    have hend : base + (Expr.join (.binary o.op) mark e d).size = base + e.size + d.size + 1 := by
      rw [Expr.size_join_binary]
      omega
    rw [hend]
    exact .join (ihl hp.join_left) (ihr hp.join_right) hp.after.head rfl

/-- A tree is no higher than the expression is nested. -/
theorem Spells.height_le {t : BitTree} (h : Spells env e t) : t.height ≤ e.nesting + 1 := by
  induction h with
  | leaf h => exact Nat.le_add_left 1 _
  | group h ih =>
    rw [Expr.nesting]
    omega
  | complement h ih =>
    rw [height, Expr.nesting]
    omega
  | join hl hr ihl ihr =>
    rw [height, Expr.nesting]
    omega

end Expressions

/-- **Bitwise expressions are exact.** A tree computes an integer of 54 bits: on words the same as
on the machine, which runs the code of the tree without a fault if the stack has room for its
height. It has, if a source spells the tree, as the nesting of accepted sources is limited. -/
theorem run?_eq_number (t : BitTree) :
    t.number.toInt? = some t.word.toInt ∧ IsNarrow t.word.toInt ∧
      (∀ (chunk : Chunk) (globals : Globals) (limits : Limits),
        Codes chunk globals 0 t chunk.code.size →
        limits.steps? = none → t.height ≤ limits.stack →
          chunk.run? globals limits = some (.ok (.number t.number))) ∧
      ∀ (source : String) (chunk : Chunk) (globals : Globals) (limits : Limits)
        (lexemes : List Lexeme) (e : Expr), compile source = .ok chunk →
          Denotes source lexemes [e] → Spells globals.value e t → limits.steps? = none →
          maxDepth ≤ limits.stack → chunk.run? globals limits = some (.ok (.number t.number)) := by
  refine ⟨t.toInt?_number, t.isNarrow_word,
    fun chunk globals limits h hsteps hroom => h.run?_eq hsteps hroom, ?_⟩
  intro source chunk globals limits lexemes e hcompile hden ht hsteps hstack
  obtain ⟨lexemes', program, hden', hacc, rfl⟩ := compile_eq_ok_iff.mp hcompile
  obtain ⟨rfl, rfl⟩ := hden.unique hden'
  obtain ⟨slot, -, hplaced, -⟩ := placed_ofProgram hacc
  have hcodes := ht.codes hplaced
  have hsize : 0 + e.size = (Chunk.ofProgram [e]).code.size := by
    rw [size_ofProgram, Expr.sizeNext]
    omega
  rw [hsize] at hcodes
  have hnesting : e.nesting < maxDepth := Nat.lt_succ_of_le (hacc.nesting e (by simp))
  have hheight := ht.height_le
  exact hcodes.run?_eq hsteps (by omega)

/-- The complement of the least integer of 54 bits is the greatest one. -/
theorem run?_eq_number_complement :
    ∃ chunk n, compile "~a & b" = .ok chunk ∧ n.toInt? = some 9007199254740991 ∧
    let globals := Globals.ofList [("a", .number (.ofInt (-9007199254740992))),
      ("b", .number (.ofInt (-1)))]
    chunk.run? globals {} = some (.ok (.number n)) ∧
      chunk.run? globals { stack := 2 } = some (.ok (.number n)) := by
  have h : compile "~a & b" = .ok
      { code := #[⟨.global 0, 1⟩, ⟨.unary .bitNot, 0⟩, ⟨.global 1, 5⟩, ⟨.binary .bitAnd, 3⟩],
        constants := #[.string "a", .string "b"] } := by cbv
  have hread : (Cursor.ofSource "~a & b").outcomes = List.map Except.ok
      [⟨.symbol .tilde, 0, ['~']⟩, ⟨.name, 1, ['a']⟩, ⟨.symbol .ampersand, 3, ['&']⟩,
        ⟨.name, 5, ['b']⟩] := by cbv
  have ha : Derives .bitAnd [⟨.symbol .tilde, 0, ['~']⟩, ⟨.name, 1, ['a']⟩]
      (.unary .bitNot ⟨.symbol .tilde, 0, ['~']⟩ (.leaf ⟨.name, 1, ['a']⟩)) :=
    Derives.mono (.unary rfl (Derives.mono (.leaf rfl) (by decide))) (by decide)
  have hb : Derives .shift [⟨.name, 5, ['b']⟩] (.leaf ⟨.name, 5, ['b']⟩) :=
    Derives.mono (.leaf rfl) (by decide)
  have hmark : (Lexeme.mk (.symbol .ampersand) 3 ['&']).kind =
      (Connective.binary .bitAnd).kind := rfl
  have hand : Derives .or _ _ := Derives.mono (Derives.join hmark ha hb) (by decide)
  have hprogram := @Program.cons [] _ [] _ _ (by simp) hand (by simp) (.nil (by simp))
  obtain ⟨hint, -, hcode, hsource⟩ := run?_eq_number (.join .and
    (.complement (.leaf ⟨.ofInt (-9007199254740992), -9007199254740992, rfl, by decide, by decide⟩))
    (.leaf ⟨.ofInt (-1), -1, rfl, by decide, by decide⟩))
  refine ⟨_, _, h, hint.trans (by decide), ?_, ?_⟩
  · exact hsource _ _ _ {} _ _ h ⟨hread, hprogram⟩
      (.join (o := .and) (.complement (.leaf (.leaf rfl))) (.leaf (.leaf rfl))) rfl (by decide)
  · exact hcode _ _ { stack := 2 } (.join (.complement (.leaf (.global rfl rfl rfl rfl)) rfl rfl)
      (.leaf (.global rfl rfl rfl rfl)) rfl rfl) rfl (by decide)

end BitTree

end LuaExpr
