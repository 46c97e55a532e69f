import LuaExpr.Proofs.Compiler.Soundness
/-!
# Progress of the compiler

The compiler never refuses what the grammar derives within the limits. That it succeeds is all there
is to show: what it then has read and written is known from soundness, and it is the given tree, as
lexemes have one tree at most.

* `Room`, `RoomAll`, `RoomNext`: a chunk has room for the code and the constants of trees.
* `Compiler.Complete`: a part of the compiler succeeds in front of an operand for which there is
  room.
* `Compiler.complete_operand` and `Compiler.exists_expressions`: operands and programs are not
  refused.
-/

namespace LuaExpr

/-! ## Room for a tree -/

/-- The limits are kept when a tree is compiled into a chunk. -/
structure Room (c : Chunk) (e : Expr) : Prop where
  leaves : ∀ l ∈ e.leaves, l.IsValid
  parts : ∀ part ∈ e.parts c.code.size, part.2.Fits part.1
  constants : (Pool.addAll c.constants.toList e.constants).length ≤ Chunk.maxConstants

/-- The same for several trees in a row. -/
structure RoomAll (c : Chunk) (es : List Expr) : Prop where
  leaves : ∀ l ∈ Expr.leavesAll es, l.IsValid
  parts : ∀ part ∈ Expr.partsAll c.code.size es, part.2.Fits part.1
  constants : (Pool.addAll c.constants.toList (Expr.constantsAll es)).length ≤ Chunk.maxConstants

/-- The same for further expressions of a program. -/
structure RoomNext (c : Chunk) (es : List Expr) : Prop where
  leaves : ∀ l ∈ Expr.leavesAll es, l.IsValid
  parts : ∀ part ∈ Expr.partsNext c.code.size es, part.2.Fits part.1
  constants : (Pool.addAll c.constants.toList (Expr.constantsAll es)).length ≤ Chunk.maxConstants

section Room

variable {c c₁ c₁' c₂ : Chunk} {e l r f : Expr} {es args : List Expr} {mark paren : Lexeme}
  {op : UnaryOp}
  {k : Connective}

/-- Room for some constants and more is room for the former. -/
theorem length_addAll_left (pool : List Value) {vs ws : List Value} {n : Nat}
    (h : (Pool.addAll pool (vs ++ ws)).length ≤ n) : (Pool.addAll pool vs).length ≤ n := by
  rw [Pool.addAll_append] at h
  exact Nat.le_trans (Pool.length_le_length_addAll _ _) h

/-- Once the former have joined, it is room for the latter. -/
theorem length_addAll_right {vs ws : List Value}
    {code : (Value → UInt8) → List Instruction} {n : Nat}
    (h : (Pool.addAll c.constants.toList (vs ++ ws)).length ≤ n) (hw : Writes c c₁ vs code) :
    (Pool.addAll c₁.constants.toList ws).length ≤ n := by
  rw [Pool.addAll_append] at h
  rw [hw.constants]
  exact h

namespace Room

theorem group (h : Room c (.group paren e)) : Room c e :=
  ⟨h.leaves, fun part hpart => h.parts part (List.mem_cons_of_mem _ hpart), h.constants⟩

theorem unary (h : Room c (.unary op mark e)) : Room c e :=
  ⟨h.leaves, fun part hpart => h.parts part (List.mem_cons_of_mem _ hpart), h.constants⟩

theorem join_left (h : Room c (.join k mark l r)) : Room c l := by
  refine ⟨fun x hx => h.leaves x (List.mem_append_left _ hx), fun part hpart => ?_, ?_⟩
  · exact h.parts part (List.mem_cons_of_mem _ (List.mem_append_left _ hpart))
  · exact length_addAll_left _ (by simpa using h.constants)

theorem join_right (h : Room c (.join k mark l r)) (hl : Compiled c c₁ l)
    (hsize : c₁'.code.size = c₁.code.size + k.lead) (hc : c₁'.constants = c₁.constants) :
    Room c₁' r := by
  refine ⟨fun x hx => h.leaves x (List.mem_append_right _ hx), fun part hpart => ?_, ?_⟩
  · rw [hsize, hl.size] at hpart
    exact h.parts part (List.mem_cons_of_mem _ (List.mem_append_right _ hpart))
  · rw [hc]
    exact length_addAll_right (by simpa using h.constants) hl.writes

theorem callee (h : Room c (.call f paren args)) : Room c f := by
  refine ⟨fun x hx => h.leaves x (List.mem_append_left _ hx), fun part hpart => ?_, ?_⟩
  · exact h.parts part (List.mem_cons_of_mem _ (List.mem_append_left _ hpart))
  · exact length_addAll_left _ (by simpa using h.constants)

theorem arguments (h : Room c (.call f paren args)) (hf : Compiled c c₁ f) : RoomAll c₁ args := by
  refine ⟨fun x hx => h.leaves x (List.mem_append_right _ hx), fun part hpart => ?_, ?_⟩
  · rw [hf.size] at hpart
    exact h.parts part (List.mem_cons_of_mem _ (List.mem_append_right _ hpart))
  · exact length_addAll_right (by simpa using h.constants) hf.writes

/-- A conjunction or an alternative with room ends where a jump can lead. -/
theorem size_lt (h : Room c (.join k mark l r)) (hl : Compiled c c₁ l) (hr : Compiled c₁' c₂ r)
    (hsize : c₁'.code.size = c₁.code.size + k.lead) (hk : k = .and ∨ k = .or) :
    c₂.code.size < UInt16.size := by
  have hfits := h.parts _ (List.mem_cons_self ..)
  have hend : c₂.code.size = c.code.size + (Expr.join k mark l r).size :=
    hr.size_eq_join hl hsize hk
  rw [hend]
  rcases hk with rfl | rfl <;> exact Nat.lt_succ_of_le hfits

theorem args_lt (h : Room c (.call f paren args)) : args.length < UInt8.size :=
  Nat.lt_succ_of_le (h.parts _ (List.mem_cons_self ..))

end Room

namespace RoomAll

theorem head (h : RoomAll c (e :: es)) : Room c e := by
  refine ⟨fun x hx => h.leaves x (List.mem_append_left _ hx), fun part hpart => ?_, ?_⟩
  · exact h.parts part (List.mem_append_left _ hpart)
  · exact length_addAll_left _ (by simpa using h.constants)

theorem tail (h : RoomAll c (e :: es)) (he : Compiled c c₁ e) : RoomAll c₁ es := by
  refine ⟨fun x hx => h.leaves x (List.mem_append_right _ hx), fun part hpart => ?_, ?_⟩
  · rw [he.size] at hpart
    exact h.parts part (List.mem_append_right _ hpart)
  · exact length_addAll_right (by simpa using h.constants) he.writes

end RoomAll

namespace RoomNext

theorem head (h : RoomNext c (e :: es)) (offset : Nat) : Room (c.push .pop offset) e := by
  refine ⟨fun x hx => h.leaves x (List.mem_append_left _ hx), fun part hpart => ?_, ?_⟩
  · rw [show (c.push .pop offset).code.size = c.code.size + 1 by simp [Chunk.push]] at hpart
    exact h.parts part (List.mem_append_left _ hpart)
  · exact length_addAll_left c.constants.toList (by simpa using h.constants)

theorem tail {offset : Nat} (h : RoomNext c (e :: es)) (he : Compiled (c.push .pop offset) c₁ e) :
    RoomNext c₁ es := by
  refine ⟨fun x hx => h.leaves x (List.mem_append_right _ hx), fun part hpart => ?_, ?_⟩
  · rw [he.size, show (c.push .pop offset).code.size =
      c.code.size + 1 by simp [Chunk.push]] at hpart
    exact h.parts part (List.mem_append_right _ hpart)
  · exact length_addAll_right (c := c.push .pop offset)
      (by simpa [Chunk.push] using h.constants) he.writes

end RoomNext

theorem Expr.Acceptable.room (h : Expr.Acceptable (e :: es)) : Room {} e := by
  refine ⟨fun x hx => h.leaves x (List.mem_append_left _ hx), fun part hpart => ?_, ?_⟩
  · exact h.parts part (List.mem_append_left _ hpart)
  · exact length_addAll_left [] (by simpa using h.constants)

theorem Expr.Acceptable.roomNext (h : Expr.Acceptable (e :: es)) (he : Compiled {} c₁ e) :
    RoomNext c₁ es := by
  refine ⟨fun x hx => h.leaves x (List.mem_append_right _ hx), fun part hpart => ?_, ?_⟩
  · rw [he.size, show ({} : Chunk).code.size = 0 from rfl, Nat.zero_add] at hpart
    exact h.parts part (List.mem_append_right _ hpart)
  · exact length_addAll_right (c := {}) (by simpa using h.constants) he.writes

end Room

/-- What is made of an operand has room only if the operand has, and is nested at least as
deeply. -/
theorem Chain.room {p : Precedence} {l e : Expr} {ts rest : List Lexeme} (h : Chain p l ts e rest)
    {c : Chunk} :
    (Room c e → Room c l) ∧ l.nesting ≤ e.nesting := by
  induction h with
  | stop _ => exact ⟨id, Nat.le_refl _⟩
  | join _ _ _ _ _ ih =>
    exact ⟨fun h => (ih.1 h).join_left, Nat.le_trans (Nat.le_max_left ..) ih.2⟩
  | call _ _ _ _ _ ih =>
    exact ⟨fun h => (ih.1 h).callee, Nat.le_trans (Nat.le_max_left ..) ih.2⟩

namespace Compiler

open Layout

/-- A part of the compiler succeeds in front of an operand for which there is room. -/
def Complete (levels : Nat) (part : Precedence → CompileM Unit) : Prop :=
  ∀ {p : Precedence} {s : Compiler} {ts rest : List Lexeme} {e : Expr}, p ≤ .exponent → s.InOrder →
    s.Faultless →
    Derives p.nonterminal ts e → Stops p rest → s.ahead true = ts ++ rest → e.nesting < levels →
    Room s.chunk e →
    ∃ s', part p s = .ok () s'

variable {levels : Nat} {part : Precedence → CompileM Unit} {s t : Compiler}

theorem exists_slot {l : Lexeme} {v : Value} (hv : l.constant? = some v)
    (hroom : Room s.chunk (.leaf l)) :
    ∃ slot c, s.chunk.slotOf? v = some (slot, c) := by
  have h := hroom.constants
  rw [Expr.constants_leaf, hv] at h
  exact Chunk.exists_slotOf? h

/-- Leaves are compiled if their constants find room. -/
theorem exists_leading_leaf (hleaf : s.previous.isLeaf = true)
    (hroom : Room s.chunk (.leaf s.previous)) :
    ∃ s', leading part s = .ok () s' := by
  have hvalid := hroom.leaves s.previous (List.mem_singleton.mpr rfl)
  simp only [leading_eq_ok]
  unfold Lexeme.isLeaf at hleaf
  split at hleaf
  case h_1 hk => exact ⟨_, .inl ⟨hk, literal_eq_ok.mpr rfl⟩⟩
  case h_2 hk => exact ⟨_, .inr (.inl ⟨hk, literal_eq_ok.mpr rfl⟩)⟩
  case h_3 hk => exact ⟨_, .inr (.inr (.inl ⟨hk, literal_eq_ok.mpr rfl⟩))⟩
  case h_4 hk =>
    obtain ⟨v, hv⟩ := Option.isSome_iff_exists.mp (hvalid.constant (.inl hk))
    obtain ⟨slot, c, hslot⟩ := exists_slot hv hroom
    simp only [Lexeme.constant?, hk, Option.map_eq_some_iff] at hv
    obtain ⟨n, hn, rfl⟩ := hv
    exact ⟨_, .inr (.inr (.inr (.inl ⟨hk, numberLiteral_eq_ok.mpr ⟨n, hn, slot, c, hslot, rfl⟩⟩)))⟩
  case h_5 hk =>
    obtain ⟨v, hv⟩ := Option.isSome_iff_exists.mp (hvalid.constant (.inr hk))
    obtain ⟨slot, c, hslot⟩ := exists_slot hv hroom
    simp only [Lexeme.constant?, hk, Option.map_eq_some_iff] at hv
    obtain ⟨text, ht, rfl⟩ := hv
    have ht : StringLiteral.decode s.previous.start s.previous.text = .ok text := by
      cases hd : StringLiteral.decode s.previous.start s.previous.text with
      | error e => rw [hd] at ht; cases ht
      | ok text' => rw [hd] at ht; cases ht; rfl
    exact ⟨_, .inr (.inr (.inr (.inr (.inl
      ⟨hk, stringLiteral_eq_ok.mpr ⟨text, ht, slot, c, hslot, rfl⟩⟩))))⟩
  case h_6 hk =>
    obtain ⟨slot, c, hslot⟩ := exists_slot (v := .string (String.ofList s.previous.text))
      (by simp [Lexeme.constant?, hk]) hroom
    exact ⟨_, .inr (.inr (.inr (.inr (.inr (.inl ⟨hk, name_eq_ok.mpr ⟨slot, c, hslot, rfl⟩⟩)))))⟩
  case h_7 => cases hleaf

/-- Looking at a closing parenthesis in front of the rest, counting it and using it up. -/
theorem exists_closed {close : Lexeme} {rest : List Lexeme} (ho : t.InOrder) (hf : t.Faultless)
    (hset : t.Settled) (hk : close.kind = .symbol .rightParen)
    (ha : t.ahead false = close :: rest) :
    t.current.kind = .symbol .rightParen ∧
      ∃ s', advance { t with groups := t.groups - 1 } = .ok () s' := by
  refine ⟨by rw [current_eq_of_ahead_eq_cons hset ha]; exact hk, ?_⟩
  exact exists_advance (s := { t with groups := t.groups - 1 }) (ho.of_eq rfl rfl rfl) hf

section Parts

variable (hs : Sound levels part) (hc : Complete levels part)
include hs hc

/-- Success in front of an operand is success with this operand. -/
theorem exists_recognised {p : Precedence} {ts rest : List Lexeme} {e : Expr} (hp : p ≤ .exponent)
    (ho : s.InOrder) (hf : s.Faultless) (hder : Derives p.nonterminal ts e) (hstop : Stops p rest)
    (ha : s.ahead true = ts ++ rest) (hn : e.nesting < levels) (hroom : Room s.chunk e) :
    ∃ s', part p s = .ok () s' ∧ Recognised levels p s s' ts e ∧ s'.ahead false = rest := by
  obtain ⟨s', hs'⟩ := hc hp ho hf hder hstop ha hn hroom
  obtain ⟨ts', e', hr⟩ := hs hp ho hs'
  obtain ⟨rfl, hrest⟩ := hder.unique hr.derives hstop hr.stops (by rw [← ha, hr.ahead])
  have hts : ts = ts' := by
    rw [hrest] at ha
    exact List.append_cancel_right (ha.symm.trans hr.ahead)
  exact ⟨s', hs', hts ▸ hr, hrest.symm⟩

theorem exists_leading {us rest : List Lexeme} {d : Expr} (ho : s.InOrder) (hf : s.Faultless)
    (hset : s.Settled) (hd : Head us d rest) (ha : s.previous :: s.after = us ++ rest)
    (hn : d.nesting < levels + 1) (hroom : Room s.chunk d) :
    ∃ s', leading part s = .ok () s' ∧ RecognisedHead levels s s' us d ∧ s'.ahead false = rest := by
  have hex : ∃ s', leading part s = .ok () s' := by
    cases hd with
    | leaf hleaf =>
      obtain ⟨rfl, -⟩ := List.cons_eq_cons.mp ha
      exact exists_leading_leaf hleaf hroom
    | @group paren close ts _ e hp hclose hder =>
      obtain ⟨rfl, ha'⟩ := List.cons_eq_cons.mp ha
      have ha' : ({ s with groups := s.groups + 1 } : Compiler).ahead true =
          ts ++ close :: rest := by
        rw [← after_leftParen hp, ha']
        simp
      obtain ⟨t, ht, hr, hrest⟩ := exists_recognised hs hc (p := .or)
        (s := { s with groups := s.groups + 1 })
        (by decide) (ho.of_eq rfl rfl rfl)
        hf hder (stops_of_joint?_eq_none _ (by rw [hclose]; rfl)) ha'
        (Nat.lt_of_succ_lt_succ hn) hroom.group
      obtain ⟨hk, s', hs'⟩ :=
        exists_closed hr.keeps.inOrder (hr.keeps.faultless hf) hr.settled hclose hrest
      exact ⟨s', leading_eq_ok.mpr (.inr (.inr (.inr (.inr (.inr (.inr (.inl
        ⟨hp, group_eq_ok.mpr ⟨t, ht, hk, hs'⟩⟩)))))))⟩
    | @unary op mark ts _ e hm hder hstop =>
      obtain ⟨rfl, ha'⟩ := List.cons_eq_cons.mp ha
      rw [after_of_unaryOp hm] at ha'
      obtain ⟨t, ht, hr, hrest⟩ := exists_recognised hs hc (p := .unary) (by decide)
        ho hf hder hstop ha' (Nat.lt_of_succ_lt_succ hn) hroom.unary
      exact ⟨_, leading_eq_ok.mpr (.inr (.inr (.inr (.inr (.inr (.inr (.inr
        ⟨op, t, by rw [hm, UnaryOp.unaryOp?_kind], ht, rfl⟩)))))))⟩
  obtain ⟨s', hs'⟩ := hex
  obtain ⟨us', d', hr⟩ := sound_leading hs ho hset hs'
  have heq : us ++ rest = us' ++ s'.ahead false := by rw [← ha, hr.after]
  obtain ⟨rfl, hrest⟩ := hd.unique (uniqueUpTo _) hr.head heq (Nat.le_succ _)
  have hus : us = us' := by
    rw [hrest] at heq
    exact List.append_cancel_right heq
  exact ⟨s', hs', hus ▸ hr, hrest.symm⟩

/-! ## Joints -/

theorem exists_arguments {α : Type} (rounds : List α) (count : Nat) {us rest : List Lexeme}
    {close : Lexeme} {args : List Expr} (hlen : (s.ahead true).length ≤ rounds.length)
    (ho : s.InOrder) (hf : s.Faultless) (hg : 0 < s.groups) (hargs : Arguments us args)
    (hne : args ≠ []) (hk : close.kind = .symbol .rightParen)
    (ha : s.ahead true = us ++ close :: rest) (hn : Expr.nestingAll args < levels + 1)
    (hroom : RoomAll s.chunk args) :
    ∃ s', arguments (part .or) count rounds s = .ok (count + args.length) s' ∧
      RecognisedArguments levels s s' us args ∧ s'.Settled ∧ s'.ahead false = close :: rest := by
  induction args generalizing s us count rounds with
  | nil => exact absurd rfl hne
  | cons e args ih =>
    have hdeep : e.nesting < levels := Nat.lt_of_succ_lt_succ (Nat.max_lt.mp hn).1
    obtain ⟨a, rounds, rfl⟩ : ∃ a rounds', rounds = a :: rounds' := by
      refine List.exists_cons_of_ne_nil fun hnil => ?_
      rw [ha, hnil, List.length_append, List.length_cons, List.length_nil] at hlen
      omega
    rcases hargs.cases with
      ⟨-, hnil⟩ | ⟨e', hsingle, hder⟩ | ⟨us₁, us₂, comma, e', es, rfl, hcons, hnil, hder,
        hcomma, hrest⟩
    · cases hnil
    · obtain ⟨rfl, rfl⟩ := List.cons_eq_cons.mp hsingle
      obtain ⟨t, ht, hr, hrest⟩ := exists_recognised hs hc (p := .or) (by decide) ho hf hder
        (stops_of_joint?_eq_none _ (by rw [hk]; rfl)) ha hdeep hroom.head
      have hnot : t.current.kind ≠ .symbol .comma := by
        rw [current_eq_of_ahead_eq_cons hr.settled hrest, hk]
        decide
      exact ⟨t, arguments_cons_eq_ok.mpr ⟨t, ht, .inr ⟨hnot, rfl, rfl⟩⟩, .single hr,
        hr.settled, hrest⟩
    · obtain ⟨rfl, rfl⟩ := List.cons_eq_cons.mp hcons
      have hsplit : s.ahead true = us₁ ++ comma :: (us₂ ++ close :: rest) := by
        rw [ha]
        simp
      obtain ⟨t, ht, hr, ht'⟩ := exists_recognised hs hc (p := .or) (by decide) ho hf hder
        (stops_of_joint?_eq_none _ (by rw [hcomma]; rfl)) hsplit hdeep hroom.head
      have hcur := current_eq_of_ahead_eq_cons hr.settled ht'
      have hgroups : 0 < t.groups := by
        rw [hr.keeps.groups]
        exact hg
      obtain ⟨t', hadv⟩ := exists_advance hr.keeps.inOrder (hr.keeps.faultless hf)
      have hadvanced := advanced_of_advance hr.keeps.inOrder hadv
      have hahead := hadvanced.ahead_comma hr.settled hgroups (by rw [hcur]; exact hcomma)
      rw [ht', hcur] at hahead
      have ha' := (List.cons_eq_cons.mp hahead).2.symm
      obtain ⟨s', hs', hargs', hset, hend⟩ := ih rounds (count + 1)
        (by rw [ha']; simp [ha] at hlen ⊢; omega) hadvanced.keeps.inOrder
        (hadvanced.keeps.faultless (hr.keeps.faultless hf))
        (by rw [hadvanced.keeps.groups]; exact hgroups) hrest hnil
        ha' (Nat.max_lt.mp hn).2 (by rw [hadvanced.chunk]; exact hroom.tail hr.compiled)
      refine ⟨s', arguments_cons_eq_ok.mpr ⟨t, ht, .inl ⟨by rw [hcur]; exact hcomma, t', hadv, ?_⟩⟩,
        ?_, hset, hend⟩
      · rw [hs', List.length_cons]
        congr 1
        omega
      · have := hargs'.cons hg hr (by rw [hcur]; exact hcomma) hadvanced hnil
        rwa [hcur] at this

variable {c : Chunk} {l : Expr} {p : Precedence}

theorem exists_call {us rest : List Lexeme} {close : Lexeme} {args : List Expr} (hl : p ≤ .call)
    (ho : s.InOrder) (hf : s.Faultless) (hk : s.previous.kind = .symbol .leftParen)
    (hargs : Arguments us args) (hclose : close.kind = .symbol .rightParen)
    (ha : s.after = us ++ close :: rest) (hn : (Expr.call l s.previous args).nesting < levels + 1)
    (hcom : Compiled c s.chunk l) (hroom : Room c (.call l s.previous args)) :
    ∃ s', join part .call s = .ok () s' ∧
      RecognisedJoint levels p c s s' l (.call l s.previous args) ∧
      s'.ahead false = rest := by
  obtain ⟨t, hskip⟩ := exists_repeatWhile (s := { s with groups := s.groups + 1 }) (· = .line)
    (.ok s.current :: s.unread : List (Except LexError Lexeme)) (ho.of_eq rfl rfl rfl) hf
  have hskip := skipLines_eq_ok.mpr hskip
  obtain ⟨hkeeps, hchunk, hclear, hahead⟩ :=
    skipLines_spec (s := { s with groups := s.groups + 1 }) (ho.of_eq rfl rfl rfl) hskip
  have hg : 0 < t.groups := by
    rw [hkeeps.groups]
    exact Nat.succ_pos _
  rw [after_leftParen hk, hahead] at ha
  obtain ⟨hnl, hnargs⟩ := Nat.max_lt.mp hn
  obtain ⟨t', hargs', hr, hset, hend⟩ : ∃ t',
      ((t.current.kind = .symbol .rightParen ∧ args.length = 0 ∧ t' = t) ∨
        (t.current.kind ≠ .symbol .rightParen ∧
          arguments (part .or) 0 (.ok t.current :: t.unread) t = .ok args.length t')) ∧
      RecognisedArguments levels t t' us args ∧ t'.Settled ∧ t'.ahead false = close :: rest := by
    by_cases hne : args = []
    · obtain ⟨rfl, rfl⟩ : us = [] ∧ args = [] := by
        rcases hargs.cases with h | ⟨_, h, _⟩ | ⟨_, _, _, _, _, _, h, _⟩
        · exact h
        · exact absurd (hne.symm.trans h) (by simp)
        · exact absurd (hne.symm.trans h) (by simp)
      have hcur : t.current.kind = .symbol .rightParen := by
        rw [current_eq_of_ahead_eq_cons hclear ha, hclose]
      refine ⟨t, .inl ⟨hcur, rfl, rfl⟩, .nil hg hkeeps.inOrder, by rw [Settled, hcur]; rfl, ?_⟩
      rw [ahead_inside hg false true, ha]
      rfl
    · obtain ⟨k, ks, rfl, hk⟩ := hargs.exists_begins hne
      obtain ⟨t', ht', h⟩ := exists_arguments hs hc _ 0 (length_ahead_le_budget t true)
        hkeeps.inOrder (hkeeps.faultless hf) hg hargs hne hclose ha hnargs
        (by rw [hchunk]; exact hroom.arguments hcom)
      have hcur : t.current.kind ≠ .symbol .rightParen := by
        rw [current_eq_of_ahead_eq_cons hclear ha]
        exact hk.kind_ne.1
      exact ⟨t', .inr ⟨hcur, by rw [ht', Nat.zero_add]⟩, h⟩
  obtain ⟨hk', t'', hadv⟩ :=
    exists_closed hr.keeps.inOrder (hr.keeps.faultless (hkeeps.faultless hf)) hset hclose hend
  obtain ⟨hcons, hjoint⟩ :=
    RecognisedJoint.call hk hl hnl hcom ho hskip hr hk' hadv hroom.args_lt
  refine ⟨_, join_call_eq_ok.mpr (call_eq_ok.mpr ⟨t, _, t', t'', hskip, hargs', hk', hadv,
    hroom.args_lt, rfl⟩), hjoint, ?_⟩
  rw [hend] at hcons
  exact (List.cons_eq_cons.mp hcons).2.symm

theorem exists_connective {k : Connective} {us rest : List Lexeme} {r : Expr}
    (hl : p ≤ k.joint.precedence) (ho : s.InOrder) (hf : s.Faultless)
    (hk : s.previous.kind = k.kind) (hder : Derives k.right us r)
    (hstop : Stops k.rightPrecedence rest) (ha : s.after = us ++ rest)
    (hn : (Expr.join k s.previous l r).nesting < levels + 1) (hcom : Compiled c s.chunk l)
    (hroom : Room c (.join k s.previous l r)) :
    ∃ s', join part k.joint s = .ok () s' ∧
      RecognisedJoint levels p c s s' l (.join k s.previous l r) ∧
      s'.ahead false = rest := by
  obtain ⟨hnl, hnr⟩ := Nat.max_lt.mp hn
  rw [← Connective.nonterminal_rightPrecedence] at hder
  rw [after_of_connective hk] at ha
  have hpart : ∀ c₁ : Chunk, c₁.code.size = s.chunk.code.size + k.lead →
      c₁.constants = s.chunk.constants →
      ∃ t, part k.rightPrecedence { s with chunk := c₁ } = .ok () t ∧
        Recognised levels k.rightPrecedence { s with chunk := c₁ } t us r ∧ t.ahead false = rest :=
    fun c₁ hsize hconst => exists_recognised hs hc (s := { s with chunk := c₁ })
      k.rightPrecedence_le (ho.of_eq rfl rfl rfl) hf hder hstop ha (Nat.lt_of_succ_lt_succ hnr)
        (hroom.join_right hcom hsize hconst)
  cases k with
  | binary op =>
    obtain ⟨t, ht, hr, hrest⟩ := hpart s.chunk rfl rfl
    exact ⟨_, join_binary_eq_ok.mpr ⟨t, ht, rfl⟩,
      .connective hk hl hnl hr (hcom.binary hr.compiled), hrest⟩
  | and =>
    have hopen := size_conjunctionOpened s.chunk s.previous.start
    obtain ⟨t, ht, hr, hrest⟩ := hpart _ hopen rfl
    have hsize := hroom.size_lt hcom hr.compiled hopen (.inl rfl)
    exact ⟨_, join_and_eq_ok.mpr (conjunction_eq_ok.mpr ⟨t, ht, land_eq_ok.mpr ⟨hsize, rfl⟩⟩),
      .connective hk hl hnl hr (hcom.and hr.compiled hsize), hrest⟩
  | or =>
    have hopen := size_alternativeOpened s.chunk s.previous.start
    obtain ⟨t, ht, hr, hrest⟩ := hpart _ hopen rfl
    have hsize := hroom.size_lt hcom hr.compiled hopen (.inr rfl)
    have hfirst : s.chunk.code.size + 3 < UInt16.size := by
      have hend := hr.compiled.size
      rw [hopen] at hend
      omega
    exact ⟨_,
      join_or_eq_ok.mpr (alternative_eq_ok.mpr ⟨hfirst, t, ht, land_eq_ok.mpr ⟨hsize, rfl⟩⟩),
      .connective hk hl hnl hr (hcom.or hr.compiled hsize), hrest⟩

omit hs hc in
/-- Advancing over a joint. -/
theorem exists_advance_joint {mark : Lexeme} {ts : List Lexeme} {j : Joint} (ho : s.InOrder)
    (hf : s.Faultless) (hset : s.Settled) (ha : s.ahead false = mark :: ts)
    (hj : mark.kind.joint? = some j) :
    ∃ t, advance s = .ok () t ∧ Advanced s t ∧ t.previous = mark ∧ t.after = ts := by
  obtain ⟨t, ht⟩ := exists_advance ho hf
  have hadv := advanced_of_advance ho ht
  have hcur := current_eq_of_ahead_eq_cons hset ha
  have hcons : s.ahead false = s.current :: t.after := by
    refine hadv.ahead_eq_cons ?_ hset ?_ <;> intro hk <;> rw [hcur] at hk <;>
      rw [hk] at hj <;> cases hj
  rw [ha, ← hcur] at hcons
  exact ⟨t, ht, hadv, hadv.previous.trans hcur, (List.cons_eq_cons.mp hcons).2.symm⟩

/-- Joints are compiled in front of a chain of them. -/
theorem exists_following {α : Type} (rounds : List α) {rest : List Lexeme} {e : Expr}
    (ho : s.InOrder) (hf : s.Faultless) (hset : s.Settled)
    (hchain : Chain p l (s.ahead false) e rest) (hn : e.nesting < levels + 1)
    (hcom : Compiled c s.chunk l) (hroom : Room c e) :
    ∃ s', following part p rounds s = .ok () s' := by
  induction rounds generalizing s l with
  | nil => exact ⟨s, following_nil_eq_ok.mpr rfl⟩
  | cons a rounds ih =>
    generalize ha : s.ahead false = ts at hchain
    cases hchain with
    | stop hstop =>
      refine ⟨s, following_cons_eq_ok.mpr (.inr ⟨fun j hj => hstop j ?_, rfl⟩)⟩
      have hk : s.current.kind ≠ .eof := by
        intro hk
        rw [hk] at hj
        cases hj
      obtain ⟨ls, hls⟩ := exists_ahead_eq_cons hset hk
      rw [← ha, hls]
      exact hj
    | @join k mark _ r _ us rest' _ hm hp hder hstop hrest =>
      have hj : mark.kind.joint? = some k.joint := by rw [hm, k.joint?_kind]
      obtain ⟨t, ht, hadv, rfl, hafter⟩ := exists_advance_joint ho hf hset ha hj
      obtain ⟨hroom', hn'⟩ := hrest.room (c := c)
      obtain ⟨t', ht', hjoint,
        hend⟩ := exists_connective hs hc hp hadv.keeps.inOrder (hadv.keeps.faultless hf) hm
        hder hstop hafter (Nat.lt_of_le_of_lt hn' hn) (hadv.chunk ▸ hcom) (hroom' hroom)
      obtain ⟨s', hs'⟩ := ih hjoint.keeps.inOrder (hjoint.keeps.faultless (hadv.keeps.faultless hf))
        hjoint.settled (hend ▸ hrest) hjoint.compiled
      exact ⟨s', following_cons_eq_ok.mpr
        (.inl ⟨k.joint, t, t', by rw [← hadv.previous]; exact hj, hp, ht, ht', hs'⟩)⟩
    | @call paren close _ _ args us rest' _ hpar hp hargs hclose hrest =>
      have hj : paren.kind.joint? = some .call := by rw [hpar]; rfl
      obtain ⟨t, ht, hadv, rfl, hafter⟩ := exists_advance_joint ho hf hset ha hj
      obtain ⟨hroom', hn'⟩ := hrest.room (c := c)
      obtain ⟨t', ht', hjoint,
        hend⟩ := exists_call hs hc hp hadv.keeps.inOrder (hadv.keeps.faultless hf) hpar hargs
        hclose hafter (Nat.lt_of_le_of_lt hn' hn) (hadv.chunk ▸ hcom) (hroom' hroom)
      obtain ⟨s', hs'⟩ := ih hjoint.keeps.inOrder (hjoint.keeps.faultless (hadv.keeps.faultless hf))
        hjoint.settled (hend ▸ hrest) hjoint.compiled
      exact ⟨s', following_cons_eq_ok.mpr
        (.inl ⟨.call, t, t', by rw [← hadv.previous]; exact hj, hp, ht, ht', hs'⟩)⟩

end Parts

/-! ## Expressions -/

/-- **Operands are not refused**, by induction on the number of operands that may still be
opened. -/
theorem complete_operand (levels : Nat) : Complete levels (operand levels) := by
  induction levels with
  | zero =>
    intro p s ts rest e _ _ _ _ _ _ hn _
    exact absurd hn (Nat.not_lt_zero _)
  | succ levels ih =>
    intro p s ts rest e hp ho hf hder hstop ha hn hroom
    have hs : Sound levels (operand levels) := sound_operand levels
    obtain ⟨us, d, t, hhead, heq, hchain⟩ := hder.exists_spine hstop
    obtain ⟨k, ks, rfl, hk⟩ := hhead.derives.1.exists_begins
    obtain ⟨hroom', hn'⟩ := hchain.room (c := s.chunk)
    obtain ⟨s₁, hskip⟩ := exists_repeatWhile (s := { s with depth := s.depth + 1 }) (· = .line)
      (.ok s.current :: s.unread : List (Except LexError Lexeme)) (ho.of_eq rfl rfl rfl) hf
    obtain ⟨hkeeps, hchunk, hclear, hahead⟩ :=
      skipLines_spec (s := { s with depth := s.depth + 1 }) (ho.of_eq rfl rfl rfl)
        (skipLines_eq_ok.mpr hskip)
    obtain ⟨s₂, hadv⟩ := exists_advance hkeeps.inOrder (hkeeps.faultless hf)
    have hadvanced := advanced_of_advance hkeeps.inOrder hadv
    have ha₁ : s₁.ahead true = k :: ks ++ t := by
      rw [← hahead, ← heq]
      exact ha
    have hcur := current_eq_of_ahead_eq_cons hclear ha₁
    have ha₂ : s₂.previous :: s₂.after = k :: ks ++ t := by
      rw [hadvanced.previous, ← ha₁]
      refine (hadvanced.ahead_eq_cons ?_ hclear ?_).symm <;> rw [hcur]
      · exact hk.kind_ne.2.2.2
      · exact hk.kind_ne.1
    have hchunk₂ : s₂.chunk = s.chunk := hadvanced.chunk.trans hchunk
    obtain ⟨s₃, hlead, hd, hend⟩ := exists_leading hs ih hadvanced.keeps.inOrder
      (hadvanced.keeps.faultless (hkeeps.faultless hf))
      hadvanced.settled hhead ha₂ (Nat.lt_of_le_of_lt hn' hn)
      (hchunk₂ ▸ hroom' hroom)
    obtain ⟨s₄, hfollow⟩ := exists_following hs ih (p := p)
      (.ok s₃.current :: s₃.unread : List (Except LexError Lexeme)) hd.keeps.inOrder
      (hd.keeps.faultless (hadvanced.keeps.faultless (hkeeps.faultless hf)))
      hd.settled (hend ▸ hchain) hn hd.compiled
      (hchunk₂ ▸ hroom)
    exact ⟨_, operand_succ_eq_ok.mpr ⟨s₁, s₂, s₃, s₄, skipLines_eq_ok.mpr hskip, hadv, hlead,
      hfollow, rfl⟩⟩

/-! ## Programs -/

variable {s : Compiler}

/-- A round of a program with no expression left. -/
theorem exists_round_nil {first : Bool} {α : Type} {a : α} {rounds : List α} (ho : s.InOrder)
    (hf : s.Faultless) (hg : s.groups = 0) (hp : Program (s.ahead false) []) :
    ∃ s', expressions first (a :: rounds) s = .ok () s' := by
  obtain ⟨t, ht⟩ := exists_repeatWhile isSeparator
    (.ok s.current :: s.unread : List (Except LexError Lexeme)) ho hf
  obtain ⟨hkeeps, -, hnosep, ss, -, ha⟩ := separators_spec ho hg ht
  have hset : t.Settled :=
    isDropped_eq_false hkeeps.inOrder.current fun hl => by rw [hl] at hnosep; cases hnosep
  have hk : t.current.kind = .eof := by
    by_cases hk : t.current.kind = .eof
    · exact hk
    · obtain ⟨ls, hls⟩ := exists_ahead_eq_cons hset hk
      generalize hts : s.ahead false = ts at hp
      cases hp with
      | nil hs =>
        have hsep := isSeparator_eq_true_iff.mpr (hs t.current (by rw [← hts, ha, hls]; simp))
        rw [hnosep] at hsep
        cases hsep
  exact ⟨t, expressions_cons_eq_ok.mpr ⟨t, ht, .inl ⟨hk, rfl⟩⟩⟩

/-- A round of a program with an expression for which there is room. -/
theorem exists_round (first : Bool) {α : Type} (a : α) (rounds : List α) {e : Expr} {es : List Expr}
    (ho : s.InOrder) (hf : s.Faultless) (hg : s.groups = 0) (hd : s.depth = 0)
    (hp : Program (s.ahead false) (e :: es)) (hn : e.nesting < maxDepth)
    (hroom : ∀ offset, Room (if first then s.chunk else s.chunk.push .pop offset) e) :
    ∃ offset t, Compiled (if first then s.chunk else s.chunk.push .pop offset) t.chunk e ∧
      Keeps s t ∧ t.Settled ∧
      Program (t.ahead false) es ∧
      ∀ s', expressions false rounds t = .ok () s' →
        expressions first (a :: rounds) s = .ok () s' := by
  obtain ⟨t, ht⟩ := exists_repeatWhile isSeparator
    (.ok s.current :: s.unread : List (Except LexError Lexeme)) ho hf
  obtain ⟨hkeeps, hchunk, hnosep, ss, hss, ha⟩ := separators_spec ho hg ht
  have hclear : ∀ awaited, isDropped t.groups awaited t.current.kind = false :=
    fun awaited => isDropped_eq_false hkeeps.inOrder.current fun hl => by
    rw [hl] at hnosep; cases hnosep
  generalize hts : s.ahead false = ts at hp
  cases hp with
  | @cons ss' us rest _ _ hss' hder hrest hes =>
    obtain ⟨k, ks, rfl, hk⟩ := hder.exists_begins
    have heq : t.ahead false = k :: ks ++ rest := by
      refine eq_of_separators_append_eq (fun l hl => isSeparator_eq_true_iff.mp (hss l hl)) hss' ?_
        hder.head?_not_isSeparator (ha.symm.trans hts)
      intro l hl
      obtain ⟨ls, hls⟩ := List.head?_eq_some_iff.mp hl
      rw [← current_eq_of_ahead_eq_cons (hclear false) hls, ← isSeparator_eq_true_iff, hnosep]
      exact Bool.false_ne_true
    have hcur := current_eq_of_ahead_eq_cons (hclear false) heq
    have heof : t.current.kind ≠ .eof := by
      rw [hcur]
      exact hk.kind_ne.2.2.2
    have hahead : t.ahead true = k :: ks ++ rest := by
      rw [ahead_of_not_dropped heof (hclear true), ← ahead_of_not_dropped heof (hclear false), heq]
    obtain ⟨t', ht', hr, hend⟩ := exists_recognised
      (sound_operand maxDepth) (complete_operand maxDepth) (p := .or)
      (s := { t with
        chunk := if first then t.chunk else t.chunk.push .pop t.current.start }) (by decide)
      (hkeeps.inOrder.of_eq rfl rfl rfl) (hkeeps.faultless hf)
      hder (stops_of_isSeparator hrest) hahead hn
      (by rw [hchunk]; exact hroom _)
    refine ⟨t.current.start, t', by rw [← hchunk]; exact hr.compiled,
      hkeeps.trans ⟨hr.keeps.groups, hr.keeps.depth, hr.keeps.inOrder, hr.keeps.read⟩, hr.settled,
      by rw [hend]; exact hes,
      fun s' hs' => expressions_cons_eq_ok.mpr ⟨t, ht, .inr ⟨heof, t', ?_, ?_, hs'⟩⟩⟩
    · have hdepth : t.depth = 0 := hkeeps.depth.trans hd
      rw [expression_eq_ok, show maxDepth - ({ t with chunk := _ } : Compiler).depth =
        maxDepth by rw [hdepth]; rfl]
      exact ht'
    · by_cases hk' : t'.current.kind = .eof
      · exact .inr hk'
      · obtain ⟨ls, hls⟩ := exists_ahead_eq_cons hr.settled hk'
        have hsep := hrest t'.current (by rw [← hend, hls]; rfl)
        exact .inl (isSeparator_eq_true_iff.mpr hsep)

theorem exists_expressions {α : Type} (rounds : List α) {es : List Expr} (ho : s.InOrder)
    (hf : s.Faultless) (hg : s.groups = 0) (hd : s.depth = 0) (hp : Program (s.ahead false) es)
    (hn : ∀ e ∈ es, e.nesting < maxDepth) (hroom : RoomNext s.chunk es) :
    ∃ s', expressions false rounds s = .ok () s' := by
  induction rounds generalizing s es with
  | nil => exact ⟨s, expressions_nil_eq_ok.mpr rfl⟩
  | cons a rounds ih =>
    cases es with
    | nil => exact exists_round_nil ho hf hg hp
    | cons e es =>
      obtain ⟨offset, t, hcom, hkeeps, -, hp', hgo⟩ := exists_round false a rounds ho hf
        hg hd hp (hn e (by simp)) fun offset => hroom.head offset
      obtain ⟨s', hs'⟩ := ih hkeeps.inOrder (hkeeps.faultless hf) (hkeeps.groups.trans hg)
        (hkeeps.depth.trans hd) hp'
        (fun d hmem => hn d (by simp [hmem])) (hroom.tail hcom)
      exact ⟨s', hgo s' hs'⟩

/-- **Programs are not refused** by a compiler that has written nothing. -/
theorem exists_program {α : Type} (rounds : List α) {es : List Expr} (ho : s.InOrder)
    (hf : s.Faultless) (hg : s.groups = 0) (hd : s.depth = 0) (hc : s.chunk = {})
    (hp : Program (s.ahead false) es) (hacc : Expr.Acceptable es) :
    ∃ s', expressions true rounds s = .ok () s' := by
  have hn : ∀ e ∈ es, e.nesting < maxDepth := fun e he => Nat.lt_succ_of_le (hacc.nesting e he)
  cases rounds with
  | nil => exact ⟨s, expressions_nil_eq_ok.mpr rfl⟩
  | cons a rounds =>
    cases es with
    | nil => exact exists_round_nil ho hf hg hp
    | cons e es =>
      obtain ⟨offset, t, hcom, hkeeps, -, hp', hgo⟩ := exists_round true a rounds ho hf
        hg hd hp (hn e (by simp)) fun _ => by rw [hc]; exact hacc.room
      have hcom : Compiled {} t.chunk e := by
        rw [← hc]
        exact hcom
      obtain ⟨s', hs'⟩ := exists_expressions rounds hkeeps.inOrder (hkeeps.faultless hf)
        (hkeeps.groups.trans hg)
        (hkeeps.depth.trans hd) hp' (fun d hmem => hn d (by simp [hmem])) (hacc.roomNext hcom)
      exact ⟨s', hgo s' hs'⟩

end Compiler

end LuaExpr
