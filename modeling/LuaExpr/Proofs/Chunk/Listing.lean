import LuaExpr.Chunk.Listing
import LuaExpr.Compiler
import LuaExpr.Proofs.Decimal.Digits
/-!
# Lines of listings

A listing writes a heading, an instruction at a time and the constants, and ends each of them with a
line feed. All that it writes is free of line feeds, but for one thing: the text of a constant
stands in the line of an instruction as it is. In the line of the constants the same text is quoted.

* `Text.lineFeeds`: the line feeds of a text; numbers, quoted texts and names of instructions have
  none.
* `Chunk.lineFeeds_describe`: an instruction is listed with the line feeds of the text that it
  shows.
* `Chunk.IsLinewise`: one line for the heading, each instruction and the constants.
* `Chunk.lineFeeds_listing`: the lines of a listing, and when they are one for each instruction.
-/

namespace LuaExpr

/-! ## Line feeds -/

namespace Text

variable {s t : String} {l : List String}

/-- The number of line feeds in a text. -/
def lineFeeds (s : String) : ℕ := s.toList.count '\n'

theorem lineFeeds_eq_zero : lineFeeds s = 0 ↔ '\n' ∉ s.toList := List.count_eq_zero

@[simp] theorem lineFeeds_append : lineFeeds (s ++ t) = lineFeeds s + lineFeeds t := by
  rw [lineFeeds, String.toList_append, List.count_append]
  rfl

theorem lineFeeds_join : lineFeeds (String.join l) = (l.map lineFeeds).sum := by
  rw [lineFeeds, String.toList_join, List.count_flatMap]
  rfl

/-- A text has one line feed less than parts between them. -/
theorem length_splitOn (text : List Char) : (text.splitOn '\n').length = text.count '\n' + 1 := by
  induction text with
  | nil => rfl
  | cons c text ih =>
    rw [List.splitOn_eq_splitOnP] at ih ⊢
    rw [List.splitOnP_cons_eq_if_modifyHead, List.count_cons]
    split
    · rw [List.length_cons, ih]
    · rw [List.length_modifyHead, ih, Nat.add_zero]

@[simp] theorem lineFeeds_alignRight {width : ℕ} {fill : Char} (h : fill ≠ '\n') :
    lineFeeds (alignRight width fill s) = lineFeeds s := by
  rw [alignRight, lineFeeds_append, lineFeeds, String.toList_ofList, List.count_replicate,
    if_neg (by simpa using h), Nat.zero_add]

@[simp] theorem lineFeeds_alignLeft {width : ℕ} : lineFeeds (alignLeft width s) = lineFeeds s := by
  rw [alignLeft, lineFeeds_append, Nat.add_eq_left, lineFeeds, String.toList_ofList,
    List.count_replicate]
  rfl

theorem lineFeeds_intercalate (h : ∀ s ∈ l, lineFeeds s = 0) :
    lineFeeds (", ".intercalate l) = 0 := by
  induction l with
  | nil => rfl
  | cons s l ih =>
    have hs := h s List.mem_cons_self
    have hl := ih fun t ht => h t (List.mem_cons_of_mem s ht)
    rcases eq_or_ne l [] with rfl | hne
    · rwa [String.intercalate_singleton]
    · rw [String.intercalate_cons_of_ne_nil hne, lineFeeds_append, lineFeeds_append, hs, hl]
      rfl

/-- Lines that are ended by line feeds are found again between them. -/
theorem splitOn_join (h : ∀ s ∈ l, lineFeeds s = 0) :
    (String.join (l.map (· ++ "\n"))).toList.splitOn '\n' = l.map String.toList ++ [[]] := by
  have htext : (String.join (l.map (· ++ "\n"))).toList =
      ['\n'].intercalate (l.map String.toList ++ [[]]) := by
    induction l with
    | nil => rfl
    | cons s l ih =>
      have hne : l.map String.toList ++ [[]] ≠ [] := by simp
      obtain ⟨front, rest, hrest⟩ := List.exists_cons_of_ne_nil hne
      have hl := ih fun t ht => h t (List.mem_cons_of_mem s ht)
      rw [String.toList_join] at hl ⊢
      rw [List.map_cons, List.map_cons, List.flatMap_cons, hl, List.cons_append, hrest,
        List.intercalate_cons_cons, String.toList_append]
      rfl
  rw [htext, List.splitOn_intercalate '\n' ?_ (by simp)]
  intro line hline
  rcases List.mem_append.mp hline with hline | hline
  · obtain ⟨s, hs, rfl⟩ := List.mem_map.mp hline
    exact lineFeeds_eq_zero.mp (h s hs)
  · rw [List.mem_singleton.mp hline]
    exact List.not_mem_nil

/-- The digits of a number are no line feeds, whatever the base is. -/
theorem lineFeed_notMem_toDigits {b : ℕ} (hb : 1 < b) (n : ℕ) : '\n' ∉ Nat.toDigits b n := by
  have hdigit : ∀ n : ℕ, '\n' ≠ n.digitChar := by grind [Nat.digitChar]
  induction n using Nat.strong_induction_on with
  | _ n ih =>
    rw [Nat.toDigits_eq_if hb]
    split
    · rw [List.mem_singleton]
      exact hdigit n
    · rename_i h
      have hpos : 0 < n := by omega
      rw [List.mem_append, List.mem_singleton, not_or]
      exact ⟨ih _ (Nat.div_lt_self hpos hb), hdigit _⟩

@[simp] theorem lineFeeds_toString (n : ℕ) : lineFeeds (toString n) = 0 := by
  rw [lineFeeds_eq_zero, Nat.toString_eq_repr, Nat.toList_repr]
  exact lineFeed_notMem_toDigits (by norm_num) n

/-- Nothing that a quoted text writes is a line feed. -/
theorem lineFeed_notMem_quotedChar (c : Char) : '\n' ∉ quotedChar c := by
  unfold quotedChar
  split
  · decide
  split
  · decide
  split
  · decide
  split
  · decide
  split
  · decide
  split
  · decide
  split
  · have hdigits := lineFeed_notMem_toDigits (b := 16) (by norm_num) c.toNat
    simpa using hdigits
  · simpa using Ne.symm ‹¬c = '\n'›

theorem lineFeeds_quoted (s : String) : lineFeeds (quoted s) = 0 := by
  rw [lineFeeds_eq_zero, quoted, String.toList_ofList]
  simp [List.mem_flatMap, lineFeed_notMem_quotedChar]

end Text

/-! ## Numbers -/

namespace Decimal

theorem mem_of_mem_trimFraction {c : Char} {text : List Char} (h : c ∈ trimFraction text) :
    c ∈ text := by
  rw [trimFraction] at h
  split at h
  · have hdrop := List.mem_reverse.mp h
    exact List.mem_reverse.mp ((List.dropWhile_suffix _).subset
      ((List.dropWhile_suffix _).subset hdrop))
  · exact h

theorem isDigit_or_point_of_mem_fixed {c : Char} {places n d : ℕ} (h : c ∈ fixed places n d) :
    c.isDigit = true ∨ c = '.' := by
  have hdigits : ∀ digits : List Char, digits ⊆ padded (places + 1) (roundAt (-places) n d) →
      c ∈ digits →
      c.isDigit = true := fun digits hsub hc => isDigit_of_mem_padded (hsub hc)
  simp only [fixed] at h
  split at h
  · exact .inl (hdigits _ (List.take_subset _ _) h)
  · rcases List.mem_append.mp h with h | h
    · exact .inl (hdigits _ (List.take_subset _ _) h)
    · rcases List.mem_cons.mp h with rfl | h
      · exact .inr rfl
      · exact .inl (hdigits _ (List.drop_subset _ _) h)

theorem lineFeed_notMem_general (n d : ℕ) : '\n' ∉ general n d := by
  have hfixed : ∀ places n d, '\n' ∉ trimFraction (fixed places n d) := by
    intro places n d h
    rcases isDigit_or_point_of_mem_fixed (mem_of_mem_trimFraction h) with h | h <;> cases h
  have hpadded : ∀ k : ℕ, '\n' ∉ padded 2 k := fun k h => by cases isDigit_of_mem_padded h
  unfold general
  split
  · decide
  · simp only
    split
    · exact hfixed _ _ _
    · split <;> simp [hfixed, hpadded]

end Decimal

theorem Binary64.lineFeeds_display (n : Binary64) : Text.lineFeeds n.display = 0 := by
  cases n with
  | nan s => cases s <;> decide
  | infinite s => cases s <;> decide
  | finite s m q h =>
    rw [Text.lineFeeds_eq_zero]
    simp only [display, String.toList_ofList]
    have hgeneral := Decimal.lineFeed_notMem_general (ratio m q).1 (ratio m q).2
    cases s <;> simpa using hgeneral

theorem Value.lineFeeds_display {v : Value} (h : ∀ s, v ≠ .string s) :
    Text.lineFeeds v.display = 0 := by
  cases v with
  | nil => decide
  | bool b => cases b <;> decide
  | number n => exact n.lineFeeds_display
  | string s => exact absurd rfl (h s)

theorem Op.lineFeeds_name (op : Op) : Text.lineFeeds op.name = 0 := by
  cases op with
  | unary op => cases op <;> decide
  | binary op => cases op <;> decide
  | _ =>
    simp only [Op.name]
    decide

/-! ## Lines of instructions -/

namespace Chunk

open Text

variable {c : Chunk} {name : String} {source? : Option String}

/-- The text that a listing shows for an instruction between apostrophes, and the empty text if
there is none. -/
def shownText (c : Chunk) : Op → String
  | .constant slot | .global slot => ((c.constant? slot).bind Value.text?).getD ""
  | _ => ""

theorem lineFeeds_describeConstant (c : Chunk) (slot : UInt8) :
    lineFeeds (c.describeConstant slot) =
      lineFeeds (((c.constant? slot).bind Value.text?).getD "") := by
  rw [describeConstant]
  cases c.constant? slot with
  | none => decide
  | some v =>
    cases v with
    | string s =>
      show lineFeeds ("'" ++ s ++ "'") = lineFeeds s
      rw [lineFeeds_append, lineFeeds_append]
      exact Nat.zero_add _
    | _ => exact Value.lineFeeds_display (by simp)

theorem lineFeeds_column (n : ℕ) : lineFeeds (column n) = 0 := by
  rw [column, lineFeeds_alignRight (by decide), lineFeeds_toString]

/-- **An instruction is listed with the line feeds of the text that it shows.** -/
theorem lineFeeds_describe (c : Chunk) (op : Op) :
    lineFeeds (c.describe op) = lineFeeds (c.shownText op) := by
  have hhead : ∀ n, lineFeeds (alignLeft 16 op.name ++ " " ++ column n) = 0 := by
    intro n
    simp only [lineFeeds_append, lineFeeds_alignLeft, op.lineFeeds_name, lineFeeds_column]
    rfl
  have hconstant : ∀ slot n,
      lineFeeds (alignLeft 16 op.name ++ " " ++ column n ++ " " ++ c.describeConstant slot) =
      lineFeeds (((c.constant? slot).bind Value.text?).getD "") := by
    intro slot n
    rw [lineFeeds_append, lineFeeds_append, hhead, lineFeeds_describeConstant]
    exact Nat.zero_add _
  cases op with
  | constant slot => exact hconstant slot _
  | global slot => exact hconstant slot _
  | call arguments => exact hhead _
  | jumpIfFalse target => exact hhead _
  | jump target => exact hhead _
  | _ => exact Op.lineFeeds_name _

theorem length_places (code : List Instruction) : (places source? code).length = code.length := by
  cases source? with
  | none => simp [places]
  | some source => simp [places]

theorem lineFeeds_of_mem_places {code : List Instruction} {place : String}
    (h : place ∈ places source? code) :
    lineFeeds place = 0 := by
  cases source? with
  | none =>
    obtain ⟨i, -, rfl⟩ := List.mem_map.mp h
    exact lineFeeds_column _
  | some source =>
    obtain ⟨⟨line, above?⟩, -, rfl⟩ := List.mem_map.mp h
    show lineFeeds (if above? = some line then "   |" else column line) = 0
    split
    · decide
    · exact lineFeeds_column _

/-! ## Lines of chunks -/

/-- The texts that a listing has for the instructions. -/
def rows (c : Chunk) (source? : Option String) : List String :=
  ((places source? c.code.toList).zip c.code.toList).zipIdx.map fun p =>
    alignRight 4 '0' (toString p.2) ++ " " ++ p.1.1 ++ " " ++ c.describe p.1.2.op

/-- The line of the constants, if there are any. -/
def constantLine (c : Chunk) : List String :=
  if c.constants.isEmpty then []
  else ["constants: [" ++ ", ".intercalate
    (c.constants.toList.map fun v => quoted v.display) ++ "]"]

theorem listingLines_eq (c : Chunk) (name : String) (source? : Option String) :
    c.listingLines name source? = ("== " ++ name ++ " ==") :: (c.rows source? ++ c.constantLine) :=
  rfl

theorem length_rows : (c.rows source?).length = c.code.size := by
  simp [rows, length_places]

theorem length_constantLine : c.constantLine.length = if c.constants.isEmpty then 0 else 1 := by
  rw [constantLine]
  split <;> rfl

/-- The row of an instruction begins with its index. -/
theorem prefix_of_getElem?_rows {k : ℕ} {row : String} (h : (c.rows source?)[k]? = some row) :
    (alignRight 4 '0' (toString k) ++ " ").toList <+: row.toList := by
  simp only [rows, List.getElem?_map, List.getElem?_zipIdx, Option.map_map,
    Option.map_eq_some_iff] at h
  obtain ⟨p, -, rfl⟩ := h
  simp [String.toList_append, List.append_assoc]

/-- A row has the line feeds of the text that its instruction shows. -/
theorem map_lineFeeds_rows :
    (c.rows source?).map lineFeeds = c.code.toList.map fun i => lineFeeds (c.shownText i.op) := by
  refine List.ext_getElem (by simp [length_rows]) fun k h _ => ?_
  have hk : k < (places source? c.code.toList).length := by
    simpa [length_places, length_rows] using h
  have hplace : lineFeeds (places source? c.code.toList)[k] = 0 :=
    lineFeeds_of_mem_places (List.getElem_mem hk)
  have hfill : lineFeeds (alignRight 4 '0' (toString k)) = 0 := by
    rw [lineFeeds_alignRight (by decide), lineFeeds_toString]
  have hspace : lineFeeds " " = 0 := rfl
  simp only [rows, List.getElem_map, List.getElem_zipIdx, List.getElem_zip, Nat.zero_add,
    lineFeeds_append, hfill, hspace, hplace, lineFeeds_describe]

theorem lineFeeds_of_mem_constantLine {line : String} (h : line ∈ c.constantLine) :
    lineFeeds line = 0 := by
  rw [constantLine] at h
  split at h
  · cases h
  · rw [List.mem_singleton.mp h, lineFeeds_append, lineFeeds_append, lineFeeds_intercalate]
    · rfl
    · intro s hs
      obtain ⟨v, -, rfl⟩ := List.mem_map.mp hs
      exact lineFeeds_quoted _

/-- A text that has one line for a heading with the name, one for each instruction in order, which
begins with its index, and one for the constants if and only if there are any; nothing stands behind
the last line. -/
def IsLinewise (c : Chunk) (name : String) (text : String) : Prop :=
  ∃ instructions constants : List (List Char),
    text.toList.splitOn '\n' =
        ("== " ++ name ++ " ==").toList :: (instructions ++ constants) ++ [[]] ∧
      instructions.length = c.code.size ∧
      (∀ (k : ℕ) (line : List Char), instructions[k]? = some line →
        (alignRight 4 '0' (toString k) ++ " ").toList <+: line) ∧
      constants.length = if c.constants.isEmpty then 0 else 1

/-- A listing has the line feeds that end its lines, and those of the texts that it shows. -/
theorem lineFeeds_listing (c : Chunk) (hname : '\n' ∉ name.toList) (source? : Option String) :
    lineFeeds (c.listing name source?) =
      1 + (c.code.size + (c.code.toList.map fun i => lineFeeds (c.shownText i.op)).sum) +
      (if c.constants.isEmpty then 0 else 1) := by
  have hends : ∀ lines : List String, lineFeeds (String.join (lines.map (· ++ "\n"))) =
      lines.length + (lines.map lineFeeds).sum := by
    intro lines
    rw [lineFeeds_join, List.map_map]
    induction lines with
    | nil => rfl
    | cons line lines ih =>
      have hend : (lineFeeds ∘ (· ++ "\n")) line = lineFeeds line + 1 := lineFeeds_append
      rw [List.map_cons, List.sum_cons, ih, hend, List.map_cons, List.sum_cons, List.length_cons]
      omega
  have hheading : lineFeeds ("== " ++ name ++ " ==") = 0 := by
    rw [lineFeeds_append, lineFeeds_append, lineFeeds_eq_zero.mpr hname]
    rfl
  have hconstants : (c.constantLine.map lineFeeds).sum = 0 :=
    List.sum_eq_zero fun n hn => by
      obtain ⟨line, hline, rfl⟩ := List.mem_map.mp hn
      exact lineFeeds_of_mem_constantLine hline
  rw [listing, hends, listingLines_eq, List.length_cons, List.length_append, length_rows,
    length_constantLine, List.map_cons, List.sum_cons, List.map_append, List.sum_append, hheading,
    map_lineFeeds_rows, hconstants]
  omega

/-- **The lines of a listing** under a name of one line, with or without a source. There is one for
the heading, one for the constants if there are any, and for each instruction one and as many more
as there are line feeds in the text that it shows. So the instructions have one line each if and
only if none of them shows a text with a line feed. -/
theorem isLinewise_listing_iff (c : Chunk) (name : String) (hname : '\n' ∉ name.toList)
    (source? : Option String) :
    lineFeeds (c.listing name source?) =
        1 + (c.code.size + (c.code.toList.map fun i => lineFeeds (c.shownText i.op)).sum) +
        (if c.constants.isEmpty then 0 else 1) ∧
      (c.IsLinewise name (c.listing name source?) ↔
        ∀ i ∈ c.code, '\n' ∉ (c.shownText i.op).toList) := by
  have hcount := c.lineFeeds_listing hname source?
  refine ⟨hcount, ?_, fun h => ?_⟩
  · rintro ⟨instructions, constants, hsplit, hinstructions, -, hconstants⟩ i hi
    -- the number of lines leaves no room for more line feeds
    have hlength := length_splitOn (c.listing name source?).toList
    rw [hsplit, List.length_append, List.length_cons, List.length_append, hinstructions,
      hconstants] at hlength
    have hsum : (c.code.toList.map fun i => lineFeeds (c.shownText i.op)).sum = 0 := by
      change _ = lineFeeds _ + 1 at hlength
      rw [hcount, List.length_singleton] at hlength
      omega
    exact lineFeeds_eq_zero.mp (List.sum_eq_zero_iff.mp hsum _
      (List.mem_map_of_mem (Array.mem_toList_iff.mpr hi)))
  · have hlines : ∀ line ∈ c.listingLines name source?, lineFeeds line = 0 := by
      intro line hline
      rw [listingLines_eq, List.mem_cons, List.mem_append] at hline
      rcases hline with rfl | hrow | hconstant
      · rw [lineFeeds_append, lineFeeds_append, lineFeeds_eq_zero.mpr hname]
        rfl
      · have hmem := List.mem_map_of_mem (f := lineFeeds) hrow
        rw [map_lineFeeds_rows] at hmem
        obtain ⟨i, hi, heq⟩ := List.mem_map.mp hmem
        exact heq.symm.trans (lineFeeds_eq_zero.mpr (h i (Array.mem_toList_iff.mp hi)))
      · exact lineFeeds_of_mem_constantLine hconstant
    refine ⟨(c.rows source?).map String.toList, c.constantLine.map String.toList,
      ?_, by rw [List.length_map, length_rows], fun k line hk => ?_, by
      rw [List.length_map, length_constantLine]⟩
    · rw [listing, splitOn_join hlines, listingLines_eq, List.map_cons, List.map_append]
    · rw [List.getElem?_map, Option.map_eq_some_iff] at hk
      obtain ⟨row, hrow, rfl⟩ := hk
      exact prefix_of_getElem?_rows hrow

/-- Two lines of a source, an instruction in each, and a constant that has to be quoted. -/
theorem isLinewise_listing_quoted :
    let c : Chunk := { code := #[⟨.constant 0, 0⟩, ⟨.global 1, 7⟩, ⟨.binary .concat, 4⟩],
                       constants := #[.string "a\"", .string "x"] }
    c.IsLinewise "test" (c.listing "test" (some "'a'\n.. x")) := by
  intro c
  refine (isLinewise_listing_iff c "test" (by decide) _).2.mpr fun i hi => ?_
  have hcode : i = ⟨.constant 0, 0⟩ ∨ i = ⟨.global 1, 7⟩ ∨ i = ⟨.binary .concat, 4⟩ := by
    simpa [c] using hi
  rcases hcode with rfl | rfl | rfl <;> decide

/-- A literal denotes a text with a line feed: its instruction is listed in two lines, and the
constants in one. -/
theorem not_isLinewise_listing_lineFeed :
    let c : Chunk := { code := #[⟨.constant 0, 0⟩], constants := #[.string "a\nb"] }
    compile "'a\\nb'" = .ok c ∧ '\n' ∉ "test".toList ∧
      c.listing "test" none =
        "== test ==\n0000    0 OP_CONSTANT         0 'a\nb'\nconstants: [\"a\\nb\"]\n" ∧
      ¬ c.IsLinewise "test" (c.listing "test" none) := by
  intro c
  have htext : c.listing "test" none =
      "== test ==\n0000    0 OP_CONSTANT         0 'a\nb'\nconstants: [\"a\\nb\"]\n" := by
    cbv
  refine ⟨by cbv, by decide, htext, ?_⟩
  rintro ⟨instructions, constants, hsplit, hinstructions, -, hconstants⟩
  have hlength := length_splitOn (c.listing "test" none).toList
  rw [hsplit, htext, List.length_append, List.length_cons, List.length_append, hinstructions,
    hconstants] at hlength
  exact absurd hlength (by decide)

end Chunk

end LuaExpr
