import LuaExpr.Proofs.Binary64.Bits
import LuaExpr.Proofs.Chunk.Pool
/-!
# Interning

A chunk is asked for the slots of literals, again and again for the same ones. The interner notes
each slot that it has given, so that it has to search neither its texts nor the pool: texts have
ids, and slots are noted by the id of a text or by the bit pattern of a number. A text has its id
before the pool may turn out to be full, so that there are ids without a slot.

* `TextStore`: what an interner relies on for its texts.
* `Interner`, `TextStore.request`: the interner, and what it does with a literal.
* `Literal.slot?`: the slot of a literal by its place among the distinct ones, in the order of their
  first requests.
* `TextStore.Serves`: what the notes and the pool hold after some requests;
  `TextStore.Serves.request`: so it is after one more.
* `TextStore.answers_start`: all answers, the pool, what a refusal changes, and that searching the
  pool does the same.
-/

namespace LuaExpr

/-! ## Literals -/

/-- What a slot is asked for: a text, or the number with a bit pattern. -/
inductive Literal where
  /-- A text. -/
  | string (text : String)
  /-- A number, by its bit pattern. -/
  | number (bits : UInt64)
deriving DecidableEq

/-- The constant of a literal. -/
def Literal.value : Literal → Value
  | string text => .string text
  | number bits => .number (.ofBits bits)

/-- The literal of a string or a number. -/
def Value.literal? : Value → Option Literal
  | string text => some (.string text)
  | number n => some (.number n.toBits)
  | nil | bool _ => none

theorem Literal.value_eq {v : Value} {l : Literal} (h : v.literal? = some l) : l.value = v := by
  cases v with
  | string text =>
    cases h
    rfl
  | number n =>
    cases h
    exact congrArg Value.number n.ofBits_toBits
  | nil => cases h
  | bool b => cases h

namespace Literal

variable {requests : List Literal} {l l' : Literal}

/-! ## Places among the distinct literals -/

theorem eraseDups_concat_of_mem (h : l ∈ requests) :
    (requests ++ [l]).eraseDups = requests.eraseDups := by
  rw [List.eraseDups_append]
  simp [List.removeAll, h]

theorem eraseDups_concat_of_notMem (h : l ∉ requests) :
    (requests ++ [l]).eraseDups = requests.eraseDups ++ [l] := by
  rw [List.eraseDups_append]
  simp [List.removeAll, h, List.eraseDups_cons]

theorem nodup_eraseDups (requests : List Literal) : requests.eraseDups.Nodup := by
  induction requests using List.reverseRecOn with
  | nil => exact .nil
  | append_singleton requests l ih =>
    by_cases h : l ∈ requests
    · rwa [eraseDups_concat_of_mem h]
    · rw [eraseDups_concat_of_notMem h, ← List.concat_eq_append]
      exact ih.concat (by rwa [List.mem_eraseDups])

theorem eraseDups_of_nodup (h : requests.Nodup) : requests.eraseDups = requests := by
  induction requests using List.reverseRecOn with
  | nil => rfl
  | append_singleton requests l ih =>
    obtain ⟨hrequests, -, hl⟩ := List.nodup_append.mp h
    have hl : l ∉ requests := fun hmem => hl l hmem l (by simp) rfl
    rw [eraseDups_concat_of_notMem hl, ih hrequests]

/-- Further requests do not change the place of a literal. -/
theorem idxOf_append (h : l ∈ requests) (more : List Literal) :
    (requests ++ more).eraseDups.idxOf l = requests.eraseDups.idxOf l := by
  rw [List.eraseDups_append, List.idxOf_append_of_mem (List.mem_eraseDups.mpr h)]

/-- A new literal comes behind all others. -/
theorem idxOf_of_notMem (h : l ∉ requests) :
    requests.eraseDups.idxOf l = requests.eraseDups.length :=
  List.idxOf_of_notMem (by rwa [List.mem_eraseDups])

theorem idxOf_concat (requests : List Literal) (l : Literal) :
    (requests ++ [l]).eraseDups.idxOf l = requests.eraseDups.idxOf l := by
  by_cases h : l ∈ requests
  · exact idxOf_append h [l]
  · rw [eraseDups_concat_of_notMem h, List.idxOf_append_of_notMem (by rwa [List.mem_eraseDups]),
      idxOf_of_notMem h]
    simp

/-! ## Slots -/

/-- The slot of a literal: its place among the distinct literals of some requests, or the next place
if it is not among them; `none` if a byte cannot name the place. -/
def slot? (requests : List Literal) (l : Literal) : Option UInt8 :=
  if requests.eraseDups.idxOf l ≤ 255 then some (UInt8.ofNat (requests.eraseDups.idxOf l)) else none

/-- The slot that a literal has got from some requests. -/
def given? (requests : List Literal) (l : Literal) : Option UInt8 :=
  if l ∈ requests then slot? requests l else none

/-- The constants of the literals that have got a slot. -/
def pool (requests : List Literal) : List Value := (requests.eraseDups.take 256).map value

theorem slot?_append (h : l ∈ requests) (more : List Literal) :
    slot? (requests ++ more) l = slot? requests l := by
  rw [slot?, slot?, idxOf_append h]

theorem slot?_concat (requests : List Literal) (l : Literal) :
    slot? (requests ++ [l]) l = slot? requests l := by
  rw [slot?, slot?, idxOf_concat]

/-- When all slots are taken, further requests change no answer. -/
theorem slot?_append_of_full (h : 256 ≤ requests.eraseDups.length) (more : List Literal)
    (l : Literal) :
    slot? (requests ++ more) l = slot? requests l := by
  by_cases hl : l ∈ requests
  · exact slot?_append hl more
  · have hnew := idxOf_of_notMem hl
    have hlater : requests.eraseDups.length ≤ (requests ++ more).eraseDups.idxOf l := by
      rw [List.eraseDups_append, List.idxOf_append_of_notMem (by rwa [List.mem_eraseDups])]
      exact Nat.le_add_right _ _
    rw [slot?, slot?, if_neg (by omega), if_neg (by omega)]

theorem given?_concat_self (requests : List Literal) (l : Literal) :
    given? (requests ++ [l]) l = slot? requests l := by
  rw [given?, if_pos (by simp), slot?_concat]

theorem given?_concat_of_ne (requests : List Literal) (h : l' ≠ l) :
    given? (requests ++ [l]) l' = given? requests l' := by
  by_cases hl : l' ∈ requests
  · rw [given?, given?, if_pos hl, if_pos (by simp [hl]), slot?_append hl]
  · rw [given?, given?, if_neg hl, if_neg (by simp [hl, h])]

theorem length_pool (requests : List Literal) :
    (pool requests).length = min 256 requests.eraseDups.length := by
  rw [pool, List.length_map, List.length_take]

theorem pool_concat_of_mem (h : l ∈ requests) : pool (requests ++ [l]) = pool requests := by
  rw [pool, pool, eraseDups_concat_of_mem h]

theorem pool_concat_of_room (h : l ∉ requests) (hroom : requests.eraseDups.length ≤ 255) :
    pool (requests ++ [l]) = pool requests ++ [l.value] := by
  rw [pool, pool, eraseDups_concat_of_notMem h, List.take_of_length_le (by simp; omega),
    List.take_of_length_le (by omega), List.map_append]
  rfl

theorem pool_concat_of_full (h : 256 ≤ requests.eraseDups.length) :
    pool (requests ++ [l]) = pool requests := by
  rw [pool, pool, List.eraseDups_append, List.take_append_of_le_length h]

/-! ## Literals of values -/

theorem value_inj {r : Literal} {v w : Value} (hv : v.literal? = some l) (hw : w.literal? = some r)
    (h : l.value = r.value) : l = r := by
  rw [value_eq hv, value_eq hw] at h
  rw [h, hw] at hv
  exact (Option.some.inj hv).symm

section Values

variable {v : Value} (h : ∀ r ∈ requests, ∃ w : Value, w.literal? = some r)
include h

theorem nodup_pool : (pool requests).Nodup := by
  refine List.Nodup.map_on (fun r hr r' hr' heq => ?_)
    ((nodup_eraseDups requests).sublist (List.take_sublist _ _))
  obtain ⟨w, hw⟩ := h r (List.mem_eraseDups.mp (List.mem_of_mem_take hr))
  obtain ⟨w', hw'⟩ := h r' (List.mem_eraseDups.mp (List.mem_of_mem_take hr'))
  exact value_inj hw hw' heq

theorem mem_pool (hv : v.literal? = some l) :
    v ∈ pool requests ↔ l ∈ requests ∧ requests.eraseDups.idxOf l ≤ 255 := by
  constructor
  · intro hmem
    obtain ⟨r, hr, hvalue⟩ := List.mem_map.mp hmem
    have hdistinct := List.mem_of_mem_take hr
    obtain ⟨w, hw⟩ := h r (List.mem_eraseDups.mp hdistinct)
    obtain rfl : l = r := value_inj hv hw ((value_eq hv).trans hvalue.symm)
    exact ⟨List.mem_eraseDups.mp hdistinct,
      Nat.lt_succ_iff.mp ((List.mem_take_iff_idxOf_lt hdistinct).mp hr)⟩
  · rintro ⟨hl, hi⟩
    have hdistinct := List.mem_eraseDups.mpr hl
    exact List.mem_map.mpr ⟨l, (List.mem_take_iff_idxOf_lt hdistinct).mpr (Nat.lt_succ_iff.mpr hi),
      value_eq hv⟩

theorem idxOf_pool (hv : v.literal? = some l) (hl : l ∈ requests)
    (hi : requests.eraseDups.idxOf l ≤ 255) :
    (pool requests).idxOf v = requests.eraseDups.idxOf l := by
  have hget : (pool requests)[requests.eraseDups.idxOf l]? = some v := by
    rw [pool, List.getElem?_map, List.getElem?_take, if_pos (Nat.lt_succ_iff.mpr hi),
      List.getElem?_idxOf (List.mem_eraseDups.mpr hl), Option.map_some, value_eq hv]
  obtain ⟨hlt, hget⟩ := List.getElem?_eq_some_iff.mp hget
  rw [← hget, (nodup_pool h).idxOf_getElem]

/-- The slot that a literal has got is the place of its constant in the pool. -/
theorem given?_eq_findIdx? {c : Chunk} (hc : c.constants.toList = pool requests)
    (hv : v.literal? = some l) :
    given? requests l = (c.constants.findIdx? (· = v)).map UInt8.ofNat := by
  cases hfind : c.constants.findIdx? (· = v) with
  | none =>
    have hnot := Chunk.findIdx?_eq_none hfind
    rw [hc, mem_pool h hv, not_and] at hnot
    by_cases hl : l ∈ requests
    · rw [given?, if_pos hl, slot?, if_neg (hnot hl)]
      rfl
    · rw [given?, if_neg hl]
      rfl
  | some i =>
    obtain ⟨hmem, rfl⟩ := Chunk.findIdx?_eq_some hfind
    rw [hc] at hmem ⊢
    obtain ⟨hl, hi⟩ := (mem_pool h hv).mp hmem
    rw [given?, if_pos hl, slot?, if_pos hi, idxOf_pool h hv hl hi]
    rfl

end Values

end Literal

open Literal (slot? given? pool)

/-! ## Noted slots -/

/-- Slots that have been noted, by key. -/
abbrev Slots (κ : Type) := List (κ × UInt8)

namespace Slots

variable {κ : Type} [DecidableEq κ]

/-- Asks for the slot of a key: the one that is noted, or else that of a constant which joins the
chunk. There is none if the chunk has no room for the constant. -/
def ask (slots : Slots κ) (key : κ) (v : Value) (c : Chunk) : Option UInt8 × Slots κ × Chunk :=
  match slots.lookup key with
  | some slot => (some slot, slots, c)
  | none =>
    match c.addConstant? v with
    | some (slot, c') => (some slot, (key, slot) :: slots, c')
    | none => (none, slots, c)

variable {slots : Slots κ} {key : κ} {v : Value} {c : Chunk} {requests : List Literal} {l : Literal}

theorem ask_of_some {slot : UInt8} (h : slots.lookup key = some slot) :
    slots.ask key v c = (some slot, slots, c) := by
  rw [ask, h]

theorem ask_of_room (h : slots.lookup key = none) (hroom : c.constants.size < Chunk.maxConstants) :
    slots.ask key v c = (some (UInt8.ofNat c.constants.size),
      (key, UInt8.ofNat c.constants.size) :: slots,
      { c with constants := c.constants.push v }) := by
  rw [ask, h, Chunk.addConstant?, if_pos hroom]

theorem ask_of_full (h : slots.lookup key = none) (hfull : Chunk.maxConstants ≤ c.constants.size) :
    slots.ask key v c = (none, slots, c) := by
  rw [ask, h, Chunk.addConstant?, if_neg (Nat.not_lt.mpr hfull)]

/-- Searching the pool does the same, if the notes say what the pool holds. -/
theorem slotOf?_eq_ask (h : slots.lookup key = (c.constants.findIdx? (· = v)).map UInt8.ofNat) :
    c.slotOf? v = (slots.ask key v c).1.map fun slot => (slot, (slots.ask key v c).2.2) := by
  rw [Chunk.slotOf?, ask, h]
  cases c.constants.findIdx? (· = v) with
  | some i => rfl
  | none =>
    cases hadd : c.addConstant? v with
    | some r => rfl
    | none => rfl

/-- What is to be said of the answer to a literal, of the notes and of the chunk after it. -/
structure Asked (requests : List Literal) (l : Literal) (slots : Slots κ) (key : κ) (c : Chunk)
    (r : Option UInt8 × Slots κ × Chunk) : Prop where
  answer : r.1 = slot? requests l
  constants : r.2.2.constants.toList = pool (requests ++ [l])
  noted : ∀ k, r.2.1.lookup k = if k = key then slot? requests l else slots.lookup k
  refused : r.1 = none → r.2.2 = c

/-- **Asking for a literal** by a key whose note is the slot that the literal has got. -/
theorem asked_ask (hc : c.constants.toList = pool requests)
    (hk : slots.lookup key = given? requests l) :
    Asked requests l slots key c (slots.ask key l.value c) := by
  have hsize : c.constants.size = min 256 requests.eraseDups.length := by
    rw [← Array.length_toList, hc, Literal.length_pool]
  have hsame : ∀ k, slots.lookup key = slot? requests l →
      slots.lookup k = if k = key then slot? requests l else slots.lookup k := by
    intro k h
    split
    · rw [‹k = key›, h]
    · rfl
  by_cases hl : l ∈ requests
  · -- a literal that has been asked for before: its slot is noted, or the pool was full then
    -- and is full still
    rw [given?, if_pos hl] at hk
    have hpool := Literal.pool_concat_of_mem hl
    by_cases hi : requests.eraseDups.idxOf l ≤ 255
    · have hslot : slot? requests l = some (UInt8.ofNat (requests.eraseDups.idxOf l)) := if_pos hi
      rw [ask_of_some (hk.trans hslot)]
      exact ⟨hslot.symm, hpool ▸ hc, fun k => hsame k hk, fun h => by cases h⟩
    · have hnone : slot? requests l = none := if_neg hi
      have hlt := List.idxOf_lt_length_of_mem (List.mem_eraseDups.mpr hl)
      rw [ask_of_full (hk.trans hnone) (by rw [hsize, Chunk.maxConstants]; omega)]
      exact ⟨hnone.symm, hpool ▸ hc, fun k => hsame k hk, fun _ => rfl⟩
  · -- a new literal
    rw [given?, if_neg hl] at hk
    have hnew := Literal.idxOf_of_notMem hl
    by_cases hroom : requests.eraseDups.length ≤ 255
    · have hsize : c.constants.size = requests.eraseDups.length := by omega
      have hslot : slot? requests l = some (UInt8.ofNat c.constants.size) := by
        rw [slot?, hnew, if_pos hroom, hsize]
      rw [ask_of_room hk (by rw [hsize, Chunk.maxConstants]; omega)]
      refine ⟨hslot.symm, ?_, fun k => ?_, fun h => by cases h⟩
      · rw [Literal.pool_concat_of_room hl hroom, ← hc]
        simp
      · rw [List.lookup_cons, hslot]
        by_cases hkey : k = key
        · simp [hkey]
        · rw [if_neg hkey, beq_false_of_ne hkey]
    · have hnone : slot? requests l = none := by rw [slot?, hnew, if_neg hroom]
      rw [ask_of_full hk (by rw [hsize, Chunk.maxConstants]; omega)]
      have hpool : pool (requests ++ [l]) = pool requests := Literal.pool_concat_of_full (by omega)
      exact ⟨hnone.symm, hpool ▸ hc, fun k => hsame k (hk.trans hnone.symm), fun _ => rfl⟩

end Slots

/-! ## The interner -/

/-- A store of texts, each of which has an id from the first time on that it is interned. Ids never
run out. -/
structure TextStore (σ ι : Type) where
  /-- The store without texts. -/
  empty : σ
  /-- The id of a text, and the store with it. -/
  intern : σ → String → ι × σ
  /-- The text of an id. -/
  text? : σ → ι → Option String
  /-- An id stands for the text that has been interned. -/
  text?_intern : ∀ s text, text? (intern s text).2 (intern s text).1 = some text
  /-- The ids of other texts stand for what they stood for. -/
  text?_intern_of_ne : ∀ s text id, id ≠ (intern s text).1 → text? (intern s text).2 id = text? s id
  /-- A text is interned once. -/
  intern_of_text? : ∀ s text id, text? s id = some text → (intern s text).1 = id
  /-- No text gets the id of another one. -/
  eq_of_text?_intern : ∀ s text other, text? s (intern s text).1 = some other → other = text

/-- The texts that have been interned, the slots that have been noted, and the chunk. -/
structure Interner (σ ι : Type) where
  texts : σ
  textSlots : Slots ι := []
  numberSlots : Slots UInt64 := []
  chunk : Chunk := {}

namespace TextStore

variable {σ ι : Type} [DecidableEq ι] (store : TextStore σ ι)

/-- The interner before all requests. -/
def start : Interner σ ι := { texts := store.empty }

/-- Asks for the slot of a literal. A text is interned first. -/
def request (t : Interner σ ι) : Literal → Option UInt8 × Interner σ ι
  | .string text =>
    let (id, texts) := store.intern t.texts text
    let (slot?, textSlots, chunk) := t.textSlots.ask id (.string text) t.chunk
    (slot?, { t with texts, textSlots, chunk })
  | .number bits =>
    let (slot?, numberSlots, chunk) := t.numberSlots.ask bits (.number (.ofBits bits)) t.chunk
    (slot?, { t with numberSlots, chunk })

/-- The interner after some requests. -/
def after (t : Interner σ ι) (requests : List Literal) : Interner σ ι :=
  requests.foldl (fun t l => (store.request t l).2) t

/-- The answers to some requests. -/
def answers (t : Interner σ ι) : List Literal → List (Option UInt8)
  | [] => []
  | l :: requests => (store.request t l).1 :: answers (store.request t l).2 requests

/-- What the interner holds after some requests. -/
structure Serves (requests : List Literal) (t : Interner σ ι) : Prop where
  constants : t.chunk.constants.toList = pool requests
  numbers : ∀ bits, t.numberSlots.lookup bits = given? requests (.number bits)
  known : ∀ text, .string text ∈ requests → ∃ id, store.text? t.texts id = some text
  texts : ∀ id, t.textSlots.lookup id =
    (store.text? t.texts id).bind fun text => given? requests (.string text)

theorem serves_start : store.Serves [] store.start where
  constants := rfl
  numbers _ := rfl
  known _ h := absurd h List.not_mem_nil
  texts id := by
    cases store.text? store.start.texts id with
    | none => rfl
    | some text => rfl

namespace Serves

variable {store} {requests : List Literal} {t : Interner σ ι}

/-- The note for the id of a text is the slot that the text has got. -/
theorem lookup_intern (h : store.Serves requests t) (text : String) :
    t.textSlots.lookup (store.intern t.texts text).1 = given? requests (.string text) := by
  rw [h.texts]
  cases hid : store.text? t.texts (store.intern t.texts text).1 with
  | some other =>
    obtain rfl := store.eq_of_text?_intern _ _ _ hid
    rfl
  | none =>
    -- the id is a new one, so that the text has not been asked for
    have hnew : .string text ∉ requests := by
      intro hmem
      obtain ⟨id, hknown⟩ := h.known text hmem
      rw [store.intern_of_text? _ _ _ hknown, hknown] at hid
      cases hid
    rw [given?, if_neg hnew]
    rfl

theorem request_string (h : store.Serves requests t) (text : String) :
    (store.request t (.string text)).1 = slot? requests (.string text) ∧
      store.Serves (requests ++ [.string text]) (store.request t (.string text)).2 ∧
      ((store.request t (.string text)).1 = none →
        (store.request t (.string text)).2.chunk = t.chunk) := by
  have hasked : Slots.Asked requests (.string text) t.textSlots _ t.chunk _ :=
    Slots.asked_ask h.constants (h.lookup_intern text)
  refine ⟨hasked.answer, ⟨hasked.constants, fun bits => ?_, fun other hmem => ?_, fun id => ?_⟩,
    hasked.refused⟩
  · rw [Literal.given?_concat_of_ne _ (by simp)]
    exact h.numbers bits
  · rcases List.mem_append.mp hmem with hmem | hmem
    · obtain ⟨id, hid⟩ := h.known other hmem
      by_cases hne : id = (store.intern t.texts text).1
      · rw [hne] at hid
        obtain rfl := store.eq_of_text?_intern _ _ _ hid
        exact ⟨_, store.text?_intern _ _⟩
      · exact ⟨id, (store.text?_intern_of_ne _ _ _ hne).trans hid⟩
    · obtain rfl : other = text := by simpa using hmem
      exact ⟨_, store.text?_intern _ _⟩
  · refine (hasked.noted id).trans ?_
    show _ = (store.text? (store.intern t.texts text).2 id).bind _
    by_cases hid : id = (store.intern t.texts text).1
    · rw [if_pos hid, hid, store.text?_intern, Option.bind_some, Literal.given?_concat_self]
    · rw [if_neg hid, h.texts, store.text?_intern_of_ne _ _ _ hid]
      cases hother : store.text? t.texts id with
      | none => rfl
      | some other =>
        have hne : Literal.string other ≠ .string text := by
          rintro ⟨⟩
          exact hid (store.intern_of_text? _ _ _ hother).symm
        exact (Literal.given?_concat_of_ne _ hne).symm

theorem request_number (h : store.Serves requests t) (bits : UInt64) :
    (store.request t (.number bits)).1 = slot? requests (.number bits) ∧
      store.Serves (requests ++ [.number bits]) (store.request t (.number bits)).2 ∧
      ((store.request t (.number bits)).1 = none →
        (store.request t (.number bits)).2.chunk = t.chunk) := by
  have hasked : Slots.Asked requests (.number bits) t.numberSlots bits t.chunk _ :=
    Slots.asked_ask h.constants (h.numbers bits)
  refine ⟨hasked.answer, ⟨hasked.constants, fun other => ?_, fun text hmem => ?_, fun id => ?_⟩,
    hasked.refused⟩
  · refine (hasked.noted other).trans ?_
    by_cases hother : other = bits
    · rw [if_pos hother, hother, Literal.given?_concat_self]
    · rw [if_neg hother, h.numbers, Literal.given?_concat_of_ne _ (by simpa using hother)]
  · exact h.known text (by simpa using hmem)
  · refine (h.texts id).trans ?_
    simp only [Literal.given?_concat_of_ne requests (show Literal.string _ ≠ .number bits by simp)]
    rfl

/-- **One more request.** The answer is the slot of the literal, and a refusal leaves the chunk as
it was. -/
theorem request (h : store.Serves requests t) (l : Literal) :
    (store.request t l).1 = slot? requests l ∧
      store.Serves (requests ++ [l]) (store.request t l).2 ∧
      ((store.request t l).1 = none → (store.request t l).2.chunk = t.chunk) := by
  cases l with
  | string text => exact h.request_string text
  | number bits => exact h.request_number bits

/-- **Any number of requests**, by induction on them. -/
theorem after (h : store.Serves requests t) (more : List Literal) :
    store.Serves (requests ++ more) (store.after t more) ∧
      store.answers t more = more.map (slot? (requests ++ more)) := by
  induction more generalizing requests t with
  | nil =>
    rw [List.append_nil]
    exact ⟨h, rfl⟩
  | cons l more ih =>
    obtain ⟨hanswer, hserves, -⟩ := h.request l
    obtain ⟨hafter, hanswers⟩ := ih hserves
    rw [← List.append_cons] at hafter hanswers
    refine ⟨hafter, ?_⟩
    have hfirst : (store.request t l).1 = slot? (requests ++ l :: more) l := by
      rw [hanswer, List.append_cons, Literal.slot?_append (by simp), Literal.slot?_concat]
    rw [answers, hfirst, hanswers]
    rfl

/-- A request that is refused changes no answer to later ones. -/
theorem answers_of_refused (h : store.Serves requests t) {l : Literal}
    (hl : (store.request t l).1 = none) (more : List Literal) :
    store.answers (store.request t l).2 more = store.answers t more := by
  obtain ⟨hanswer, hserves, -⟩ := h.request l
  have hfull : 256 ≤ requests.eraseDups.length := by
    by_contra hlt
    have hle := List.idxOf_le_length (a := l) (l := requests.eraseDups)
    rw [hanswer, slot?, if_pos (by omega)] at hl
    cases hl
  rw [(h.after more).2, (hserves.after more).2, List.append_assoc]
  refine List.map_congr_left fun x _ => ?_
  rw [Literal.slot?_append_of_full hfull, Literal.slot?_append_of_full hfull]

/-- Searching the pool for a string or a number does the same as the interner. -/
theorem slotOf?_eq_request (h : store.Serves requests t)
    (hrequests : ∀ r ∈ requests, ∃ w : Value, w.literal? = some r)
    {v : Value} {l : Literal} (hv : v.literal? = some l) :
    t.chunk.slotOf? v = (store.request t l).1.map fun slot => (slot,
      (store.request t l).2.chunk) := by
  have hgiven := Literal.given?_eq_findIdx? hrequests h.constants hv
  obtain rfl := Literal.value_eq hv
  cases l with
  | string text => exact Slots.slotOf?_eq_ask ((h.lookup_intern text).trans hgiven)
  | number bits => exact Slots.slotOf?_eq_ask ((h.numbers bits).trans hgiven)

end Serves

/-- **Literals are numbered by their first requests.** Whatever an interner is asked for, the answer
to a literal is its place among the distinct literals in the order of their first requests, as long
as a byte can name that place, and the pool holds the constants of the first 256 of them. A request
that is refused changes neither the pool nor an answer to later ones. For strings and numbers,
searching the pool does the same. -/
theorem answers_start (requests : List Literal) :
    store.answers store.start requests = requests.map (slot? requests) ∧
      (store.after store.start requests).chunk.constants.toList = pool requests ∧
      (∀ l, (store.request (store.after store.start requests) l).1 = none →
        (store.request (store.after store.start requests) l).2.chunk =
          (store.after store.start requests).chunk ∧
        ∀ later, store.answers (store.request (store.after store.start requests) l).2 later =
          store.answers (store.after store.start requests) later) ∧
      ((∀ r ∈ requests, ∃ w : Value, w.literal? = some r) → ∀ v l, v.literal? = some l →
        (store.after store.start requests).chunk.slotOf? v =
          (store.request (store.after store.start requests) l).1.map fun slot =>
            (slot, (store.request (store.after store.start requests) l).2.chunk)) := by
  obtain ⟨hserves, hanswers⟩ := store.serves_start.after requests
  rw [List.nil_append] at hserves hanswers
  refine ⟨hanswers, hserves.constants, fun l hl => ?_, fun hrequests v l hv => ?_⟩
  · exact ⟨(hserves.request l).2.2 hl, hserves.answers_of_refused hl⟩
  · exact hserves.slotOf?_eq_request hrequests hv

/-- Distinct texts in the order in which they have been interned. The id of a text is its place. -/
def numbered : TextStore { texts : List String // texts.Nodup } Nat where
  empty := ⟨[], List.nodup_nil⟩
  intern s text :=
    (s.val.idxOf text,
      if h : text ∈ s.val then s else ⟨s.val ++ [text], by simpa using s.property.concat h⟩)
  text? s id := s.val[id]?
  text?_intern s text := by
    by_cases h : text ∈ s.val
    · simp [h]
    · simp [h]
  text?_intern_of_ne s text id hid := by
    by_cases h : text ∈ s.val
    · simp [h]
    · rw [List.idxOf_of_notMem h] at hid
      simp only [h, dif_neg, not_false_eq_true]
      rcases Nat.lt_or_gt_of_ne hid with hlt | hgt
      · exact List.getElem?_append_left hlt
      · rw [List.getElem?_eq_none (by simp; omega), List.getElem?_eq_none (by omega)]
  intern_of_text? s text id h := by
    obtain ⟨hlt, rfl⟩ := List.getElem?_eq_some_iff.mp h
    exact s.property.idxOf_getElem id hlt
  eq_of_text?_intern s text other h := by
    obtain ⟨hlt, rfl⟩ := List.getElem?_eq_some_iff.mp h
    exact List.getElem_idxOf hlt

/-- The numbers with the 256 least bit patterns. -/
def leastNumbers : List Literal := (List.range 256).map fun i => .number (.ofNat i)

theorem nodup_leastNumbers : leastNumbers.Nodup := by
  refine List.Nodup.map_on (fun i hi j hj heq => ?_) List.nodup_range
  have hbits := congrArg UInt64.toNat (Literal.number.inj heq)
  rw [List.mem_range] at hi hj
  simp only [UInt64.toNat_ofNat'] at hbits
  omega

/-- When 256 numbers have taken all slots, a text gets its id but no slot, now and later, and the
numbers keep theirs. -/
theorem answers_start_leastNumbers :
    (numbered.answers numbered.start leastNumbers)[255]? = some (some 255) ∧
    (numbered.request (numbered.after numbered.start leastNumbers) (.string "a")).1 = none ∧
    numbered.answers (numbered.request (numbered.after numbered.start leastNumbers) (.string "a")).2
      [.string "a", .number 7] = [none, some 7] ∧
    (numbered.after numbered.start leastNumbers).chunk.slotOf? (.string "a") = none := by
  obtain ⟨hanswers, -, hrefused, hsearch⟩ := answers_start numbered leastNumbers
  have hserves := (numbered.serves_start.after leastNumbers).1
  have hdistinct := Literal.eraseDups_of_nodup nodup_leastNumbers
  have hnone : (numbered.request (numbered.after numbered.start leastNumbers) (.string "a")).1 =
      none := by
    rw [(hserves.request _).1, List.nil_append, slot?, hdistinct]
    decide +kernel
  have hvalues : ∀ r ∈ leastNumbers, r.value.literal? = some r := by decide +kernel
  refine ⟨?_, hnone, ?_, ?_⟩
  · have hlast : leastNumbers[255]? = some (.number 255) := by decide +kernel
    rw [hanswers, List.getElem?_map, hlast, Option.map_some, slot?, hdistinct]
    decide +kernel
  · have hfull : 256 ≤ leastNumbers.eraseDups.length := by
      rw [hdistinct]
      decide +kernel
    rw [(hrefused _ hnone).2, (hserves.after _).2, List.nil_append]
    simp only [List.map_cons, List.map_nil, Literal.slot?_append_of_full hfull]
    rw [slot?, slot?, hdistinct]
    decide +kernel
  · rw [hsearch (fun r hr => ⟨r.value, hvalues r hr⟩) _ _ rfl, hnone]
    rfl

end TextStore

end LuaExpr
