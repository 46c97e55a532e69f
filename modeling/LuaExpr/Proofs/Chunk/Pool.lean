import LuaExpr.Chunk.Basic
import Mathlib
/-!
# Pools of constants

The pool of a chunk holds each literal once, at the slot that its first use gave it. A pool only
ever grows at its end, so a slot stays what it is.

* `Pool.addAll`: the pool after the constants of some code have been asked for.
* `Pool.slot_eq_of_isPrefix`: a constant of a pool has the same slot in a longer pool.
* `Pool.length_addAll_nil`: the size of the pool of some constants is the number of distinct ones
  among them.
* `Chunk.slotOf?_eq_some` and `Chunk.exists_slotOf?`: what a chunk does when it is asked for a slot;
  `Chunk.slotOf?_of_mem`: the same for a literal that it holds.
-/

namespace LuaExpr

namespace Pool

/-! ## Pools as lists -/

/-- The pool with a constant, which joins it if it is a new one. -/
def add (pool : List Value) (v : Value) : List Value := if v ∈ pool then pool else pool ++ [v]

/-- The pool with several constants. -/
def addAll (pool vs : List Value) : List Value := vs.foldl add pool

/-- The slot of a constant of a pool. -/
def slot (pool : List Value) (v : Value) : UInt8 := UInt8.ofNat (pool.idxOf v)

variable {pool : List Value} {v w : Value} {vs ws : List Value}

@[simp] theorem addAll_nil : addAll pool [] = pool := rfl

@[simp] theorem addAll_cons : addAll pool (v :: vs) = addAll (add pool v) vs := rfl

theorem addAll_append : addAll pool (vs ++ ws) = addAll (addAll pool vs) ws := List.foldl_append

theorem mem_add : w ∈ add pool v ↔ w ∈ pool ∨ w = v := by
  unfold add
  split
  · constructor
    · exact .inl
    · rintro (h | rfl) <;> assumption
  · simp

theorem mem_addAll : w ∈ addAll pool vs ↔ w ∈ pool ∨ w ∈ vs := by
  induction vs generalizing pool with
  | nil => simp
  | cons v vs ih => rw [addAll_cons, ih, mem_add, List.mem_cons, or_assoc]

theorem isPrefix_add (pool : List Value) (v : Value) : pool <+: add pool v := by
  unfold add
  split
  · exact List.prefix_rfl
  · exact List.prefix_append _ _

theorem isPrefix_addAll (pool vs : List Value) : pool <+: addAll pool vs := by
  induction vs generalizing pool with
  | nil => exact List.prefix_rfl
  | cons v vs ih => exact (isPrefix_add pool v).trans (ih _)

theorem length_le_length_addAll (pool vs : List Value) : pool.length ≤ (addAll pool vs).length :=
  (isPrefix_addAll pool vs).length_le

theorem nodup_add (h : pool.Nodup) (v : Value) : (add pool v).Nodup := by
  unfold add
  split
  · exact h
  · simpa using h.concat ‹_›

theorem nodup_addAll (h : pool.Nodup) (vs : List Value) : (addAll pool vs).Nodup := by
  induction vs generalizing pool with
  | nil => exact h
  | cons v vs ih => exact ih (nodup_add h v)

/-- The pool of some constants has a slot for each distinct one. -/
theorem length_addAll_nil (vs : List Value) : (addAll [] vs).length = vs.dedup.length := by
  have hp : (addAll [] vs).Perm vs.dedup := by
    rw [List.perm_ext_iff_of_nodup (nodup_addAll List.nodup_nil vs) vs.nodup_dedup]
    intro w
    simp [mem_addAll]
  exact hp.length_eq

theorem slot_eq_of_isPrefix {pool' : List Value} (h : pool <+: pool') (hv : v ∈ pool) :
    slot pool' v = slot pool v := by
  obtain ⟨more, rfl⟩ := h
  rw [slot, slot, List.idxOf_append_of_mem hv]

/-- The slot of a constant is its place in the pool, provided that a byte can name all slots of the
pool. -/
theorem toNat_slot (hlen : pool.length ≤ Chunk.maxConstants) (hv : v ∈ pool) :
    (slot pool v).toNat = pool.idxOf v := by
  rw [slot, UInt8.toNat_ofNat']
  exact Nat.mod_eq_of_lt (Nat.lt_of_lt_of_le (List.idxOf_lt_length_of_mem hv) hlen)

/-- A slot names its constant, provided that a byte can name all slots of the pool. -/
theorem getElem?_slot (hlen : pool.length ≤ Chunk.maxConstants) (hv : v ∈ pool) :
    pool[(slot pool v).toNat]? = some v := by
  have hlt := List.idxOf_lt_length_of_mem hv
  rw [toNat_slot hlen hv, List.getElem?_eq_getElem hlt, List.getElem_idxOf]

end Pool

/-! ## Slots of a chunk -/

namespace Chunk

variable {c c' : Chunk} {v : Value} {slot : UInt8}

theorem findIdx?_eq_some {i : Nat} (h : c.constants.findIdx? (· = v) = some i) :
    v ∈ c.constants.toList ∧ i = c.constants.toList.idxOf v := by
  rw [← (Array.toArray_toList : c.constants.toList.toArray = c.constants), List.findIdx?_toArray,
    List.findIdx?_eq_some_iff_findIdx_eq] at h
  obtain ⟨hlt, rfl⟩ := h
  have hidx : c.constants.toList.findIdx (· = v) = c.constants.toList.idxOf v := by
    rw [List.idxOf]
    congr
  rw [hidx] at hlt ⊢
  exact ⟨List.idxOf_lt_length_iff.mp hlt, rfl⟩

theorem findIdx?_eq_none (h : c.constants.findIdx? (· = v) = none) : v ∉ c.constants.toList := by
  intro hv
  rw [Array.findIdx?_eq_none_iff] at h
  simpa using h v (by simpa using hv)

theorem slotOf?_eq_some (h : c.slotOf? v = some (slot, c')) :
    c'.code = c.code ∧ c'.constants.toList = Pool.add c.constants.toList v ∧
      slot = Pool.slot c'.constants.toList v ∧
      (c.constants.size ≤ maxConstants → c'.constants.size ≤ maxConstants) := by
  unfold slotOf? at h
  split at h
  case h_1 i hi =>
    obtain ⟨hmem, rfl⟩ := findIdx?_eq_some hi
    obtain ⟨rfl, rfl⟩ := Prod.mk.inj (Option.some.inj h)
    exact ⟨rfl, (if_pos hmem).symm, rfl, id⟩
  case h_2 hnone =>
    have hmem := findIdx?_eq_none hnone
    unfold addConstant? at h
    split at h
    · obtain ⟨rfl, rfl⟩ := Prod.mk.inj (Option.some.inj h)
      refine ⟨rfl, ?_, ?_, fun _ => ?_⟩
      · simp [Pool.add, hmem]
      · simp [Pool.slot, List.idxOf_append_of_notMem hmem]
      · simpa [Nat.succ_le_iff] using ‹c.constants.size < maxConstants›
    · cases h

/-- A chunk that holds a literal gives its slot and stays as it is. -/
theorem slotOf?_of_mem (h : v ∈ c.constants.toList) :
    c.slotOf? v = some (Pool.slot c.constants.toList v, c) := by
  unfold slotOf?
  cases hi : c.constants.findIdx? (· = v) with
  | none => exact absurd h (findIdx?_eq_none hi)
  | some i =>
    obtain ⟨-, rfl⟩ := findIdx?_eq_some hi
    rfl

/-- A chunk that gives a slot without changing holds the literal. -/
theorem mem_of_slotOf? (h : c.slotOf? v = some (slot, c)) : v ∈ c.constants.toList := by
  have hmem : v ∈ Pool.add c.constants.toList v := Pool.mem_add.mpr (.inr rfl)
  rwa [← (slotOf?_eq_some h).2.1] at hmem

/-- The slot of a constant of a chunk holds it. -/
theorem constant?_slot (hroom : c.constants.size ≤ maxConstants) (hv : v ∈ c.constants.toList) :
    c.constant? (Pool.slot c.constants.toList v) = some v := by
  rw [constant?, ← Array.getElem?_toList]
  exact Pool.getElem?_slot hroom hv

/-- There is a slot as long as there is room in the pool for the constant. -/
theorem exists_slotOf? (h : (Pool.add c.constants.toList v).length ≤ maxConstants) :
    ∃ slot c', c.slotOf? v = some (slot, c') := by
  unfold slotOf?
  split
  · exact ⟨_, _, rfl⟩
  · rename_i hnone
    have hmem := findIdx?_eq_none hnone
    rw [Pool.add, if_neg hmem, List.length_append, List.length_singleton] at h
    exact ⟨_, _, if_pos h⟩

end Chunk

end LuaExpr
