import LuaExpr.Proofs.Compiler.Remains
import LuaExpr.Proofs.Machine.Discipline
/-!
# Code with gaps

The code that faults have left behind is not disciplined: jumps of it may have no target. Apart from
these jumps it flows along depths all the same, so that a run of it goes wrong only at such a jump
or at its end.

* `Loose`: an instruction flows along the depths, or is a jump without a target.
* `Balanced`: all instructions of a chunk do, and the depths leave a given number of values at the
  end.
* `exists_balanced_of_yields`: whatever the compiler leaves behind is balanced.
* `Chunk.fault_of_balanced`: the faults of the runs of such a chunk.
-/

namespace LuaExpr

open Compiler (unlanded)

/-! ## Loose instructions -/

/-- An instruction flows along the depths, or it is a jump that has not been turned to its
target. -/
def Loose (gaps : Prop) (chunk : Chunk) (d : Nat → Nat) (i : Nat) (op : Op) : Prop :=
  Flow chunk d i op ∨ gaps ∧
    (op = .jump unlanded ∨ op = .jumpIfFalse unlanded ∧ d i = d (i + 1) + 1)

/-- All instructions of a chunk are loose along depths that begin with no value and end with `n` of
them. -/
structure Balanced (gaps : Prop) (n : Nat) (chunk : Chunk) (d : Nat → Nat) : Prop where
  start : d 0 = 0
  finish : d chunk.code.size = n
  room : chunk.constants.size ≤ Chunk.maxConstants
  loose : ∀ i ins, chunk.code[i]? = some ins → Loose gaps chunk d i ins.op

section Growing

variable {gaps : Prop} {c c' : Chunk} {d d' : Nat → Nat} {i : Nat} {op : Op}

theorem Chunk.constant?_of_isPrefix {slot : UInt8} {v : Value}
    (h : c.constants.toList <+: c'.constants.toList)
    (hv : c.constant? slot = some v) : c'.constant? slot = some v := by
  rw [constant?, ← Array.getElem?_toList] at hv ⊢
  obtain ⟨more, hmore⟩ := h
  rw [← hmore, List.getElem?_append_left (List.getElem?_eq_some_iff.mp hv).1, hv]

/-- What flows goes on to flow when code and constants are added. -/
theorem Flow.mono (h : Flow c d i op) (hi : i < c.code.size)
    (hconstants : c.constants.toList <+: c'.constants.toList)
    (hsize : c.code.size ≤ c'.code.size) (hd : ∀ j ≤ c.code.size, d' j = d j) :
    Flow c' d' i op := by
  have hi₀ := hd i (Nat.le_of_lt hi)
  have hi₁ := hd (i + 1) hi
  cases op with
  | constant slot =>
    obtain ⟨hdepth, v, hv⟩ := h
    exact ⟨by rw [hi₀, hi₁, hdepth], v, Chunk.constant?_of_isPrefix hconstants hv⟩
  | global slot =>
    obtain ⟨hdepth, name, hv⟩ := h
    exact ⟨by rw [hi₀, hi₁, hdepth], name, Chunk.constant?_of_isPrefix hconstants hv⟩
  | jumpIfFalse target =>
    obtain ⟨hdepth, htarget, hle⟩ := h
    refine ⟨by rw [hi₀, hi₁, hdepth], ?_, Nat.le_trans hle hsize⟩
    rw [hd _ hle, hi₁, htarget]
  | jump target =>
    obtain ⟨htarget, hle⟩ := h
    refine ⟨?_, Nat.le_trans hle hsize⟩
    rw [hd _ hle, hi₀, htarget]
  | _ =>
    simp only [Flow, hi₀, hi₁] at h ⊢
    exact h

/-- Further code with its own depths, which go on where those of the chunk end. -/
theorem Balanced.append {n : Nat} {code : List Instruction} (h : Balanced gaps n c d) (n' : Nat)
    (ds : List Nat) (hcode : c'.code.toList = c.code.toList ++ code)
    (hconstants : c.constants.toList <+: c'.constants.toList)
    (hroom : c'.constants.size ≤ Chunk.maxConstants) (hlength : ds.length = code.length)
    (hfirst : ds.head? = some n)
    (hloose : ∀ d' : Nat → Nat, Along (fun i k => d' i = k) c.code.size ds →
      d' (c.code.size + code.length) = n' →
      Along (fun i ins => Loose gaps c' d' i ins.op) c.code.size code) :
    ∃ d', Balanced gaps n' c' d' := by
  obtain ⟨ds', rfl⟩ := List.head?_eq_some_iff.mp hfirst
  let d' : Nat → Nat :=
    fun j => if j < c.code.size then d j else ((n :: ds' ++ [n'])[j - c.code.size]?).getD 0
  have hnew : ∀ j, d' (c.code.size + j) = ((n :: ds' ++ [n'])[j]?).getD 0 := by
    intro j
    simp only [d', Nat.not_lt.mpr (Nat.le_add_right _ _), if_false, Nat.add_sub_cancel_left]
  have hold : ∀ j ≤ c.code.size, d' j = d j := by
    intro j hj
    rcases Nat.lt_or_eq_of_le hj with hj | rfl
    · exact if_pos hj
    · rw [h.finish]
      exact hnew 0
  have hend : d' (c.code.size + code.length) = n' := by
    rw [hnew, ← hlength]
    simp
  have halong : Along (fun i k => d' i = k) c.code.size (n :: ds') := by
    refine along_of_getElem? fun i k hi => ?_
    rw [hnew, List.getElem?_append_left (List.getElem?_eq_some_iff.mp hi).1, hi]
    rfl
  have hsize : c'.code.size = c.code.size + code.length := by
    rw [← Array.length_toList, hcode, List.length_append, Array.length_toList]
  refine ⟨d', (hold 0 (Nat.zero_le _)).trans h.start, by rw [hsize, hend], hroom,
    fun i ins hi => ?_⟩
  rw [← Array.getElem?_toList, hcode] at hi
  rcases Nat.lt_or_ge i c.code.size with hlt | hge
  · rw [List.getElem?_append_left (by simpa using hlt), Array.getElem?_toList] at hi
    rcases h.loose i ins hi with hflow | ⟨hg, hjump | ⟨hjump, hdepth⟩⟩
    · exact .inl (hflow.mono hlt hconstants (by rw [hsize]; exact Nat.le_add_right _ _) hold)
    · exact .inr ⟨hg, .inl hjump⟩
    · exact .inr ⟨hg, .inr ⟨hjump, by rw [hold i (Nat.le_of_lt hlt), hold (i + 1) hlt, hdepth]⟩⟩
  · rw [List.getElem?_append_right (by simpa using hge), Array.length_toList] at hi
    have := (hloose d' halong hend).getElem? hi
    rwa [Nat.add_sub_cancel' hge] at this

end Growing

/-! ## Pieces of code are loose -/

section Pieces

variable {gaps : Prop} {n : Nat} {c c' : Chunk} {d : Nat → Nat}

theorem placed_of_compiled {e : Expr} (h : Compiled c c' e)
    (hroom : c'.constants.size ≤ Chunk.maxConstants) :
    Placed c' (Pool.slot c'.constants.toList) c.code.size e := by
  refine ⟨⟨c.code.toList, [], ?_, Array.length_toList⟩, fun v hv => ?_, h.leaves, h.parts⟩
  · rw [List.append_nil]
    exact h.writes.code _ List.prefix_rfl
  · refine Chunk.constant?_slot hroom ?_
    rw [h.writes.constants, Pool.mem_addAll]
    exact .inr hv

theorem Balanced.expression {e : Expr} (h : Balanced gaps n c d) (he : Compiled c c' e) :
    ∃ d', Balanced gaps (n + 1) c' d' := by
  have hroom := he.writes.room h.room
  refine h.append (n + 1) (e.depths n) (he.writes.code _ List.prefix_rfl) he.writes.isPrefix hroom
    (by rw [Expr.length_depths, Expr.length_code]) ?_ fun d' hd' hend => ?_
  · obtain ⟨ds, hds⟩ := e.exists_depths_eq_cons n
    rw [hds, List.head?_cons]
  · rw [Expr.length_code] at hend
    have hflow := flow_of_placed e (placed_of_compiled he hroom) hd' hend
    exact along_of_getElem? fun i ins hi => .inl (hflow.getElem? hi)

theorem Balanced.drop (h : Balanced gaps (n + 1) c d) (offset : Nat) :
    ∃ d', Balanced gaps n (c.push .pop offset) d' := by
  refine h.append n [n + 1] ((Writes.push _ _ _).code _ List.prefix_rfl)
    List.prefix_rfl h.room rfl rfl
    fun d' ⟨h₀, _⟩ hend => ⟨.inl ?_, trivial⟩
  exact h₀.trans (congrArg (· + 1) hend.symm)

/-- Beyond the gap of a conjunction there is no value of it left. -/
theorem Balanced.conjunction (hg : gaps) (h : Balanced gaps (n + 1) c d) (offset : Nat) :
    ∃ d', Balanced gaps n (Compiler.conjunctionOpened c offset) d' := by
  refine h.append n [n + 1, n + 2, n + 1] ((Writes.conjunctionOpened _ _).code _ List.prefix_rfl)
    List.prefix_rfl h.room rfl rfl fun d' ⟨h₀, h₁, h₂, _⟩ hend => ?_
  refine ⟨.inl ⟨?_, ?_⟩, .inr ⟨hg, .inr ⟨rfl, ?_⟩⟩, .inl ?_, trivial⟩
  · rw [h₀]
    exact Nat.succ_pos _
  · rw [h₀, h₁]
  · rw [h₁, h₂]
  · exact h₂.trans (congrArg (· + 1) hend.symm)

theorem Balanced.alternative (hg : gaps) (h : Balanced gaps (n + 1) c d)
    (hsize : c.code.size + 3 < UInt16.size) (offset : Nat) :
    ∃ d', Balanced gaps n (Compiler.alternativeOpened c offset) d' := by
  refine h.append n [n + 1, n + 2, n + 1, n + 1]
    ((Writes.alternativeOpened _ _).code _ List.prefix_rfl)
    List.prefix_rfl h.room rfl rfl fun d' ⟨h₀, h₁, h₂, h₃, _⟩ hend => ?_
  have htarget : (UInt16.ofNat (c.code.size + 3)).toNat = c.code.size + 3 := by
    rw [UInt16.toNat_ofNat']
    exact Nat.mod_eq_of_lt hsize
  refine ⟨.inl ⟨?_, ?_⟩, .inl ⟨?_, ?_, ?_⟩, .inr ⟨hg, .inl rfl⟩, .inl ?_, trivial⟩
  · rw [h₀]
    exact Nat.succ_pos _
  · rw [h₀, h₁]
  · rw [h₁, h₂]
  -- the first jump leads to where the value of the left operand is dropped
  · rw [htarget, h₂]
    exact h₃
  · rw [htarget, Compiler.size_alternativeOpened]
    exact Nat.le_succ _
  · exact h₃.trans (congrArg (· + 1) hend.symm)

/-- Nothing comes to what is written after the second jump, so that any depth would do there. -/
theorem Balanced.refused (hg : gaps) (h : Balanced gaps (n + 1) c d) (offset : Nat) :
    ∃ d', Balanced gaps (n + 1) (Compiler.alternativeBegun c offset) d' := by
  refine h.append (n + 1) [n + 1, n + 2, n + 1]
    ((Writes.alternativeBegun _ _).code _ List.prefix_rfl)
    List.prefix_rfl h.room rfl rfl fun d' ⟨h₀, h₁, h₂, _⟩ _ => ?_
  refine ⟨.inl ⟨?_, ?_⟩, .inr ⟨hg, .inr ⟨rfl, ?_⟩⟩, .inr ⟨hg, .inl rfl⟩, trivial⟩
  · rw [h₀]
    exact Nat.succ_pos _
  · rw [h₀, h₁]
  · rw [h₁, h₂]

/-- **Whatever the compiler leaves behind is balanced**, piece by piece. -/
theorem exists_balanced_of_yields (h : Yields gaps n c) : ∃ d, Balanced gaps n c d := by
  induction h with
  | empty => exact ⟨fun _ => 0, rfl, rfl, Nat.zero_le _, fun i ins hi => by cases hi⟩
  | expression _ he ih =>
    obtain ⟨d, hd⟩ := ih
    exact hd.expression he
  | drop _ offset ih =>
    obtain ⟨d, hd⟩ := ih
    exact hd.drop offset
  | conjunction hg _ offset ih =>
    obtain ⟨d, hd⟩ := ih
    exact hd.conjunction hg offset
  | alternative hg _ hsize offset ih =>
    obtain ⟨d, hd⟩ := ih
    exact hd.alternative hg hsize offset
  | refused hg _ offset ih =>
    obtain ⟨d, hd⟩ := ih
    exact hd.refused hg offset

end Pieces

/-! ## Runs of code with gaps -/

/-- Some jump of a chunk has not been turned to its target. -/
def Chunk.Dangles (chunk : Chunk) : Prop :=
  ∃ i ∈ chunk.code, i.op = .jump unlanded ∨ i.op = .jumpIfFalse unlanded

section Runs

variable {gaps : Prop} {n : Nat} {chunk : Chunk} {d : Nat → Nat} {globals : Globals}

theorem Balanced.target_le_size (h : Balanced gaps n chunk d) {i : Instruction}
    (hi : i ∈ chunk.code) {target : UInt16}
    (hop : i.op = .jump target ∨ i.op = .jumpIfFalse target) :
    target.toNat ≤ chunk.code.size ∨ gaps ∧ target = unlanded := by
  obtain ⟨j, hj⟩ := Array.mem_iff_getElem?.mp hi
  rcases h.loose j i hj with hflow | ⟨hg, hgap⟩
  · exact .inl (hflow.target_le_size hop)
  · refine .inr ⟨hg, ?_⟩
    rcases hgap with hgap | ⟨hgap, -⟩
    all_goals
      rw [hgap] at hop
      simpa [eq_comm] using hop

namespace Machine

theorem jumpTo_unlanded {m : Machine} (h : chunk.code.size < unlanded.toNat) :
    m.jumpTo chunk unlanded = .error (.invalidJump unlanded.toNat) := if_pos h

/-- After a step: an orderly machine, a fault that does not come from disorder, or the fault of a
jump without a target. -/
def LooseResult (gaps : Prop) (chunk : Chunk) (d : Nat → Nat) (r : Except Fault Machine) : Prop :=
  OrderlyResult chunk d r ∨ gaps ∧ chunk.Dangles ∧ r = .error (.invalidJump unlanded.toNat)

/-- The index that stands for no target has to be outside the code, or a jump without a target leads
into it. -/
def Far (gaps : Prop) (chunk : Chunk) : Prop :=
  gaps → chunk.Dangles → chunk.code.size < unlanded.toNat

/-- **One step of balanced code.** -/
theorem looseResult_step (globals : Globals) {m : Machine} {i : Instruction}
    (h : Balanced gaps n chunk d) (hfar : Far gaps chunk) (hm : m.Orderly chunk d)
    (hi : chunk.code[m.next]? = some i) :
    LooseResult gaps chunk d (m.step chunk globals i) := by
  rcases h.loose m.next i hi with hflow | ⟨hg, hop | ⟨hop, hdepth⟩⟩
  · exact .inl (orderly_step_of_flow globals hflow hm hi)
  · have hdangles : chunk.Dangles := ⟨i, Array.mem_of_getElem? hi, .inl hop⟩
    refine .inr ⟨hg, hdangles, ?_⟩
    simp only [step, hop, execute]
    exact jumpTo_unlanded (hfar hg hdangles)
  · have hdangles : chunk.Dangles := ⟨i, Array.mem_of_getElem? hi, .inr hop⟩
    obtain ⟨next, s⟩ := m
    have hsize : s.size = d (next + 1) + 1 := hm.size.trans hdepth
    obtain ⟨t, v, rfl⟩ := Stack.exists_put (s := s) (by omega)
    rw [Stack.size_put, Nat.add_right_cancel_iff] at hsize
    simp only [step, hop, execute, Stack.pop_put, ok_bind]
    by_cases hv : v.isFalsy = true
    · rw [if_pos hv]
      exact .inr ⟨hg, hdangles, jumpTo_unlanded (hfar hg hdangles)⟩
    · rw [if_neg hv]
      exact .inl ⟨(Array.getElem?_eq_some_iff.mp hi).1, hsize⟩

/-- **A run of balanced code** keeps to the depths. -/
theorem orderly_of_reaches_of_balanced {m m' : Machine} (h : Balanced gaps n chunk d)
    (hfar : Far gaps chunk) (hm : m.Orderly chunk d) (hr : Reaches chunk globals m m') :
    m'.Orderly chunk d := by
  refine orderly_of_reaches_of_step (fun m i m' hm hi hs => ?_) hm hr
  rcases looseResult_step globals h hfar hm hi with hres | ⟨-, -, hres⟩
  · rw [hs] at hres
    exact hres
  · rw [hs] at hres
    cases hres

/-- At the end of balanced code all values that it leaves count. -/
theorem result_of_balanced {m : Machine} {f : Fault} (h : Balanced gaps n chunk d)
    (hm : m.Orderly chunk d) (hend : chunk.code.size ≤ m.next) (hf : m.result = .error f) :
    f = .stackImbalance n ∧ n ≠ 1 := by
  obtain ⟨next, s⟩ := m
  obtain rfl : next = chunk.code.size := Nat.le_antisymm hm.next hend
  have hsize : s.size = n := hm.size.trans h.finish
  by_cases hone : s.size = 1
  · obtain ⟨t, v, rfl⟩ := Stack.exists_put (s := s) (by omega)
    rw [result, if_pos hone, Stack.pop_put] at hf
    cases hf
  · rw [result, if_neg hone, hsize] at hf
    cases hf
    exact ⟨rfl, hsize ▸ hone⟩

end Machine

/-- **The faults of balanced code**: those of its operators and limits, a number of values other
than one at its end, and a jump without a target. -/
theorem Chunk.fault_of_balanced {limits : Limits} {f : Fault} (h : Balanced gaps n chunk d)
    (hfar : Machine.Far gaps chunk) (hrun : chunk.run? globals limits = some (.error f)) :
    ¬ f.IsDisorder ∨ (f = .stackImbalance n ∧ n ≠ 1) ∨ gaps ∧ chunk.Dangles ∧
      f = .invalidJump unlanded.toNat := by
  rcases Chunk.fault_of_run?_eq_error hrun with ⟨k, rfl⟩ | ⟨k, hk⟩
  · exact .inl id
  have hstart : limits.start.Orderly chunk d := ⟨Nat.zero_le _, h.start.symm⟩
  obtain ⟨m, hm, ⟨hend, hres⟩ | ⟨i, g, hi, hs, hg⟩⟩ := Machine.exists_reaches_of_runFor hk
  · have hm := Machine.orderly_of_reaches_of_balanced h hfar hstart hm
    exact .inr (.inl (Machine.result_of_balanced h hm hend hres.symm))
  · have hm := Machine.orderly_of_reaches_of_balanced h hfar hstart hm
    cases hg
    rcases Machine.looseResult_step globals h hfar hm hi with hstep | ⟨hgaps, hdangles, hstep⟩
    · rw [hs] at hstep
      exact .inl hstep
    · rw [hs] at hstep
      cases hstep
      exact .inr (.inr ⟨hgaps, hdangles, rfl⟩)

end Runs

end LuaExpr
