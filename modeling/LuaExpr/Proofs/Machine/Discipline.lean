import LuaExpr.Proofs.Compiler.Acceptance
import LuaExpr.Proofs.Machine.Instructions
import LuaExpr.Proofs.Machine.Placement
import LuaExpr.Proofs.Machine.Runs
/-!
# Stack discipline

How many values are on the stack when a run of compiled code comes to an instruction is known
beforehand, whichever way the run took. So no value is ever missing, and exactly one is left at the
end.

* `Flow`: an instruction takes the stack from the depth assigned to it to the depths assigned to its
  successors.
* `Expr.depths`, `Expr.programDepths`: the depths before the instructions of a tree and of a
  program.
* `flow_of_placed`: the code of a tree flows along its depths.
* `Machine.StepsAlong`: what a step can do at an instruction that flows along the depths.
* `Machine.Orderly`: the machine is where the depths say; `Machine.orderly_step` keeps it so.
-/

namespace LuaExpr

/-! ## Flow of depths -/

/-- The depths assigned to an instruction and to what may come after it are as the instruction needs
them, and what it refers to is there. -/
def Flow (chunk : Chunk) (d : Nat → Nat) (i : Nat) : Op → Prop
  | .nil | .true | .false => d (i + 1) = d i + 1
  | .constant slot => d (i + 1) = d i + 1 ∧ ∃ v, chunk.constant? slot = some v
  | .global slot => d (i + 1) = d i + 1 ∧ ∃ name, chunk.constant? slot = some (.string name)
  | .call count => count.toNat + 1 ≤ d i
  | .pop => d i = d (i + 1) + 1
  | .dup => 1 ≤ d i ∧ d (i + 1) = d i + 1
  | .unary _ => 1 ≤ d i ∧ d (i + 1) = d i
  | .binary _ => 1 ≤ d (i + 1) ∧ d i = d (i + 1) + 1
  | .jumpIfFalse target =>
    d i = d (i + 1) + 1 ∧ d target.toNat = d (i + 1) ∧ target.toNat ≤ chunk.code.size
  | .jump target => d target.toNat = d i ∧ target.toNat ≤ chunk.code.size

theorem Flow.target_le_size {chunk : Chunk} {d : Nat → Nat} {i : Nat} {op : Op} {target : UInt16}
    (h : Flow chunk d i op) (hop : op = .jump target ∨ op = .jumpIfFalse target) :
    target.toNat ≤ chunk.code.size := by
  rcases hop with rfl | rfl
  · exact h.2
  · exact h.2.2

/-- A property of each member of a sequence together with its index, the first one being `base`. -/
def Along {α : Type} (P : Nat → α → Prop) : Nat → List α → Prop
  | _, [] => True
  | base, x :: xs => P base x ∧ Along P (base + 1) xs

section Along

variable {α : Type} {P : Nat → α → Prop} {base : Nat} {x : α} {xs ys : List α}

@[simp] theorem along_nil : Along P base [] := trivial

@[simp] theorem along_cons : Along P base (x :: xs) ↔ P base x ∧ Along P (base + 1) xs := Iff.rfl

@[simp] theorem along_append :
    Along P base (xs ++ ys) ↔ Along P base xs ∧ Along P (base + xs.length) ys := by
  induction xs generalizing base with
  | nil => simp
  | cons x xs ih =>
    rw [List.cons_append, along_cons, along_cons, ih, and_assoc, List.length_cons,
      Nat.add_assoc base, Nat.add_comm 1]

theorem Along.getElem? (h : Along P base xs) {i : Nat} (hi : xs[i]? = some x) : P (base + i) x := by
  induction xs generalizing base i with
  | nil => cases hi
  | cons y xs ih =>
    cases i with
    | zero =>
      obtain rfl : y = x := by simpa using hi
      exact h.1
    | succ i =>
      have := ih h.2 (i := i) (by simpa using hi)
      rwa [Nat.add_assoc, Nat.add_comm 1] at this

theorem along_of_getElem? (h : ∀ i x, xs[i]? = some x → P (base + i) x) : Along P base xs := by
  induction xs generalizing base with
  | nil => trivial
  | cons x xs ih =>
    refine ⟨h 0 x rfl, ih fun i y hi => ?_⟩
    have := h (i + 1) y (by simpa using hi)
    rwa [Nat.add_comm i, ← Nat.add_assoc] at this

end Along

/-! ## Depths of trees -/

namespace Expr

mutual

/-- The number of values on the stack before each instruction of a tree, if there are `depth` of
them at first. -/
def depths (depth : Nat) : Expr → List Nat
  | leaf _ => [depth]
  | group _ e => e.depths depth
  | unary _ _ e => e.depths depth ++ [depth + 1]
  | join (.binary _) _ l r => l.depths depth ++ (r.depths (depth + 1) ++ [depth + 2])
  | join .and _ l r => l.depths depth ++ ([depth + 1, depth + 2, depth + 1] ++ r.depths depth)
  | join .or _ l r =>
    l.depths depth ++ ([depth + 1, depth + 2, depth + 1, depth + 1] ++ r.depths depth)
  | call f _ args => f.depths depth ++ (depthsAll (depth + 1) args ++ [depth + 1 + args.length])

/-- The same for several trees in a row. -/
def depthsAll (depth : Nat) : List Expr → List Nat
  | [] => []
  | e :: es => e.depths depth ++ depthsAll (depth + 1) es

end

/-- The same for further expressions of a program. -/
def depthsNext : List Expr → List Nat
  | [] => []
  | e :: es => 1 :: (e.depths 0 ++ depthsNext es)

/-- The depths before the instructions of a program, and at its end. -/
def programDepths : List Expr → List Nat
  | [] => []
  | e :: es => e.depths 0 ++ (depthsNext es ++ [1])

theorem length_depthsAll {es : List Expr} (h : ∀ e ∈ es, ∀ depth, (e.depths depth).length = e.size)
    (depth : Nat) :
    (depthsAll depth es).length = sizeAll es := by
  induction es generalizing depth with
  | nil => rfl
  | cons e es ih =>
    rw [depthsAll, sizeAll, List.length_append, h e (by simp), ih fun d hd => h d (by simp [hd])]

theorem length_depths (e : Expr) : ∀ depth, (e.depths depth).length = e.size := by
  induction e with
  | leaf l => intro depth; rfl
  | group paren e ih => exact ih
  | unary op mark e ih => intro depth; simp [depths, size, ih]
  | join k mark l r ihl ihr =>
    intro depth
    cases k <;> simp only [depths, size, Connective.size, List.length_append, ihl, ihr,
      List.length_cons, List.length_nil] <;> omega
  | call f paren args ihf ihargs =>
    intro depth
    simp [depths, size, ihf, length_depthsAll ihargs, Nat.add_assoc]

theorem length_depthsNext (es : List Expr) : (depthsNext es).length = sizeNext es := by
  induction es with
  | nil => rfl
  | cons e es ih =>
    rw [depthsNext, sizeNext, List.length_cons, List.length_append, length_depths, ih]
    omega

/-- The first instruction of a tree finds the depth that the tree begins with. -/
theorem exists_depths_eq_cons (e : Expr) : ∀ depth, ∃ ds, e.depths depth = depth :: ds := by
  induction e with
  | leaf l => intro depth; exact ⟨[], rfl⟩
  | group paren e ih => exact ih
  | unary op mark e ih =>
    intro depth
    obtain ⟨ds, hds⟩ := ih depth
    exact ⟨_, by rw [depths, hds]; rfl⟩
  | join k mark l r ihl _ =>
    intro depth
    obtain ⟨ds, hds⟩ := ihl depth
    cases k <;> exact ⟨_, by rw [depths, hds]; rfl⟩
  | call f paren args ihf _ =>
    intro depth
    obtain ⟨ds, hds⟩ := ihf depth
    exact ⟨_, by rw [depths, hds]; rfl⟩

end Expr

/-! ## Code flows along its depths -/

section Placed

variable {chunk : Chunk} {slot : Value → UInt8} {d : Nat → Nat} {base k : Nat}

theorem first_depth {e : Expr} (h : Along (fun i n => d i = n) base (e.depths k)) : d base = k := by
  obtain ⟨ds, hds⟩ := e.exists_depths_eq_cons k
  rw [hds] at h
  exact h.1

theorem flow_leaf {l : Lexeme} (h : Placed chunk slot base (.leaf l))
    (hd : d (base + 1) = d base + 1) :
    Flow chunk d base (l.op slot) := by
  have hvalid := h.leaves l (by simp [Expr.leaves])
  have hc : ∀ v, l.constant? = some v → chunk.constant? (slot v) = some v :=
    fun v hv => h.constants v (by simp [hv])
  rcases hvalid.op_cases slot with ⟨-, hop⟩ | ⟨-, hop⟩ | ⟨-, hop⟩ | ⟨v, -, hv, hop⟩ | ⟨-, hv, hop⟩
  · rw [hop]
    exact hd
  · rw [hop]
    exact hd
  · rw [hop]
    exact hd
  · rw [hop]
    exact ⟨hd, v, hc v hv⟩
  · rw [hop]
    exact ⟨hd, _, hc _ hv⟩

/-- What `flow_of_placed` says of a tree. -/
def Flowing (chunk : Chunk) (slot : Value → UInt8) (d : Nat → Nat) (e : Expr) : Prop :=
  ∀ {base k : Nat}, Placed chunk slot base e → Along (fun i n => d i = n) base (e.depths k) →
    d (base + e.size) = k + 1 → Along (fun i ins => Flow chunk d i ins.op) base (e.code slot base)

theorem flow_of_placedAll {args : List Expr} (hargs : ∀ a ∈ args, Flowing chunk slot d a)
    (h : PlacedAll chunk slot base args)
    (hd : Along (fun i n => d i = n) base (Expr.depthsAll k args))
    (hend : d (base + Expr.sizeAll args) = k + args.length) :
    d base = k ∧ Along (fun i ins => Flow chunk d i ins.op) base (Expr.codeAll slot base args) := by
  induction args generalizing base k with
  | nil => exact ⟨hend, trivial⟩
  | cons e args ih =>
    rw [Expr.depthsAll, along_append, Expr.length_depths] at hd
    have hend' : d (base + e.size + Expr.sizeAll args) = k + 1 + args.length := by
      rw [Nat.add_assoc, ← Expr.sizeAll, hend, List.length_cons]
      omega
    obtain ⟨hnext, hrest⟩ := ih (fun a ha => hargs a (by simp [ha])) h.tail hd.2 hend'
    rw [Expr.codeAll, along_append, Expr.length_code]
    exact ⟨first_depth hd.1, hargs e (by simp) h.head hd.1 hnext, hrest⟩

/-! ### Joints -/

section Joints

variable {mark : Lexeme} {l r : Expr}

theorem flow_binary {op : BinaryOp} (hl : Flowing chunk slot d l) (hr : Flowing chunk slot d r) :
    Flowing chunk slot d (.join (.binary op) mark l r) := by
  intro base k h hd hend
  rw [Expr.depths, along_append, along_append, Expr.length_depths, Expr.length_depths] at hd
  obtain ⟨hdl, hdr, hop, -⟩ := hd
  have hlast : d (base + l.size + r.size + 1) = k + 1 := by
    rw [← hend, Expr.size_join_binary, ← Nat.add_assoc, ← Nat.add_assoc]
  rw [Expr.code, along_append, along_append, along_append, Expr.length_code,
    Connective.length_between, Expr.length_code]
  refine ⟨hl h.join_left hdl (first_depth hdr), trivial, hr h.join_right hdr hop, ⟨?_, ?_⟩, trivial⟩
  · show 1 ≤ d (base + l.size + r.size + 1)
    rw [hlast]
    exact Nat.succ_pos _
  · show d (base + l.size + r.size) = d (base + l.size + r.size + 1) + 1
    rw [hop, hlast]

theorem flow_and (hl : Flowing chunk slot d l) (hr : Flowing chunk slot d r) :
    Flowing chunk slot d (.join .and mark l r) := by
  intro base k h hd hend
  rw [Expr.depths, along_append, along_append, Expr.length_depths] at hd
  obtain ⟨hdl, ⟨h₁, h₂, h₃, -⟩, hdr⟩ := hd
  obtain ⟨htarget, hsize⟩ := h.toNat_done (.inl rfl)
  have hlast : d (base + l.size + 3 + r.size) = k + 1 := by
    rw [← hend, Expr.size_join_and, ← Nat.add_assoc, ← Nat.add_assoc]
  have hr₀ : d (base + l.size + 3) = k := first_depth hdr
  rw [Expr.code, along_append, along_append, along_append, Expr.length_code,
    Connective.length_between, Expr.length_code]
  refine ⟨hl h.join_left hdl h₁, ⟨⟨?_, ?_⟩, ⟨?_, ?_, ?_⟩, ?_, trivial⟩,
    hr h.join_right hdr hlast, trivial⟩
  · rw [h₁]
    exact Nat.succ_pos _
  · rw [h₁, h₂]
  · rw [h₂, h₃]
  -- the jump over the right operand meets the way through it with one value more
  · rw [htarget, h₃]
    exact hlast
  · rw [htarget]
    exact hsize
  · show d (base + l.size + 1 + 1) = d (base + l.size + 3) + 1
    rw [h₃, hr₀]

theorem flow_or (hl : Flowing chunk slot d l) (hr : Flowing chunk slot d r) :
    Flowing chunk slot d (.join .or mark l r) := by
  intro base k h hd hend
  rw [Expr.depths, along_append, along_append, Expr.length_depths] at hd
  obtain ⟨hdl, ⟨h₁, h₂, h₃, h₄, -⟩, hdr⟩ := hd
  obtain ⟨htarget, hsize⟩ := h.toNat_done (.inr rfl)
  obtain ⟨hfirst, hfirstSize⟩ := h.toNat_otherwise
  have hlast : d (base + l.size + 4 + r.size) = k + 1 := by
    rw [← hend, Expr.size_join_or, ← Nat.add_assoc, ← Nat.add_assoc]
  have hr₀ : d (base + l.size + 4) = k := first_depth hdr
  rw [Expr.code, along_append, along_append, along_append, Expr.length_code,
    Connective.length_between, Expr.length_code]
  refine ⟨hl h.join_left hdl h₁, ⟨⟨?_, ?_⟩, ⟨?_, ?_, ?_⟩, ⟨?_, ?_⟩, ?_, trivial⟩,
    hr h.join_right hdr hlast, trivial⟩
  · rw [h₁]
    exact Nat.succ_pos _
  · rw [h₁, h₂]
  · rw [h₂, h₃]
  -- the first jump leads to the right operand, the second one over it
  · rw [hfirst, h₃]
    exact h₄
  · rw [hfirst]
    exact hfirstSize
  · rw [htarget, h₃]
    exact hlast
  · rw [htarget]
    exact hsize
  · show d (base + l.size + 1 + 1 + 1) = d (base + l.size + 4) + 1
    rw [h₄, hr₀]

end Joints

/-- **Code flows along its depths.** -/
theorem flow_of_placed (e : Expr) : Flowing chunk slot d e := by
  induction e with
  | leaf l =>
    intro base k h hd hend
    exact ⟨flow_leaf h (by rw [hd.1]; exact hend), trivial⟩
  | group paren e ih =>
    intro base k h hd hend
    exact ih h.group hd hend
  | unary op mark e ih =>
    intro base k h hd hend
    rw [Expr.depths, along_append, Expr.length_depths] at hd
    have hmid : d (base + e.size) = k + 1 := hd.2.1
    rw [Expr.code, along_append, Expr.length_code]
    refine ⟨ih h.unary.1 hd.1 hmid, ⟨?_, ?_⟩, trivial⟩
    · rw [hmid]
      exact Nat.succ_pos _
    · rw [hmid]
      exact hend
  | join c mark l r ihl ihr =>
    cases c with
    | binary op => exact flow_binary ihl ihr
    | and => exact flow_and ihl ihr
    | or => exact flow_or ihl ihr
  | call f paren args ihf ihargs =>
    intro base k h hd hend
    obtain ⟨-, hcount⟩ := h.call_instruction
    rw [Expr.depths, along_append, along_append, Expr.length_depths,
      Expr.length_depthsAll fun a _ => a.length_depths] at hd
    obtain ⟨hdf, hdargs, hcall, -⟩ := hd
    obtain ⟨hfirst, hargs⟩ := flow_of_placedAll ihargs h.arguments hdargs hcall
    rw [Expr.code, along_append, along_append, Expr.length_code, Expr.length_codeAll]
    refine ⟨ihf h.callee hdf hfirst, hargs, ?_, trivial⟩
    show (UInt8.ofNat args.length).toNat + 1 ≤ d (base + f.size + Expr.sizeAll args)
    rw [hcount, hcall]
    omega

theorem flow_of_placedNext {es : List Expr} (h : PlacedNext chunk slot base es)
    (hd : Along (fun i n => d i = n) base (Expr.depthsNext es))
    (hend : d (base + Expr.sizeNext es) = 1) :
    d base = 1 ∧ Along (fun i ins => Flow chunk d i ins.op) base (Expr.codeNext slot base es) := by
  induction es generalizing base with
  | nil => exact ⟨hend, trivial⟩
  | cons e es ih =>
    obtain ⟨hpop, hd⟩ := hd
    rw [along_append, Expr.length_depths] at hd
    have hend' : d (base + 1 + e.size + Expr.sizeNext es) = 1 := by
      rw [show base + 1 + e.size + Expr.sizeNext es =
        base + Expr.sizeNext (e :: es) by rw [Expr.sizeNext]; omega]
      exact hend
    obtain ⟨hnext, hrest⟩ := ih h.tail hd.2 hend'
    rw [Expr.codeNext, along_cons, along_append, Expr.length_code]
    refine ⟨hpop, ?_, flow_of_placed e h.head hd.1 hnext, hrest⟩
    show d base = d (base + 1) + 1
    rw [hpop, first_depth hd.1]

end Placed

/-! ## Orderly machines -/

/-- What can go wrong only in code that does not keep the discipline. -/
def Fault.IsDisorder : Fault → Prop
  | stackUnderflow | stackImbalance _ | invalidConstant _ | invalidJump _ => True
  | _ => False

theorem Fault.ne_of_not_isDisorder {f : Fault} (h : ¬ f.IsDisorder) :
    f ≠ .stackUnderflow ∧ (∀ n, f ≠ .stackImbalance n) ∧ (∀ n, f ≠ .invalidConstant n) ∧
      ∀ n, f ≠ .invalidJump n := by
  refine ⟨?_, ?_, ?_, ?_⟩
  · rintro rfl
    exact h trivial
  all_goals
    rintro n rfl
    exact h trivial

/-- A chunk whose instructions keep the discipline for some depths. -/
structure Disciplined (chunk : Chunk) (d : Nat → Nat) : Prop where
  start : d 0 = 0
  finish : d chunk.code.size = 1
  flow : ∀ i ins, chunk.code[i]? = some ins → Flow chunk d i ins.op

namespace Disciplined

variable {chunk : Chunk} {d : Nat → Nat} {i : Instruction}

theorem exists_flow (hd : Disciplined chunk d) (hi : i ∈ chunk.code) :
    ∃ n, Flow chunk d n i.op := by
  obtain ⟨n, hn⟩ := Array.mem_iff_getElem?.mp hi
  exact ⟨n, hd.flow n i hn⟩

theorem target_le_size (hd : Disciplined chunk d) (hi : i ∈ chunk.code) {target : UInt16}
    (hop : i.op = .jump target ∨ i.op = .jumpIfFalse target) : target.toNat ≤ chunk.code.size := by
  obtain ⟨n, hn⟩ := hd.exists_flow hi
  exact hn.target_le_size hop

theorem exists_constant (hd : Disciplined chunk d) (hi : i ∈ chunk.code) {slot : UInt8}
    (hop : i.op = .constant slot) :
    ∃ v, chunk.constant? slot = some v := by
  obtain ⟨n, hn⟩ := hd.exists_flow hi
  rw [hop] at hn
  exact hn.2

theorem exists_name (hd : Disciplined chunk d) (hi : i ∈ chunk.code) {slot : UInt8}
    (hop : i.op = .global slot) :
    ∃ name, chunk.constant? slot = some (.string name) := by
  obtain ⟨n, hn⟩ := hd.exists_flow hi
  rw [hop] at hn
  exact hn.2

end Disciplined

theorem disciplined_of_placed {chunk : Chunk} {slot : Value → UInt8} {d : Nat → Nat} {e : Expr}
    {es : List Expr} (hcode : chunk.code.toList = Expr.programCode slot (e :: es))
    (he : Placed chunk slot 0 e) (hes : PlacedNext chunk slot e.size es)
    (hd : Along (fun i n => d i = n) 0 (Expr.programDepths (e :: es))) : Disciplined chunk d := by
  rw [Expr.programDepths, along_append, along_append, Expr.length_depths, Expr.length_depthsNext,
    Nat.zero_add] at hd
  obtain ⟨hde, hdes, hend, -⟩ := hd
  have hsize : chunk.code.size = e.size + Expr.sizeNext es := by
    rw [← Array.length_toList, hcode]
    simp [Expr.programCode]
  obtain ⟨hnext, hflow⟩ := flow_of_placedNext hes hdes hend
  have hfirst := flow_of_placed e he hde (by rw [Nat.zero_add]; exact hnext)
  have hall : Along (fun i ins => Flow chunk d i ins.op) 0 chunk.code.toList := by
    rw [hcode, Expr.programCode, along_append, Expr.length_code, Nat.zero_add]
    exact ⟨hfirst, hflow⟩
  refine ⟨first_depth hde, by rw [hsize]; exact hend, fun i ins hi => ?_⟩
  have := hall.getElem? (i := i) (by rw [Array.getElem?_toList]; exact hi)
  rwa [Nat.zero_add] at this

/-- The depth at an index of the code of a program. -/
def Expr.depthAt (es : List Expr) (i : Nat) : Nat := ((programDepths es)[i]?).getD 0

/-- The code of an acceptable program keeps the discipline. -/
theorem disciplined_ofProgram {e : Expr} {es : List Expr} (h : Expr.Acceptable (e :: es)) :
    Disciplined (Chunk.ofProgram (e :: es)) (Expr.depthAt (e :: es)) := by
  obtain ⟨slot, hcode, he, hes⟩ := placed_ofProgram h
  refine disciplined_of_placed hcode he hes (along_of_getElem? fun i n hi => ?_)
  rw [Nat.zero_add, Expr.depthAt, hi]
  rfl

namespace Machine

variable {chunk : Chunk} {globals : Globals} {d : Nat → Nat}

/-- The machine has as many values on its stack as the depths say. -/
structure Orderly (chunk : Chunk) (d : Nat → Nat) (m : Machine) : Prop where
  next : m.next ≤ chunk.code.size
  size : m.stack.size = d m.next

/-- After a step: an orderly machine, or a fault that does not come from disorder. -/
def OrderlyResult (chunk : Chunk) (d : Nat → Nat) : Except Fault Machine → Prop
  | .ok m => m.Orderly chunk d
  | .error f => ¬ f.IsDisorder

theorem orderly_push {next : Nat} {s : Stack} {v : Value} (hn : next ≤ chunk.code.size)
    (hs : s.size + 1 = d next) :
    OrderlyResult chunk d (push ⟨next, s⟩ v) := by
  by_cases h : s.size = s.capacity
  · have hpush : push ⟨next, s⟩ v = .error .stackOverflow := by
      simp only [push, Stack.push, show s.values.size = s.capacity from h, if_true]
      rfl
    rw [hpush]
    exact id
  · have hpush : push ⟨next, s⟩ v = .ok ⟨next, s.put v⟩ := by
      simp only [push, Stack.push, show ¬ s.values.size = s.capacity from h, if_false]
      rfl
    rw [hpush]
    exact ⟨hn, by rw [Stack.size_put]; exact hs⟩

theorem orderly_pushResult {next : Nat} {s : Stack} {op : Op} {operands : List Value}
    {r : Except OperandError Value} (hn : next ≤ chunk.code.size) (hs : s.size + 1 = d next) :
    OrderlyResult chunk d (pushResult ⟨next, s⟩ op operands r) := by
  cases r with
  | ok v => exact orderly_push hn hs
  | error e => cases e <;> exact id

/-- What a step does at an instruction that flows along the depths: with what it adds, the stack has
the depth of the next index. -/
inductive StepsAlong (chunk : Chunk) (d : Nat → Nat) (m : Machine) : Except Fault Machine → Prop
  | pushed {t : Stack} {v : Value} (size : t.size + 1 = d (m.next + 1))
      (capacity : t.capacity = m.stack.capacity) :
    StepsAlong chunk d m (push ⟨m.next + 1, t⟩ v)
  | computed {t : Stack} {op : Op} {operands : List Value} {r : Except OperandError Value}
    (size : t.size + 1 = d (m.next + 1)) (capacity : t.capacity = m.stack.capacity) :
    StepsAlong chunk d m (pushResult ⟨m.next + 1, t⟩ op operands r)
  | moved {t : Stack} {next : Nat} (size : t.size = d next) (le : next ≤ chunk.code.size) :
    StepsAlong chunk d m (.ok ⟨next, t⟩)
  | called (v : Value) : StepsAlong chunk d m (.error (.notCallable v.kind))

section Instructions

variable {next : Nat} {s : Stack} {i : Instruction}

theorem stepsAlong_literal {v : Value}
    (hv : (i.op = .nil ∧ v = .nil) ∨ (i.op = .true ∧ v = .bool true) ∨
      (i.op = .false ∧ v = .bool false))
    (hflow : d (next + 1) = d next + 1) (hsize : s.size = d next) :
    StepsAlong chunk d ⟨next, s⟩ (step chunk globals i ⟨next, s⟩) := by
  rw [step_literal hv]
  exact .pushed (by rw [hsize, hflow]) rfl

theorem stepsAlong_constant {slot : UInt8} (hi : i.op = .constant slot)
    (hflow : Flow chunk d next (.constant slot)) (hsize : s.size = d next) :
    StepsAlong chunk d ⟨next, s⟩ (step chunk globals i ⟨next, s⟩) := by
  obtain ⟨hdepth, v, hv⟩ := hflow
  rw [step_constant hi hv]
  exact .pushed (by rw [hsize, hdepth]) rfl

theorem stepsAlong_global {slot : UInt8} (hi : i.op = .global slot)
    (hflow : Flow chunk d next (.global slot)) (hsize : s.size = d next) :
    StepsAlong chunk d ⟨next, s⟩ (step chunk globals i ⟨next, s⟩) := by
  obtain ⟨hdepth, name, hv⟩ := hflow
  rw [step_global hi hv]
  exact .pushed (by rw [hsize, hdepth]) rfl

/-- A call finds its arguments and the callee, and no callee can be called. -/
theorem stepsAlong_call {count : UInt8} (hi : i.op = .call count)
    (hflow : Flow chunk d next (.call count)) (hsize : s.size = d next) :
    StepsAlong chunk d ⟨next, s⟩ (step chunk globals i ⟨next, s⟩) := by
  have hdepth : count.toNat + 1 ≤ s.size := by
    rw [hsize]
    exact hflow
  obtain ⟨t, vs, rfl, hvs⟩ := Stack.exists_putAll (Nat.le_of_succ_le hdepth)
  rw [Stack.size_putAll, hvs] at hdepth
  obtain ⟨u, v, rfl⟩ := Stack.exists_put (s := t) (by omega)
  rw [step_call hi hvs.symm]
  exact .called v

theorem stepsAlong_pop (hi : i.op = .pop) (hflow : Flow chunk d next .pop)
    (hsize : s.size = d next) (hnext : next + 1 ≤ chunk.code.size) :
    StepsAlong chunk d ⟨next, s⟩ (step chunk globals i ⟨next, s⟩) := by
  have hdepth : d next = d (next + 1) + 1 := hflow
  obtain ⟨t, v, rfl⟩ := Stack.exists_put (s := s) (by omega)
  rw [step_pop hi]
  rw [Stack.size_put] at hsize
  exact .moved (by omega) hnext

theorem stepsAlong_dup (hi : i.op = .dup) (hflow : Flow chunk d next .dup)
    (hsize : s.size = d next) :
    StepsAlong chunk d ⟨next, s⟩ (step chunk globals i ⟨next, s⟩) := by
  obtain ⟨hpos, hdepth⟩ := hflow
  obtain ⟨t, v, rfl⟩ := Stack.exists_put (s := s) (by omega)
  rw [step_dup hi]
  exact .pushed (by rw [hsize, hdepth]) rfl

theorem stepsAlong_unary {op : UnaryOp} (hi : i.op = .unary op)
    (hflow : Flow chunk d next (.unary op)) (hsize : s.size = d next) :
    StepsAlong chunk d ⟨next, s⟩ (step chunk globals i ⟨next, s⟩) := by
  obtain ⟨hpos, hdepth⟩ := hflow
  obtain ⟨t, v, rfl⟩ := Stack.exists_put (s := s) (by omega)
  rw [step_unary hi]
  rw [Stack.size_put] at hsize
  exact .computed (by rw [hsize, hdepth]) Stack.capacity_put.symm

theorem stepsAlong_binary {op : BinaryOp} (hi : i.op = .binary op)
    (hflow : Flow chunk d next (.binary op)) (hsize : s.size = d next) :
    StepsAlong chunk d ⟨next, s⟩ (step chunk globals i ⟨next, s⟩) := by
  obtain ⟨hpos, hdepth⟩ := hflow
  obtain ⟨t, b, rfl⟩ := Stack.exists_put (s := s) (by omega)
  rw [Stack.size_put] at hsize
  obtain ⟨u, a, rfl⟩ := Stack.exists_put (s := t) (by omega)
  rw [Stack.size_put] at hsize
  have hsize : u.size + 1 = d (next + 1) := by omega
  rw [step_binary hi]
  exact .computed hsize (by rw [Stack.capacity_put, Stack.capacity_put])

theorem stepsAlong_jumpIfFalse {target : UInt16} (hi : i.op = .jumpIfFalse target)
    (hflow : Flow chunk d next (.jumpIfFalse target)) (hsize : s.size = d next)
    (hnext : next + 1 ≤ chunk.code.size) :
    StepsAlong chunk d ⟨next, s⟩ (step chunk globals i ⟨next, s⟩) := by
  obtain ⟨hdepth, htarget, hle⟩ := hflow
  obtain ⟨t, v, rfl⟩ := Stack.exists_put (s := s) (by omega)
  rw [Stack.size_put] at hsize
  rw [step_jumpIfFalse hi hle]
  by_cases hv : v.isFalsy = true
  · rw [if_pos hv]
    exact .moved (by omega) hle
  · rw [if_neg hv]
    exact .moved (by omega) hnext

theorem stepsAlong_jump {target : UInt16} (hi : i.op = .jump target)
    (hflow : Flow chunk d next (.jump target)) (hsize : s.size = d next) :
    StepsAlong chunk d ⟨next, s⟩ (step chunk globals i ⟨next, s⟩) := by
  obtain ⟨htarget, hle⟩ := hflow
  rw [step_jump hi hle]
  exact .moved (by rw [hsize, htarget]) hle

end Instructions

/-- One step at an instruction that flows along the depths, whatever the other instructions do. -/
theorem stepsAlong_of_flow (globals : Globals) {m : Machine} {i : Instruction}
    (hflow : Flow chunk d m.next i.op) (hsize : m.stack.size = d m.next)
    (hi : chunk.code[m.next]? = some i) :
    StepsAlong chunk d m (m.step chunk globals i) := by
  have hnext : m.next + 1 ≤ chunk.code.size := (Array.getElem?_eq_some_iff.mp hi).1
  obtain ⟨op, offset⟩ := i
  cases op with
  | nil => exact stepsAlong_literal (.inl ⟨rfl, rfl⟩) hflow hsize
  | true => exact stepsAlong_literal (.inr (.inl ⟨rfl, rfl⟩)) hflow hsize
  | false => exact stepsAlong_literal (.inr (.inr ⟨rfl, rfl⟩)) hflow hsize
  | constant slot => exact stepsAlong_constant rfl hflow hsize
  | global slot => exact stepsAlong_global rfl hflow hsize
  | call count => exact stepsAlong_call rfl hflow hsize
  | pop => exact stepsAlong_pop rfl hflow hsize hnext
  | dup => exact stepsAlong_dup rfl hflow hsize
  | unary op => exact stepsAlong_unary rfl hflow hsize
  | binary op => exact stepsAlong_binary rfl hflow hsize
  | jumpIfFalse target => exact stepsAlong_jumpIfFalse rfl hflow hsize hnext
  | jump target => exact stepsAlong_jump rfl hflow hsize

/-- A step at an instruction that flows along the depths keeps to them. -/
theorem orderly_step_of_flow (globals : Globals) {m : Machine} {i : Instruction}
    (hflow : Flow chunk d m.next i.op) (hm : m.Orderly chunk d)
    (hi : chunk.code[m.next]? = some i) : OrderlyResult chunk d (m.step chunk globals i) := by
  have hnext : m.next + 1 ≤ chunk.code.size := (Array.getElem?_eq_some_iff.mp hi).1
  have hsteps := stepsAlong_of_flow globals hflow hm.size hi
  generalize m.step chunk globals i = res at hsteps ⊢
  cases hsteps with
  | pushed hsize => exact orderly_push hnext hsize
  | computed hsize => exact orderly_pushResult hnext hsize
  | moved hsize hle => exact ⟨hle, hsize⟩
  | called v => exact id

/-- **One step keeps the discipline.** -/
theorem orderly_step (globals : Globals) {m : Machine} {i : Instruction} (hd : Disciplined chunk d)
    (hm : m.Orderly chunk d) (hi : chunk.code[m.next]? = some i) :
    OrderlyResult chunk d (m.step chunk globals i) :=
  orderly_step_of_flow globals (hd.flow m.next i hi) hm hi

/-- The machines that a run comes to. -/
inductive Reaches (chunk : Chunk) (globals : Globals) (m : Machine) : Machine → Prop
  | refl : Reaches chunk globals m m
  | step {m' m'' : Machine} {i : Instruction} (h : Reaches chunk globals m m')
      (hi : chunk.code[m'.next]? = some i)
      (hs : m'.step chunk globals i = .ok m'') : Reaches chunk globals m m''

/-- What the steps of orderly machines keep, runs keep, by induction on their steps. -/
theorem orderly_of_reaches_of_step {m m' : Machine}
    (hstep : ∀ (m : Machine) (i : Instruction) (m' : Machine),
      m.Orderly chunk d → chunk.code[m.next]? = some i →
      m.step chunk globals i = .ok m' → m'.Orderly chunk d) (hm : m.Orderly chunk d)
    (h : Reaches chunk globals m m') : m'.Orderly chunk d := by
  induction h with
  | refl => exact hm
  | @step m' m'' i _ hi hs ih => exact hstep m' i m'' ih hi hs

/-- **A run keeps the discipline.** -/
theorem orderly_of_reaches {m m' : Machine} (hd : Disciplined chunk d) (hm : m.Orderly chunk d)
    (h : Reaches chunk globals m m') : m'.Orderly chunk d := by
  refine orderly_of_reaches_of_step (fun m i m' hm hi hs => ?_) hm h
  have := orderly_step globals hd hm hi
  rw [hs] at this
  exact this

/-- At the end of the code an orderly machine has its result. -/
theorem exists_result {m : Machine} (hd : Disciplined chunk d) (hm : m.Orderly chunk d)
    (hend : chunk.code.size ≤ m.next) : ∃ v, m.result = .ok v := by
  obtain ⟨next, s⟩ := m
  have hnext : next = chunk.code.size := Nat.le_antisymm hm.next hend
  have hsize : s.size = 1 := by
    rw [← hd.finish, ← hnext]
    exact hm.size
  obtain ⟨t, v, rfl⟩ := Stack.exists_put (s := s) (by omega)
  refine ⟨v, ?_⟩
  rw [result, if_pos hsize, Stack.pop_put]
  rfl

theorem Reaches.head {m m' m'' : Machine} {i : Instruction} (hi : chunk.code[m.next]? = some i)
    (hs : m.step chunk globals i = .ok m') (h : Reaches chunk globals m' m'') :
    Reaches chunk globals m m'' := by
  induction h with
  | refl => exact .step .refl hi hs
  | step _ hi' hs' ih => exact .step ih hi' hs'

/-- A run that ends comes to a machine at the end of the code, and this has its result; or to a
machine whose step is a fault, and this is the outcome. -/
theorem exists_reaches_of_runFor {n : Nat} {m : Machine} {r : Except Fault Value}
    (h : runFor chunk globals n m = some r) :
    ∃ m', Reaches chunk globals m m' ∧ (chunk.code.size ≤ m'.next ∧ r = m'.result ∨
      ∃ i f, chunk.code[m'.next]? = some i ∧ m'.step chunk globals i = .error f ∧
        r = .error f) := by
  induction n generalizing m with
  | zero =>
    rw [runFor] at h
    split at h
    · cases h
    · exact ⟨m, .refl, .inl ⟨Nat.not_lt.mp ‹_›, (Option.some.inj h).symm⟩⟩
  | succ n ih =>
    rw [runFor] at h
    split at h
    · rename_i hnone
      exact ⟨m, .refl, .inl ⟨Array.getElem?_eq_none_iff.mp hnone, (Option.some.inj h).symm⟩⟩
    · rename_i i hi
      split at h
      · rename_i m' hs
        obtain ⟨m'', hm'', hlast⟩ := ih h
        exact ⟨m'', hm''.head hi hs, hlast⟩
      · rename_i f hs
        exact ⟨m, .refl, .inr ⟨i, f, hi, hs, (Option.some.inj h).symm⟩⟩

theorem not_isDisorder_of_runFor {n : Nat} {m : Machine} {f : Fault} (hd : Disciplined chunk d)
    (hm : m.Orderly chunk d) (h : runFor chunk globals n m = some (.error f)) : ¬ f.IsDisorder := by
  obtain ⟨m', hreaches, ⟨hend, hr⟩ | ⟨i, g, hi, hs, hr⟩⟩ := exists_reaches_of_runFor h
  · obtain ⟨v, hv⟩ := exists_result hd (orderly_of_reaches hd hm hreaches) hend
    rw [hv] at hr
    cases hr
  · have hstep := orderly_step globals hd (orderly_of_reaches hd hm hreaches) hi
    rw [hs] at hstep
    cases hr
    exact hstep

theorem orderly_start (hd : Disciplined chunk d) (limits : Limits) : limits.start.Orderly chunk d :=
  ⟨Nat.zero_le _, hd.start.symm⟩

end Machine

/-- A run under limits is broken off, or its fault is that of a run of some number of
instructions. -/
theorem Chunk.fault_of_run?_eq_error {chunk : Chunk} {globals : Globals}
    {limits : Limits} {f : Fault} (h : chunk.run? globals limits = some (.error f)) :
    (∃ n, f = .aborted n) ∨ ∃ n, Machine.runFor chunk globals n limits.start = some (.error f) := by
  unfold Chunk.run? at h
  split at h
  · cases h
  · split at h
    · exact .inr (Machine.run?_eq_some_iff.mp h)
    · rename_i n _
      cases hr : Machine.runFor chunk globals n limits.start with
      | none =>
        rw [hr] at h
        cases h
        exact .inl ⟨n, rfl⟩
      | some r =>
        rw [hr] at h
        exact .inr ⟨n, hr.trans h⟩

/-- The run of a disciplined chunk ends in no fault of disorder. -/
theorem Chunk.not_isDisorder_of_run? {chunk : Chunk} {d : Nat → Nat} {globals : Globals}
    {limits : Limits} {f : Fault} (hd : Disciplined chunk d)
    (h : chunk.run? globals limits = some (.error f)) : ¬ f.IsDisorder := by
  rcases Chunk.fault_of_run?_eq_error h with ⟨n, rfl⟩ | ⟨n, h⟩
  · exact id
  · exact Machine.not_isDisorder_of_runFor hd (Machine.orderly_start hd limits) h

/-- **Stack discipline of compiled code.** A run of an accepted source ends in no fault of disorder,
whatever the globals and the limits are. If there is any code, there is a depth for each index of
it, none at the start and one at the end, and whenever the run comes to an index the stack holds as
many values. All jumps stay in the code, all constants are in the pool, and all names are texts. -/
theorem exists_depth_of_compile_eq_ok {source : String} {chunk : Chunk}
    (h : compile source = .ok chunk) :
    (∀ (globals : Globals) (limits : Limits) (f : Fault),
      chunk.run? globals limits = some (.error f) →
      f ≠ .stackUnderflow ∧ (∀ n, f ≠ .stackImbalance n) ∧ (∀ n, f ≠ .invalidConstant n) ∧
        ∀ n, f ≠ .invalidJump n) ∧
    (chunk.code.size ≠ 0 → ∃ d : Nat → Nat, d 0 = 0 ∧ d chunk.code.size = 1 ∧
      ∀ (globals : Globals) (limits : Limits) (m : Machine),
        Machine.Reaches chunk globals limits.start m →
        m.next ≤ chunk.code.size ∧ m.stack.size = d m.next) ∧
    (∀ i ∈ chunk.code, ∀ target, i.op = .jump target ∨ i.op = .jumpIfFalse target →
      target.toNat ≤ chunk.code.size) ∧
    (∀ i ∈ chunk.code, ∀ slot, i.op = .constant slot → ∃ v, chunk.constant? slot = some v) ∧
    ∀ i ∈ chunk.code, ∀ slot, i.op = .global slot →
      ∃ name, chunk.constant? slot = some (.string name) := by
  obtain ⟨lexemes, program, -, hacc, rfl⟩ := compile_eq_ok_iff.mp h
  cases program with
  | nil =>
    refine ⟨fun globals limits f hrun => ?_, fun hne => absurd rfl hne, ?_, ?_, ?_⟩
    · cases hrun
    all_goals
      intro i hi
      cases hi with
      | mk hi => cases hi
  | cons e es =>
    have hd := disciplined_ofProgram hacc
    refine ⟨fun globals limits f hrun =>
      Fault.ne_of_not_isDisorder (Chunk.not_isDisorder_of_run? hd hrun),
      fun _ => ⟨_, hd.start, hd.finish, fun globals limits m hm => ?_⟩,
      fun i hi target => hd.target_le_size hi, fun i hi slot => hd.exists_constant hi,
      fun i hi slot => hd.exists_name hi⟩
    have := Machine.orderly_of_reaches hd (Machine.orderly_start hd limits) hm
    exact ⟨this.next, this.size⟩

/-- Both ways through a conjunction come to its end with one value. -/
theorem exists_depth_conjunction :
    ∃ chunk, compile "a and b" = .ok chunk ∧ ∃ d : Nat → Nat, d 0 = 0 ∧ d 5 = 1 ∧
    ∀ (globals : Globals) (limits : Limits) (m : Machine),
      Machine.Reaches chunk globals limits.start m →
      m.next ≤ 5 ∧ m.stack.size = d m.next := by
  have h : compile "a and b" = .ok
      { code := #[⟨.global 0, 0⟩, ⟨.dup, 2⟩, ⟨.jumpIfFalse 5, 2⟩, ⟨.pop, 2⟩, ⟨.global 1, 6⟩],
        constants := #[.string "a", .string "b"] } := by cbv
  obtain ⟨-, hdepth, -⟩ := exists_depth_of_compile_eq_ok h
  exact ⟨_, h, hdepth (by decide)⟩

end LuaExpr
