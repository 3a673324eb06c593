import Mathlib.Data.List.Nodup
import PointsTo.Program.Assembly
import PointsTo.Program.Inspect
import PointsTo.Proofs.Execution

/-!
# Assembled programs

The tables of an assembled program agree with each other: a function is the address of one value, its
parameters are its arguments, and an instruction stands once in the one block that it names.  What an
instruction may refer to is up to the program; in a scoped program it refers to values of its own
function, and constants refer to no values of functions at all.
-/

namespace PointsTo

open Query

/-- An entry is replaced by what the change makes of it. -/
theorem alter_eq_ok_iff {α : Type} {table table' : List α} {id : Nat} {f : α → Query α} :
    alter table id f = .ok table' ↔ ∃ a b, table[id]? = some a ∧ f a = .ok b ∧ table.set id b = table' := by
  simp only [alter, bind_eq_ok_iff, pure_eq_ok_iff, lookup_eq_ok_iff]
  exact exists_congr fun a ↦ exists_and_left.symm

/-- The instructions of a block, none if there is no such block. -/
def Function.instsAt (fn : Function) (b : BlockId) : List ValueId := ((fn.blocks[b]?).map (·.insts)).getD []

namespace ValueKind

/-- The function that an instruction or an argument belongs to. -/
def home? : ValueKind → Option FuncId
  | .instruction inst => some inst.function
  | .argument f _ => some f
  | _ => none

/-- The values that a value refers to. -/
def operands : ValueKind → List ValueId
  | .instruction inst => inst.operands
  | .constant (.expr _ operands) => operands
  | .constant (.aggregate elems) => elems
  | _ => []

end ValueKind

namespace Program

variable {prog prog' : Program} {v w : ValueId} {f : FuncId} {b : BlockId} {x : Value}

/-! ## Views of the tables -/

def kindAt (prog : Program) (v : ValueId) : Option ValueKind := (prog.values[v]?).map (·.kind)

def instsOf (prog : Program) (f : FuncId) (b : BlockId) : List ValueId :=
  ((prog.functions[f]?).map (·.instsAt b)).getD []

/-- The function that a value belongs to. -/
def home? (prog : Program) (v : ValueId) : Option FuncId := (prog.kindAt v).bind ValueKind.home?

theorem kindAt_of_value (h : prog.value v = .ok x) : prog.kindAt v = some x.kind := by
  simp [kindAt, lookup_eq_ok_iff.1 h]

theorem value_of_kindAt {k : ValueKind} (h : prog.kindAt v = some k) : ∃ x, prog.value v = .ok x ∧ x.kind = k := by
  obtain ⟨x, hx, hk⟩ := Option.map_eq_some_iff.1 h
  exact ⟨x, lookup_eq_ok_iff.2 hx, hk⟩

theorem instruction_unique {inst inst' : Instruction} (h : prog.kindAt v = some (.instruction inst))
    (h' : prog.kindAt v = some (.instruction inst')) : inst = inst' :=
  ValueKind.instruction.inj (Option.mem_unique h h')

theorem home?_of_kindAt {k : ValueKind} (h : prog.kindAt v = some k) : prog.home? v = k.home? := by
  simp [home?, h]

theorem instruction?_eq_ok_iff {inst : Instruction} :
    prog.instruction? v = .ok (some inst) ↔ prog.kindAt v = some (.instruction inst) := by
  simp only [instruction?, bind_eq_ok_iff, value, lookup_eq_ok_iff, kindAt,
    Option.map_eq_some_iff]
  refine exists_congr fun x ↦ and_congr_right fun _ ↦ ?_
  cases hkind : x.kind <;> simp [pure_eq_ok_iff]

theorem arguments_unique {inst : Instruction} {arguments : List ValueId} (hv : prog.kindAt v = some (.instruction inst))
    (h : prog.callArguments v = .ok arguments) : inst.arguments = arguments := by
  simpa [callArguments, instruction?_eq_ok_iff.2 hv, bind_eq_ok_iff, pure_eq_ok_iff] using h

theorem constant?_eq_ok_iff {c : Constant} : prog.constant? v = .ok (some c) ↔ prog.kindAt v = some (.constant c) := by
  simp only [constant?, bind_eq_ok_iff, value, lookup_eq_ok_iff, kindAt, Option.map_eq_some_iff]
  refine exists_congr fun x ↦ and_congr_right fun _ ↦ ?_
  cases hkind : x.kind <;> simp [pure_eq_ok_iff]

theorem kindAt_ne_of_instruction? (h : prog.instruction? v = .ok none) (inst : Instruction) :
    prog.kindAt v ≠ some (.instruction inst) := by
  intro hkind
  rw [instruction?_eq_ok_iff.2 hkind] at h
  exact absurd (Except.ok.inj h) (by simp)

theorem instsOf_of_block {fn : Function} {blk : Block} (hfn : prog.function f = .ok fn) (hblk : fn.block b = .ok blk) :
    prog.instsOf f b = blk.insts := by
  simp [instsOf, Function.instsAt, lookup_eq_ok_iff.1 hfn, lookup_eq_ok_iff.1 hblk]

theorem lt_of_kindAt {k : ValueKind} (h : prog.kindAt v = some k) : v < prog.values.length := by
  obtain ⟨x, hx, -⟩ := Option.map_eq_some_iff.1 h
  exact (List.getElem?_eq_some_iff.1 hx).1

/-- What is added at the end is found at the end. -/
theorem getElem?_append_singleton {α : Type} {l : List α} {a c : α} {i : Nat} :
    (l ++ [a])[i]? = some c ↔ l[i]? = some c ∨ (i = l.length ∧ a = c) := by
  grind

theorem kindAt_addValue {k : ValueKind} :
    (prog.addValue x).kindAt v = some k ↔ prog.kindAt v = some k ∨ (v = prog.values.length ∧ x.kind = k) := by
  simp only [kindAt, addValue, Option.map_eq_some_iff, getElem?_append_singleton]
  constructor
  · rintro ⟨y, hy | ⟨rfl, rfl⟩, hk⟩
    · exact .inl ⟨y, hy, hk⟩
    · exact .inr ⟨rfl, hk⟩
  · rintro (⟨y, hy, hk⟩ | ⟨rfl, hk⟩)
    · exact ⟨y, .inl hy, hk⟩
    · exact ⟨x, .inr ⟨rfl, rfl⟩, hk⟩

/-! ## Coherence -/

/-- The tables agree with each other. -/
structure Coherent (prog : Program) : Prop where
  function : ∀ {v f}, prog.kindAt v = some (.function f) → (prog.functions[f]?).map (·.value) = some v
  param : ∀ {f ps j v}, (prog.functions[f]?).map (·.params) = some ps → ps[j]? = some v →
    prog.kindAt v = some (.argument f j)
  placed : ∀ {v inst}, prog.kindAt v = some (.instruction inst) → v ∈ prog.instsOf inst.function inst.block
  inst : ∀ {v f b}, v ∈ prog.instsOf f b →
    ∃ inst, prog.kindAt v = some (.instruction inst) ∧ inst.function = f ∧ inst.block = b
  nodup : ∀ f b, (prog.instsOf f b).Nodup
  global : ∀ {i v}, (prog.globals[i]?).map (·.value) = some v → prog.kindAt v = some (.global i)

namespace Coherent

/-- Each function is the address of one value. -/
theorem function_unique (h : prog.Coherent) (hv : prog.kindAt v = some (.function f))
    (hw : prog.kindAt w = some (.function f)) : v = w := by
  have hvf := h.function hv
  rw [h.function hw, Option.some.injEq] at hvf
  exact hvf.symm

theorem kindAt_global (h : prog.Coherent) {g : Global} (hg : g ∈ prog.globals) :
    ∃ index, prog.kindAt g.value = some (.global index) := by
  obtain ⟨index, hindex⟩ := List.mem_iff_getElem?.1 hg
  exact ⟨index, h.global (by rw [hindex]; rfl)⟩

theorem empty (name : String) (layout : DataLayout) : ({ name, layout } : Program).Coherent := by
  refine ⟨?_, ?_, ?_, ?_, ?_, ?_⟩ <;> simp [kindAt, instsOf]

/-- A new value that is neither function, nor instruction, nor global changes nothing. -/
theorem addValue (h : prog.Coherent) (hf : ∀ f, x.kind ≠ .function f) (hi : ∀ inst, x.kind ≠ .instruction inst) :
    (prog.addValue x).Coherent where
  function hv := by
    rcases kindAt_addValue.1 hv with hv | ⟨-, hx⟩
    · exact h.function hv
    · exact absurd hx (hf _)
  param hps hv := kindAt_addValue.2 (.inl (h.param hps hv))
  placed hv := by
    rcases kindAt_addValue.1 hv with hv | ⟨-, hx⟩
    · exact h.placed hv
    · exact absurd hx (hi _)
  inst hv := by
    obtain ⟨inst, hinst, hfb⟩ := h.inst hv
    exact ⟨inst, kindAt_addValue.2 (.inl hinst), hfb⟩
  nodup := h.nodup
  global hv := kindAt_addValue.2 (.inl (h.global hv))

/-- A function is replaced by one with the same address, parameters and instructions. -/
theorem alterFunction (h : prog.Coherent) {change : Function → Query Function}
    (hchange : ∀ fn fn', change fn = .ok fn' → fn'.value = fn.value ∧ fn'.params = fn.params ∧
      ∀ b, fn'.instsAt b = fn.instsAt b)
    (hprog : prog.alterFunction f change = .ok prog') : prog'.Coherent := by
  simp only [Program.alterFunction, bind_eq_ok_iff, pure_eq_ok_iff, alter_eq_ok_iff] at hprog
  obtain ⟨_, ⟨fn, fn', hfn, hfn', rfl⟩, rfl⟩ := hprog
  obtain ⟨hvalue, hparams, hinsts⟩ := hchange fn fn' hfn'
  -- A view that is the same for both functions is the same for both tables.
  have hview {α : Type} (view : Function → α) (hsame : view fn' = view fn) (g : FuncId) :
      ((prog.functions.set f fn')[g]?).map view = (prog.functions[g]?).map view := by
    by_cases hg : f = g
    · subst hg
      simp [List.getElem?_set_self (List.getElem?_eq_some_iff.1 hfn).1, hfn, hsame]
    · rw [List.getElem?_set_ne hg]
  have hinstsOf (g : FuncId) (b : BlockId) :
      ({ prog with functions := prog.functions.set f fn' } : Program).instsOf g b = prog.instsOf g b :=
    congrArg (·.getD []) (hview (·.instsAt b) (hinsts b) g)
  refine ⟨fun hv ↦ ?_, fun hps ↦ ?_, fun hv ↦ ?_, fun hv ↦ ?_, fun g b ↦ ?_, h.global⟩
  · exact (hview _ hvalue _).trans (h.function hv)
  · exact h.param ((hview _ hparams _).symm.trans hps)
  · exact hinstsOf _ _ ▸ h.placed hv
  · exact h.inst (hinstsOf _ _ ▸ hv)
  · exact hinstsOf g b ▸ h.nodup g b

/-- A value is replaced by one of the same kind, but for the operands of an instruction. -/
theorem alterValue (h : prog.Coherent) {change : Value → Value}
    (hchange : ∀ x, (change x).kind = x.kind ∨
      ∃ inst operands, x.kind = .instruction inst ∧ (change x).kind = .instruction { inst with operands })
    (hprog : prog.alterValue v change = .ok prog') : prog'.Coherent := by
  simp only [Program.alterValue, bind_eq_ok_iff, pure_eq_ok_iff, alter_eq_ok_iff] at hprog
  obtain ⟨_, ⟨x, _, hx, rfl, rfl⟩, rfl⟩ := hprog
  have hkind (w : ValueId) :
      ({ prog with values := prog.values.set v (change x) } : Program).kindAt w =
        if w = v then some (change x).kind else prog.kindAt w := by
    unfold kindAt
    by_cases hw : w = v
    · subst hw
      simp [List.getElem?_set_self (List.getElem?_eq_some_iff.1 hx).1]
    · simp [List.getElem?_set_ne (Ne.symm hw), hw]
  have hv : prog.kindAt v = some x.kind := by simp [kindAt, hx]
  -- Kinds that carry no operands are the same as before, and instructions stay where they are.
  have hplain {w : ValueId} {k : ValueKind} (hk : ∀ inst, k ≠ .instruction inst) :
      ({ prog with values := prog.values.set v (change x) } : Program).kindAt w = some k ↔
        prog.kindAt w = some k := by
    rw [hkind]
    split
    · rename_i hw
      rw [hw, hv, Option.some.injEq, Option.some.injEq]
      rcases hchange x with hsame | ⟨inst, operands, hold, hnew⟩
      · rw [hsame]
      · rw [hold, hnew]
        exact ⟨fun h ↦ absurd h.symm (hk _), fun h ↦ absurd h.symm (hk _)⟩
    · rfl
  have hinst {w : ValueId} {f : FuncId} {b : BlockId} :
      (∃ inst, ({ prog with values := prog.values.set v (change x) } : Program).kindAt w = some (.instruction inst) ∧
        inst.function = f ∧ inst.block = b) ↔
      ∃ inst, prog.kindAt w = some (.instruction inst) ∧ inst.function = f ∧ inst.block = b := by
    rw [hkind]
    split
    · rename_i hw
      rw [hw, hv]
      rcases hchange x with hsame | ⟨inst, operands, hold, hnew⟩
      · rw [hsame]
      · rw [hold, hnew]
        constructor
        · rintro ⟨_, ⟨⟩, hf, hb⟩
          exact ⟨inst, rfl, hf, hb⟩
        · rintro ⟨_, ⟨⟩, hf, hb⟩
          exact ⟨_, rfl, hf, hb⟩
    · rfl
  refine ⟨fun hw ↦ ?_, fun hps hw ↦ ?_, fun {w inst} hw ↦ ?_, fun hw ↦ ?_, h.nodup, fun hw ↦ ?_⟩
  · exact h.function ((hplain (by simp)).1 hw)
  · exact (hplain (by simp)).2 (h.param hps hw)
  · obtain ⟨inst', hw', hf, hb⟩ := hinst.1 ⟨inst, hw, rfl, rfl⟩
    rw [← hf, ← hb]
    exact h.placed hw'
  · exact hinst.2 (h.inst hw)
  · exact (hplain (by simp)).2 (h.global hw)

theorem alterGlobal (h : prog.Coherent) {change : Global → Global} (hchange : ∀ g, (change g).value = g.value)
    (hprog : prog.alterGlobal v change = .ok prog') : prog'.Coherent := by
  simp only [Program.alterGlobal, bind_eq_ok_iff] at hprog
  obtain ⟨x, -, hprog⟩ := hprog
  split at hprog
  · rename_i id _
    simp only [bind_eq_ok_iff, pure_eq_ok_iff, alter_eq_ok_iff] at hprog
    obtain ⟨_, ⟨g, _, hg, rfl, rfl⟩, rfl⟩ := hprog
    refine ⟨h.function, h.param, h.placed, h.inst, h.nodup, fun {i w} hw ↦ ?_⟩
    refine h.global (i := i) (Eq.trans ?_ hw)
    by_cases hi : id = i
    · subst hi
      simp [List.getElem?_set_self (List.getElem?_eq_some_iff.1 hg).1, hg, hchange]
    · rw [List.getElem?_set_ne hi]
  · contradiction

theorem addGlobal (h : prog.Coherent) (name : String) (ty : Ty) : (prog.addGlobal name ty).Coherent := by
  have hvalue := h.addValue (x := { kind := .global prog.globals.length, ty := .ptr, name := some name })
    (by simp) (by simp)
  refine ⟨hvalue.function, hvalue.param, hvalue.placed, hvalue.inst, hvalue.nodup, fun {i v} hv ↦ ?_⟩
  obtain ⟨g, hg, rfl⟩ := Option.map_eq_some_iff.1 hv
  rcases getElem?_append_singleton.1 hg with hg | ⟨rfl, rfl⟩
  · exact hvalue.global (i := i) (Option.map_eq_some_iff.2 ⟨g, hg, rfl⟩)
  · exact kindAt_addValue.2 (.inr ⟨rfl, rfl⟩)

/-- The values that a new function adds: its address, then its arguments. -/
theorem kindAt_addFunction {name : String} {returnTy : Ty} {params : List Ty} {variadic : Bool} {k : ValueKind} :
    (prog.addFunction name returnTy params variadic).kindAt v = some k ↔
      prog.kindAt v = some k ∨
      (prog.values.length = v ∧ k = .function prog.functions.length) ∨
      ∃ j, j < params.length ∧ prog.values.length + 1 + j = v ∧ k = .argument prog.functions.length j := by
  unfold kindAt addFunction
  dsimp only
  rcases Nat.lt_or_ge v prog.values.length with hv | hv
  · rw [List.getElem?_append_left hv]
    constructor
    · exact .inl
    · rintro (hk | ⟨rfl, -⟩ | ⟨j, -, rfl, -⟩)
      · exact hk
      · exact absurd hv (Nat.lt_irrefl _)
      · omega
  · rw [List.getElem?_append_right hv, List.getElem?_eq_none hv]
    obtain ⟨i, rfl⟩ := Nat.exists_eq_add_of_le hv
    rcases i with _ | i
    · constructor
      · intro hk
        exact .inr (.inl ⟨rfl, by simpa using hk.symm⟩)
      · rintro (hk | ⟨-, rfl⟩ | ⟨j, -, hj, -⟩)
        · contradiction
        · simp
        · omega
    · simp only [Nat.add_sub_cancel_left, List.getElem?_cons_succ, List.getElem?_mapIdx, Option.map_map,
        Option.map_eq_some_iff, Function.comp_apply]
      constructor
      · rintro ⟨ty, hty, rfl⟩
        exact .inr (.inr ⟨i, (List.getElem?_eq_some_iff.1 hty).1, by omega, rfl⟩)
      · rintro (⟨_, h, -⟩ | ⟨h, -⟩ | ⟨j, hj, hi, rfl⟩)
        · contradiction
        · omega
        · obtain rfl : i = j := by omega
          exact ⟨params.get ⟨i, hj⟩, List.getElem?_eq_getElem hj, rfl⟩

theorem addFunction (h : prog.Coherent) (name : String) (returnTy : Ty) (params : List Ty) (variadic : Bool) :
    (prog.addFunction name returnTy params variadic).Coherent := by
  -- A lookup among the functions finds one from before or the new one.
  have hview {α : Type} {view : Function → α} {f : FuncId} {a : α} :
      ((prog.addFunction name returnTy params variadic).functions[f]?).map view = some a ↔
        (prog.functions[f]?).map view = some a ∨ (f = prog.functions.length ∧ view
          { name, value := prog.values.length, params := List.range' (prog.values.length + 1) params.length,
            returnTy, variadic } = a) := by
    simp only [Program.addFunction, Option.map_eq_some_iff, getElem?_append_singleton]
    grind
  have hinsts (f : FuncId) (b : BlockId) :
      (prog.addFunction name returnTy params variadic).instsOf f b = prog.instsOf f b := by
    unfold instsOf Program.addFunction
    dsimp only
    rcases Nat.lt_trichotomy f prog.functions.length with hf | rfl | hf
    · rw [List.getElem?_append_left hf]
    · simp [Function.instsAt]
    · rw [List.getElem?_eq_none (by simp; omega), List.getElem?_eq_none (by omega)]
  refine ⟨fun {v f} hv ↦ ?_, fun {f ps j v} hps hv ↦ ?_, fun {v inst} hv ↦ ?_, fun {v f b} hv ↦ ?_, fun f b ↦ ?_,
    fun {i v} hv ↦ ?_⟩
  · rcases kindAt_addFunction.1 hv with hv | ⟨rfl, hk⟩ | ⟨_, _, _, hk⟩
    · exact hview.2 (.inl (h.function hv))
    · exact hview.2 (.inr ⟨by simpa using hk, rfl⟩)
    · contradiction
  · rcases hview.1 hps with hps | ⟨rfl, rfl⟩
    · exact kindAt_addFunction.2 (.inl (h.param hps hv))
    · obtain ⟨hj, hv⟩ := List.getElem?_eq_some_iff.1 hv
      rw [List.getElem_range', Nat.one_mul] at hv
      rw [List.length_range'] at hj
      exact kindAt_addFunction.2 (.inr (.inr ⟨j, hj, hv, rfl⟩))
  · rcases kindAt_addFunction.1 hv with hv | ⟨_, hk⟩ | ⟨_, _, _, hk⟩
    · exact hinsts _ _ ▸ h.placed hv
    · contradiction
    · contradiction
  · obtain ⟨inst, hinst, hfb⟩ := h.inst (hinsts f b ▸ hv)
    exact ⟨inst, kindAt_addFunction.2 (.inl hinst), hfb⟩
  · exact hinsts f b ▸ h.nodup f b
  · exact kindAt_addFunction.2 (.inl (h.global hv))

/-- A new instruction is the last one of its block. -/
theorem addInstruction (h : prog.Coherent) {inst : Instruction} {ty : Ty}
    (hprog : prog.addInstruction inst ty = .ok prog') : prog'.Coherent := by
  simp only [Program.addInstruction, Program.alterBlock, Program.alterFunction, bind_eq_ok_iff,
    pure_eq_ok_iff, alter_eq_ok_iff] at hprog
  obtain ⟨_, ⟨fn, fn', hfn, ⟨_, ⟨blk, _, hblk, rfl, rfl⟩, hfn'⟩, rfl⟩, hprog⟩ := hprog
  change prog.functions[inst.function]? = some fn at hfn
  have hfunctions : prog'.functions = prog.functions.set inst.function fn' := by rw [← hprog]; rfl
  have hkind (v : ValueId) : prog'.kindAt v = (prog.addValue { kind := .instruction inst, ty }).kindAt v := by
    rw [← hprog]
    rfl
  have hglobals : prog'.globals = prog.globals := by rw [← hprog]; rfl
  have hview {α : Type} {view : Function → α} {g : FuncId} (hsame : view fn' = view fn) :
      (prog'.functions[g]?).map view = (prog.functions[g]?).map view := by
    rw [hfunctions]
    by_cases hg : inst.function = g
    · subst hg
      rw [List.getElem?_set_self (List.getElem?_eq_some_iff.1 hfn).1, hfn, Option.map_some, Option.map_some, hsame]
    · rw [List.getElem?_set_ne hg]
  -- Only the block of the instruction changes.
  have hinsts (g : FuncId) (c : BlockId) : prog'.instsOf g c =
      prog.instsOf g c ++ if g = inst.function ∧ c = inst.block then [prog.values.length] else [] := by
    unfold instsOf
    rw [hfunctions]
    by_cases hg : inst.function = g
    · subst hg
      rw [List.getElem?_set_self (List.getElem?_eq_some_iff.1 hfn).1, hfn, ← hfn']
      by_cases hc : inst.block = c
      · subst hc
        simp [Function.instsAt, List.getElem?_set_self (List.getElem?_eq_some_iff.1 hblk).1, hblk]
      · simp [Function.instsAt, List.getElem?_set_ne hc, Ne.symm hc]
    · rw [List.getElem?_set_ne hg]
      simp [Ne.symm hg]
  have hfresh (g : FuncId) (c : BlockId) : prog.values.length ∉ prog.instsOf g c := fun hmem ↦ by
    obtain ⟨inst', hinst', -⟩ := h.inst hmem
    exact absurd (lt_of_kindAt hinst') (Nat.lt_irrefl _)
  refine ⟨fun {v f} hv ↦ ?_, fun {f ps j v} hps hv ↦ ?_, fun {v i} hv ↦ ?_, fun {v g c} hv ↦ ?_, fun g c ↦ ?_,
    fun {i v} hv ↦ ?_⟩
  · rw [hkind] at hv
    rcases kindAt_addValue.1 hv with hv | ⟨-, hk⟩
    · exact (hview (hfn' ▸ rfl)).trans (h.function hv)
    · contradiction
  · rw [hkind]
    exact kindAt_addValue.2 (.inl (h.param ((hview (hfn' ▸ rfl)).symm.trans hps) hv))
  · rw [hinsts]
    rw [hkind] at hv
    rcases kindAt_addValue.1 hv with hv | ⟨rfl, hk⟩
    · exact List.mem_append_left _ (h.placed hv)
    · obtain rfl := ValueKind.instruction.inj hk
      simp
  · rw [hinsts] at hv
    simp only [hkind]
    rcases List.mem_append.1 hv with hv | hv
    · obtain ⟨i, hi, hgc⟩ := h.inst hv
      exact ⟨i, kindAt_addValue.2 (.inl hi), hgc⟩
    · split at hv
      · rename_i hgc
        rw [List.mem_singleton] at hv
        exact ⟨inst, kindAt_addValue.2 (.inr ⟨hv, rfl⟩), hgc.1.symm, hgc.2.symm⟩
      · simp at hv
  · rw [hinsts]
    split
    · exact List.nodup_append.2 ⟨h.nodup g c, by simp, fun a ha b hb ↦ by
        rw [List.mem_singleton] at hb
        rintro rfl
        exact hfresh g c (hb ▸ ha)⟩
    · rw [List.append_nil]
      exact h.nodup g c
  · rw [hkind]
    exact kindAt_addValue.2 (.inl (h.global (hglobals ▸ hv)))

/-- Every command keeps the tables in agreement. -/
theorem apply (h : prog.Coherent) {c : Command} (hprog : prog.apply c = .ok prog') : prog'.Coherent := by
  cases c with
  | function name returnTy params variadic =>
    obtain rfl := pure_eq_ok_iff.1 hprog
    exact h.addFunction name returnTy params variadic
  | block f =>
    refine h.alterFunction (fun fn fn' hfn ↦ ?_) hprog
    obtain rfl := pure_eq_ok_iff.1 hfn
    refine ⟨rfl, rfl, fun b ↦ ?_⟩
    simp only [Function.instsAt]
    rcases Nat.lt_trichotomy b fn.blocks.length with hb | rfl | hb
    · rw [List.getElem?_append_left hb]
    · simp
    · rw [List.getElem?_eq_none (by simp; omega), List.getElem?_eq_none (by omega)]
  | successor f source target =>
    refine h.alterFunction (fun fn fn' hfn ↦ ?_) hprog
    simp only [bind_eq_ok_iff, pure_eq_ok_iff, alter_eq_ok_iff] at hfn
    obtain ⟨_, ⟨blk, _, hblk, rfl, rfl⟩, rfl⟩ := hfn
    refine ⟨rfl, rfl, fun b ↦ ?_⟩
    simp only [Function.instsAt]
    by_cases hb : source = b
    · subst hb
      simp [List.getElem?_set_self (List.getElem?_eq_some_iff.1 hblk).1, hblk]
    · rw [List.getElem?_set_ne hb]
  | global name ty =>
    obtain rfl := pure_eq_ok_iff.1 hprog
    exact h.addGlobal name ty
  | initializer global value =>
    refine h.alterGlobal (fun g ↦ ?_) hprog
    rfl
  | external global =>
    refine h.alterGlobal (fun g ↦ ?_) hprog
    rfl
  | constant c ty =>
    obtain rfl := pure_eq_ok_iff.1 hprog
    exact h.addValue (by simp) (by simp)
  | asm =>
    obtain rfl := pure_eq_ok_iff.1 hprog
    exact h.addValue (by simp) (by simp)
  | instruction function block opcode operands ty => exact h.addInstruction hprog
  | incoming phi value =>
    refine h.alterValue (fun x ↦ ?_) hprog
    cases hkind : x.kind with
    | instruction inst => exact .inr ⟨inst, inst.operands ++ [value], rfl, rfl⟩
    | _ => exact .inl hkind
  | name value name =>
    refine h.alterValue (fun x ↦ ?_) hprog
    exact .inl rfl

end Coherent

/-- Assembled programs are coherent. -/
theorem coherent_of_assemble {name : String} {layout : DataLayout} {commands : List Command}
    (h : assemble name layout commands = .ok prog) : prog.Coherent := by
  unfold assemble at h
  suffices hgen : ∀ (start : Program), start.Coherent →
      commands.foldlM (fun prog c ↦ prog.apply c) start = .ok prog → prog.Coherent from
    hgen _ (.empty name layout) h
  clear h
  intro start hstart h
  induction commands generalizing start with
  | nil =>
    rw [List.foldlM_nil, pure_eq_ok_iff] at h
    exact h ▸ hstart
  | cons c rest ih =>
    rw [List.foldlM_cons, bind_eq_ok_iff] at h
    obtain ⟨next, hnext, h⟩ := h
    exact ih next (hstart.apply hnext) h

/-- The program that the commands assemble, without functions if they do not fit together. -/
def assembled (commands : List Command) : Program :=
  (assemble "" {} commands).toOption.getD { name := "", layout := {} }

theorem coherent_assembled (commands : List Command) : (assembled commands).Coherent := by
  unfold assembled
  cases h : assemble "" {} commands with
  | ok prog => exact coherent_of_assemble h
  | error e => exact .empty "" {}

/-! ## Scopes -/

/-- Values refer to values of their own function, or to values of no function. -/
def Scoped (prog : Program) : Prop :=
  (∀ x ∈ prog.values, ∀ op ∈ x.kind.operands, prog.home? op = none ∨ prog.home? op = x.kind.home?) ∧
    ∀ g ∈ prog.globals, g.initializer.bind prog.home? = none

instance (prog : Program) : Decidable prog.Scoped := inferInstanceAs (Decidable (_ ∧ _))

namespace Scoped

theorem operand (h : prog.Scoped) {k : ValueKind} (hv : prog.kindAt v = some k) (hw : w ∈ k.operands) :
    prog.home? w = none ∨ prog.home? w = prog.home? v := by
  obtain ⟨x, hx, rfl⟩ := Option.map_eq_some_iff.1 hv
  rw [home?_of_kindAt hv]
  exact h.1 x (List.mem_of_getElem? hx) w hw

theorem initializer (h : prog.Scoped) {g : Global} (hg : g ∈ prog.globals) (hinit : g.initializer = some v) :
    prog.home? v = none := by
  simpa [hinit] using h.2 g hg

end Scoped

theorem mem_operands_of_castSource? {offsets : Bool} (h : prog.castSource? offsets v = .ok (some w)) :
    ∃ k, prog.kindAt v = some k ∧ w ∈ k.operands := by
  have hsource {opcode : Opcode} {operands : List ValueId}
      (h : castSource?.source? offsets opcode operands = some w) : w ∈ operands := by
    unfold castSource?.source? at h
    split at h
    · exact List.mem_of_mem_head? h
    · split at h
      · exact List.mem_of_mem_head? h
      · contradiction
    · contradiction
  simp only [castSource?, bind_eq_ok_iff] at h
  obtain ⟨x, hx, h⟩ := h
  refine ⟨x.kind, kindAt_of_value hx, ?_⟩
  split at h
  · rename_i inst hkind
    rw [hkind]
    exact hsource (pure_eq_ok_iff.1 h)
  · rename_i opcode operands hkind
    rw [hkind]
    exact hsource (pure_eq_ok_iff.1 h)
  · simp [pure_eq_ok_iff] at h

/-- What casts and element addresses are computed from stays in the scope of the value. -/
theorem Scoped.strip (h : prog.Scoped) {offsets : Bool} {budget : Nat}
    (hstrip : prog.stripWithin offsets budget v = .ok w) : prog.home? w = none ∨ prog.home? w = prog.home? v := by
  induction budget generalizing v with
  | zero => simp [stripWithin] at hstrip
  | succ budget ih =>
    simp only [stripWithin, bind_eq_ok_iff] at hstrip
    obtain ⟨source?, hsource, hstrip⟩ := hstrip
    cases source? with
    | none =>
      rw [pure_eq_ok_iff.1 hstrip]
      exact .inr rfl
    | some source =>
      obtain ⟨k, hk, hmem⟩ := mem_operands_of_castSource? hsource
      have hw := ih hstrip
      rcases h.operand hk hmem with hhome | hhome
      · rw [hhome, or_self] at hw
        exact .inl hw
      · rwa [hhome] at hw

end Program

end PointsTo
