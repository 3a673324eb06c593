import Mathlib.Logic.Relation
import PointsTo.Proofs.Blocks
import PointsTo.Proofs.Deferral

/-!
# Regular programs

In an orderly program every block can be reached, and a value is defined before it is used, on every way
that control can take.  Incoming values of phis are exempt, since control arrives with them from
elsewhere.  Blocks are visited in an order in which control can arrive, so an instruction of an orderly
program is visited after everything that it draws on.

In a regular program every instruction has the operands of its opcode, too.
-/

namespace PointsTo

/-- The number of parameters that the intrinsic is known for. -/
def Intrinsic.arity (i : Intrinsic) : Nat :=
  if i = .stackSave then 0 else if i = .vaStart ∨ i = .stackRestore then 1 else 2

namespace Program

/-- What an instruction of the function may refer to. -/
inductive Refers (prog : Program) (f : FuncId) : ValueId → Prop
  | own {w : ValueId} : prog.home? w = some f → prog.Refers f w
  | global {g : Global} : g ∈ prog.globals → prog.Refers f g.value
  | function {w : ValueId} {g : FuncId} : prog.kindAt w = some (.function g) → prog.Refers f w
  | null {w : ValueId} : prog.kindAt w = some (.constant .null) → prog.Refers f w
  | int {w : ValueId} {n : Nat} : prog.kindAt w = some (.constant (.int n)) → prog.Refers f w

/-- The opcodes that occur, each with its operands.  A call names its function and passes one argument
for each parameter. -/
inductive Formed (prog : Program) : Opcode → List ValueId → Prop
  | alloca {ty : Ty} : prog.Formed (.alloca ty) []
  | load {pointer : ValueId} : prog.Formed .load [pointer]
  | store {stored pointer : ValueId} : prog.Formed .store [stored, pointer]
  | getElementPtr {source : Ty} {base : ValueId} {indices : List ValueId} :
    prog.Formed (.getElementPtr source) (base :: indices)
  | cast {op : CastOp} {source : ValueId} :
    op = .bitcast ∨ op = .ptrToInt ∨ op = .intToPtr → prog.Formed (.cast op) [source]
  | phi {incoming : List ValueId} : prog.Formed .phi incoming
  | select {condition onTrue onFalse : ValueId} : prog.Formed .select [condition, onTrue, onFalse]
  | call {callee : ValueId} {arguments : List ValueId} {f : FuncId} {fn : Function} :
    prog.kindAt callee = some (.function f) → prog.functions[f]? = some fn → arguments.length = fn.params.length →
      prog.Formed .call (callee :: arguments)
  | ret {operands : List ValueId} : operands.length ≤ 1 → prog.Formed .ret operands

/-- The value comes before the instruction in the block. -/
def Precedes (prog : Program) (f : FuncId) (b : BlockId) (w v : ValueId) : Prop :=
  ∀ {before after}, prog.instsOf f b = before ++ v :: after → w ∈ before

structure Orderly (prog : Program) : Prop where
  flows : ∀ {fn b c}, fn ∈ prog.functions → c ∈ fn.successors b → c < fn.blocks.length
  reachable : ∀ {fn b}, fn ∈ prog.functions → b < fn.blocks.length → ∃ past, fn.Arrives past b
  own : ∀ {v w inst source}, prog.kindAt v = some (.instruction inst) → w ∈ inst.operands →
    prog.kindAt w = some (.instruction source) → source.function = inst.function
  defined : ∀ {v w inst source fn past}, prog.kindAt v = some (.instruction inst) → inst.isPhi = false →
    w ∈ inst.operands → prog.kindAt w = some (.instruction source) → prog.functions[inst.function]? = some fn →
      fn.Arrives past inst.block →
        source.block ∈ past ∨ (source.block = inst.block ∧ prog.Precedes inst.function inst.block w v)

structure Regular (prog : Program) : Prop extends prog.Orderly where
  formed : ∀ {v inst}, prog.kindAt v = some (.instruction inst) → prog.Formed inst.opcode inst.operands
  refers : ∀ {v w inst}, prog.kindAt v = some (.instruction inst) → w ∈ inst.operands → prog.Refers inst.function w
  initialized : ∀ {g}, g ∈ prog.globals → ∃ init, g.initializer = some init ∧
    (prog.kindAt init = some (.constant .null) ∨ ∃ n, prog.kindAt init = some (.constant (.int n)))

/-- Functions that are known by name take the parameters that they are known for. -/
structure Customary (prog : Program) : Prop where
  realloc : ∀ {fn}, fn ∈ prog.functions → Allocator.ofName? fn.name = some .realloc → 1 ≤ fn.params.length
  intrinsic : ∀ {fn i}, fn ∈ prog.functions → Intrinsic.ofName? fn.name = some i → i.arity ≤ fn.params.length

instance (prog : Program) : Decidable prog.Customary :=
  decidable_of_iff ((∀ fn ∈ prog.functions, Allocator.ofName? fn.name = some .realloc → 1 ≤ fn.params.length) ∧
      ∀ fn ∈ prog.functions, ∀ i ∈ Intrinsic.ofName? fn.name, i.arity ≤ fn.params.length)
    ⟨fun h ↦ ⟨fun hfn ↦ h.1 _ hfn, fun hfn ↦ h.2 _ hfn _⟩, fun h ↦ ⟨fun _ ↦ h.realloc, fun _ hfn _ ↦ h.intrinsic hfn⟩⟩

/-- Nothing about the instruction makes it worth a node, unless somebody asks for one: it neither yields
nor stores a pointer, and calls nothing that touches one. -/
def Idle (prog : Program) (v : ValueId) (inst : Instruction) : Prop :=
  match inst.opcode with
  | .store => ∀ stored, inst.operand? 0 = some stored → prog.isPointer stored = .ok false
  | .call => ∃ f fn, prog.calledFunction? v = .ok (some f) ∧ prog.functions[f]? = some fn ∧
      if fn.isDeclaration then prog.isRelevantDeclaration f v = .ok false
      else prog.isPointer v = .ok false ∧ prog.passesPointer v = .ok false ∧ prog.Quiet f
  | .alloca _ | .getElementPtr _ | .ret | .cast .bitcast | .cast .ptrToInt | .cast .intToPtr => False
  | _ => prog.isPointer v = .ok false

/-- The values through which an address is followed that was taken as an integer: what is computed from
it, the memory where it is stored, and the formals that it is passed to. -/
inductive Carries (prog : Program) : ValueId → Prop
  | address {v : ValueId} {inst : Instruction} : prog.kindAt v = some (.instruction inst) →
      inst.opcode = .cast .ptrToInt → prog.Carries v
  | result {v w : ValueId} {inst : Instruction} : prog.Carries w → prog.kindAt v = some (.instruction inst) →
      w ∈ inst.operands → prog.Idle v inst → prog.Carries v
  | memory {v w pointer : ValueId} {inst : Instruction} : prog.Carries w → prog.kindAt v = some (.instruction inst) →
      w ∈ inst.operands → prog.Idle v inst → inst.opcode = .store → inst.operand? 1 = some pointer →
      prog.Carries pointer
  | formal {call w param : ValueId} {inst : Instruction} {f : FuncId} : prog.Carries w →
      prog.kindAt call = some (.instruction inst) → prog.Idle call inst → prog.Hands call w f param → prog.Carries param

/-- Addresses are taken of pointers, and integers that carry them are stored in memory that the function
knows by a pointer of its own. -/
structure KeepsAddresses (prog : Program) : Prop where
  taken : ∀ {v w inst}, prog.kindAt v = some (.instruction inst) → inst.opcode = .cast .ptrToInt →
    inst.operand? 0 = some w → prog.isPointer w = .ok true
  stored : ∀ {v stored pointer inst}, prog.kindAt v = some (.instruction inst) → inst.opcode = .store →
    prog.Idle v inst → inst.operand? 0 = some stored → prog.Carries stored → inst.operand? 1 = some pointer →
      prog.home? pointer = some inst.function

/-- The instruction computes with the result of the other one. -/
def Draws (prog : Program) (v w : ValueId) : Prop :=
  ∃ inst source, prog.kindAt v = some (.instruction inst) ∧ inst.isPhi = false ∧ w ∈ inst.operands ∧
    prog.kindAt w = some (.instruction source)

variable {prog : Program} {f : FuncId} {fn : Function} {v w callee : ValueId} {arguments : List ValueId}
  {inst source : Instruction}

/-- An instruction refers to values of its own function only. -/
theorem Refers.home_eq (h : prog.Refers f w) (hprog : prog.Coherent) {g : FuncId}
    (hw : prog.home? w = some g) : g = f := by
  cases h with
  | own hhome => exact Option.mem_unique hw hhome
  | global hg =>
    obtain ⟨_, hkind⟩ := hprog.kindAt_global hg
    simp [home?_of_kindAt hkind, ValueKind.home?] at hw
  | function hkind | null hkind | int hkind => simp [home?_of_kindAt hkind, ValueKind.home?] at hw

theorem Refers.function_eq (h : prog.Refers f w) (hprog : prog.Coherent)
    (hw : prog.kindAt w = some (.instruction source)) : source.function = f :=
  h.home_eq hprog (home?_of_kindAt hw)

/-- Nothing that an instruction refers to has operands, unless it is an instruction. -/
theorem Refers.instruction_of_mem (h : prog.Refers f w) (hprog : prog.Coherent) {k : ValueKind} {x : ValueId}
    (hw : prog.kindAt w = some k) (hmem : x ∈ k.operands) : ∃ inst, k = .instruction inst := by
  cases h with
  | own hhome =>
    rw [home?_of_kindAt hw] at hhome
    unfold ValueKind.home? at hhome
    split at hhome
    · exact ⟨_, rfl⟩
    · simp [ValueKind.operands] at hmem
    · contradiction
  | global hg =>
    obtain ⟨_, hkind⟩ := hprog.kindAt_global hg
    obtain rfl := Option.mem_unique hkind hw
    simp [ValueKind.operands] at hmem
  | function hkind | null hkind | int hkind =>
    obtain rfl := Option.mem_unique hkind hw
    simp [ValueKind.operands] at hmem

theorem Refers.kindAt_ne_expr (h : prog.Refers f w) (hprog : prog.Coherent) (opcode : Opcode)
    (operands : List ValueId) : prog.kindAt w ≠ some (.constant (.expr opcode operands)) := by
  intro hw
  cases h with
  | own hhome => simp [home?_of_kindAt hw, ValueKind.home?] at hhome
  | global hg =>
    obtain ⟨_, hkind⟩ := hprog.kindAt_global hg
    simp [hkind] at hw
  | function hkind | null hkind | int hkind => simp [hkind] at hw

/-- A call whose callee is a function names it. -/
theorem calledFunction?_of_callee (hv : prog.kindAt v = some (.instruction inst)) (hcall : inst.opcode = .call)
    (hops : inst.operands = callee :: arguments) (hcallee : prog.kindAt callee = some (.function f)) :
    prog.calledFunction? v = .ok (some f) := by
  obtain ⟨x, hx, hkind⟩ := value_of_kindAt hcallee
  have hhead : prog.callee? v = .ok (some callee) := by
    refine Query.bind_eq_ok_iff.2 ⟨some inst, instruction?_eq_ok_iff.2 hv, ?_⟩
    simp [Instruction.callee?, Instruction.isCall, hcall, hops, Query.pure_eq_ok_iff]
  have hstrip : prog.stripCasts callee = .ok callee := by
    have hsource : prog.castSource? false callee = .ok none :=
      Query.bind_eq_ok_iff.2 ⟨x, hx, by simp only [hkind]; rfl⟩
    exact Query.bind_eq_ok_iff.2 ⟨none, hsource, rfl⟩
  refine Query.bind_eq_ok_iff.2 ⟨some callee, hhead, ?_⟩
  refine Query.bind_eq_ok_iff.2 ⟨callee, hstrip, Query.bind_eq_ok_iff.2 ⟨x, hx, ?_⟩⟩
  simp only [hkind]
  rfl

/-! ## Quiet functions -/

/-- A call that does not matter calls a quiet function. -/
theorem Idle.quiet (h : prog.Idle v inst) (hv : prog.kindAt v = some (.instruction inst))
    (hf : prog.calledFunction? v = .ok (some f)) (hfn : prog.functions[f]? = some fn)
    (hdef : fn.isDeclaration = false) : prog.Quiet f := by
  obtain ⟨inst', hv', hcall⟩ := call_of_calledFunction? hf
  obtain rfl := Program.instruction_unique hv hv'
  simp only [Idle, hcall] at h
  obtain ⟨g, fn', hg, hfn', hquiet⟩ := h
  obtain rfl : f = g := by simpa [hf] using hg
  obtain rfl := Option.mem_unique hfn hfn'
  simp only [hdef, Bool.false_eq_true, if_false] at hquiet
  exact hquiet.2.2

theorem Coherent.mem_insts (hprog : prog.Coherent) (hv : prog.kindAt v = some (.instruction inst))
    (hfn : prog.functions[inst.function]? = some fn) : v ∈ fn.blocks.flatMap (·.insts) := by
  have hplaced := hprog.placed hv
  simp only [instsOf, hfn, Option.map_some, Option.getD_some, Function.instsAt] at hplaced
  cases hblock : fn.blocks[inst.block]? with
  | none => simp [hblock] at hplaced
  | some block => exact List.mem_flatMap.2 ⟨block, List.mem_of_getElem? hblock, by simpa [hblock] using hplaced⟩

/-- A quiet function takes no address of a pointer. -/
theorem Quiet.ne_ptrToInt (h : prog.Quiet f) (hprog : prog.Coherent) (hv : prog.kindAt v = some (.instruction inst))
    (hf : inst.function = f) (hw : inst.operand? 0 = some w) (hpointer : prog.isPointer w = .ok true) :
    inst.opcode ≠ .cast .ptrToInt := by
  intro hop
  obtain ⟨fn, hfn⟩ := h.exists_function
  refine h.not_touchesPointers (.handles hfn (hprog.mem_insts hv (hf ▸ hfn)) hv ?_)
  exact .operand (by simp [Instruction.isCall, hop]) (List.mem_of_getElem? hw) hpointer

/-- A quiet function calls no others. -/
theorem Quiet.calledFunction? (h : prog.Quiet f) (hprog : prog.Coherent) (hv : prog.kindAt v = some (.instruction inst))
    (hf : inst.function = f) {g : FuncId} (hg : prog.calledFunction? v = .ok (some g))
    (hfn : prog.functions[g]? = some fn) (hdef : fn.isDeclaration = false) : prog.Quiet g := by
  obtain ⟨caller, hcaller⟩ := h.exists_function
  exact h.callsDirectly ⟨caller, hcaller, v, hprog.mem_insts hv (hf ▸ hcaller), hg, by simp [hfn, hdef]⟩

theorem Regular.operands_of_store (h : prog.Regular) (hv : prog.kindAt v = some (.instruction inst))
    (hop : inst.opcode = .store) : ∃ stored pointer, inst.operands = [stored, pointer] := by
  have hformed := h.formed hv
  obtain ⟨opcode, operands, function, block⟩ := inst
  obtain rfl : opcode = .store := hop
  cases hformed with
  | store => exact ⟨_, _, rfl⟩

theorem Regular.operand_of_ptrToInt (h : prog.Regular) (hv : prog.kindAt v = some (.instruction inst))
    (hop : inst.opcode = .cast .ptrToInt) : ∃ w, inst.operand? 0 = some w := by
  have hformed := h.formed hv
  obtain ⟨opcode, operands, function, block⟩ := inst
  obtain rfl : opcode = .cast .ptrToInt := hop
  cases hformed with
  | cast => exact ⟨_, rfl⟩

namespace Orderly

variable (h : prog.Orderly)

include h

theorem draws_function (hdraws : prog.Draws v w) (hv : prog.kindAt v = some (.instruction inst))
    (hw : prog.kindAt w = some (.instruction source)) : source.function = inst.function := by
  obtain ⟨inst', source', hv', -, hmem, hw'⟩ := hdraws
  obtain rfl := Program.instruction_unique hv hv'
  exact h.own hv hmem hw

variable (hprog : prog.Coherent)

include hprog

/-- Control can reach every instruction. -/
theorem visits (hv : prog.kindAt v = some (.instruction inst)) : prog.Visits inst.function v inst := by
  obtain ⟨fn, block, hfn, hblock⟩ : ∃ fn block, prog.functions[inst.function]? = some fn ∧
      fn.blocks[inst.block]? = some block := by
    have hmem := hprog.placed hv
    cases hfn : prog.functions[inst.function]? with
    | none => simp [instsOf, hfn] at hmem
    | some fn =>
      cases hblock : fn.blocks[inst.block]? with
      | none => simp [instsOf, Function.instsAt, hfn, hblock] at hmem
      | some block => exact ⟨fn, block, rfl, hblock⟩
  have hmem := List.mem_of_getElem? hfn
  obtain ⟨hlt, -⟩ := List.getElem?_eq_some_iff.1 hblock
  have hdef : fn.isDeclaration = false := by
    cases hblocks : fn.blocks with
    | nil => simp [hblocks] at hlt
    | cons => simp [Function.isDeclaration, hblocks]
  obtain ⟨blocks, hblocks⟩ := Function.reachableBlocks_total hdef fun b c ↦ h.flows hmem
  obtain ⟨past, harrives⟩ := h.reachable hmem hlt
  exact ⟨hv, rfl, fn, blocks, hfn, hblocks, harrives.mem hblocks hdef⟩

variable (hfn : prog.functions[f]? = some fn) {blocks : List BlockId} (hblocks : fn.reachableBlocks = .ok blocks)

include hfn hblocks

/-- What an instruction draws on is visited before it. -/
theorem drawn_before {b : BlockId} {before after : List BlockId} {insts rest : List ValueId}
    (hsplit : blocks = before ++ b :: after) (hinsts : prog.instsOf f b = insts ++ v :: rest)
    (hdraws : Relation.TransGen prog.Draws v w) : (∃ c ∈ before, w ∈ prog.instsOf f c) ∨ w ∈ insts := by
  have hdirect {v w : ValueId} {b : BlockId} {before after : List BlockId} {insts rest : List ValueId}
      (hsplit : blocks = before ++ b :: after) (hinsts : prog.instsOf f b = insts ++ v :: rest)
      (hdraws : prog.Draws v w) : (∃ c ∈ before, w ∈ prog.instsOf f c) ∨ w ∈ insts := by
    obtain ⟨inst, hv, rfl, rfl⟩ := hprog.inst (v := v) (f := f) (b := b) (by simp [hinsts])
    obtain ⟨inst', source, hv', hphi, hmem, hw⟩ := hdraws
    obtain rfl := Program.instruction_unique hv hv'
    obtain ⟨past, harrives, hpast⟩ := Function.arrives_of_visited hblocks hsplit
    have hplaced := hprog.placed hw
    rw [h.own hv hmem hw] at hplaced
    rcases h.defined hv hphi hmem hw hfn harrives with hbefore | ⟨-, hprecedes⟩
    · exact .inl ⟨_, hpast _ hbefore, hplaced⟩
    · exact .inr (hprecedes hinsts)
  induction hdraws using Relation.TransGen.head_induction_on generalizing b before after insts rest with
  | single hdraws => exact hdirect hsplit hinsts hdraws
  | @head v u hdraws _ ih =>
    rcases hdirect hsplit hinsts hdraws with ⟨c, hc, hmem⟩ | hmem
    · obtain ⟨front, back, rfl⟩ := List.append_of_mem hc
      obtain ⟨insts', rest', hinsts'⟩ := List.append_of_mem hmem
      have hsplit' : blocks = front ++ c :: (back ++ b :: after) := by simpa using hsplit
      rcases ih hsplit' hinsts' with ⟨d, hd, hw⟩ | hw
      · exact .inl ⟨d, by simp [hd], hw⟩
      · exact .inl ⟨c, hc, by simp [hinsts', hw]⟩
    · obtain ⟨front, back, rfl⟩ := List.append_of_mem hmem
      have hinsts' : prog.instsOf f b = front ++ u :: (back ++ v :: rest) := by simpa using hinsts
      rcases ih hsplit hinsts' with hw | hw
      · exact .inl hw
      · exact .inr (by simp [hw])

end Orderly

end Program

end PointsTo
