import PointsTo.Proofs.Conclusions
import PointsTo.Proofs.Readiness

/-!
# Instructions that are heeded

An instruction asks for what it is computed from, and a call for the function that it names.  If these
requests fail only in ways that are allowed, so does lowering the instruction: it has the operands that
it needs, or may be rejected for want of them.

What is allowed is any failure but a missing operand, or, in a grounded program, any rejection.
-/

namespace PointsTo

open Stateful Program

/-- The number of operands that are needed. -/
def Opcode.arity : Opcode → Nat
  | .load | .getElementPtr _ | .extractValue _ | .cast _ => 1
  | .store | .binary _ => 2
  | .select => 3
  | _ => 0

/-- The instruction can be lowered in every state of a kind: whatever it asks for fails only as allowed. -/
structure Provider.Heeds (prog : Program) (ask : Provider) (E : Failure → Prop) (v : ValueId) (inst : Instruction)
    (P : Lowering → Prop) : Prop where
  coherent : prog.Coherent
  sound : ask.Sound prog
  lenient : prog.Lenient E
  supplied : Excuses E ∨ prog.Formed inst.opcode inst.operands ∧ prog.Customary
  instruction : prog.kindAt v = some (.instruction inst)
  valid : ∀ {s}, P s → s.Valid prog
  recorded : ∀ {s}, P s → s.records.get? inst.function ≠ none
  serves : ∀ {s t}, P s → s.Serves prog t → P t
  keeps : ∀ {s t}, P s → s.Keeps prog t → t.Valid prog → t.records = s.records → P t
  operand : ∀ {s w}, P s → Relation.TransGen prog.Depends v w → s.Housed prog w ∧ Lower.Obeys E (ask.operand w) s
  available : ∀ {s w}, P s → prog.Depends v w → Lower.Obeys E (Lower.availableOperand? prog ask w) s
  entry : ∀ {s f fn}, P s → prog.calledFunction? v = .ok (some f) → prog.functions[f]? = some fn →
    fn.isDeclaration = false → Lower.Obeys E (ask.entry f) s

variable {α β : Type} {prog : Program} {ask : Provider} {E : Failure → Prop} {P : Lowering → Prop} {s t : Lowering}
  {f : FuncId} {fn : Function} {v w : ValueId} {inst : Instruction}

theorem Instruction.operand?_succ (hcall : inst.opcode = .call) (i : Nat) :
    inst.operand? (i + 1) = inst.arguments[i]? := by
  simp [Instruction.operand?, Instruction.arguments, Instruction.isCall, hcall]

namespace Lower

namespace Obeys

theorem instruction {next : Instruction → Lower β} (hv : prog.kindAt v = some (.instruction inst))
    (hnext : Obeys E (next inst) s) : Obeys E (instruction prog v >>= next) s :=
  .after (instruction_eq_ok_iff.2 ⟨hv, rfl⟩) hnext

theorem record {next : FunctionRecord → Lower β} (hf : s.records.get? f ≠ none)
    (hnext : ∀ r, s.records.get? f = some r → Obeys E (next r) s) : Obeys E (record prog f v >>= next) s := by
  obtain ⟨r, hr⟩ := Option.ne_none_iff_exists'.1 hf
  exact .after (record_eq_ok_iff.2 ⟨hr, rfl⟩) (hnext r hr)

theorem updateRecord {change : FunctionRecord → FunctionRecord} (hf : s.records.get? f ≠ none) :
    Obeys E (updateRecord prog f v change) s :=
  record hf fun _ _ ↦ Tame.throws _

theorem node {id : NodeId} {next : Node → Lower β} (hid : id < s.graph.size) (hnext : ∀ n, Obeys E (next n) s) :
    Obeys E (node id >>= next) s :=
  .after (node_eq_ok_iff.2 ⟨List.getElem?_eq_getElem hid, rfl⟩) (hnext _)

end Obeys

theorem createFor_records {make : Graph → NodeId × Graph} {id : NodeId} (h : createFor v make s = .ok id t) :
    t.records = s.records := by
  obtain ⟨id', s₁, h₁, h⟩ := bind_eq_ok_iff.1 h
  obtain ⟨_, s₂, h₂, h⟩ := bind_eq_ok_iff.1 h
  obtain ⟨-, rfl⟩ := pure_eq_ok_iff.1 h
  obtain ⟨-, rfl⟩ := create_eq_ok_iff.1 h₁
  rw [← assign_eq_ok_iff.1 h₂]

theorem createObject_lt {kind : NodeKind} {op id : NodeId} (hmade : create (·.createObject kind) s = .ok id t)
    (hop : op < s.graph.size) : op < t.graph.size := by
  obtain ⟨-, rfl⟩ := create_eq_ok_iff.1 hmade
  exact Nat.lt_of_lt_of_eq (Nat.lt_succ_of_lt hop) Graph.size_create.symm

end Lower

open Lower

/-! ## What is asked for -/

namespace Provider.Heeds

variable (hh : ask.Heeds prog E v inst P)

include hh

theorem lt : v < prog.values.length := lt_of_kindAt hh.instruction

theorem depends (hphi : inst.isPhi = false) (hw : w ∈ inst.operands) : Relation.TransGen prog.Depends v w :=
  .single ⟨_, hh.instruction, hphi, hw⟩

/-- An instruction that may not be rejected has the operands that it needs. -/
theorem needs {i : Nat} (hi : i < inst.opcode.arity) (hnone : inst.operand? i = none) :
    Excuses E := by
  refine hh.supplied.resolve_right fun ⟨hformed, _⟩ ↦ ?_
  have hlength := List.getElem?_eq_none_iff.1 hnone
  have harity : inst.opcode.arity ≤ inst.operands.length := by
    generalize inst.opcode = opcode, inst.operands = operands at hformed
    cases hformed <;> simp [Opcode.arity]
  omega

/-- A call that may not be rejected passes an argument for each parameter. -/
theorem counts (hf : prog.calledFunction? v = .ok (some f)) (hfn : prog.functions[f]? = some fn) :
    Excuses E ∨ inst.arguments.length = fn.params.length ∧ prog.Customary := by
  obtain ⟨inst', hinst', hcall⟩ := call_of_calledFunction? hf
  obtain rfl := instruction_unique hh.instruction hinst'
  refine hh.supplied.imp id fun ⟨hformed, hcustom⟩ ↦ ⟨?_, hcustom⟩
  rw [hcall] at hformed
  generalize hops : inst.operands = operands at hformed
  cases hformed with
  | call hcallee hfn' hcount =>
    have hf' := calledFunction?_of_callee hinst' hcall hops hcallee
    obtain rfl := Option.some.inj (Except.ok.inj (hf.symm.trans hf'))
    obtain rfl := Option.mem_unique hfn hfn'
    simpa [Instruction.arguments, Instruction.isCall, hcall, hops] using hcount

theorem intrinsic {i : Intrinsic} (hf : prog.calledFunction? v = .ok (some f)) (hfn : prog.functions[f]? = some fn)
    (hname : Intrinsic.ofName? fn.name = some i) {index : Nat} (hi : index < i.arity)
    (hnone : inst.arguments[index]? = none) : Excuses E := by
  refine (hh.counts hf hfn).resolve_right fun ⟨hcount, hcustom⟩ ↦ ?_
  have harity := hcustom.intrinsic (List.mem_of_getElem? hfn) hname
  have hlength := List.getElem?_eq_none_iff.1 hnone
  omega

/-- What the instruction is computed from can be asked for. -/
theorem request {next : NodeId → Lower β} (hs : P s) (hw : Relation.TransGen prog.Depends v w)
    (hnext : ∀ op t, s.Serves prog t → P t → op < t.graph.size → Obeys E (next op) t) :
    Obeys E (ask.operand w >>= next) s := by
  obtain ⟨hhoused, hoperand⟩ := hh.operand hs hw
  refine hoperand.bind fun op t hop ↦ ?_
  have hsupplies := hh.sound.operand (hh.valid hs) (fun _ ↦ hhoused) hop
  exact hnext op t hsupplies.toEvolves (hh.serves hs hsupplies.toEvolves) hsupplies.lt_size

theorem nth {next : ValueId → Lower β} {i : Nat}
    (hi : inst.operand? i = none → Excuses E)
    (hnext : ∀ w, inst.operand? i = some w → Obeys E (next w) s) : Obeys E (nthOperand prog v i >>= next) s := by
  cases hw : inst.operand? i with
  | some w => exact .after (nthOperand_eq_ok_iff.2 ⟨inst, hh.instruction, hw, rfl⟩) (hnext w hw)
  | none =>
    refine Throws.bind (hh.lenient.bind_lift (fun _ ↦ instruction?_answers hh.lt) fun inst? hinst ↦ ?_) fun w _ hok ↦ ?_
    · obtain rfl := Except.ok.inj ((instruction?_eq_ok_iff.2 hh.instruction).symm.trans hinst)
      simp only [hw]
      exact hh.lenient.missing hh.coherent hh.lt (hi hw)
    · obtain ⟨inst', hinst', hoperand, -⟩ := nthOperand_eq_ok_iff.1 hok
      obtain rfl := instruction_unique hh.instruction hinst'
      simp [hw] at hoperand

end Provider.Heeds

namespace Lower

section

variable (hh : ask.Heeds prog E v inst P) (hs : P s)

include hh hs

theorem lowerLoad_obeys (hw : Relation.TransGen prog.Depends v w) : Obeys E (lowerLoad ask v w) s :=
  hh.request hs hw fun _ _ _ _ _ ↦ Tame.throws _

theorem fillMemory_obeys (hw : Relation.TransGen prog.Depends v w) {stored : NodeId} :
    Obeys E (fillMemory ask v w stored) s :=
  hh.request hs hw fun _ _ _ _ _ ↦ Tame.throws _

theorem eitherOperand?_obeys {lhs rhs : ValueId} (hlhs : prog.Depends v lhs) (hrhs : prog.Depends v rhs) :
    Obeys E (eitherOperand? prog ask lhs rhs) s := by
  refine (hh.available hs hlhs).bind fun id? t hid ↦ ?_
  cases id? with
  | some id => exact .pure
  | none =>
    obtain ⟨-, hnone⟩ := availableOperand?_ensures hh.sound (hh.valid hs) _ _ hid
    obtain ⟨-, rfl⟩ := hnone rfl
    exact hh.available hs hrhs

/-! ## Instructions other than calls -/

section

variable (hphi : inst.isPhi = false)

include hphi

theorem lowerStore_obeys (hop : 2 ≤ inst.opcode.arity) : Obeys E (lowerStore prog ask v) s := by
  refine hh.nth (hh.needs (by omega)) fun stored hstored ↦ hh.nth (hh.needs (by omega)) fun pointer hpointer ↦ ?_
  refine hh.request hs (hh.depends hphi (List.mem_of_getElem? hstored)) fun _ t _ ht _ ↦ ?_
  exact hh.request ht (hh.depends hphi (List.mem_of_getElem? hpointer)) fun _ _ _ _ _ ↦ Tame.throws _

theorem lowerGep_obeys (hop : 1 ≤ inst.opcode.arity) {source : Ty} {indices : List ValueId}
    (hindices : ∀ w ∈ indices, w ∈ inst.operands) : Obeys E (lowerGep prog ask v source indices) s := by
  refine hh.nth (hh.needs hop) fun base hbase ↦ ?_
  refine hh.request hs (hh.depends hphi (List.mem_of_getElem? hbase)) fun _ _ _ _ _ ↦ ?_
  have : Tame E (elementOffset prog v source indices) :=
    hh.lenient.elementOffset hh.coherent hh.lt (fun h w hw ↦ h.inRange.operand hh.instruction (hindices w hw)) source
  exact Tame.throws _

theorem lowerExtract_obeys (hop : 1 ≤ inst.opcode.arity) : Obeys E (lowerExtract prog ask v) s := by
  refine hh.nth (hh.needs hop) fun aggregate haggregate ↦ ?_
  exact hh.request hs (hh.depends hphi (List.mem_of_getElem? haggregate)) fun _ _ _ _ _ ↦ Tame.throws _

theorem lowerSelect_obeys (hop : 3 ≤ inst.opcode.arity) : Obeys E (lowerSelect prog ask v) s := by
  refine hh.nth (hh.needs (by omega)) fun onTrue htrue ↦ hh.nth (hh.needs (by omega)) fun onFalse hfalse ↦ ?_
  refine hh.request hs (hh.depends hphi (List.mem_of_getElem? htrue)) fun _ t _ ht _ ↦ ?_
  exact hh.request ht (hh.depends hphi (List.mem_of_getElem? hfalse)) fun _ _ _ _ _ ↦ Tame.throws _

theorem lowerCast_obeys (hop : 1 ≤ inst.opcode.arity) : Obeys E (lowerCast prog ask v) s := by
  refine hh.nth (hh.needs hop) fun source hsource ↦ ?_
  exact hh.request hs (hh.depends hphi (List.mem_of_getElem? hsource)) fun _ _ _ _ _ ↦ Tame.throws _

theorem lowerPtrToInt_obeys (hop : 1 ≤ inst.opcode.arity) : Obeys E (lowerPtrToInt prog ask v) s := by
  refine hh.nth (hh.needs hop) fun source hsource ↦ ?_
  refine hh.request hs (hh.depends hphi (List.mem_of_getElem? hsource)) fun _ t _ ht _ ↦ .next fun id u hu ↦ ?_
  refine Obeys.instruction hh.instruction ((Obeys.updateRecord ?_).bind fun _ _ _ ↦ .pure)
  exact createFor_records hu ▸ hh.recorded ht

theorem lowerIntToPtr_obeys (hop : 1 ≤ inst.opcode.arity) : Obeys E (lowerIntToPtr prog ask v) s := by
  refine hh.nth (hh.needs hop) fun source hsource ↦ ?_
  have hmem := List.mem_of_getElem? hsource
  refine hh.lenient.bind_lift (fun h ↦ intConstant?_answers (h.inRange.operand hh.instruction hmem)) fun n? _ ↦ ?_
  split
  · exact hh.lenient.bind_lift (fun h ↦ describe_answers h.inRange hh.coherent hh.lt) fun _ _ ↦ Tame.throws _
  · exact hh.request hs (hh.depends hphi hmem) fun _ _ _ _ _ ↦ Tame.throws _

theorem lowerAdd_obeys (hop : 2 ≤ inst.opcode.arity) : Obeys E (lowerAdd prog ask v) s := by
  refine hh.nth (hh.needs (by omega)) fun lhs hlhs ↦ hh.nth (hh.needs (by omega)) fun rhs hrhs ↦ ?_
  have hleft : prog.Depends v lhs := ⟨_, hh.instruction, hphi, List.mem_of_getElem? hlhs⟩
  have hright : prog.Depends v rhs := ⟨_, hh.instruction, hphi, List.mem_of_getElem? hrhs⟩
  refine hh.lenient.bind_lift (fun h ↦ signedConstant?_answers (hleft.lt h.inRange)) fun left _ ↦ ?_
  cases left with
  | some amount => exact hh.request hs (.single hright) fun _ _ _ _ _ ↦ Tame.throws _
  | none =>
    refine hh.lenient.bind_lift (fun h ↦ signedConstant?_answers (hright.lt h.inRange)) fun right _ ↦ ?_
    cases right with
    | some amount => exact hh.request hs (.single hleft) fun _ _ _ _ _ ↦ Tame.throws _
    | none =>
      refine (eitherOperand?_obeys hh hs hleft hright).bind fun op? _ _ ↦ ?_
      cases op? with
      | some op => exact Tame.throws _
      | none => exact Tame.throws _

theorem lowerArithmetic_obeys (hop : 2 ≤ inst.opcode.arity) : Obeys E (lowerArithmetic prog ask v) s := by
  refine hh.nth (hh.needs (by omega)) fun lhs hlhs ↦ hh.nth (hh.needs (by omega)) fun rhs hrhs ↦ ?_
  have hleft : prog.Depends v lhs := ⟨_, hh.instruction, hphi, List.mem_of_getElem? hlhs⟩
  have hright : prog.Depends v rhs := ⟨_, hh.instruction, hphi, List.mem_of_getElem? hrhs⟩
  refine hh.lenient.bind_lift (fun h ↦ intConstant?_answers (hleft.lt h.inRange)) fun left _ ↦ ?_
  refine hh.lenient.bind_lift (fun h ↦ intConstant?_answers (hright.lt h.inRange)) fun right _ ↦ ?_
  extract_lets finish
  have hfinish (op? : Option NodeId) {t : Lowering} : Obeys E (finish op?) t := by
    cases op? with
    | some op => exact Tame.throws _
    | none => exact Tame.throws _
  split
  · exact hh.request hs (.single hright) fun op _ _ _ _ ↦ hfinish (some op)
  · split
    · exact hh.request hs (.single hleft) fun op _ _ _ _ ↦ hfinish (some op)
    · exact (eitherOperand?_obeys hh hs hleft hright).bind fun _ _ _ ↦ hfinish _

theorem lowerReturn_obeys : Obeys E (lowerReturn prog ask v) s := by
  refine Obeys.instruction hh.instruction ?_
  have hreturn (ops : List NodeId) {t : Lowering} (ht : P t) : Obeys E (do
      let id ← createFor v (·.createWith { kind := .ret } ops)
      updateRecord prog inst.function v fun r ↦ { r with returns := r.returns ++ [id] }
      return id) t := by
    refine .next fun id u hu ↦ (Obeys.updateRecord ?_).bind fun _ _ _ ↦ .pure
    exact createFor_records hu ▸ hh.recorded ht
  cases hw : inst.operand? 0 with
  | none => exact .bind_pure (hreturn _ hs)
  | some w =>
    have hmem := List.mem_of_getElem? hw
    refine hh.lenient.bind_lift (fun h ↦ isPointer_answers (h.inRange.operand hh.instruction hmem))
      fun pointer _ ↦ .bind_get ?_
    split
    · exact hh.request hs (hh.depends hphi hmem) fun _ _ _ ht _ ↦ hreturn _ ht
    · exact hreturn _ hs

/-! ## Calls -/

/-- What is behind casts and offsets can be asked for, too. -/
theorem Obeys.strip {next : NodeId → Lower β} {offsets : Bool} {budget : Nat} (hmem : w ∈ inst.operands)
    {source : ValueId} (hstrip : prog.stripWithin offsets budget w = .ok source)
    (hnext : ∀ op t, s.Serves prog t → P t → op < t.graph.size → Obeys E (next op) t) :
    Obeys E (ask.operand source >>= next) s :=
  hh.request hs (.head' ⟨_, hh.instruction, hphi, hmem⟩ (reaches_of_stripWithin hstrip)) hnext

theorem lowerIndirectCall_obeys (hcallee : inst.callee? = none → Excuses E) :
    Obeys E (lowerIndirectCall prog ask v inst) s := by
  unfold lowerIndirectCall
  split
  · rename_i hnone
    exact hh.lenient.missing hh.coherent hh.lt (hcallee hnone)
  · rename_i callee hcallee
    have hmem := inst.mem_operands_of_callee? hcallee
    refine hh.lenient.bind_lift (fun h ↦ stripCasts_answers (h.founded hh.coherent)
      (h.inRange.operand hh.instruction hmem)) fun pointer hstrip ↦ ?_
    exact Obeys.strip hh hs hphi hmem hstrip fun _ _ _ _ _ ↦ Tame.throws _

omit hs hphi in
theorem constantSize_tame (i : Nat) : Tame E (constantSize prog inst.arguments[i]?) := by
  refine hh.lenient.constantSize fun h w hw ↦ h.inRange.operand hh.instruction (inst.mem_operands_of_argument ?_)
  exact List.mem_of_getElem? hw

theorem lowerRealloc_obeys (hcount : inst.arguments[0]? = none → Excuses E) :
    Obeys E (lowerRealloc prog ask v inst.arguments) s := by
  have hsize := constantSize_tame hh 1
  unfold lowerRealloc
  split
  · rename_i hnone
    exact hh.lenient.missing hh.coherent hh.lt (hcount hnone)
  · rename_i old hold
    have hmem := inst.mem_operands_of_argument (List.mem_of_getElem? hold)
    refine hh.lenient.bind_lift (fun h ↦ stripOffsets_answers (h.founded hh.coherent)
      (h.inRange.operand hh.instruction hmem)) fun base hstrip ↦ ?_
    refine Obeys.strip hh hs hphi hmem hstrip fun op t _ _ hop ↦ .next fun id t₁ h₁ ↦ .next fun size t₂ h₂ ↦ ?_
    obtain rfl := constantSize_ensures _ _ h₂
    exact Obeys.node (createObject_lt h₁ hop) fun _ ↦ Tame.throws _

theorem lowerAllocation_obeys {allocator : Allocator}
    (hcount : allocator = .realloc → inst.arguments[0]? = none → Excuses E) :
    Obeys E (lowerAllocation prog ask v inst.arguments allocator) s := by
  have hsize (i : Nat) := constantSize_tame hh i
  cases allocator with
  | realloc => exact lowerRealloc_obeys hh hs hphi (hcount rfl)
  | malloc => exact .next fun _ _ _ ↦ Tame.throws _
  | calloc => exact .next fun _ _ _ ↦ .next fun _ _ _ ↦ Tame.throws _
  | alloca => exact .next fun _ _ _ ↦ Tame.throws _

theorem lowerTransfer_obeys (hcount : inst.arguments[1]? = none → Excuses E) :
    Obeys E (lowerTransfer prog ask v inst.arguments) s := by
  have hmem {w : ValueId} (hw : w ∈ inst.arguments) : w ∈ inst.operands := inst.mem_operands_of_argument hw
  unfold lowerTransfer
  split
  · rename_i dest src rest hargs
    extract_lets copy
    have hcopy (length : Offset) : Obeys E (copy length) s := by
      refine hh.request hs (hh.depends hphi (hmem (by simp [hargs]))) fun _ t _ ht _ ↦ ?_
      exact hh.request ht (hh.depends hphi (hmem (by simp [hargs]))) fun _ _ _ _ _ ↦ Tame.throws _
    split
    · exact hcopy _
    · refine hh.lenient.bind_lift (fun h ↦ intConstant?_answers
        (h.inRange.operand hh.instruction (hmem (by simp [hargs])))) fun n? _ ↦ ?_
      cases n? with
      | some n => exact hcopy _
      | none => exact hcopy _
  · rename_i hshort
    refine hh.lenient.missing hh.coherent hh.lt (hcount ?_)
    cases hargs : inst.arguments with
    | nil => rfl
    | cons dest rest =>
      cases rest with
      | nil => rfl
      | cons src rest => exact absurd hargs (hshort dest src rest)

theorem lowerMemset_obeys (hdest : inst.operand? 1 = none → Excuses E)
    (hfill : inst.operand? 2 = none → Excuses E) : Obeys E (lowerMemset prog ask v) s := by
  refine hh.nth hdest fun dest hdest ↦ hh.nth hfill fun fill hfill ↦ ?_
  have hmem := List.mem_of_getElem? hdest
  refine hh.lenient.bind_lift (fun h ↦ stripOffsets_answers (h.founded hh.coherent)
    (h.inRange.operand hh.instruction hmem)) fun base hstrip ↦ ?_
  have hreaches := reaches_of_stripWithin hstrip
  have hstore {t : Lowering} (ht : P t) (stored : NodeId) :
      Obeys E (fillMemory ask v base stored >>= fun span ↦ pure (some span)) t :=
    (fillMemory_obeys hh ht (.head' ⟨_, hh.instruction, hphi, hmem⟩ hreaches)).bind fun _ _ _ ↦ .pure
  have : Tame E (slotType? prog base) := hh.lenient.slotType? fun h ↦
    h.inRange.lt_of_reaches (h.inRange.operand hh.instruction hmem) hreaches
  refine hh.lenient.bind_lift (fun h ↦ intConstant?_answers
    (h.inRange.operand hh.instruction (List.mem_of_getElem? hfill))) fun n? _ ↦ ?_
  split
  · refine .next fun slot? t hslot ↦ ?_
    obtain rfl := slotType?_ensures _ _ hslot
    cases slot? with
    | none => exact hstore hs _
    | some ty =>
      dsimp only
      split
      · exact Obeys.strip hh hs hphi hmem hstrip fun _ _ _ _ _ ↦ .next fun _ _ _ ↦ .pure
      · exact .pure
  · refine hh.lenient.bind_lift (fun h ↦ describe_answers h.inRange hh.coherent hh.lt) fun _ _ ↦
      .next fun _ t hwarn ↦ hstore ?_ _
    exact hh.serves hs ((Lowering.Evolves.refl (hh.valid hs)).step (warn_eq_ok hwarn).step)

theorem lowerVaStart_obeys (hlist : inst.operand? 1 = none → Excuses E) :
    Obeys E (lowerVaStart prog ask v inst) s := by
  have hnote (severity : Severity) :
      Tame E (note severity fun _ ↦ return s!"va_start in @{(← prog.function inst.function).name}") :=
    hh.lenient.note fun _ ↦ .bind (function_answers (hh.coherent.lt_of_instruction hh.instruction)) fun _ _ ↦ .pure _
  refine .next fun r? _ hr ↦ ?_
  obtain ⟨-, rfl⟩ := record?_eq_ok_iff.1 hr
  split
  · exact hh.lenient.bind_lift (fun h ↦ describe_answers h.inRange hh.coherent hh.lt) fun _ _ ↦ Tame.throws _
  · refine hh.nth hlist fun list hlist ↦ ?_
    have hmem := List.mem_of_getElem? hlist
    refine hh.lenient.bind_lift (fun h ↦ stripOffsets_answers (h.founded hh.coherent)
      (h.inRange.operand hh.instruction hmem)) fun base hstrip ↦ ?_
    refine Obeys.strip hh hs hphi hmem hstrip fun op t _ _ hop ↦ .next fun object t₁ h₁ ↦ ?_
    have hop₁ : op < t₁.graph.size := by
      obtain ⟨_, _, hcreate, hrest⟩ := bind_eq_ok_iff.1 h₁
      obtain ⟨_, _, hassign, hpure⟩ := bind_eq_ok_iff.1 hrest
      obtain ⟨-, rfl⟩ := pure_eq_ok_iff.1 hpure
      rw [← assign_eq_ok_iff.1 hassign]
      exact Nat.lt_of_lt_of_eq (createObject_lt hcreate hop) Graph.size_update.symm
    refine Obeys.node hop₁ fun n ↦ ?_
    dsimp only
    split <;> exact Tame.throws _

/-! ## Calls of functions -/

/-- An argument is bound to a phi. -/
theorem passArgument_obeys (hw : w ∈ inst.arguments) {formal : NodeId} :
    Obeys E (ask.operand w >>= fun op ↦ onGraph (·.addOperand formal op)) s :=
  hh.request hs (hh.depends hphi (inst.mem_operands_of_argument hw)) fun _ _ _ _ _ ↦ Tame.throws _

theorem bindArguments_obeys (hfn : prog.functions[f]? = some fn) :
    Obeys E (bindArguments prog ask fn.params inst.arguments) s := by
  refine .forM (fun t ↦ s.Serves prog t) (fun x hx t ht ↦ ?_) (fun x hx t ht ↦ ?_) (.refl (hh.valid hs))
  all_goals have hmem := List.of_mem_zip hx
  · refine hh.lenient.bind_lift (fun _ ↦ isPointer_answers (hh.coherent.lt_of_param hfn hmem.1)) fun pointer _ ↦ ?_
    split
    · refine .next fun phi? _ hnode ↦ ?_
      obtain ⟨-, rfl⟩ := nodeOf?_eq_ok_iff.1 hnode
      cases phi? with
      | none => exact .pure
      | some phi => exact passArgument_obeys hh (hh.serves hs ht) hphi hmem.2
    · exact .pure
  · refine .bind_lift fun pointer _ ↦ ?_
    split
    · refine .seq fun phi? _ hnode ↦ ?_
      obtain ⟨hphi, rfl⟩ := nodeOf?_eq_ok_iff.1 hnode
      cases phi? with
      | none => exact .pure ht
      | some phi =>
        exact (passArgument_ensures hh.sound hh.instruction (fun _ ↦ hh.recorded hs) ht hmem.2
          (ht.valid.formal_isPhi hh.coherent hfn hmem.1 hphi)).mono fun _ _ hu ↦ hu.1
    · exact .pure ht

theorem bindVariadic_obeys {variadic : NodeId} (hvariadic : s.At (fun _ n ↦ n.kind = .phi) variadic)
    {arguments : List ValueId} (hargs : ∀ w ∈ arguments, w ∈ inst.arguments) :
    Obeys E (bindVariadic prog ask variadic arguments) s := by
  refine .forM (fun t ↦ s.Serves prog t) (fun w hw t ht ↦ ?_) (fun w hw t ht ↦ ?_) (.refl (hh.valid hs))
  · have hmem := inst.mem_operands_of_argument (hargs w hw)
    refine hh.lenient.bind_lift (fun h ↦ isPointer_answers (h.inRange.operand hh.instruction hmem)) fun pointer _ ↦ ?_
    split
    · exact passArgument_obeys hh (hh.serves hs ht) hphi (hargs w hw)
    · exact .pure
  · refine .bind_lift fun pointer _ ↦ ?_
    split
    · exact (passArgument_ensures hh.sound hh.instruction (fun _ ↦ hh.recorded hs) ht (hargs w hw)
        (hvariadic.mono_kind ht.graph)).mono fun _ _ hu ↦ hu.1
    · exact .pure ht

/-- The callee is lowered if need be, and the arguments are passed. -/
theorem callFunction_obeys (hcalled : prog.calledFunction? v = .ok (some f)) (hfn : prog.functions[f]? = some fn)
    (hdef : fn.isDeclaration = false) : Obeys E (callFunction prog ask v f) s := by
  refine Obeys.instruction hh.instruction (.next fun q _ h₁ ↦ .next fun m _ h₂ ↦ .next fun _ _ h₃ ↦ .next fun _ _ h₄ ↦
    .next fun _ s₁ h₅ ↦ ?_)
  obtain ⟨-, hrecords, hpending, hopen⟩ := pending_of_create (hh.valid hs) h₁ h₂ h₃ h₄ h₅
  have hs₁ := hh.keeps hs hopen.toKeeps hopen.valid hrecords
  have hstarted := hopen.valid.started (hh.recorded hs₁)
  refine (hh.entry hs₁ hcalled hfn hdef).bind fun entry s₂ hentry ↦ ?_
  obtain ⟨hserves, r, hr, rfl⟩ := hh.sound.entry hopen.valid (fun _ ↦ hstarted) hentry
  refine Obeys.record (by simp [hr]) fun r' hr' ↦ .next fun _ _ h₆ ↦ .next fun _ s₃ h₇ ↦
    hh.lenient.bind_lift (fun _ ↦ function_answers (lt_of_calledFunction? hh.coherent hcalled)) fun fn' hfn' ↦ ?_
  obtain rfl := Option.mem_unique hr hr'
  obtain rfl := Option.mem_unique hfn (Query.lookup_eq_ok_iff.1 hfn')
  have hpending₂ := hpending.serves hopen.valid hserves
  obtain ⟨hjoin, hentered, hrecords₃⟩ : s₂.EvolvesApart prog (fun a ↦ a = m ∨ a = q) (fun _ ↦ False) s₃ ∧
      s₃.Entered prog m q v f r ∧ s₃.records = s₂.records := by
    obtain rfl := onGraph_eq_ok_iff.1 h₆
    rw [← onGraph_eq_ok_iff.1 h₇]
    exact ⟨.joinCall hserves.valid hpending₂ hr, hpending₂.entered hserves.valid hr, rfl⟩
  have hs₃ := hh.keeps (hh.serves hs₁ hserves) hjoin.toKeeps hjoin.valid hrecords₃
  have hf : s₃.records.get? f ≠ none := by simp [hentered.record]
  refine (bindArguments_obeys hh hs₃ hphi hfn).bind fun _ t hbound ↦ ?_
  obtain ⟨ht, -⟩ := bindArguments_ensures hh.coherent hh.sound hjoin.valid hh.instruction (fun _ ↦ hh.recorded hs₃)
    hfn hf _ _ hbound
  have hfinish {u : Lowering} (hu : s₃.Keeps prog u) : Obeys E (if r.complete = true then do
        onGraph (·.addOperands q r.returns)
        note .trace fun _ ↦ return s!"call of @{fn.name}: {m.render} -> {q.render}"
        pure (⟨m, q⟩ : Span)
      else do
        updateRecord prog f v fun r ↦ { r with awaiting := r.awaiting ++ [q] }
        note .trace fun _ ↦ return s!"call of @{fn.name}: {m.render} -> {q.render}"
        pure ⟨m, q⟩) u := by
    have hnote : Tame E (note .trace fun _ ↦ return s!"call of @{fn.name}: {m.render} -> {q.render}") :=
      hh.lenient.note fun _ ↦ .pure _
    split
    · exact Tame.throws _
    · exact (Obeys.updateRecord (hu.recorded hf)).bind fun _ _ _ ↦ Tame.throws _
  dsimp only
  split
  · rename_i variadic hvariadic
    have hs₄ := hh.serves hs₃ ht
    have hphi' := ((hjoin.valid.record hentered.record).variadic hvariadic).mono_kind ht.graph
    refine (bindVariadic_obeys hh hs₄ hphi hphi' fun w hw ↦ List.mem_of_mem_drop hw).bind
      fun _ u hu ↦ hfinish (ht.toKeeps.trans ?_)
    exact (bindVariadic_ensures hh.sound ht.valid hh.instruction (fun _ ↦ hh.recorded hs₄)
      (fun w hw ↦ List.mem_of_mem_drop hw) hphi' _ _ hu).1.toKeeps
  · exact hfinish ht.toKeeps

theorem lowerIntrinsic_obeys (hf : prog.calledFunction? v = .ok (some f)) (hfn : prog.functions[f]? = some fn) :
    Obeys E (lowerIntrinsic prog ask v inst fn.name) s := by
  have hdescribe (h : prog.Grounded) := describe_answers h.inRange hh.coherent hh.lt
  obtain ⟨inst', hinst', hcall⟩ := call_of_calledFunction? hf
  obtain rfl := instruction_unique hh.instruction hinst'
  have hneeds {i : Intrinsic} (hname : Intrinsic.ofName? fn.name = some i) {index : Nat} (hi : index < i.arity)
      (hnone : inst.operand? (index + 1) = none) := hh.intrinsic hf hfn hname hi
      (inst.operand?_succ hcall index ▸ hnone)
  unfold lowerIntrinsic
  split
  · rename_i hname
    exact (lowerTransfer_obeys hh hs hphi (hh.intrinsic hf hfn hname (by decide))).bind fun _ _ _ ↦ .pure
  · rename_i hname
    exact (lowerTransfer_obeys hh hs hphi (hh.intrinsic hf hfn hname (by decide))).bind fun _ _ _ ↦ .pure
  · rename_i hname
    refine (lowerMemset_obeys hh hs hphi (hneeds hname (by decide)) (hneeds hname (by decide))).bind
      fun span? _ _ ↦ ?_
    cases span? with
    | some span => exact .pure
    | none => exact Tame.throws _
  · rename_i hname
    exact lowerVaStart_obeys hh hs hphi (hneeds hname (by decide))
  · exact hh.lenient.bind_lift hdescribe fun _ _ ↦ Tame.throws _
  · rename_i hname
    refine hh.nth (hneeds hname (by decide)) fun pointer hpointer ↦ ?_
    exact (lowerLoad_obeys hh hs (hh.depends hphi (List.mem_of_getElem? hpointer))).bind fun _ _ _ ↦ .pure
  · exact hh.lenient.bind_lift hdescribe fun _ _ ↦ hh.lenient.reject (by simp)

theorem lowerCall_obeys (hcall : inst.opcode = .call) : Obeys E (lowerCall prog ask v) s := by
  refine hh.lenient.bind_lift (fun h ↦ isAsmCall_answers h.inRange hh.lt) fun asm _ ↦ ?_
  split
  · exact Tame.throws _
  · refine Obeys.instruction hh.instruction
      (hh.lenient.bind_lift (fun h ↦ calledFunction?_answers (h.founded hh.coherent) hh.lt) fun f? hf ↦ ?_)
    cases f? with
    | none =>
      refine lowerIndirectCall_obeys hh hs hphi fun hnone ↦ hh.supplied.resolve_right fun hsupplied ↦ ?_
      have hformed := hsupplied.1
      generalize hops : inst.operands = operands at hformed
      rw [hcall] at hformed
      cases hformed
      simp [Instruction.callee?, Instruction.isCall, hcall, hops] at hnone
    | some f =>
      have hlt := lt_of_calledFunction? hh.coherent hf
      refine hh.lenient.bind_lift (fun _ ↦ function_answers hlt) fun fn hlookup ↦ ?_
      have hfn := Query.lookup_eq_ok_iff.1 hlookup
      split
      · split
        · rename_i allocator hname
          refine lowerAllocation_obeys hh hs hphi fun hrealloc hnone ↦ ?_
          refine (hh.counts hf hfn).resolve_right fun hcounts ↦ ?_
          have hparams := hcounts.2.realloc (List.mem_of_getElem? hfn) (hrealloc ▸ hname)
          have hlength := List.getElem?_eq_none_iff.1 hnone
          have hcount := hcounts.1
          omega
        · split
          · exact lowerIntrinsic_obeys hh hs hphi hf hfn
          · exact Tame.throws _
      · rename_i hdef
        exact (callFunction_obeys hh hs hphi hf hfn (Bool.not_eq_true _ ▸ hdef)).bind fun _ _ _ ↦ Tame.throws _

end

/-- An instruction that is heeded fails only as allowed. -/
theorem lowerInstruction_obeys : Obeys E (lowerInstruction prog ask v) s := by
  have hdescribe (h : prog.Grounded) := describe_answers h.inRange hh.coherent hh.lt
  have hnote : Tame E (note .trace fun _ ↦ return s!"building {← prog.describe v}") :=
    hh.lenient.note fun h ↦ .bind (hdescribe h) fun _ _ ↦ .pure _
  refine Obeys.instruction hh.instruction (.next fun _ t hremark ↦ ?_)
  have ht := hh.serves hs ((Lowering.Evolves.refl (hh.valid hs)).step (note_eq_ok hremark).step)
  obtain ⟨opcode, operands, function, block⟩ := inst
  cases opcode with
  | alloca | phi => exact Tame.throws _
  | store => exact (lowerStore_obeys hh ht rfl le_rfl).bind fun _ _ _ ↦ .pure
  | load =>
    refine hh.nth (hh.needs Nat.one_pos) fun pointer hpointer ↦ ?_
    exact (lowerLoad_obeys hh ht (hh.depends rfl (List.mem_of_getElem? hpointer))).bind fun _ _ _ ↦ .pure
  | getElementPtr =>
    exact (lowerGep_obeys hh ht rfl le_rfl fun w hw ↦ List.mem_of_mem_tail hw).bind fun _ _ _ ↦ .pure
  | extractValue => exact lowerExtract_obeys hh ht rfl le_rfl
  | select => exact (lowerSelect_obeys hh ht rfl le_rfl).bind fun _ _ _ ↦ .pure
  | call => exact lowerCall_obeys hh ht rfl rfl
  | ret => exact (lowerReturn_obeys hh ht rfl).bind fun _ _ _ ↦ .pure
  | cast op =>
    cases op with
    | bitcast | zext | sext => exact (lowerCast_obeys hh ht rfl le_rfl).bind fun _ _ _ ↦ .pure
    | ptrToInt => exact (lowerPtrToInt_obeys hh ht rfl le_rfl).bind fun _ _ _ ↦ .pure
    | intToPtr => exact (lowerIntToPtr_obeys hh ht rfl le_rfl).bind fun _ _ _ ↦ .pure
    | trunc => exact Tame.throws _
  | binary op =>
    cases op with
    | and | or | xor | shl | lshr | ashr => exact Tame.throws _
    | add => exact (lowerAdd_obeys hh ht rfl le_rfl).bind fun _ _ _ ↦ .pure
    | _ => exact (lowerArithmetic_obeys hh ht rfl le_rfl).bind fun _ _ _ ↦ .pure
  | _ => exact hh.lenient.bind_lift hdescribe fun _ _ ↦ hh.lenient.reject (by simp)

/-- So does an instruction of a block, whether it matters or not. -/
theorem lowerInBlock_obeys : Obeys E (lowerInBlock prog ask v) s := by
  have : Tame E (isRelevant prog v) := hh.lenient.isRelevant hh.coherent hh.lt
  have : Tame E (isMemset prog v) := hh.lenient.isMemset hh.coherent hh.lt
  refine .next fun relevant t hrelevant ↦ ?_
  obtain ⟨hsettles, -⟩ := isRelevant_eq_ok hrelevant
  have ht := hh.serves hs ((Lowering.Evolves.refl (hh.valid hs)).step hsettles.step)
  cases relevant with
  | true => exact (lowerInstruction_obeys hh ht).bind fun _ _ _ ↦ .pure
  | false =>
    refine .next fun memset _ hmemset ↦ ?_
    obtain ⟨hfills, rfl⟩ := isMemset_ensures hh.instruction _ _ hmemset
    cases memset with
    | false => exact .pure
    | true =>
      obtain ⟨hphi, f, fn, hf, hfn, -, hname⟩ := hfills rfl
      obtain ⟨inst', hinst', hcall⟩ := call_of_calledFunction? hf
      obtain rfl := instruction_unique hh.instruction hinst'
      have hneeds {index : Nat} (hi : index < 2) (hnone : inst.operand? (index + 1) = none) :=
        hh.intrinsic hf hfn hname hi (inst.operand?_succ hcall index ▸ hnone)
      exact lowerMemset_obeys hh ht hphi (hneeds (by decide)) (hneeds (by decide))

end

end Lower

end PointsTo
