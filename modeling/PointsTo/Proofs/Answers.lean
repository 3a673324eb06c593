import Mathlib.Algebra.BigOperators.Group.Finset.Basic
import PointsTo.Proofs.Failures
import PointsTo.Proofs.Grounding

/-!
# Queries that have an answer

In a grounded program a query never meets an id that names nothing, and it never runs out of budget:
casts, aggregates and callees are followed at most as far as there are values and instructions.  The search
for pointers asks for less: ids that name something, and callees whose casts can be followed to an end.
-/

namespace PointsTo

/-- The query has an answer. -/
def Query.Answers {α : Type} (q : Query α) : Prop := ∃ a, q = .ok a

namespace Query.Answers

variable {α β : Type}

theorem pure (a : α) : Answers (Pure.pure a : Query α) := ⟨a, rfl⟩

theorem lookup {table : List α} {id : Nat} (h : id < table.length) : Answers (lookup table id) :=
  ⟨table[id], lookup_eq_ok_iff.2 (List.getElem?_eq_getElem h)⟩

theorem bind {x : Query α} {f : α → Query β} (hx : x.Answers) (hf : ∀ a, x = .ok a → (f a).Answers) :
    Answers (x >>= f) := by
  obtain ⟨a, ha⟩ := hx
  exact ok_bind ha (hf a ha)

theorem anyM {p : α → Query Bool} {l : List α} (hp : ∀ a ∈ l, (p a).Answers) : (l.anyM p).Answers := by
  induction l with
  | nil => exact .pure false
  | cons a rest ih =>
    refine .bind (hp a List.mem_cons_self) fun b _ ↦ ?_
    cases b with
    | true => exact .pure true
    | false => exact ih fun x hx ↦ hp x (List.mem_cons_of_mem _ hx)

theorem allM {p : α → Query Bool} {l : List α} (hp : ∀ a ∈ l, (p a).Answers) : (l.allM p).Answers := by
  induction l with
  | nil => exact .pure true
  | cons a rest ih =>
    refine .bind (hp a List.mem_cons_self) fun b _ ↦ ?_
    cases b with
    | true => exact ih fun x hx ↦ hp x (List.mem_cons_of_mem _ hx)
    | false => exact .pure false

end Query.Answers

namespace Program

open Query

variable {prog : Program} {v w : ValueId} {f : FuncId} {inst : Instruction}

/-! ## Values -/

section

variable (hv : v < prog.values.length)

include hv

theorem value_answers : (prog.value v).Answers := .lookup hv

theorem isPointer_answers : (prog.isPointer v).Answers := .bind (value_answers hv) fun _ _ ↦ .pure _

theorem instruction?_answers : (prog.instruction? v).Answers := by
  refine .bind (value_answers hv) fun _ _ ↦ ?_
  split <;> exact .pure _

theorem constant?_answers : (prog.constant? v).Answers := by
  refine .bind (value_answers hv) fun _ _ ↦ ?_
  split <;> exact .pure _

theorem intConstant?_answers : (prog.intConstant? v).Answers := by
  refine .bind (constant?_answers hv) fun _ _ ↦ ?_
  split <;> exact .pure _

theorem signedConstant?_answers : (prog.signedConstant? v).Answers := by
  refine .bind (intConstant?_answers hv) fun n? _ ↦ ?_
  cases n? with
  | none => exact .pure none
  | some n => exact .bind (value_answers hv) fun _ _ ↦ .pure _

theorem castSource?_answers (offsets : Bool) : (prog.castSource? offsets v).Answers := by
  refine .bind (value_answers hv) fun _ _ ↦ ?_
  split <;> exact .pure _

theorem callee?_answers : (prog.callee? v).Answers := by
  refine .bind (instruction?_answers hv) fun _ _ ↦ ?_
  split <;> exact .pure _

theorem callArguments_answers : (prog.callArguments v).Answers := by
  refine .bind (instruction?_answers hv) fun _ _ ↦ ?_
  split <;> exact .pure _

end

theorem function_answers (hf : f < prog.functions.length) : (prog.function f).Answers := .lookup hf

theorem anyM_isPointer_answers {l : List ValueId} (hl : ∀ v ∈ l, v < prog.values.length) :
    (l.anyM prog.isPointer).Answers :=
  .anyM fun v hv ↦ isPointer_answers (hl v hv)

theorem indexedOffset?_answers {indices : List ValueId} (hindices : ∀ v ∈ indices, v < prog.values.length) (ty : Ty)
    (offset : Int) : (prog.indexedOffset? ty offset indices).Answers := by
  induction indices generalizing ty offset with
  | nil => exact .pure _
  | cons index rest ih =>
    have hrest := ih fun v hv ↦ hindices v (List.mem_cons_of_mem _ hv)
    unfold indexedOffset?
    split
    · refine .bind (intConstant?_answers (hindices index List.mem_cons_self)) fun i _ ↦ ?_
      cases i with
      | none => exact .pure none
      | some i =>
        dsimp only
        split
        · exact hrest ..
        · exact .pure none
    · refine .bind (signedConstant?_answers (hindices index List.mem_cons_self)) fun i _ ↦ ?_
      cases i with
      | none => exact .pure none
      | some i => exact hrest ..
    · exact .pure none

theorem constantOffset?_answers {indices : List ValueId} (hindices : ∀ v ∈ indices, v < prog.values.length)
    (source : Ty) : (prog.constantOffset? source indices).Answers := by
  cases indices with
  | nil => exact .pure _
  | cons first rest =>
    refine .bind (signedConstant?_answers (hindices first List.mem_cons_self)) fun i _ ↦ ?_
    cases i with
    | none => exact .pure none
    | some i => exact indexedOffset?_answers (fun v hv ↦ hindices v (List.mem_cons_of_mem _ hv)) ..

/-! ## Functions -/

theorem Coherent.lt_of_function (hprog : prog.Coherent) (hv : prog.kindAt v = some (.function f)) :
    f < prog.functions.length := by
  obtain ⟨fn, hfn, -⟩ := Option.map_eq_some_iff.1 (hprog.function hv)
  exact (List.getElem?_eq_some_iff.1 hfn).1

theorem lt_of_mem_instsOf {b : BlockId} (hv : v ∈ prog.instsOf f b) : f < prog.functions.length := by
  by_contra hlt
  simp [instsOf, List.getElem?_eq_none (Nat.not_lt.1 hlt)] at hv

theorem Coherent.lt_of_instruction (hprog : prog.Coherent) (hv : prog.kindAt v = some (.instruction inst)) :
    inst.function < prog.functions.length :=
  lt_of_mem_instsOf (hprog.placed hv)

theorem Coherent.lt_of_param (hprog : prog.Coherent) {fn : Function} (hfn : prog.functions[f]? = some fn)
    (hv : v ∈ fn.params) : v < prog.values.length := by
  obtain ⟨j, hj⟩ := List.mem_iff_getElem?.1 hv
  exact lt_of_kindAt (hprog.param (by rw [hfn]; rfl) hj)

theorem Coherent.lt_of_inst (hprog : prog.Coherent) {fn : Function} (hfn : prog.functions[f]? = some fn)
    (hv : v ∈ fn.blocks.flatMap (·.insts)) : v < prog.values.length := by
  obtain ⟨block, hblock, hv⟩ := List.mem_flatMap.1 hv
  obtain ⟨b, hb⟩ := List.mem_iff_getElem?.1 hblock
  have hmem : v ∈ prog.instsOf f b := by simpa [instsOf, hfn, Function.instsAt, hb] using hv
  obtain ⟨inst, hinst, -⟩ := hprog.inst hmem
  exact lt_of_kindAt hinst

theorem Orderly.reachableBlocks_answers (h : prog.Orderly) {fn : Function} (hfn : fn ∈ prog.functions) :
    fn.reachableBlocks.Answers := by
  cases hdef : fn.isDeclaration with
  | true => exact ⟨[], by simp [Function.reachableBlocks, hdef]; rfl⟩
  | false => exact Function.reachableBlocks_total hdef fun _ _ ↦ h.flows hfn

/-! ## Texts -/

section

variable (hrange : prog.InRange) (hprog : prog.Coherent)

include hrange hprog

theorem operandText_answers (hv : v < prog.values.length) : (prog.operandText v).Answers := by
  refine .bind (value_answers hv) fun x hx ↦ ?_
  have hkind := kindAt_of_value hx
  split
  case h_1 f hf =>
    rw [hf] at hkind
    exact .bind (function_answers (hprog.lt_of_function hkind)) fun _ _ ↦ .pure _
  case h_2 g hg =>
    rw [hg] at hkind
    exact .bind (.lookup (hrange.global hkind)) fun _ _ ↦ .pure _
  case h_9 => split <;> exact .pure _
  all_goals exact .pure _

theorem operationText_answers {operands : List ValueId} (hops : ∀ w ∈ operands, w < prog.values.length)
    (opcode : Opcode) : (prog.operationText opcode operands).Answers :=
  .bind (mapM_total fun w hw ↦ operandText_answers hrange hprog (hops w hw)) fun _ _ ↦ .pure _

theorem describe_answers (hv : v < prog.values.length) : (prog.describe v).Answers := by
  refine .bind (value_answers hv) fun x hx ↦ ?_
  have hkind := kindAt_of_value hx
  split
  · rename_i inst hinst
    rw [hinst] at hkind
    refine .bind (operationText_answers hrange hprog (fun w hw ↦ hrange.operand hkind hw) _) fun _ _ ↦ ?_
    refine .bind (operandText_answers hrange hprog hv) fun _ _ ↦ ?_
    exact .bind (function_answers (hprog.lt_of_instruction hkind)) fun _ _ ↦ .pure _
  · rename_i opcode operands hexpr
    rw [hexpr] at hkind
    exact .bind (operationText_answers hrange hprog (fun w hw ↦ hrange.operand hkind hw) _) fun _ _ ↦ .pure _
  · exact operandText_answers hrange hprog hv

end

/-! ## Chains of casts and nested aggregates -/

/-- The operand that a cast is computed from. -/
theorem depends_of_castSource? {offsets : Bool} (h : prog.castSource? offsets v = .ok (some w)) : prog.Depends v w := by
  obtain ⟨k, hk, hw⟩ := mem_operands_of_castSource? h
  refine ⟨k, hk, ?_, hw⟩
  obtain ⟨x, hx, rfl⟩ := value_of_kindAt hk
  simp only [castSource?, bind_eq_ok_iff, hx, Except.ok.injEq, exists_eq_left'] at h
  split at h
  · rename_i inst hinst
    rw [hinst]
    change inst.isPhi = false
    unfold castSource?.source? at h
    unfold Instruction.isPhi
    cases hop : inst.opcode with
    | phi => simp [hop, pure_eq_ok_iff] at h
    | _ => rfl
  · rename_i hexpr
    rw [hexpr]
    rfl
  · simp [pure_eq_ok_iff] at h

/-- What is found behind casts is what the value is computed from, or the value itself. -/
theorem reaches_of_stripWithin {offsets : Bool} {budget : Nat} (h : prog.stripWithin offsets budget v = .ok w) :
    Relation.ReflTransGen prog.Depends v w := by
  induction budget generalizing v with
  | zero => simp [stripWithin] at h
  | succ budget ih =>
    simp only [stripWithin, bind_eq_ok_iff] at h
    obtain ⟨source?, hsource, h⟩ := h
    cases source? with
    | none => exact pure_eq_ok_iff.1 h ▸ .refl
    | some source => exact .head (depends_of_castSource? hsource) (ih h)

theorem InRange.lt_of_reaches (hrange : prog.InRange) (hv : v < prog.values.length)
    (h : Relation.ReflTransGen prog.Depends v w) : w < prog.values.length := by
  rcases Relation.ReflTransGen.cases_tail h with rfl | ⟨_, -, hdepends⟩
  · exact hv
  · exact hdepends.lt hrange

/-- The first value is a cast of the second one. -/
def Casts (prog : Program) (offsets : Bool) (v w : ValueId) : Prop := prog.castSource? offsets v = .ok (some w)

/-- The casts that are met on the way back from the value come to an end. -/
def CastsEnd (prog : Program) (offsets : Bool) (v : ValueId) : Prop := Acc (fun w v ↦ prog.Casts offsets v w) v

theorem CastsEnd.not_transGen {offsets : Bool} (h : prog.CastsEnd offsets v) :
    ¬Relation.TransGen (prog.Casts offsets) v v := by
  induction h with
  | intro v _ ih =>
    intro hcycle
    obtain ⟨w, hvw, hwv⟩ := Relation.TransGen.head'_iff.1 hcycle
    exact ih w hvw (.tail' hwv hvw)

theorem Founded.castsEnd (h : prog.Founded) (offsets : Bool) (v : ValueId) : prog.CastsEnd offsets v := by
  refine Subrelation.accessible (fun {w v} hcasts ↦ ?_) ((measure (prog.height prog.Depends)).wf.apply v)
  have hdepends := depends_of_castSource? hcasts
  exact height_lt_height h.acyclic (.single hdepends) (hdepends.lt h.inRange)

/-- Casts end if they are cast from earlier values. -/
theorem castsEnd_of_check {offsets : Bool}
    (h : ∀ v < prog.values.length, ∀ w ∈ ((prog.castSource? offsets v).toOption).join, w < v) (v : ValueId) :
    prog.CastsEnd offsets v := by
  refine Subrelation.accessible (fun {w v} hcasts ↦ ?_) (Nat.lt_wfRel.wf.apply v)
  obtain ⟨k, hk, -⟩ := mem_operands_of_castSource? hcasts
  exact h v (lt_of_kindAt hk) w (by rw [hcasts]; rfl)

/-- The first value is a cast of the second one, and the casts that are met from there come to an end. -/
def Unwinds (prog : Program) (offsets : Bool) (v w : ValueId) : Prop := prog.Casts offsets v w ∧ prog.CastsEnd offsets v

theorem not_unwinds_self (offsets : Bool) (v : ValueId) : ¬Relation.TransGen (prog.Unwinds offsets) v v := by
  intro hcycle
  obtain ⟨_, ⟨-, hend⟩, -⟩ := Relation.TransGen.head'_iff.1 hcycle
  exact hend.not_transGen (Relation.TransGen.mono (fun _ _ ↦ And.left) _ _ hcycle)

theorem CastsEnd.stripWithin_answers {offsets : Bool} {budget : Nat} (h : prog.CastsEnd offsets v)
    (hrange : prog.InRange) (hv : v < prog.values.length) (hbudget : prog.height (prog.Unwinds offsets) v < budget) :
    (prog.stripWithin offsets budget v).Answers := by
  induction budget generalizing v with
  | zero => contradiction
  | succ budget ih =>
    refine .bind (castSource?_answers hv offsets) fun source? hsource ↦ ?_
    cases source? with
    | none => exact .pure v
    | some source =>
      have hlt := (depends_of_castSource? hsource).lt hrange
      have hunwinds : prog.Unwinds offsets v source := ⟨hsource, h⟩
      have hheight := height_lt_height (not_unwinds_self offsets) (.single hunwinds) hlt
      exact ih (h.inv hsource) hlt (by omega)

/-- Casts that end are followed to their end within as many steps as there are values: none is met twice. -/
theorem CastsEnd.strip_answers {offsets : Bool} (h : prog.CastsEnd offsets v) (hrange : prog.InRange)
    (hv : v < prog.values.length) : (prog.stripWithin offsets (prog.values.length + 1) v).Answers :=
  h.stripWithin_answers hrange hv (Nat.lt_succ_of_lt (height_lt_length (not_unwinds_self offsets) hv))

section

variable (h : prog.Founded) (hrange : prog.InRange) (hprog : prog.Coherent)

include h

theorem isZeroWithin_answers {budget : Nat} (hv : v < prog.values.length)
    (hbudget : prog.height prog.Depends v < budget) : (prog.isZeroWithin budget v).Answers := by
  induction budget generalizing v with
  | zero => contradiction
  | succ budget ih =>
    refine .bind (constant?_answers hv) fun c? hc ↦ ?_
    split
    case h_4 elems =>
      have hkind := constant?_eq_ok_iff.1 hc
      refine .allM fun w hw ↦ ?_
      have hdepends : prog.Depends v w := ⟨_, hkind, rfl, hw⟩
      have hlt := hdepends.lt h.inRange
      have hheight := height_lt_height h.acyclic (.single hdepends) hlt
      exact ih hlt (by omega)
    all_goals exact .pure _

theorem isZero_answers (hv : v < prog.values.length) : (prog.isZero v).Answers :=
  isZeroWithin_answers h hv (Nat.lt_succ_of_lt (height_lt_length h.acyclic hv))

theorem stripCasts_answers (hv : v < prog.values.length) : (prog.stripCasts v).Answers :=
  (h.castsEnd false v).strip_answers h.inRange hv

theorem stripOffsets_answers (hv : v < prog.values.length) : (prog.stripOffsets v).Answers :=
  (h.castsEnd true v).strip_answers h.inRange hv

/-! ## Calls -/

omit h

/-- The callee of a call is one of its operands. -/
theorem operand_of_callee? (hcallee : prog.callee? v = .ok (some w)) :
    ∃ inst, prog.kindAt v = some (.instruction inst) ∧ inst.opcode = .call ∧ w ∈ inst.operands := by
  simp only [callee?, bind_eq_ok_iff] at hcallee
  obtain ⟨inst?, hinst, hcallee⟩ := hcallee
  cases inst? with
  | none => simp [pure_eq_ok_iff] at hcallee
  | some inst =>
    have hcallee := pure_eq_ok_iff.1 hcallee
    refine ⟨inst, instruction?_eq_ok_iff.1 hinst, ?_, inst.mem_operands_of_callee? hcallee⟩
    unfold Instruction.callee? Instruction.isCall at hcallee
    cases hop : inst.opcode with
    | call => rfl
    | _ => simp [hop] at hcallee

/-- The casts of the callee of the call end. -/
def CalleeEnds (prog : Program) (call : ValueId) : Prop :=
  ∀ callee, prog.callee? call = .ok (some callee) → prog.CastsEnd false callee

include hrange

theorem CalleeEnds.calledFunction?_answers (hend : prog.CalleeEnds v) (hv : v < prog.values.length) :
    (prog.calledFunction? v).Answers := by
  refine .bind (callee?_answers hv) fun callee? hcallee ↦ ?_
  cases callee? with
  | none => exact .pure none
  | some callee =>
    obtain ⟨inst, hinst, -, hmem⟩ := operand_of_callee? hcallee
    have hlt := hrange.operand hinst hmem
    refine .bind ((hend callee hcallee).strip_answers hrange hlt) fun base hbase ↦ ?_
    refine .bind (value_answers (hrange.lt_of_reaches hlt (reaches_of_stripWithin hbase))) fun _ _ ↦ ?_
    split <;> exact .pure _

omit hrange in
include h in
theorem calledFunction?_answers (hv : v < prog.values.length) : (prog.calledFunction? v).Answers :=
  CalleeEnds.calledFunction?_answers h.inRange (fun callee _ ↦ h.castsEnd false callee) hv

omit hrange in
include hprog in
theorem lt_of_calledFunction? (hf : prog.calledFunction? v = .ok (some f)) : f < prog.functions.length := by
  simp only [calledFunction?, bind_eq_ok_iff] at hf
  obtain ⟨callee?, -, hf⟩ := hf
  cases callee? with
  | none => simp [pure_eq_ok_iff] at hf
  | some callee =>
    simp only [bind_eq_ok_iff] at hf
    obtain ⟨base, -, x, hx, hf⟩ := hf
    split at hf
    · rename_i g hg
      obtain rfl := Option.some.inj (pure_eq_ok_iff.1 hf)
      exact hprog.lt_of_function (hg ▸ kindAt_of_value hx)
    · simp [pure_eq_ok_iff] at hf

theorem isAsmCall_answers (hv : v < prog.values.length) : (prog.isAsmCall v).Answers := by
  refine .bind (callee?_answers hv) fun callee? hcallee ↦ ?_
  cases callee? with
  | none => exact .pure false
  | some callee =>
    obtain ⟨inst, hinst, -, hmem⟩ := operand_of_callee? hcallee
    refine .bind (value_answers (hrange.operand hinst hmem)) fun _ _ ↦ ?_
    split <;> exact .pure _

omit hrange in
theorem isRelevantDeclaration_answers (hf : f < prog.functions.length) (hv : v < prog.values.length) :
    (prog.isRelevantDeclaration f v).Answers := by
  refine .bind (function_answers hf) fun callee _ ↦ ?_
  split
  · exact .pure true
  · split
    · split <;> exact .pure _
    · exact isPointer_answers hv

theorem passesPointer_answers (hv : v < prog.values.length) : (prog.passesPointer v).Answers := by
  refine .bind (callArguments_answers hv) fun arguments harguments ↦ anyM_isPointer_answers fun w hw ↦ ?_
  simp only [callArguments, bind_eq_ok_iff] at harguments
  obtain ⟨inst?, hinst, harguments⟩ := harguments
  cases inst? with
  | none => simp [← pure_eq_ok_iff.1 harguments] at hw
  | some inst =>
    rw [← pure_eq_ok_iff.1 harguments] at hw
    exact hrange.operand (instruction?_eq_ok_iff.1 hinst) (inst.mem_operands_of_argument hw)

/-! ## The search for pointers -/

include hprog

theorem touchOf_answers (hend : prog.CalleeEnds v) (hv : v < prog.values.length) : (prog.touchOf v).Answers := by
  refine .bind (instruction?_answers hv) fun inst? hinst ↦ ?_
  cases inst? with
  | none => exact .pure _
  | some inst =>
    have hkind := instruction?_eq_ok_iff.1 hinst
    refine .bind (isPointer_answers hv) fun pointer _ ↦ ?_
    split
    · exact .pure _
    · split
      · exact .bind (anyM_isPointer_answers fun w hw ↦ hrange.operand hkind hw) fun _ _ ↦ .pure _
      · refine .bind (isAsmCall_answers hrange hv) fun asm _ ↦ ?_
        split
        · exact .pure _
        · refine .bind (anyM_isPointer_answers fun w hw ↦
            hrange.operand hkind (inst.mem_operands_of_argument hw)) fun passes _ ↦ ?_
          split
          · exact .pure _
          · refine .bind (hend.calledFunction?_answers hrange hv) fun f? hf ↦ ?_
            cases f? with
            | none => exact .pure _
            | some f =>
              have hlt := lt_of_calledFunction? hprog hf
              refine .bind (function_answers hlt) fun fn _ ↦ ?_
              split
              · exact .bind (isRelevantDeclaration_answers hlt hv) fun _ _ ↦ .pure _
              · exact .pure _

theorem calleesOf_answers {insts : List ValueId} (hinsts : ∀ v ∈ insts, v < prog.values.length)
    (hends : ∀ v ∈ insts, prog.CalleeEnds v) : (prog.calleesOf insts).Answers := by
  induction insts with
  | nil => exact .pure _
  | cons v rest ih =>
    obtain ⟨hv, hrest⟩ := List.forall_mem_cons.1 hinsts
    obtain ⟨hend, hends⟩ := List.forall_mem_cons.1 hends
    refine .bind (touchOf_answers hrange hprog hend hv) fun touch _ ↦ ?_
    cases touch with
    | pointers => exact .pure none
    | callee f => exact .bind (ih hrest hends) fun _ _ ↦ .pure _
    | nothing => exact ih hrest hends

/-- The casts of the callees end in the function and in all that it reaches by direct calls. -/
def CalleesEnd (prog : Program) (f : FuncId) : Prop :=
  ∀ g fn, Relation.ReflTransGen prog.CallsDirectly f g → prog.functions[g]? = some fn →
    ∀ call ∈ fn.blocks.flatMap (·.insts), prog.CalleeEnds call

omit hrange hprog in
theorem Founded.calleesEnd (h : prog.Founded) (f : FuncId) : prog.CalleesEnd f :=
  fun _ _ _ _ _ _ callee _ ↦ h.castsEnd false callee

theorem localCallees_answers (hf : f < prog.functions.length) (hends : prog.CalleesEnd f) :
    (prog.localCallees f).Answers := by
  refine .bind (function_answers hf) fun fn hlookup ↦ ?_
  have hfn := lookup_eq_ok_iff.1 hlookup
  split
  · exact .pure none
  · refine .bind (anyM_isPointer_answers fun w hw ↦ hprog.lt_of_param hfn hw) fun takes _ ↦ ?_
    split
    · exact .pure none
    · exact calleesOf_answers hrange hprog (fun v hv ↦ hprog.lt_of_inst hfn hv) (hends f fn .refl hfn)

/-- The number of instructions of the functions that were not visited. -/
def unvisitedSize (prog : Program) (visited : OrderedSet FuncId) : Nat :=
  ∑ f ∈ Finset.range prog.functions.length, if visited.contains f then 0 else prog.bodySize f

omit hrange hprog in
/-- There are at most as many callees as there are instructions, and all of them exist. -/
theorem callees_of_localCallees {callees : List FuncId} (hcallees : prog.localCallees f = .ok (some callees)) :
    callees.length ≤ prog.bodySize f ∧ ∀ g ∈ callees, prog.CallsDirectly f g ∧ g < prog.functions.length := by
  obtain ⟨hlength, hcalls⟩ := callsDirectly_of_localCallees hcallees
  refine ⟨hlength, fun g hg ↦ ⟨hcalls g hg, ?_⟩⟩
  obtain ⟨_, -, _, -, -, hg⟩ := hcalls g hg
  obtain ⟨_, hg, -⟩ := Option.map_eq_some_iff.1 hg
  exact (List.getElem?_eq_some_iff.1 hg).1

omit hrange hprog in
theorem unvisitedSize_insert {visited : OrderedSet FuncId} (hf : f < prog.functions.length) (hnew : f ∉ visited) :
    prog.unvisitedSize (visited.insert f) + prog.bodySize f = prog.unvisitedSize visited := by
  have hmem := Finset.mem_range.2 hf
  unfold unvisitedSize
  rw [← Finset.sum_erase_add _ _ hmem, ← Finset.sum_erase_add _ _ hmem]
  rw [if_pos (OrderedSet.contains_iff.2 (OrderedSet.mem_insert.2 (.inl rfl))),
    if_neg (mt OrderedSet.contains_iff.1 hnew), Nat.add_zero]
  congr 1
  refine Finset.sum_congr rfl fun g hg ↦ ?_
  have hsame : (visited.insert f).contains g = true ↔ visited.contains g = true := by
    rw [OrderedSet.contains_iff, OrderedSet.contains_iff, OrderedSet.mem_insert,
      or_iff_right (Finset.ne_of_mem_erase hg)]
  exact if_congr hsame rfl rfl

omit hrange hprog in
theorem instructionCount_eq : prog.instructionCount = prog.unvisitedSize ∅ := by
  have hblocks (blocks : List Block) (count : Nat) :
      blocks.foldl (fun count b ↦ count + b.insts.length) count = count + (blocks.flatMap (·.insts)).length := by
    induction blocks generalizing count with
    | nil => rfl
    | cons b blocks ih => simp [ih, Nat.add_assoc]
  have hfunctions (functions : List Function) (count : Nat) :
      functions.foldl (fun count f ↦ count + (f.blocks.flatMap (·.insts)).length) count = count +
        ∑ f ∈ Finset.range functions.length, ((functions[f]?).map fun fn ↦
        (fn.blocks.flatMap (·.insts)).length).getD 0 := by
    induction functions generalizing count with
    | nil => simp
    | cons fn functions ih =>
      rw [List.foldl_cons, ih, List.length_cons, Finset.sum_range_succ']
      simp only [List.getElem?_cons_succ, List.getElem?_cons_zero, Option.map_some, Option.getD_some]
      omega
  unfold instructionCount unvisitedSize bodySize
  simp only [hblocks, hfunctions, Nat.zero_add, OrderedSet.contains_iff, OrderedSet.not_mem_empty, if_false]

/-- The search ends: what it finds behind a function is paid for by the instructions of the function. -/
theorem searchPointers_answers {known : OrderedMap FuncId Bool} {budget : Nat} {stack : List FuncId}
    {visited : OrderedSet FuncId} (hstack : ∀ f ∈ stack, f < prog.functions.length ∧ prog.CalleesEnd f)
    (hbudget : stack.length + prog.unvisitedSize visited < budget) :
    (prog.searchPointers known budget stack visited).Answers := by
  induction budget generalizing stack visited with
  | zero => contradiction
  | succ budget ih =>
    cases stack with
    | nil => exact .pure false
    | cons f stack =>
      obtain ⟨⟨hf, hends⟩, hrest⟩ := List.forall_mem_cons.1 hstack
      rw [List.length_cons] at hbudget
      unfold searchPointers
      split
      · exact ih hrest (by omega)
      · rename_i hvisited
        split
        · exact .pure true
        · refine .bind (localCallees_answers hrange hprog hf hends) fun callees? hcallees ↦ ?_
          cases callees? with
          | none => exact .pure true
          | some callees =>
            obtain ⟨hlength, hcalls⟩ := callees_of_localCallees hcallees
            have hnew : f ∉ visited := fun hmem ↦ hvisited (OrderedSet.contains_iff.2 hmem)
            have hsize := unvisitedSize_insert hf hnew
            refine ih (fun g hg ↦ ?_) ?_
            · rcases List.mem_append.1 hg with hg | hg
              · obtain ⟨hg, hlt⟩ := hcalls g (List.mem_reverse.1 hg)
                exact ⟨hlt, fun g' fn hreach ↦ hends g' fn (.head hg hreach)⟩
              · exact hrest g hg
            · rw [List.length_append, List.length_reverse]
              omega

end

end Program

end PointsTo
