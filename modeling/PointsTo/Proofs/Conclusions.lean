import PointsTo.Proofs.Answers
import PointsTo.Proofs.Findings

/-!
# Computations that come to a conclusion

A computation comes to a conclusion if it succeeds or rejects the program.  It does not if it meets an
id that names nothing, or if its budget is used up.  The computations below ask for nothing that is
still to be lowered, so in a grounded program they come to a conclusion, in whatever state they start.

Nor does any of them miss an operand.  Both are said at once: `Lenient` names the failures that are
allowed, and each computation fails only as allowed.
-/

namespace PointsTo

open Stateful Program

/-- A query that answers does not fail. -/
theorem Stateful.Tame.andThen {α β : Type} {E : Failure → Prop} {q : Query α} {next : α → Lower β} (hq : q.Answers)
    (hnext : ∀ a, q = .ok a → Tame E (next a)) : Tame E ((liftM q : Lower α) >>= next) := by
  obtain ⟨a, rfl⟩ := hq
  exact ⟨fun s ↦ Throws.bind_lift (fun e he ↦ by simp at he) fun b hb ↦ (hnext b hb).throws s⟩

namespace Lower

variable {α β : Type} {prog : Program} {s : Lowering} {v : ValueId} {f : FuncId} {id : NodeId}

/-- The computation succeeds or rejects the program. -/
abbrev Concludes (x : Lower α) (s : Lowering) : Prop := Throws x s fun e _ ↦ ∃ cause, e = .rejected cause

namespace Concludes

variable {x : Lower α} {next : α → Lower β}

theorem reject {cause : Rejection} : Concludes (reject cause : Lower α) s := Throws.throw ⟨cause, rfl⟩

theorem bind (hx : Concludes x s) (hnext : ∀ a t, x s = .ok a t → Concludes (next a) t) : Concludes (x >>= next) s :=
  Throws.bind hx hnext

theorem lift {q : Query α} (hq : q.Answers) : Concludes (liftM q) s := by
  obtain ⟨a, ha⟩ := hq
  exact Throws.lift fun e he ↦ by simp [ha] at he

theorem bind_lift {q : Query α} (hq : q.Answers) (hnext : ∀ a, q = .ok a → Concludes (next a) s) :
    Concludes ((liftM q : Lower α) >>= next) s := by
  obtain ⟨a, ha⟩ := hq
  exact Throws.bind_lift (fun e he ↦ by simp [ha] at he) hnext

theorem foldlM {step : β → α → Lower β} {l : List α} {b : β} (P : β → Lowering → Prop)
    (hconcludes : ∀ a ∈ l, ∀ c t, P c t → Concludes (step c a) t)
    (hstep : ∀ a ∈ l, ∀ c t, P c t → Ensures (step c a) t P) (hb : P b s) : Concludes (l.foldlM step b) s :=
  Throws.foldlM P hconcludes hstep hb

theorem forM {step : α → Lower PUnit} {l : List α} (P : Lowering → Prop)
    (hconcludes : ∀ a ∈ l, ∀ t, P t → Concludes (step a) t) (hstep : ∀ a ∈ l, ∀ t, P t → Ensures (step a) t fun _ ↦ P)
    (hs : P s) : Concludes (l.forM step) s :=
  Throws.forM P hconcludes hstep hs

end Concludes

/-- The computation comes to a conclusion, in whatever state it starts. -/
abbrev Conclusive (x : Lower α) : Prop := Tame (fun e ↦ ∃ cause, e = .rejected cause) x

/-- What follows a computation that always comes to a conclusion. -/
theorem Concludes.next {x : Lower α} {next : α → Lower β} [Conclusive x]
    (hnext : ∀ a t, x s = .ok a t → Concludes (next a) t) : Concludes (x >>= next) s := Throws.next hnext

theorem Conclusive.lift {q : Query α} (hq : q.Answers) : Conclusive (liftM q : Lower α) := ⟨fun _ ↦ Concludes.lift hq⟩

theorem Conclusive.note {severity : Severity} {text : Unit → Query String} (h : (text ()).Answers) :
    Conclusive (note severity text) := by
  refine .bind fun _ ↦ ?_
  split
  · exact .andThen h fun _ _ ↦ .modify _
  · exact .pure _

end Lower

/-- However the computation fails, the failure is allowed. -/
abbrev Lower.Obeys {α : Type} (E : Failure → Prop) (x : Lower α) (s : Lowering) : Prop := Throws x s fun e _ ↦ E e

/-- All failures are allowed but a missing operand, or all rejections of a grounded program. -/
inductive Program.Lenient (prog : Program) (E : Failure → Prop) : Prop
  | finding : (∀ e, (∀ text, e ≠ .rejected (.missingOperand text)) → E e) → prog.Lenient E
  | rejecting : prog.Grounded → (∀ cause, E (.rejected cause)) → prog.Lenient E

/-- A program may be rejected for a missing operand. -/
def Excuses (E : Failure → Prop) : Prop := ∀ text, E (.rejected (.missingOperand text))

open Lower

variable {α β : Type} {prog : Program} {E : Failure → Prop} {s : Lowering} {v : ValueId} {f : FuncId}

theorem Program.Grounded.lenient (h : prog.Grounded) : prog.Lenient fun e ↦ ∃ cause, e = .rejected cause :=
  .rejecting h fun cause ↦ ⟨cause, rfl⟩

namespace Program.Lenient

variable (hE : prog.Lenient E)

include hE

theorem tame {x : Lower α} [hx : NeverMisses x] (hconclusive : prog.Grounded → Conclusive x) : Tame E x := by
  cases hE with
  | finding hE => exact ⟨fun s ↦ (hx.throws s).mono fun e _ ↦ hE e⟩
  | rejecting h hE =>
    refine ⟨fun s ↦ ((hconclusive h).throws s).mono ?_⟩
    rintro _ _ ⟨cause, rfl⟩
    exact hE cause

theorem bind_lift {q : Query α} [q.NeverRejects] {next : α → Lower β} (hq : prog.Grounded → q.Answers)
    (hnext : ∀ a, q = .ok a → Obeys E (next a) s) : Obeys E ((liftM q : Lower α) >>= next) s := by
  have : Tame E (liftM q : Lower α) := hE.tame fun h ↦ .lift (hq h)
  refine .next fun a t h ↦ ?_
  obtain ⟨ha, rfl⟩ := lift_eq_ok_iff.1 h
  exact hnext a ha

theorem note {severity : Severity} {text : Unit → Query String} [(text ()).NeverRejects]
    (h : prog.Grounded → (text ()).Answers) : Tame E (note severity text) :=
  hE.tame fun hprog ↦ .note (h hprog)

theorem reject {cause : Rejection} (h : ∀ text, cause ≠ .missingOperand text) : Obeys E (reject cause : Lower α) s := by
  refine Throws.throw ?_
  cases hE with
  | finding hE => exact hE _ fun text he ↦ h text (Failure.rejected.inj he)
  | rejecting _ hE => exact hE cause

theorem missing (hprog : prog.Coherent) (hv : v < prog.values.length) (h : Excuses E) :
    Obeys E (missing prog v : Lower α) s :=
  hE.bind_lift (fun h ↦ describe_answers h.inRange hprog hv) fun _ _ ↦ Throws.throw (h _)

theorem lift {q : Query α} [q.NeverRejects] (hq : prog.Grounded → q.Answers) : Tame E (liftM q : Lower α) :=
  hE.tame fun h ↦ .lift (hq h)

theorem andThen {q : Query α} [q.NeverRejects] {next : α → Lower β} (hq : prog.Grounded → q.Answers)
    (hnext : ∀ a, q = .ok a → Tame E (next a)) : Tame E ((liftM q : Lower α) >>= next) :=
  ⟨fun s ↦ hE.bind_lift hq fun a ha ↦ (hnext a ha).throws s⟩

/-! ## Questions about the program -/

variable (hprog : prog.Coherent)

include hprog

theorem touchesPointers (hf : f < prog.functions.length) : Tame E (touchesPointers prog f) := by
  refine .bind fun s ↦ ?_
  dsimp only
  split
  · exact .pure _
  · refine hE.andThen (fun h ↦ searchPointers_answers h.inRange hprog
      (by simpa using ⟨hf, (h.founded hprog).calleesEnd f⟩) ?_) fun _ _ ↦ .bind fun _ ↦ .pure _
    rw [instructionCount_eq, List.length_singleton]
    omega

theorem isRelevantCall (hv : v < prog.values.length) : Tame E (isRelevantCall prog v) := by
  refine hE.andThen (fun h ↦ isAsmCall_answers h.inRange hv) fun asm _ ↦ ?_
  split
  · exact .pure _
  · refine hE.andThen (fun h ↦ calledFunction?_answers (h.founded hprog) hv) fun f? hf ↦ ?_
    cases f? with
    | none => exact .pure _
    | some f =>
      have hlt := lt_of_calledFunction? hprog hf
      refine hE.andThen (fun _ ↦ function_answers hlt) fun fn _ ↦ ?_
      split
      · exact hE.lift fun _ ↦ isRelevantDeclaration_answers hlt hv
      · refine hE.andThen (fun _ ↦ isPointer_answers hv) fun pointer _ ↦ ?_
        split
        · exact .pure _
        · refine hE.andThen (fun h ↦ passesPointer_answers h.inRange hv) fun passes _ ↦ ?_
          split
          · exact .pure _
          · exact touchesPointers hE hprog hlt

theorem isRelevant (hv : v < prog.values.length) : Tame E (isRelevant prog v) := by
  refine hE.andThen (fun _ ↦ instruction?_answers hv) fun inst? hinst ↦ ?_
  cases inst? with
  | none => exact .pure _
  | some inst =>
    have hkind := instruction?_eq_ok_iff.1 hinst
    dsimp only
    split
    case h_1 =>
      split
      · rename_i stored hstored
        exact hE.lift fun h ↦ isPointer_answers (h.inRange.operand hkind (List.mem_of_getElem? hstored))
      · exact .pure _
    case h_2 | h_3 | h_4 | h_5 => exact hE.lift fun _ ↦ isPointer_answers hv
    case h_6 => exact isRelevantCall hE hprog hv
    case h_13 =>
      refine hE.andThen (fun _ ↦ isPointer_answers hv) fun pointer _ ↦ ?_
      split
      · refine hE.andThen (fun h ↦ describe_answers h.inRange hprog hv) fun text _ ↦ ?_
        have : Tame E (Lower.reject (.unhandledInstruction inst.opcode.name text) : Lower Unit) :=
          ⟨fun _ ↦ hE.reject (by simp)⟩
        exact .bind fun _ ↦ .pure _
      · exact .pure _
    all_goals exact .pure _

theorem elementOffset {indices : List ValueId} (hv : v < prog.values.length)
    (hindices : prog.Grounded → ∀ w ∈ indices, w < prog.values.length) (source : Ty) :
    Tame E (elementOffset prog v source indices) := by
  refine hE.andThen (fun h ↦ constantOffset?_answers (hindices h) source) fun offset? _ ↦ ?_
  cases offset? with
  | none => exact .pure _
  | some offset =>
    dsimp only
    split
    · exact .pure _
    · split
      · exact hE.andThen (fun h ↦ describe_answers h.inRange hprog hv) fun _ _ ↦ .bind fun _ ↦ .pure _
      · exact .pure _

omit hprog in
theorem constantSize {v? : Option ValueId} (hv : prog.Grounded → ∀ v ∈ v?, v < prog.values.length) : Tame E
    (constantSize prog v?) := by
  cases v? with
  | none => exact .pure _
  | some v =>
    refine hE.andThen (fun h ↦ intConstant?_answers (hv h v rfl)) fun n? _ ↦ ?_
    cases n? with
    | none => exact .pure _
    | some n => exact .pure _

theorem isMemset (hv : v < prog.values.length) : Tame E (isMemset prog v) := by
  refine hE.andThen (fun h ↦ calledFunction?_answers (h.founded hprog) hv) fun f? hf ↦ ?_
  cases f? with
  | none => exact .pure _
  | some f => exact hE.andThen (fun _ ↦ function_answers (lt_of_calledFunction? hprog hf)) fun _ _ ↦ .pure _

omit hprog in
theorem slotType? (hv : prog.Grounded → v < prog.values.length) : Tame E (slotType? prog v) := by
  refine hE.andThen (fun h ↦ instruction?_answers (hv h)) fun inst? _ ↦ ?_
  split <;> exact .pure _

omit hprog in
theorem isUnvisited (hv : prog.Grounded → v < prog.values.length) : Tame E (isUnvisited prog v) := by
  refine hE.andThen (fun h ↦ instruction?_answers (hv h)) fun inst? _ ↦ ?_
  cases inst? with
  | none => exact .pure _
  | some inst => exact .bind fun _ ↦ .pure _

/-! ## Parts of functions -/

theorem placeSequence (hv : v < prog.values.length) (hf : ∀ inst, prog.kindAt v = some (.instruction inst) →
    inst.function = f) (span : Span) : Tame E (placeSequence prog f v span) := by
  refine hE.andThen (fun _ ↦ instruction?_answers hv) fun inst? hinst ↦ ?_
  cases inst? with
  | none => exact .pure _
  | some inst =>
    have hkind := instruction?_eq_ok_iff.1 hinst
    obtain rfl := hf inst hkind
    refine .bind fun block? ↦ ?_
    split
    · exact hE.andThen (fun h ↦ describe_answers h.inRange hprog hv) fun _ _ ↦ inferInstance
    · refine hE.andThen (fun _ ↦ function_answers (hprog.lt_of_instruction hkind)) fun fn hfn ↦ ?_
      have hblock : (fn.block inst.block).Answers := by
        have hmem := hprog.placed hkind
        cases hb : fn.blocks[inst.block]? with
        | none => simp [instsOf, Query.lookup_eq_ok_iff.1 hfn, Function.instsAt, hb] at hmem
        | some block => exact ⟨block, Query.lookup_eq_ok_iff.2 hb⟩
      refine hE.andThen (fun _ ↦ hblock) fun _ _ ↦ .bind fun _ ↦ ?_
      dsimp only
      split
      · refine .bind fun _ ↦ ?_
        split
        · exact .bind fun _ ↦ inferInstance
        · exact inferInstance
      · exact .bind fun _ ↦ .bind fun _ ↦ inferInstance
    · refine .bind fun r? ↦ ?_
      cases r? with
      | none => exact .bind fun _ ↦ inferInstance
      | some r =>
        dsimp only
        split
        · exact .bind fun _ ↦ .bind fun _ ↦ inferInstance
        · exact .bind fun _ ↦ inferInstance

end Program.Lenient

theorem Stateful.Tame.lowerFormals (hprog : prog.Coherent) {fn : Function} (hfn : prog.functions[f]? = some fn) :
    Tame E (lowerFormals prog fn) := by
  have hchain : Tame E (fn.params.foldlM (fun chain param ↦ do
      if ← prog.isPointer param then
        Lower.append chain (← Lower.createFor param (·.create { kind := .phi }))
      else return chain) none) := by
    refine .foldlM (fun chain param hparam ↦ Tame.andThen (isPointer_answers (hprog.lt_of_param hfn hparam))
      fun _ _ ↦ ?_) _
    split
    · exact .bind fun _ ↦ inferInstance
    · exact .pure _
  refine .bind fun chain ↦ ?_
  split
  · exact .bind fun _ ↦ .bind fun _ ↦ .pure _
  · exact .pure _

theorem Stateful.Tame.linkBlocks (hf : f < prog.functions.length) : Tame E (linkBlocks prog f) := by
  refine .andThen (function_answers hf) fun fn _ ↦ .bind fun _ ↦ .forM fun b _ ↦ ?_
  split
  · exact .pure _
  · exact .forM fun _ _ ↦ inferInstance

end PointsTo
