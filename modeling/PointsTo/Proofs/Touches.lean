import Mathlib.Logic.Relation
import PointsTo.Proofs.Validity

/-!
# Functions that touch pointers

An instruction handles pointers if it yields, takes or may return one, as far as that can be told without looking
into the functions that it calls.  A function touches pointers if its type or one of its instructions does.  If it
does not, then what is left to look at are the functions with a body that it names in calls.
-/

namespace PointsTo

open Query

theorem Query.not_of_anyM {α : Type} {p : α → Query Bool} {l : List α} (h : l.anyM p = .ok false) :
    ∀ a ∈ l, p a = .ok false := by
  induction l with
  | nil => simp
  | cons a rest ih =>
    simp only [List.anyM, bind_eq_ok_iff] at h
    obtain ⟨b, hb, h⟩ := h
    cases b with
    | true => simp [pure_eq_ok_iff] at h
    | false =>
      intro x hx
      rcases List.mem_cons.1 hx with rfl | hx
      · exact hb
      · exact ih h x hx

theorem Query.exists_of_anyM {α : Type} {p : α → Query Bool} {l : List α} (h : l.anyM p = .ok true) :
    ∃ a ∈ l, p a = .ok true := by
  induction l with
  | nil => simp [List.anyM, pure_eq_ok_iff] at h
  | cons a rest ih =>
    simp only [List.anyM, bind_eq_ok_iff] at h
    obtain ⟨b, hb, h⟩ := h
    cases b with
    | true => exact ⟨a, List.mem_cons_self, hb⟩
    | false =>
      obtain ⟨x, hx, hp⟩ := ih h
      exact ⟨x, List.mem_cons_of_mem _ hx, hp⟩

namespace Program

/-- The instruction is a call that names the function, which is declared only or has a body. -/
def Names (prog : Program) (call : ValueId) (f : FuncId) (declared : Bool) : Prop :=
  prog.calledFunction? call = .ok (some f) ∧ (prog.functions[f]?).map (·.isDeclaration) = some declared

/-- The instruction handles pointers, whatever the functions do that it calls. -/
inductive HandlesPointers (prog : Program) (v : ValueId) (inst : Instruction) : Prop
  | result (h : prog.isPointer v = .ok true)
  | operand {w : ValueId} (hcall : inst.isCall = false) (hw : w ∈ inst.operands) (h : prog.isPointer w = .ok true)
  | assembly (hcall : inst.isCall = true) (h : prog.isAsmCall v = .ok true)
  | argument {w : ValueId} (hw : w ∈ inst.arguments) (h : prog.isPointer w = .ok true)
  | unnamed (hcall : inst.isCall = true) (h : prog.calledFunction? v = .ok none)
  | declaration {f : FuncId} (hf : prog.Names v f true) (h : prog.isRelevantDeclaration f v = .ok true)

variable {prog : Program} {v w : ValueId} {inst : Instruction} {f g : FuncId} {touch : Touch}

/-- Only calls name functions. -/
theorem call_of_calledFunction? (h : prog.calledFunction? v = .ok (some f)) :
    ∃ inst, prog.kindAt v = some (.instruction inst) ∧ inst.opcode = .call := by
  simp only [calledFunction?, callee?, bind_eq_ok_iff] at h
  obtain ⟨callee?, ⟨inst?, hinst, hcallee⟩, hcalled⟩ := h
  cases inst? with
  | none =>
    obtain rfl := pure_eq_ok_iff.1 hcallee
    simp [pure_eq_ok_iff] at hcalled
  | some inst =>
    refine ⟨inst, instruction?_eq_ok_iff.1 hinst, ?_⟩
    obtain rfl := pure_eq_ok_iff.1 hcallee
    by_contra hne
    have hcall : inst.isCall = false := by
      unfold Instruction.isCall
      split
      · contradiction
      · rfl
    simp [Instruction.callee?, hcall, pure_eq_ok_iff] at hcalled

theorem Names.isCall {declared : Bool} (h : prog.Names v f declared) (hv : prog.kindAt v = some (.instruction inst)) :
    inst.isCall = true := by
  obtain ⟨inst', hv', hcall⟩ := call_of_calledFunction? h.1
  obtain rfl := Program.instruction_unique hv hv'
  simp [Instruction.isCall, hcall]

/-- What looking at an instruction finds out: it handles pointers, or it has nothing to do with them, or that is up
to the function that it calls. -/
theorem touchOf_cases (hv : prog.kindAt v = some (.instruction inst)) (h : prog.touchOf v = .ok touch) :
    (touch = .pointers ∧ prog.HandlesPointers v inst) ∨
    (touch = .nothing ∧ inst.isCall = false ∧ prog.isPointer v = .ok false ∧
    inst.operands.anyM prog.isPointer = .ok false) ∨
    (inst.isCall = true ∧ prog.isPointer v = .ok false ∧ prog.isAsmCall v = .ok false ∧
      inst.arguments.anyM prog.isPointer = .ok false ∧ ∃ f fn, prog.calledFunction? v = .ok (some f) ∧
      prog.functions[f]? = some fn ∧
      if fn.isDeclaration then touch = .nothing ∧ prog.isRelevantDeclaration f v = .ok false
      else touch = .callee f) := by
  simp only [touchOf, bind_eq_ok_iff, instruction?_eq_ok_iff.2 hv, Except.ok.injEq, exists_eq_left'] at h
  obtain ⟨pointer, hpointer, h⟩ := h
  cases pointer with
  | true => exact .inl ⟨(pure_eq_ok_iff.1 h).symm, .result hpointer⟩
  | false =>
    cases hcall : inst.isCall with
    | false =>
      simp only [hcall, Bool.not_false, Bool.false_eq_true, if_true, if_false, bind_eq_ok_iff] at h
      obtain ⟨any, hany, h⟩ := h
      cases any with
      | true =>
        obtain ⟨w, hw, hpointer⟩ := exists_of_anyM hany
        exact .inl ⟨(pure_eq_ok_iff.1 h).symm, .operand hcall hw hpointer⟩
      | false => exact .inr (.inl ⟨(pure_eq_ok_iff.1 h).symm, rfl, hpointer, hany⟩)
    | true =>
      simp only [hcall, Bool.not_true, Bool.false_eq_true, if_false, bind_eq_ok_iff] at h
      obtain ⟨asm, hasm, h⟩ := h
      cases asm with
      | true => exact .inl ⟨(pure_eq_ok_iff.1 h).symm, .assembly hcall hasm⟩
      | false =>
        obtain ⟨passes, hpasses, h⟩ := bind_eq_ok_iff.1 h
        cases passes with
        | true =>
          obtain ⟨w, hw, hpointer⟩ := exists_of_anyM hpasses
          exact .inl ⟨(pure_eq_ok_iff.1 h).symm, .argument hw hpointer⟩
        | false =>
          obtain ⟨f?, hf, h⟩ := bind_eq_ok_iff.1 h
          cases f? with
          | none => exact .inl ⟨(pure_eq_ok_iff.1 h).symm, .unnamed hcall hf⟩
          | some f =>
            obtain ⟨fn, hfn, h⟩ := bind_eq_ok_iff.1 h
            have hfn := lookup_eq_ok_iff.1 hfn
            cases hdeclared : fn.isDeclaration with
            | false =>
              simp only [hdeclared, Bool.false_eq_true, if_false, pure_eq_ok_iff] at h
              exact .inr (.inr ⟨rfl, hpointer, hasm, hpasses, f, fn, hf, hfn, by simp [hdeclared, h]⟩)
            | true =>
              simp only [hdeclared, if_true, bind_eq_ok_iff] at h
              obtain ⟨relevant, hrelevant, h⟩ := h
              cases relevant with
              | true => exact .inl ⟨(pure_eq_ok_iff.1 h).symm, .declaration ⟨hf, by simp [hfn, hdeclared]⟩ hrelevant⟩
              | false =>
                have htouch : touch = .nothing := (pure_eq_ok_iff.1 h).symm
                exact .inr (.inr ⟨rfl, hpointer, hasm, hpasses, f, fn, hf, hfn, by simp [hdeclared, htouch, hrelevant]⟩)

/-- Exactly the instructions that handle pointers are found to, and else exactly the function with a body that is
called is found. -/
theorem touchOf_spec (hv : prog.kindAt v = some (.instruction inst)) (h : prog.touchOf v = .ok touch) :
    (touch = .pointers ↔ prog.HandlesPointers v inst) ∧
      (touch ≠ .pointers → ∀ g, touch = .callee g ↔ prog.Names v g false) := by
  rcases touchOf_cases hv h with ⟨rfl, hhandles⟩ | ⟨rfl, hcall, hresult, hany⟩ | ⟨hcall, hresult, hasm, hpasses,
    f, fn, hf, hfn, htouch⟩
  · exact ⟨⟨fun _ ↦ hhandles, fun _ ↦ rfl⟩, fun hne ↦ absurd rfl hne⟩
  · refine ⟨⟨by simp, fun hhandles ↦ ?_⟩, fun _ g ↦ ⟨by simp, fun hg ↦ by simp [hg.isCall hv] at hcall⟩⟩
    cases hhandles with
    | result h => simp [hresult] at h
    | operand _ hw h => simp [not_of_anyM hany _ hw] at h
    | assembly hcall' | unnamed hcall' => simp [hcall] at hcall'
    | argument hw => simp [Instruction.arguments, hcall] at hw
    | declaration hf => simp [hf.isCall hv] at hcall
  · have hunique {g : FuncId} {declared : Bool} (hg : prog.Names v g declared) : f = g ∧
      fn.isDeclaration = declared := by
      obtain rfl : f = g := by simpa [hf] using hg.1
      exact ⟨rfl, by simpa [hfn] using hg.2⟩
    have hne : touch ≠ .pointers := by
      split at htouch
      · simp [htouch.1]
      · simp [htouch]
    refine ⟨⟨fun h ↦ absurd h hne, fun hhandles ↦ ?_⟩, fun _ g ↦ ?_⟩
    · cases hhandles with
      | result h => simp [hresult] at h
      | operand hcall' => simp [hcall] at hcall'
      | assembly _ h => simp [hasm] at h
      | argument hw h => simp [not_of_anyM hpasses _ hw] at h
      | unnamed _ h => simp [hf] at h
      | declaration hg h =>
        obtain ⟨rfl, hdeclared⟩ := hunique hg
        simp [hdeclared, h] at htouch
    · cases hdeclared : fn.isDeclaration with
      | true =>
        rw [if_pos hdeclared] at htouch
        exact ⟨by simp [htouch.1], fun hg ↦ by simpa [hdeclared] using (hunique hg).2⟩
      | false =>
        rw [if_neg (by simp [hdeclared])] at htouch
        subst htouch
        refine ⟨fun heq ↦ ?_, fun hg ↦ by rw [(hunique hg).1]⟩
        obtain rfl := Touch.callee.inj heq
        exact ⟨hf, by simp [hfn, hdeclared]⟩

theorem instruction_of_touchOf (h : prog.touchOf v = .ok touch) (hne : touch ≠ .nothing) :
    ∃ inst, prog.kindAt v = some (.instruction inst) := by
  simp only [touchOf, bind_eq_ok_iff] at h
  obtain ⟨inst?, hinst, h⟩ := h
  cases inst? with
  | none => exact absurd (pure_eq_ok_iff.1 h).symm hne
  | some inst => exact ⟨inst, instruction?_eq_ok_iff.1 hinst⟩

/-- The function touches pointers, whatever the functions do that it calls. -/
inductive TouchesPointers (prog : Program) (f : FuncId) : Prop
  | returns {fn : Function} (hfn : prog.functions[f]? = some fn) (h : fn.returnTy.isPointer = true)
  | takes (h : prog.TakesPointer f)
  | handles {fn : Function} {v : ValueId} {inst : Instruction} (hfn : prog.functions[f]? = some fn)
      (hv : v ∈ fn.blocks.flatMap (·.insts)) (hinst : prog.kindAt v = some (.instruction inst))
      (h : prog.HandlesPointers v inst)

/-- The first function calls the second, which has a body, by its name. -/
def CallsDirectly (prog : Program) (f g : FuncId) : Prop :=
  ∃ fn, prog.functions[f]? = some fn ∧ ∃ v ∈ fn.blocks.flatMap (·.insts), prog.Names v g false

/-- The function touches pointers, or one does that it reaches by direct calls of functions with a body. -/
def ReachesPointers (prog : Program) (f : FuncId) : Prop :=
  ∃ g, Relation.ReflTransGen prog.CallsDirectly f g ∧ prog.TouchesPointers g

/-- What is remembered about functions is what can be told from the functions that they reach. -/
def Exact (prog : Program) (known : OrderedMap FuncId Bool) : Prop :=
  ∀ f b, known.get? f = some b → (b = true ↔ prog.ReachesPointers f)

/-- Some instruction handles pointers, or those callees are found that the instructions name. -/
theorem calleesOf_cases {insts : List ValueId} {callees? : Option (List FuncId)}
    (h : prog.calleesOf insts = .ok callees?) : (callees? = none ∧ ∃ v ∈ insts, prog.touchOf v = .ok .pointers) ∨
    ∃ callees, callees? = some callees ∧ callees.length ≤ insts.length ∧
      (∀ v ∈ insts, prog.touchOf v = .ok .nothing ∨ ∃ g ∈ callees, prog.touchOf v = .ok (.callee g)) ∧
      ∀ g ∈ callees, ∃ v ∈ insts, prog.touchOf v = .ok (.callee g) := by
  induction insts generalizing callees? with
  | nil =>
    obtain rfl := pure_eq_ok_iff.1 h
    exact .inr ⟨[], rfl, by simp⟩
  | cons v rest ih =>
    simp only [calleesOf, bind_eq_ok_iff] at h
    obtain ⟨touch, htouch, h⟩ := h
    cases touch with
    | pointers => exact .inl ⟨(pure_eq_ok_iff.1 h).symm, v, List.mem_cons_self, htouch⟩
    | nothing =>
      rcases ih h with ⟨hnone, w, hw, hpointers⟩ | ⟨callees, rfl, hlength, hfound, hnamed⟩
      · exact .inl ⟨hnone, w, List.mem_cons_of_mem _ hw, hpointers⟩
      · refine .inr ⟨callees, rfl, hlength.trans (Nat.le_succ _), List.forall_mem_cons.2 ⟨.inl htouch, hfound⟩,
          fun g hg ↦ ?_⟩
        obtain ⟨w, hw, hg⟩ := hnamed g hg
        exact ⟨w, List.mem_cons_of_mem _ hw, hg⟩
    | callee f =>
      obtain ⟨rest?, hrest, h⟩ := bind_eq_ok_iff.1 h
      obtain rfl := pure_eq_ok_iff.1 h
      rcases ih hrest with ⟨rfl, w, hw, hpointers⟩ | ⟨callees, rfl, hlength, hfound, hnamed⟩
      · exact .inl ⟨rfl, w, List.mem_cons_of_mem _ hw, hpointers⟩
      · refine .inr ⟨f :: callees, rfl, Nat.succ_le_succ hlength, List.forall_mem_cons.2 ⟨?_, fun w hw ↦ ?_⟩,
          List.forall_mem_cons.2 ⟨⟨v, List.mem_cons_self, htouch⟩, fun g hg ↦ ?_⟩⟩
        · exact .inr ⟨f, List.mem_cons_self, htouch⟩
        · refine (hfound w hw).imp id ?_
          rintro ⟨g, hg, hcallee⟩
          exact ⟨g, List.mem_cons_of_mem _ hg, hcallee⟩
        · obtain ⟨w, hw, hg⟩ := hnamed g hg
          exact ⟨w, List.mem_cons_of_mem _ hw, hg⟩

/-- The function touches pointers, or its instructions depend on callees at most. -/
theorem localCallees_cases {callees? : Option (List FuncId)} (h : prog.localCallees f = .ok callees?) :
    ∃ fn, prog.functions[f]? = some fn ∧ ((callees? = none ∧ prog.TouchesPointers f) ∨
      ∃ callees, callees? = some callees ∧ fn.returnTy.isPointer = false ∧
        (∀ w ∈ fn.params, prog.isPointer w = .ok false) ∧
        prog.calleesOf (fn.blocks.flatMap (·.insts)) = .ok (some callees)) := by
  simp only [localCallees, bind_eq_ok_iff] at h
  obtain ⟨fn, hfn, h⟩ := h
  have hfn := lookup_eq_ok_iff.1 hfn
  refine ⟨fn, hfn, ?_⟩
  cases hreturn : fn.returnTy.isPointer with
  | true =>
    rw [hreturn] at h
    exact .inl ⟨(pure_eq_ok_iff.1 h).symm, .returns hfn hreturn⟩
  | false =>
    simp only [hreturn, Bool.false_eq_true, if_false, bind_eq_ok_iff] at h
    obtain ⟨takes, htakes, h⟩ := h
    cases takes with
    | true => exact .inl ⟨(pure_eq_ok_iff.1 h).symm, .takes ⟨fn, hfn, exists_of_anyM htakes⟩⟩
    | false =>
      simp only [Bool.false_eq_true, if_false] at h
      rcases calleesOf_cases h with ⟨rfl, v, hv, hpointers⟩ | ⟨callees, rfl, -⟩
      · obtain ⟨inst, hinst⟩ := instruction_of_touchOf hpointers (by simp)
        exact .inl ⟨rfl, .handles hfn hv hinst ((touchOf_spec hinst hpointers).1.1 rfl)⟩
      · exact .inr ⟨callees, rfl, rfl, not_of_anyM htakes, h⟩

/-- The number of instructions of a function. -/
def bodySize (prog : Program) (f : FuncId) : Nat :=
  ((prog.functions[f]?).map fun fn ↦ (fn.blocks.flatMap (·.insts)).length).getD 0

/-- The callees that are found are called, by one instruction each. -/
theorem callsDirectly_of_localCallees {callees : List FuncId} (h : prog.localCallees f = .ok (some callees)) :
    callees.length ≤ prog.bodySize f ∧ ∀ g ∈ callees, prog.CallsDirectly f g := by
  obtain ⟨fn, hfn, ⟨hnone, -⟩ | ⟨_, hsome, -, -, hinsts⟩⟩ := localCallees_cases h
  · contradiction
  obtain rfl := Option.some.inj hsome
  obtain ⟨hnone, -⟩ | ⟨_, hsome, hlength, -, hnamed⟩ := calleesOf_cases hinsts
  · contradiction
  obtain rfl := Option.some.inj hsome
  refine ⟨by simpa [bodySize, hfn] using hlength, fun g hg ↦ ?_⟩
  obtain ⟨v, hv, htouch⟩ := hnamed g hg
  obtain ⟨inst, hinst⟩ := instruction_of_touchOf htouch (by simp)
  exact ⟨fn, hfn, v, hv, ((touchOf_spec hinst htouch).2 (by simp) g).1 rfl⟩

/-! ## Quiet functions -/

theorem Quiet.callees (h : prog.Quiet f) : ∃ callees, prog.localCallees f = .ok (some callees) ∧
    ∀ g ∈ callees, prog.Quiet g := by
  obtain ⟨quiet, hf, hclosed⟩ := h
  obtain ⟨callees, hcallees, hquiet⟩ := hclosed f hf
  exact ⟨callees, hcallees, fun g hg ↦ ⟨quiet, hquiet g hg, hclosed⟩⟩

theorem Quiet.exists_function (h : prog.Quiet f) : ∃ fn, prog.functions[f]? = some fn := by
  obtain ⟨callees, hcallees, -⟩ := h.callees
  exact (localCallees_cases hcallees).imp fun _ ↦ And.left

/-- The instructions of a quiet function depend on quiet functions at most. -/
theorem Quiet.touchOf {fn : Function} (h : prog.Quiet f) (hfn : prog.functions[f]? = some fn)
    (hv : v ∈ fn.blocks.flatMap (·.insts)) :
    ∃ touch, prog.touchOf v = .ok touch ∧ touch ≠ .pointers ∧ ∀ g, touch = .callee g → prog.Quiet g := by
  obtain ⟨callees, hcallees, hquiet⟩ := h.callees
  obtain ⟨_, hfn', ⟨hnone, -⟩ | ⟨_, hsome, -, -, hinsts⟩⟩ := localCallees_cases hcallees
  · contradiction
  obtain rfl := Option.mem_unique hfn hfn'
  obtain rfl := Option.some.inj hsome
  obtain ⟨hnone, -⟩ | ⟨_, hsome, -, hfound, -⟩ := calleesOf_cases hinsts
  · contradiction
  obtain rfl := Option.some.inj hsome
  rcases hfound v hv with htouch | ⟨g, hg, htouch⟩
  · exact ⟨_, htouch, by simp, by simp⟩
  · refine ⟨_, htouch, by simp, fun g' heq ↦ ?_⟩
    obtain rfl := Touch.callee.inj heq
    exact hquiet g hg

/-- A quiet function touches no pointers. -/
theorem Quiet.not_touchesPointers (h : prog.Quiet f) : ¬prog.TouchesPointers f := by
  obtain ⟨callees, hcallees, -⟩ := h.callees
  obtain ⟨fn, hfn, ⟨hnone, -⟩ | ⟨-, -, hreturn, hparams, -⟩⟩ := localCallees_cases hcallees
  · contradiction
  rintro (⟨hfn', hpointer⟩ | ⟨_, hfn', w, hw, hpointer⟩ | ⟨hfn', hv, hinst, hhandles⟩)
  · obtain rfl := Option.mem_unique hfn hfn'
    simp [hreturn] at hpointer
  · obtain rfl := Option.mem_unique hfn hfn'
    simp [hparams w hw] at hpointer
  · obtain ⟨touch, htouch, hne, -⟩ := h.touchOf hfn' hv
    exact hne ((touchOf_spec hinst htouch).1.2 hhandles)

/-- A quiet function calls quiet functions at most. -/
theorem Quiet.callsDirectly (h : prog.Quiet f) (hg : prog.CallsDirectly f g) : prog.Quiet g := by
  obtain ⟨fn, hfn, v, hv, hnames⟩ := hg
  obtain ⟨touch, htouch, hne, hquiet⟩ := h.touchOf hfn hv
  obtain ⟨inst, hinst, -⟩ := call_of_calledFunction? hnames.1
  exact hquiet g (((touchOf_spec hinst htouch).2 hne g).2 hnames)

theorem Quiet.not_reachesPointers (h : prog.Quiet f) : ¬prog.ReachesPointers f := by
  rintro ⟨g, hreach, htouches⟩
  refine Quiet.not_touchesPointers ?_ htouches
  clear htouches
  induction hreach with
  | refl => exact h
  | tail _ hcalls ih => exact ih.callsDirectly hcalls

end Program

end PointsTo
