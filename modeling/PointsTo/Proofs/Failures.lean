import PointsTo.Lowering.Relevance
import PointsTo.Program.Blocks
import PointsTo.Proofs.Primitives

/-!
# How computations fail

A computation that fails leaves the state as it was at the failure.  `Throws` says what is known of a
failure and of that state, and follows a sequence up to the part that fails.

Queries fail for an id that names nothing or for want of budget, but a query never rejects a program:
only lowering does.
-/

namespace PointsTo

/-- The query does not reject the program. -/
class Query.NeverRejects {α : Type} (q : Query α) : Prop where
  ne_rejected : ∀ cause, q ≠ .error (.rejected cause)

namespace Query.NeverRejects

variable {α β : Type}

instance pure (a : α) : NeverRejects (pure a : Query α) := ⟨fun _ h ↦ by contradiction⟩

instance lookup (table : List α) (id : Nat) : NeverRejects (lookup table id) where
  ne_rejected cause h := by
    unfold PointsTo.lookup at h
    split at h
    · contradiction
    · exact absurd (Except.error.inj h) (by simp)

instance dangling : NeverRejects (.error .dangling : Query α) := ⟨fun _ h ↦ by simp at h⟩

instance exhausted : NeverRejects (.error .exhausted : Query α) := ⟨fun _ h ↦ by simp at h⟩

theorem bind {x : Query α} {f : α → Query β} [hx : NeverRejects x] (hf : ∀ a, NeverRejects (f a)) :
    NeverRejects (x >>= f) where
  ne_rejected cause h := by
    cases x with
    | error e => exact hx.ne_rejected cause (congrArg Except.error (Except.error.inj h))
    | ok a => exact (hf a).ne_rejected cause h

instance sequence (x : Query α) (f : α → Query β) [NeverRejects x] [hf : ∀ a, NeverRejects (f a)] :
    NeverRejects (x >>= f) := bind hf

theorem anyM {p : α → Query Bool} (hp : ∀ a, NeverRejects (p a)) (l : List α) : NeverRejects (l.anyM p) := by
  induction l with
  | nil => exact .pure false
  | cons a rest ih =>
    refine .bind fun b ↦ ?_
    cases b with
    | true => exact .pure true
    | false => exact ih

theorem allM {p : α → Query Bool} (hp : ∀ a, NeverRejects (p a)) (l : List α) : NeverRejects (l.allM p) := by
  induction l with
  | nil => exact .pure true
  | cons a rest ih =>
    refine .bind fun b ↦ ?_
    cases b with
    | true => exact ih
    | false => exact .pure false

theorem mapM {f : α → Query β} (hf : ∀ a, NeverRejects (f a)) (l : List α) : NeverRejects (l.mapM f) := by
  induction l with
  | nil => exact .pure []
  | cons a rest ih =>
    rw [List.mapM_cons]
    exact .bind fun _ ↦ .bind fun _ ↦ .pure _

variable (prog : Program) (v : ValueId) (f : FuncId)

instance value : NeverRejects (prog.value v) := .lookup ..

instance function : NeverRejects (prog.function f) := .lookup ..

instance global (g : GlobalId) : NeverRejects (prog.global g) := .lookup ..

instance block (fn : Function) (b : BlockId) : NeverRejects (fn.block b) := .lookup ..

instance node (g : Graph) (id : NodeId) : NeverRejects (g.node id) := .lookup ..

instance isPointer : NeverRejects (prog.isPointer v) := .bind fun _ ↦ .pure _

instance instruction? : NeverRejects (prog.instruction? v) := by
  refine .bind fun _ ↦ ?_
  split <;> exact .pure _

instance constant? : NeverRejects (prog.constant? v) := by
  refine .bind fun _ ↦ ?_
  split <;> exact .pure _

instance intConstant? : NeverRejects (prog.intConstant? v) := by
  refine .bind fun _ ↦ ?_
  split <;> exact .pure _

instance signedConstant? : NeverRejects (prog.signedConstant? v) := by
  refine .bind fun n ↦ ?_
  cases n with
  | none => exact .pure none
  | some n => exact .bind fun _ ↦ .pure _

theorem isZeroWithin (budget : Nat) : NeverRejects (prog.isZeroWithin budget v) := by
  induction budget generalizing v with
  | zero => exact .exhausted
  | succ budget ih =>
    refine .bind fun _ ↦ ?_
    split
    case h_4 => exact .allM ih _
    all_goals exact .pure _

instance isZero : NeverRejects (prog.isZero v) := isZeroWithin prog v _

instance castSource? (offsets : Bool) : NeverRejects (prog.castSource? offsets v) := by
  refine .bind fun _ ↦ ?_
  split <;> exact .pure _

theorem stripWithin (offsets : Bool) (budget : Nat) : NeverRejects (prog.stripWithin offsets budget v) := by
  induction budget generalizing v with
  | zero => exact .exhausted
  | succ budget ih =>
    refine .bind fun source? ↦ ?_
    cases source? with
    | some source => exact ih source
    | none => exact .pure v

instance stripCasts : NeverRejects (prog.stripCasts v) := stripWithin prog v false _

instance stripOffsets : NeverRejects (prog.stripOffsets v) := stripWithin prog v true _

instance callee? : NeverRejects (prog.callee? v) := by
  refine .bind fun _ ↦ ?_
  split <;> exact .pure _

instance calledFunction? : NeverRejects (prog.calledFunction? v) := by
  refine .bind fun callee? ↦ ?_
  cases callee? with
  | none => exact .pure none
  | some callee =>
    refine .bind fun _ ↦ .bind fun _ ↦ ?_
    split <;> exact .pure _

instance isAsmCall : NeverRejects (prog.isAsmCall v) := by
  refine .bind fun callee? ↦ ?_
  cases callee? with
  | none => exact .pure false
  | some callee =>
    refine .bind fun _ ↦ ?_
    split <;> exact .pure _

instance callArguments : NeverRejects (prog.callArguments v) := by
  refine .bind fun _ ↦ ?_
  split <;> exact .pure _

theorem indexedOffset? (indices : List ValueId) (ty : Ty) (offset : Int) :
    NeverRejects (prog.indexedOffset? ty offset indices) := by
  induction indices generalizing ty offset with
  | nil => exact .pure _
  | cons index rest ih =>
    unfold Program.indexedOffset?
    split
    · refine .bind fun i ↦ ?_
      cases i with
      | none => exact .pure none
      | some i =>
        dsimp only
        split
        · exact ih ..
        · exact .pure none
    · refine .bind fun i ↦ ?_
      cases i with
      | none => exact .pure none
      | some i => exact ih ..
    · exact .pure none

instance constantOffset? (source : Ty) (indices : List ValueId) : NeverRejects
    (prog.constantOffset? source indices) := by
  cases indices with
  | nil => exact .pure _
  | cons first rest =>
    refine .bind fun i ↦ ?_
    cases i with
    | none => exact .pure none
    | some i => exact indexedOffset? ..

/-! ## Relevance -/

instance isRelevantDeclaration (call : ValueId) : NeverRejects (prog.isRelevantDeclaration f call) := by
  refine .bind fun callee ↦ ?_
  split
  · exact .pure true
  · split
    · split <;> exact .pure _
    · exact isPointer ..

instance touchOf : NeverRejects (prog.touchOf v) := by
  have hany (l : List ValueId) : NeverRejects (l.anyM prog.isPointer) := .anyM (isPointer prog) l
  refine .bind fun inst? ↦ ?_
  cases inst? with
  | none => exact .pure _
  | some inst =>
    refine .bind fun pointer ↦ ?_
    split
    · exact .pure _
    · split
      · exact .bind fun _ ↦ .pure _
      · refine .bind fun asm ↦ ?_
        split
        · exact .pure _
        · refine .bind fun passes ↦ ?_
          split
          · exact .pure _
          · refine .bind fun callee ↦ ?_
            cases callee with
            | none => exact .pure _
            | some f =>
              refine .bind fun fn ↦ ?_
              split
              · exact .bind fun _ ↦ .pure _
              · exact .pure _

theorem calleesOf (insts : List ValueId) : NeverRejects (prog.calleesOf insts) := by
  induction insts with
  | nil => exact .pure _
  | cons v rest ih =>
    refine .bind fun touch ↦ ?_
    cases touch with
    | pointers => exact .pure none
    | callee f => exact .bind fun _ ↦ .pure _
    | nothing => exact ih

instance localCallees : NeverRejects (prog.localCallees f) := by
  have hany (l : List ValueId) : NeverRejects (l.anyM prog.isPointer) := .anyM (isPointer prog) l
  refine .bind fun fn ↦ ?_
  split
  · exact .pure none
  · refine .bind fun takes ↦ ?_
    split
    · exact .pure none
    · exact calleesOf ..

instance searchPointers (known : OrderedMap FuncId Bool) (budget : Nat) (stack : List FuncId)
    (visited : OrderedSet FuncId) : NeverRejects (prog.searchPointers known budget stack visited) := by
  induction budget generalizing stack visited with
  | zero => exact .exhausted
  | succ budget ih =>
    cases stack with
    | nil => exact .pure false
    | cons f stack =>
      unfold Program.searchPointers
      split
      · exact ih ..
      · split
        · exact .pure true
        · refine .bind fun callees? ↦ ?_
          cases callees? with
          | none => exact .pure true
          | some callees => exact ih ..

instance passesPointer (call : ValueId) : NeverRejects (prog.passesPointer call) :=
  .bind fun arguments ↦ .anyM (isPointer prog) arguments

/-! ## Blocks and texts -/

instance reachableBlocks (fn : Function) : NeverRejects fn.reachableBlocks := by
  have hflow : NeverRejects fn.flowGraph := by
    unfold Function.flowGraph
    split
    · exact .pure _
    · exact .dangling
  unfold Function.reachableBlocks
  split
  · exact .pure []
  · exact .bind fun _ ↦ .pure _

instance operandText : NeverRejects (prog.operandText v) := by
  refine .bind fun x ↦ ?_
  split
  case h_1 | h_2 => exact .bind fun _ ↦ .pure _
  case h_9 => split <;> exact .pure _
  all_goals exact .pure _

instance operationText (opcode : Opcode) (operands : List ValueId) : NeverRejects
    (prog.operationText opcode operands) :=
  have := mapM (operandText prog) operands
  .bind fun _ ↦ .pure _

instance describe : NeverRejects (prog.describe v) := by
  refine .bind fun x ↦ ?_
  split
  · exact .bind fun _ ↦ .bind fun _ ↦ .bind fun _ ↦ .pure _
  · exact .bind fun _ ↦ .pure _
  · exact operandText ..

end Query.NeverRejects

namespace Stateful

variable {σ α β : Type}

theorem bind_eq_error_iff {x : EStateM Failure σ α} {f : α → EStateM Failure σ β} {s u : σ} {e : Failure} :
    (x >>= f) s = .error e u ↔ x s = .error e u ∨ ∃ a t, x s = .ok a t ∧ f a t = .error e u := by
  change EStateM.bind x f s = _ ↔ _
  unfold EStateM.bind
  cases x s with
  | error e' t => simp
  | ok a t =>
    constructor
    · exact fun h ↦ .inr ⟨a, t, rfl, h⟩
    · rintro (h | ⟨a', t', h, h'⟩)
      · contradiction
      · obtain ⟨rfl, rfl⟩ := EStateM.Result.ok.inj h
        exact h'

theorem lift_eq_error_iff {q : Query α} {s t : σ} {e : Failure} :
    (liftM q : EStateM Failure σ α) s = .error e t ↔ q = .error e ∧ s = t := by
  cases q with
  | ok a =>
    change EStateM.Result.ok a s = _ ↔ _
    simp
  | error e' =>
    change EStateM.Result.error e' s = _ ↔ _
    rw [EStateM.Result.error.injEq, Except.error.injEq]

/-- However the computation fails, the failure and the state at the failure satisfy the condition. -/
def Throws (x : EStateM Failure σ α) (s : σ) (E : Failure → σ → Prop) : Prop := ∀ e t, x s = .error e t → E e t

namespace Throws

variable {x : EStateM Failure σ α} {f : α → EStateM Failure σ β} {s : σ} {E : Failure → σ → Prop}

theorem pure {a : α} : Throws (pure a) s E := fun _ _ h ↦ by contradiction

theorem modify {change : σ → σ} : Throws (modify change) s E := fun _ _ h ↦ by contradiction

theorem get : Throws get s E := fun _ _ h ↦ by contradiction

theorem throw {e : Failure} (h : E e s) : Throws (throw e : EStateM Failure σ α) s E := by
  intro e' t he
  obtain ⟨rfl, rfl⟩ := EStateM.Result.error.inj he
  exact h

theorem lift {q : Query α} (h : ∀ e, q = .error e → E e s) : Throws (liftM q) s E := by
  intro e t he
  obtain ⟨hq, rfl⟩ := lift_eq_error_iff.1 he
  exact h e hq

theorem bind (hx : Throws x s E) (hf : ∀ a t, x s = .ok a t → Throws (f a) t E) : Throws (x >>= f) s E := by
  intro e u he
  rcases bind_eq_error_iff.1 he with he | ⟨a, t, ha, he⟩
  · exact hx e u he
  · exact hf a t ha e u he

theorem bind_get {f : σ → EStateM Failure σ β} (h : Throws (f s) s E) : Throws (MonadState.get >>= f) s E := by
  refine get.bind fun a t ha ↦ ?_
  obtain ⟨rfl, rfl⟩ := get_eq_ok_iff.1 ha
  exact h

theorem bind_lift {q : Query α} (hq : ∀ e, q = .error e → E e s) (hf : ∀ a, q = .ok a → Throws (f a) s E) :
    Throws ((liftM q : EStateM Failure σ α) >>= f) s E := by
  refine (lift hq).bind fun a t h ↦ ?_
  obtain ⟨ha, rfl⟩ := lift_eq_ok_iff.1 h
  exact hf a ha

/-- The first part is done. -/
theorem after {a : α} {t : σ} (hx : x s = .ok a t) (hf : Throws (f a) t E) : Throws (x >>= f) s E := by
  refine bind (fun e u he ↦ ?_) fun b u hb ↦ ?_
  · rw [hx] at he
    contradiction
  · obtain ⟨rfl, rfl⟩ := EStateM.Result.ok.inj (hx.symm.trans hb)
    exact hf

theorem bind_pure {a : α} (h : Throws (f a) s E) : Throws (Pure.pure a >>= f) s E := h

theorem mono {E' : Failure → σ → Prop} (h : Throws x s E) (hE : ∀ e t, E e t → E' e t) : Throws x s E' :=
  fun e t he ↦ hE e t (h e t he)

theorem foldlM {f : β → α → EStateM Failure σ β} {l : List α} {b : β} (P : β → σ → Prop)
    (hthrows : ∀ a ∈ l, ∀ c t, P c t → Throws (f c a) t E) (hstep : ∀ a ∈ l, ∀ c t, P c t → Ensures (f c a) t P)
    (hb : P b s) : Throws (l.foldlM f b) s E := by
  induction l generalizing b s with
  | nil => exact .pure
  | cons a rest ih =>
    rw [List.foldlM_cons]
    refine (hthrows a List.mem_cons_self b s hb).bind fun c t hc ↦ ?_
    exact ih (fun x hx ↦ hthrows x (List.mem_cons_of_mem _ hx)) (fun x hx ↦ hstep x (List.mem_cons_of_mem _ hx))
      (hstep a List.mem_cons_self b s hb c t hc)

theorem forM {f : α → EStateM Failure σ PUnit} {l : List α} (P : σ → Prop)
    (hthrows : ∀ a ∈ l, ∀ t, P t → Throws (f a) t E) (hstep : ∀ a ∈ l, ∀ t, P t → Ensures (f a) t fun _ ↦ P)
    (hs : P s) : Throws (l.forM f) s E := by
  induction l generalizing s with
  | nil => exact .pure
  | cons a rest ih =>
    refine (hthrows a List.mem_cons_self s hs).bind fun _ t ht ↦ ?_
    exact ih (fun x hx ↦ hthrows x (List.mem_cons_of_mem _ hx)) (fun x hx ↦ hstep x (List.mem_cons_of_mem _ hx))
      (hstep a List.mem_cons_self s hs _ t ht)

end Throws

/-- In whatever state the computation starts, it fails in one of these ways only. -/
class Tame (E : Failure → Prop) (x : EStateM Failure σ α) : Prop where
  throws : ∀ s, Throws x s fun e _ ↦ E e

/-- What follows a computation that fails in these ways only. -/
theorem Throws.next {E : Failure → Prop} {x : EStateM Failure σ α} {next : α → EStateM Failure σ β} {s : σ}
    [hx : Tame E x]
    (hnext : ∀ a t, x s = .ok a t → Throws (next a) t fun e _ ↦ E e) : Throws (x >>= next) s fun e _ ↦ E e :=
  (hx.throws s).bind hnext

namespace Tame

variable {E : Failure → Prop} {x : EStateM Failure σ α} {next : α → EStateM Failure σ β}

instance pure (a : α) : Tame E (pure a : EStateM Failure σ α) := ⟨fun _ ↦ .pure⟩

instance get : Tame E (get : EStateM Failure σ σ) := ⟨fun _ ↦ .get⟩

instance modify (change : σ → σ) : Tame E (modify change : EStateM Failure σ PUnit) := ⟨fun _ ↦ .modify⟩

theorem bind [Tame E x] (hnext : ∀ a, Tame E (next a)) : Tame E (x >>= next) :=
  ⟨fun _ ↦ .next fun a t _ ↦ (hnext a).throws t⟩

instance sequence (x : EStateM Failure σ α) (next : α → EStateM Failure σ β) [Tame E x] [hnext : ∀ a, Tame E (next a)] :
    Tame E (x >>= next) := bind hnext

theorem forM {step : α → EStateM Failure σ PUnit} {l : List α} (h : ∀ a ∈ l, Tame E (step a)) : Tame E (l.forM step) :=
  ⟨fun _ ↦ .forM (fun _ ↦ True) (fun a ha t _ ↦ (h a ha).throws t) (fun _ _ _ _ _ _ _ ↦ trivial) trivial⟩

theorem foldlM {step : β → α → EStateM Failure σ β} {l : List α} (h : ∀ b, ∀ a ∈ l, Tame E (step b a)) (b : β) :
    Tame E (l.foldlM step b) :=
  ⟨fun _ ↦ .foldlM (fun _ _ ↦ True) (fun a ha c t _ ↦ (h c a ha).throws t) (fun _ _ _ _ _ _ _ _ ↦ trivial) trivial⟩

end Tame

/-- The computation rejects nothing, in whatever state it starts. -/
abbrev NeverRejects (x : EStateM Failure σ α) : Prop := Tame (fun e ↦ ∀ cause, e ≠ .rejected cause) x

instance NeverRejects.lift (q : Query α) [hq : q.NeverRejects] : NeverRejects (liftM q : EStateM Failure σ α) :=
  ⟨fun _ ↦ .lift fun _ he cause hrejected ↦ hq.ne_rejected cause (he.trans (congrArg Except.error hrejected))⟩

/-- The computation fails, with a failure and a final state that satisfy the condition. -/
def fails (test : Failure → σ → Bool) : EStateM.Result Failure σ α → Bool
  | .ok _ _ => false
  | .error e s => test e s

theorem error_of_fails {test : Failure → σ → Bool} {x : EStateM.Result Failure σ α} (h : fails test x = true) :
    ∃ e s, x = .error e s ∧ test e s = true := by
  cases x with
  | ok a s => contradiction
  | error e s => exact ⟨e, s, rfl, h⟩

end Stateful

end PointsTo
