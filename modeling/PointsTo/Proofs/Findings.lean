import PointsTo.Lowering.Build
import PointsTo.Proofs.Failures

/-!
# What lowering cannot miss

A program is rejected for a missing operand if an instruction has too few of them, or if the node of a
value is asked for and cannot be made.  The computations below neither count operands nor ask for
nodes, so none of them misses anything, in whatever state it starts: they reject nothing at all.
-/

namespace PointsTo.Lower

open Stateful

variable {α β : Type} {prog : Program} {s : Lowering} {v : ValueId} {f : FuncId} {id : NodeId}

/-- The computation does not fail for a missing operand. -/
abbrev Finds (x : Lower α) (s : Lowering) : Prop := Throws x s fun e _ ↦ ∀ text, e ≠ .rejected (.missingOperand text)

namespace Finds

variable {x : Lower α} {next : α → Lower β}

theorem exhausted : Finds (throw .exhausted : Lower α) s := Throws.throw fun _ he ↦ by contradiction

theorem bind (hx : Finds x s) (hnext : ∀ a t, x s = .ok a t → Finds (next a) t) : Finds (x >>= next) s :=
  Throws.bind hx hnext

theorem lift {q : Query α} [hq : q.NeverRejects] : Finds (liftM q) s :=
  Throws.lift fun _ he text hmissing ↦ hq.ne_rejected (.missingOperand text) (he.trans (congrArg Except.error hmissing))

theorem bind_lift {q : Query α} [q.NeverRejects] (hnext : ∀ a, q = .ok a → Finds (next a) s) :
    Finds ((liftM q : Lower α) >>= next) s := by
  refine lift.bind fun a t h ↦ ?_
  obtain ⟨ha, rfl⟩ := lift_eq_ok_iff.1 h
  exact hnext a ha

theorem forM {step : α → Lower PUnit} {l : List α} (P : Lowering → Prop) (hfinds : ∀ a ∈ l, ∀ t, P t → Finds (step a) t)
    (hstep : ∀ a ∈ l, ∀ t, P t → Ensures (step a) t fun _ ↦ P) (hs : P s) : Finds (l.forM step) s :=
  Throws.forM P hfinds hstep hs

end Finds

/-! ## Primitives -/

namespace Tame

variable {E : Failure → Prop}

instance create (make : Graph → NodeId × Graph) : Tame E (create make) := ⟨fun _ _ _ h ↦ by contradiction⟩

instance onGraph (change : Graph → Graph) : Tame E (onGraph change) := .modify _

instance setNodeOf : Tame E (setNodeOf v id) := .modify _

instance setValue : Tame E (setValue id v) := .modify _

instance alterRecord (change : FunctionRecord → FunctionRecord) : Tame E (alterRecord f change) := .modify _

instance setBlockSpan (b : BlockId) (span : Option Span) : Tame E (setBlockSpan f b span) := .modify _

instance setPlaced : Tame E (setPlaced v id) := .modify _

instance warn (w : Warning) : Tame E (warn w) := .modify _

instance assign : Tame E (assign v id) := .bind fun _ ↦ onGraph _

instance nodeOf? : Tame E (nodeOf? v) := .bind fun _ ↦ .pure _

instance record? : Tame E (record? f) := .bind fun _ ↦ .pure _

instance blockSpan? (b : BlockId) : Tame E (blockSpan? f b) := .bind fun _ ↦ .pure _

instance append (chain : Option Span) : Tame E (append chain id) := by
  unfold Lower.append
  split
  · exact .pure _
  · exact .bind fun _ ↦ .pure _

instance createFor (make : Graph → NodeId × Graph) : Tame E (createFor v make) := .bind fun _ ↦ .bind fun _ ↦ .pure _

instance lowerUnknown : Tame E (lowerUnknown v) := createFor _

instance lowerAlloc (size : Nat) : Tame E (lowerAlloc v size) := .bind fun _ ↦ .bind fun _ ↦ .bind fun _ ↦ .pure _

instance allocate (n : Node) : Tame E (lowerAllocation.allocate v n) := .bind fun _ ↦ .pure _

instance lowerExternalCall : Tame E (lowerExternalCall v) := .bind fun _ ↦ .bind fun _ ↦ .bind fun _ ↦ .pure _

instance lowerAsm : Tame E (lowerAsm v) := .bind fun _ ↦ .bind fun _ ↦ .bind fun _ ↦ .bind fun _ ↦ .pure _

instance placeFormal : Tame E (placeFormal f id) := by
  refine .bind fun r? ↦ ?_
  cases r? with
  | none => exact .pure _
  | some r =>
    refine .bind fun _ ↦ .bind fun _ ↦ .bind fun span? ↦ ?_
    repeat' split
    all_goals first | exact setBlockSpan .. | exact .pure _

instance complete : Tame E (complete f) := by
  refine .bind fun r? ↦ ?_
  cases r? with
  | none => exact .pure _
  | some r =>
    have hreturns : Tame E (r.returns.forM fun id ↦ Lower.onGraph (·.addSuccessor id r.exit)) :=
      .forM fun _ _ ↦ onGraph _
    exact .bind fun _ ↦ .bind fun _ ↦ .forM fun _ _ ↦ onGraph _

end Tame

namespace NeverRejects

instance node : NeverRejects (node id) := .bind fun _ ↦ inferInstance

instance returnSite : NeverRejects (returnSite id) := .bind fun _ ↦ .pure _

instance note (severity : Severity) (text : Unit → Query String) [h : (text ()).NeverRejects] :
    NeverRejects (note severity text) := by
  refine .bind fun _ ↦ ?_
  split
  · exact .bind fun _ ↦ .modify _
  · exact .pure _

instance lowerFormals (fn : Function) : NeverRejects (lowerFormals prog fn) := by
  have hchain : NeverRejects (fn.params.foldlM (fun chain param ↦ do
      if ← prog.isPointer param then
        Lower.append chain (← Lower.createFor param (·.create { kind := .phi }))
      else return chain) none) := by
    refine .foldlM (fun chain param _ ↦ .bind fun pointer ↦ ?_) _
    split
    · exact .bind fun _ ↦ inferInstance
    · exact .pure _
  refine .bind fun chain ↦ ?_
  split
  · exact .bind fun _ ↦ .bind fun _ ↦ .pure _
  · exact .pure _

end NeverRejects

/-! ## What is never missed -/

/-- The computation does not fail for a missing operand, in whatever state it starts. -/
abbrev NeverMisses (x : Lower α) : Prop := Tame (fun e ↦ ∀ text, e ≠ .rejected (.missingOperand text)) x

/-- What follows a computation that cannot miss. -/
theorem Finds.next {x : Lower α} {next : α → Lower β} [NeverMisses x]
    (hnext : ∀ a t, x s = .ok a t → Finds (next a) t) : Finds (x >>= next) s := Throws.next hnext

instance NeverMisses.of_neverRejects (x : Lower α) [hx : NeverRejects x] : NeverMisses x :=
  ⟨fun s ↦ (hx.throws s).mono fun _ _ he text ↦ he (.missingOperand text)⟩

end PointsTo.Lower
