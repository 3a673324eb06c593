import PointsTo.Proofs.Exposure
import PointsTo.Proofs.Heeding

/-!
# How deep requests nest

A request that leads to another one either makes progress before, by lowering a value or by beginning a
function, or leads to one of lower rank.  Operands are ranked by what they are computed from, and come
below the uses that are followed.  Uses of exposed values are ranked by the calls that relay them.

This module has the ranks and the instructions: they ask for what they are computed from and for
functions that they call, both of lower rank than themselves.
-/

namespace PointsTo

theorem Program.home_of_reaches {prog : Program} {v w : ValueId} (hscoped : prog.Scoped)
    (h : Relation.ReflTransGen prog.Depends v w) : prog.home? w = none ∨ prog.home? w = prog.home? v := by
  induction h with
  | refl => exact .inr rfl
  | tail _ hdepends ih =>
    obtain ⟨k, hk, -, hmem⟩ := hdepends
    rcases hscoped.operand hk hmem with hnone | hsame
    · exact .inl hnone
    · exact hsame ▸ ih

/-- What lowering asks of itself.  Uses of exposed values are relayed. -/
inductive Request
  | operand (v : ValueId)
  | entry (f : FuncId)
  | uses (v : ValueId)
  | relay (v : ValueId)

noncomputable def Request.rank (prog : Program) : Request → Nat
  | .entry _ => 0
  | .operand v => 1 + prog.height prog.Depends v
  | .uses _ => 1 + prog.values.length
  | .relay v => 2 + prog.values.length + prog.height prog.Relays v

namespace Lowering

variable (prog : Program) (s : Lowering)

/-- The request can be made in this state. -/
def Admits : Request → Prop
  | .operand v => v < prog.values.length ∧ s.Housed prog v
  | .entry f => f < prog.functions.length ∧ s.globals ≠ none
  | .uses v => s.Tame prog v
  | .relay v => prog.Exposed v

/-- The number of values that are lowered and functions that are begun. -/
def progress : Nat :=
  ((Finset.range prog.values.length).filter fun v ↦ s.nodes.get? v ≠ none).card +
    ((Finset.range prog.functions.length).filter fun f ↦ s.records.get? f ≠ none).card

variable {prog s} {t : Lowering} {v : ValueId} {f : FuncId}

theorem progress_le : s.progress prog ≤ prog.values.length + prog.functions.length := by
  have hvalues := Finset.card_filter_le (Finset.range prog.values.length) fun v ↦ s.nodes.get? v ≠ none
  have hfunctions := Finset.card_filter_le (Finset.range prog.functions.length) fun f ↦ s.records.get? f ≠ none
  rw [Finset.card_range] at hvalues hfunctions
  exact Nat.add_le_add hvalues hfunctions

namespace Keeps

variable (hst : s.Keeps prog t)

include hst

theorem values_subset : ((Finset.range prog.values.length).filter fun v ↦ s.nodes.get? v ≠ none) ⊆
    (Finset.range prog.values.length).filter fun v ↦ t.nodes.get? v ≠ none :=
  Finset.monotone_filter_right _ fun _ _ hv ↦ hst.isNamed hv

theorem functions_subset : ((Finset.range prog.functions.length).filter fun f ↦ s.records.get? f ≠ none) ⊆
    (Finset.range prog.functions.length).filter fun f ↦ t.records.get? f ≠ none :=
  Finset.monotone_filter_right _ fun _ _ hf ↦ hst.recorded hf

theorem progress_le : s.progress prog ≤ t.progress prog :=
  Nat.add_le_add (Finset.card_le_card hst.values_subset) (Finset.card_le_card hst.functions_subset)

theorem progress_lt_of_named (hv : v < prog.values.length) (hnew : s.nodes.get? v = none)
    (hnamed : t.nodes.get? v ≠ none) : s.progress prog < t.progress prog := by
  refine Nat.add_lt_add_of_lt_of_le (Finset.card_lt_card ⟨hst.values_subset, fun hsubset ↦ ?_⟩)
    (Finset.card_le_card hst.functions_subset)
  have hmem := hsubset (Finset.mem_filter.2 ⟨Finset.mem_range.2 hv, hnamed⟩)
  exact (Finset.mem_filter.1 hmem).2 hnew

theorem progress_lt_of_recorded (hf : f < prog.functions.length) (hnew : s.records.get? f = none)
    (hrecorded : t.records.get? f ≠ none) : s.progress prog < t.progress prog := by
  refine Nat.add_lt_add_of_le_of_lt (Finset.card_le_card hst.values_subset)
    (Finset.card_lt_card ⟨hst.functions_subset, fun hsubset ↦ ?_⟩)
  have hmem := hsubset (Finset.mem_filter.2 ⟨Finset.mem_range.2 hf, hrecorded⟩)
  exact (Finset.mem_filter.1 hmem).2 hnew

end Keeps

end Lowering

namespace Provider

variable (prog : Program) (ask : Provider) (s : Lowering)

def Concludes : Request → Prop
  | .operand v => Lower.Concludes (ask.operand v) s
  | .entry f => Lower.Concludes (ask.entry f) s
  | .uses v | .relay v => Lower.Concludes (ask.uses v) s

/-- Requests of lower rank come to a conclusion from now on. -/
def Meets (n : Nat) : Prop :=
  ∀ q t, Request.rank prog q < n → s.Keeps prog t → t.Tidy prog → t.Admits prog q → ask.Concludes t q

/-- So do all requests once there is progress. -/
structure Copes (n : Nat) : Prop where
  meets : ask.Meets prog s n
  advanced : ∀ {t}, s.Keeps prog t → s.progress prog < t.progress prog → ∀ n, ask.Meets prog t n

variable {prog ask s} {t : Lowering} {m n : Nat} {v : ValueId}

theorem Meets.mono (h : ask.Meets prog s n) (hst : s.Keeps prog t) (hle : m ≤ n) : ask.Meets prog t m :=
  fun q u hrank htu ↦ h q u (Nat.lt_of_lt_of_le hrank hle) (hst.trans htu)

theorem Copes.mono (h : ask.Copes prog s n) (hst : s.Keeps prog t) (hle : m ≤ n) : ask.Copes prog t m where
  meets := h.meets.mono hst hle
  advanced htu hprogress := h.advanced (hst.trans htu) (Nat.lt_of_le_of_lt hst.progress_le hprogress)

end Provider

namespace Lowering

/-- The instruction can be lowered: whatever it asks for comes to a conclusion. -/
structure Attended (prog : Program) (ask : Provider) (s : Lowering) (v : ValueId) (inst : Instruction) : Prop where
  tidy : s.Tidy prog
  instruction : prog.kindAt v = some (.instruction inst)
  recorded : s.records.get? inst.function ≠ none
  meets : ask.Meets prog s (Request.rank prog (.operand v))

variable {prog : Program} {ask : Provider} {s t : Lowering} {v w : ValueId} {inst : Instruction}

theorem Attended.mono (h : s.Attended prog ask v inst) (hst : s.Keeps prog t) (ht : t.Tidy prog) :
    t.Attended prog ask v inst :=
  ⟨ht, h.instruction, hst.recorded h.recorded, h.meets.mono hst le_rfl⟩

end Lowering

namespace Lower

open Stateful

variable {α β : Type} {prog : Program} {ask : Provider} {s t : Lowering} {f : FuncId} {v w call : ValueId}
  {inst : Instruction} {id : NodeId}

/-! ## Nodes that are there -/

theorem returnSite_concludes (hid : id < s.graph.size) : Concludes (returnSite id) s := Obeys.node hid fun _ ↦ .pure

section

variable (hprog : prog.Coherent) (h : prog.Grounded) (hask : ask.Sound prog)

include hprog h in
theorem rank_lt_rank (hw : Relation.TransGen prog.Depends v w) :
    Request.rank prog (.operand w) < Request.rank prog (.operand v) ∧ w < prog.values.length := by
  obtain ⟨_, -, hdepends⟩ := Relation.TransGen.tail'_iff.1 hw
  have hlt := hdepends.lt h.inRange
  have hheight := Program.height_lt_height (h.not_depends_self hprog) hw hlt
  exact ⟨by simp only [Request.rank]; omega, hlt⟩

include hprog h hask

/-! ## Constants -/

section

variable (htidy : s.Tidy prog) (hv : v < prog.values.length)
    (hmeets : ask.Meets prog s (Request.rank prog (.operand v)))

include htidy hmeets

theorem constantPointer_concludes (hdepends : prog.Depends v w) (hhome : prog.home? w = none) :
    Concludes (constantPointer ask w) s := by
  obtain ⟨hrank, hlt⟩ := rank_lt_rank hprog h (.single hdepends)
  have hhoused : s.Housed prog w := fun f hf ↦ by simp [hhome] at hf
  have hoperand : Concludes (ask.operand w) s := hmeets _ s hrank (.refl prog s) htidy ⟨hlt, hhoused⟩
  refine hoperand.bind fun id t hid ↦ ?_
  refine Obeys.node (hask.operand htidy.valid (fun _ ↦ hhoused) hid).lt_size fun n ↦ ?_
  split
  · exact .pure
  · exact .pure

include hv

/-- A constant is folded from constants that it is made of. -/
theorem foldConstant_concludes {opcode : Opcode} {operands : List ValueId}
    (hkind : prog.kindAt v = some (.constant (.expr opcode operands))) :
    Concludes (foldConstant prog ask v opcode operands) s := by
  have hdepends {w : ValueId} (hw : w ∈ operands) : prog.Depends v w := ⟨_, hkind, rfl, hw⟩
  have hlt {w : ValueId} (hw : w ∈ operands) : w < prog.values.length := (hdepends hw).lt h.inRange
  have hpointer {w : ValueId} (hw : w ∈ operands) : Concludes (constantPointer ask w) s := by
    refine constantPointer_concludes hprog h hask htidy hmeets (hdepends hw) ?_
    exact ((hdepends hw).composed h.scopes (Program.home?_of_kindAt hkind)).2
  have hoperand {γ : Type} {next : ValueId → Lower γ} {index : Nat} (hnext : ∀ w ∈ operands, Concludes (next w) s) :
      Concludes (constantOperand prog v operands index >>= next) s := by
    have : Conclusive (constantOperand prog v operands index) := by
      unfold constantOperand
      split
      · exact .pure _
      · exact ⟨fun _ ↦ h.lenient.missing hprog hv fun _ ↦ ⟨_, rfl⟩⟩
    refine .next fun w _ hw ↦ ?_
    obtain ⟨hmem, rfl⟩ := constantOperand_ensures _ _ hw
    exact hnext w (List.mem_of_getElem? hmem)
  have hdescribe := Program.describe_answers h.inRange hprog hv
  unfold foldConstant
  split
  case h_1 source =>
    refine hoperand fun base hbase ↦ (hpointer hbase).bind fun p t _ ↦ ?_
    have := h.lenient.elementOffset hprog hv (fun _ w hw ↦ hlt (List.mem_of_mem_tail hw)) source
    exact .next fun _ _ _ ↦ .pure
  case h_2 | h_3 | h_4 | h_5 => exact hoperand fun _ hw ↦ hpointer hw
  case h_6 =>
    refine hoperand fun source hsource ↦ .bind_lift (Program.intConstant?_answers (hlt hsource)) fun n _ ↦ ?_
    split
    · exact .bind_lift hdescribe fun _ _ ↦ .next fun _ _ _ ↦ .pure
    · exact hpointer hsource
  case h_7 =>
    refine hoperand fun lhs hlhs ↦ hoperand fun rhs hrhs ↦
      .bind_lift (Program.signedConstant?_answers (hlt hlhs)) fun left _ ↦ ?_
    cases left with
    | some amount => exact (hpointer hrhs).bind fun _ _ _ ↦ .pure
    | none =>
      refine .bind_lift (Program.signedConstant?_answers (hlt hrhs)) fun right _ ↦ ?_
      cases right with
      | some amount => exact (hpointer hlhs).bind fun _ _ _ ↦ .pure
      | none => exact (hpointer hlhs).bind fun _ _ _ ↦ .pure
  case h_8 | h_9 | h_10 =>
    refine hoperand fun lhs hlhs ↦ hoperand fun rhs hrhs ↦
      .bind_lift (Program.intConstant?_answers (hlt hlhs)) fun left _ ↦ (hpointer ?_).bind fun _ _ _ ↦ .pure
    split
    · exact hrhs
    · exact hlhs
  case h_18 => exact .bind_lift hdescribe fun _ _ ↦ .reject
  all_goals exact .pure

theorem constantNode?_concludes : Concludes (constantNode? prog ask v) s := by
  refine .bind_lift (Program.value_answers hv) fun x hx ↦ ?_
  split
  case h_6 opcode operands hexpr =>
    have hkind := hexpr ▸ Program.kindAt_of_value hx
    exact (foldConstant_concludes hprog h hask htidy hv hmeets hkind).bind fun _ _ _ ↦ Tame.throws _
  case h_7 => exact Tame.throws _
  all_goals exact .pure

/-- Constants and values that have a node are supplied. -/
theorem availableOperand?_concludes : Concludes (availableOperand? prog ask v) s := by
  refine .next fun id? _ hnode ↦ ?_
  obtain ⟨hid, rfl⟩ := nodeOf?_eq_ok_iff.1 hnode
  cases id? with
  | some id =>
    obtain ⟨_, -, hat⟩ := htidy.valid.named hid
    exact (returnSite_concludes hat.lt_size).bind fun _ _ _ ↦ .pure
  | none =>
    refine (constantNode?_concludes hprog h hask htidy hv hmeets).bind fun id? t hconstant ↦ ?_
    cases id? with
    | none => exact .pure
    | some id =>
      obtain ⟨hrepresents, -⟩ := constantNode?_ensures hask htidy.valid hid _ _ hconstant
      exact (returnSite_concludes (hrepresents id rfl).isNode.lt_size).bind fun _ _ _ ↦ .pure

end

/-! ## Requests of instructions -/

/-- Instructions are heeded if what they are computed from comes to a conclusion. -/
theorem attended_heeds (hv : prog.kindAt v = some (.instruction inst)) :
    ask.Heeds prog (fun e ↦ ∃ cause, e = .rejected cause) v inst fun s ↦ s.Attended prog ask v inst where
  coherent := hprog
  sound := hask
  lenient := h.lenient
  supplied := .inl fun _ ↦ ⟨_, rfl⟩
  instruction := hv
  valid ha := ha.tidy.valid
  recorded ha := ha.recorded
  serves ha hst := ha.mono hst.toKeeps (ha.tidy.serves h.toOrderly hprog hst)
  keeps ha hst ht hrecords := ha.mono hst (ha.tidy.of_records hst ht hrecords)
  operand {s w} ha hw := by
    obtain ⟨hrank, hlt⟩ := rank_lt_rank hprog h hw
    have hhoused : s.Housed prog w := by
      intro f hf
      rcases Program.home_of_reaches h.scopes hw.to_reflTransGen with hnone | hsame
      · simp [hnone] at hf
      · rw [hsame, Program.home?_of_kindAt hv] at hf
        exact Option.some.inj hf ▸ ha.recorded
    exact ⟨hhoused, ha.meets _ s hrank (.refl prog s) ha.tidy ⟨hlt, hhoused⟩⟩
  available {s w} ha hw := by
    obtain ⟨hrank, hlt⟩ := rank_lt_rank hprog h (.single hw)
    exact availableOperand?_concludes hprog h hask ha.tidy hlt (ha.meets.mono (.refl prog s) hrank.le)
  entry {s _ _} ha hf _ _ := by
    refine ha.meets (.entry _) s (by simp only [Request.rank]; omega) (.refl prog s) ha.tidy ?_
    exact ⟨Program.lt_of_calledFunction? hprog hf, ha.tidy.valid.started ha.recorded⟩

end

end Lower

end PointsTo
