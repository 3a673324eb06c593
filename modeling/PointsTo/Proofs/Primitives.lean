import PointsTo.Lowering.State
import PointsTo.Proofs.Coherence
import PointsTo.Proofs.Nodes

/-!
# The primitives of lowering

What each primitive answers, and the state that it leaves.  Reading leaves the state as it is; a
rejection has no answer.
-/

namespace PointsTo

open Stateful

/-- Nothing changes but what is said about the program. -/
def Lowering.Remarks (s t : Lowering) : Prop := ∃ warnings journal, { s with warnings, journal } = t

namespace Lower

variable {prog : Program} {s t : Lowering} {v : ValueId} {f : FuncId} {id : NodeId} {u : PUnit}

/-! ## Reading -/

/-- Reading off a part of the state. -/
theorem view_eq_ok_iff {α : Type} {view : Lowering → α} {a : α} :
    (get >>= fun s ↦ pure (view s) : Lower α) s = .ok a t ↔ view s = a ∧ s = t := by
  simp only [bind_eq_ok_iff, get_eq_ok_iff, pure_eq_ok_iff]
  constructor
  · rintro ⟨_, _, ⟨rfl, rfl⟩, ha, rfl⟩
    exact ⟨ha, rfl⟩
  · rintro ⟨ha, rfl⟩
    exact ⟨s, s, ⟨rfl, rfl⟩, ha, rfl⟩

theorem nodeOf?_eq_ok_iff {id? : Option NodeId} : nodeOf? v s = .ok id? t ↔ s.nodes.get? v = id? ∧ s = t :=
  view_eq_ok_iff

theorem record?_eq_ok_iff {r? : Option FunctionRecord} :
    record? f s = .ok r? t ↔ s.records.get? f = r? ∧ s = t := view_eq_ok_iff

theorem blockSpan?_eq_ok_iff {b : BlockId} {span? : Option (Option Span)} :
    blockSpan? f b s = .ok span? t ↔ s.blocks.get? (f, b) = span? ∧ s = t := view_eq_ok_iff

theorem node_eq_ok_iff {n : Node} : node id s = .ok n t ↔ s.graph.nodes[id]? = some n ∧ s = t := by
  simp only [node, bind_eq_ok_iff, get_eq_ok_iff, lift_eq_ok_iff, Graph.node_eq_ok_iff]
  constructor
  · rintro ⟨_, _, ⟨rfl, rfl⟩, hn, rfl⟩
    exact ⟨hn, rfl⟩
  · rintro ⟨hn, rfl⟩
    exact ⟨s, s, ⟨rfl, rfl⟩, hn, rfl⟩

theorem returnSite_eq_ok_iff {op : NodeId} : returnSite id s = .ok op t ↔
    ∃ n, s.graph.nodes[id]? = some n ∧ (if n.kind.isCall then n.paired.getD id else id) = op ∧ s = t := by
  simp only [returnSite, bind_eq_ok_iff, node_eq_ok_iff, pure_eq_ok_iff]
  constructor
  · rintro ⟨n, _, ⟨hn, rfl⟩, hop, rfl⟩
    exact ⟨n, hn, hop, rfl⟩
  · rintro ⟨n, hn, hop, rfl⟩
    exact ⟨n, s, ⟨hn, rfl⟩, hop, rfl⟩

theorem reject_ne_ok {α : Type} {cause : Rejection} {a : α} : reject cause s ≠ .ok a t := by
  intro h
  contradiction

theorem missing_ne_ok {α : Type} {a : α} : missing prog v s ≠ .ok a t := by
  intro h
  obtain ⟨_, _, -, h⟩ := bind_eq_ok_iff.1 h
  exact reject_ne_ok h

theorem instruction_eq_ok_iff {inst : Instruction} :
    instruction prog v s = .ok inst t ↔ prog.kindAt v = some (.instruction inst) ∧ s = t := by
  simp only [instruction, bind_eq_ok_iff, lift_eq_ok_iff]
  constructor
  · rintro ⟨inst?, _, ⟨hinst, rfl⟩, h⟩
    cases inst? with
    | none => exact absurd h missing_ne_ok
    | some inst' =>
      obtain ⟨rfl, rfl⟩ := pure_eq_ok_iff.1 h
      exact ⟨Program.instruction?_eq_ok_iff.1 hinst, rfl⟩
  · rintro ⟨hinst, rfl⟩
    exact ⟨some inst, s, ⟨Program.instruction?_eq_ok_iff.2 hinst, rfl⟩, rfl⟩

theorem nthOperand_eq_ok_iff {index : Nat} {op : ValueId} : nthOperand prog v index s = .ok op t ↔
    ∃ inst, prog.kindAt v = some (.instruction inst) ∧ inst.operand? index = some op ∧ s = t := by
  simp only [nthOperand, bind_eq_ok_iff, lift_eq_ok_iff]
  constructor
  · rintro ⟨inst?, _, ⟨hinst, rfl⟩, h⟩
    cases inst? with
    | none => exact absurd h missing_ne_ok
    | some inst =>
      cases hop : inst.operand? index with
      | none =>
        simp only [hop] at h
        exact absurd h missing_ne_ok
      | some op' =>
        simp only [hop, pure_eq_ok_iff] at h
        exact ⟨inst, Program.instruction?_eq_ok_iff.1 hinst, by rw [hop, h.1], h.2⟩
  · rintro ⟨inst, hinst, hop, rfl⟩
    refine ⟨some inst, s, ⟨Program.instruction?_eq_ok_iff.2 hinst, rfl⟩, ?_⟩
    simp only [hop]
    rfl

theorem record_eq_ok_iff {r : FunctionRecord} :
    record prog f v s = .ok r t ↔ s.records.get? f = some r ∧ s = t := by
  simp only [record, bind_eq_ok_iff, record?_eq_ok_iff]
  constructor
  · rintro ⟨r?, _, ⟨hr, rfl⟩, h⟩
    cases r? with
    | none => exact absurd h missing_ne_ok
    | some r' =>
      obtain ⟨rfl, rfl⟩ := pure_eq_ok_iff.1 h
      exact ⟨hr, rfl⟩
  · rintro ⟨hr, rfl⟩
    exact ⟨some r, s, ⟨hr, rfl⟩, rfl⟩

/-! ## Writing -/

theorem create_eq_ok_iff {make : Graph → NodeId × Graph} : create make s = .ok id t ↔
    (make s.graph).1 = id ∧ { s with graph := (make s.graph).2 } = t := by
  change EStateM.Result.ok _ _ = _ ↔ _
  rw [EStateM.Result.ok.injEq]

theorem onGraph_eq_ok_iff {change : Graph → Graph} :
    onGraph change s = .ok u t ↔ { s with graph := change s.graph } = t := modify_eq_ok_iff

theorem setNodeOf_eq_ok_iff : setNodeOf v id s = .ok u t ↔ { s with nodes := s.nodes.insert v id } = t :=
  modify_eq_ok_iff

theorem setValue_eq_ok_iff : setValue id v s = .ok u t ↔
    { s with graph := s.graph.update id fun n ↦ { n with value := some v } } = t := modify_eq_ok_iff

theorem assign_eq_ok_iff : assign v id s = .ok u t ↔
    { s with
      graph := s.graph.update id fun n ↦ { n with value := n.value <|> some v }
      nodes := s.nodes.insert v id } = t := by
  simp only [assign, bind_eq_ok_iff, setNodeOf_eq_ok_iff, onGraph_eq_ok_iff]
  constructor
  · rintro ⟨_, _, rfl, rfl⟩
    rfl
  · rintro rfl
    exact ⟨⟨⟩, _, rfl, rfl⟩

theorem alterRecord_eq_ok_iff {change : FunctionRecord → FunctionRecord} :
    alterRecord f change s = .ok u t ↔ { s with records := s.records.modify f change } = t :=
  modify_eq_ok_iff

theorem updateRecord_eq_ok_iff {change : FunctionRecord → FunctionRecord} :
    updateRecord prog f v change s = .ok u t ↔
      ∃ r, s.records.get? f = some r ∧ { s with records := s.records.insert f (change r) } = t := by
  simp only [updateRecord, bind_eq_ok_iff, record_eq_ok_iff, alterRecord_eq_ok_iff]
  constructor
  · rintro ⟨r, _, ⟨hr, rfl⟩, rfl⟩
    exact ⟨r, hr, by rw [OrderedMap.modify_of_get? hr]⟩
  · rintro ⟨r, hr, rfl⟩
    exact ⟨r, s, ⟨hr, rfl⟩, by rw [OrderedMap.modify_of_get? hr]⟩

theorem setBlockSpan_eq_ok_iff {b : BlockId} {span : Option Span} :
    setBlockSpan f b span s = .ok u t ↔ { s with blocks := s.blocks.insert (f, b) span } = t :=
  modify_eq_ok_iff

theorem setPlaced_eq_ok_iff : setPlaced v id s = .ok u t ↔ { s with placed := s.placed.insert v id } = t :=
  modify_eq_ok_iff

/-- Journaling changes the journal only. -/
theorem note_eq_ok {severity : Severity} {text : Unit → Query String} (h : note severity text s = .ok u t) :
    s.Remarks t := by
  simp only [note, bind_eq_ok_iff, get_eq_ok_iff] at h
  obtain ⟨_, _, ⟨rfl, rfl⟩, h⟩ := h
  split at h
  · simp only [bind_eq_ok_iff, lift_eq_ok_iff] at h
    obtain ⟨line, _, ⟨-, rfl⟩, h⟩ := h
    exact ⟨_, _, modify_eq_ok_iff.1 h⟩
  · exact ⟨_, _, (pure_eq_ok_iff.1 h).2⟩

theorem warn_eq_ok {w : Warning} (h : warn w s = .ok u t) : s.Remarks t := ⟨_, _, modify_eq_ok_iff.1 h⟩

end Lower

end PointsTo
