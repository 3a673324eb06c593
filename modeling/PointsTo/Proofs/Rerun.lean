import PointsTo.Proofs.Additions
import PointsTo.Proofs.Quiescence

/-!
# Solved states stay solved

The last round of a run processes every node without a change.  Afterwards each node is at rest: to
process it once more leads back to the very same state.  A second run is therefore a single round that
counts the nodes it goes over and leaves everything else alone.
-/

namespace PointsTo

/-- The counts after one more round over so many nodes. -/
def SolverStats.again (size : Nat) (stats : SolverStats) : SolverStats :=
  { stats with rounds := stats.rounds + 1, processed := stats.processed + size }

theorem Warnings.mem_record {ws : Warnings} {w : Warning} : w ∈ (ws.record w).2.toList ∧ ∀ v ∈ ws.toList,
    v ∈ (ws.record w).2.toList := by
  unfold record
  split
  · rename_i hmem
    exact ⟨by simpa using hmem, fun _ hv ↦ hv⟩
  · exact ⟨by simp, fun _ hv ↦ List.mem_append_left _ hv⟩

namespace Solve

open Stateful

variable {μ σ : Type} {L : CallLinker σ} {s s' t u : Solving μ σ} {id : NodeId} {n : Node} {w : Warning}

/-! ## Warnings -/

/-- A warning that is given is recorded, beside those that were before. -/
theorem warn_records : Ensures (warn L w) s fun _ t ↦
    w ∈ t.solver.warnings.toList ∧ ∀ v ∈ s.solver.warnings.toList, v ∈ t.solver.warnings.toList := by
  have hrecord : w ∈ (s.solver.warnings.record w).2.toList ∧
    ∀ v ∈ s.solver.warnings.toList, v ∈ (s.solver.warnings.record w).2.toList := Warnings.mem_record
  refine .bind_get ?_
  dsimp only
  split
  · refine .seq fun _ s₁ hnote ↦ fun _ t ht ↦ ?_
    obtain rfl := modify_eq_ok_iff.1 hnote
    obtain rfl := modify_eq_ok_iff.1 ht
    exact hrecord
  · rename_i hold
    have hsame : (s.solver.warnings.record w).2 = s.solver.warnings := by
      unfold Warnings.record at hold ⊢
      split
      · rfl
      · simp_all
    rw [hsame] at hrecord
    exact .pure hrecord

theorem linkTarget_warnings {p : Pointer} : Ensures (linkTarget L id p) s fun _ t ↦
    t.solver.warnings = s.solver.warnings := by
  refine .bind_get ?_
  split
  · exact .pure rfl
  · refine .seq fun _ s₁ hinsert ↦ ?_
    obtain rfl := modify_eq_ok_iff.1 hinsert
    split
    · refine .seq fun g _ hg ↦ .bind_lift fun site _ ↦ ?_
      obtain ⟨-, rfl⟩ := graph_eq hg
      split
      · exact .pure rfl
      · refine .seq fun _ s₂ hadd ↦ .pure ?_
        obtain rfl := modify_eq_ok_iff.1 hadd
        rfl
    · refine .seq fun g _ hg ↦ .bind_lift fun target _ ↦ ?_
      obtain ⟨-, rfl⟩ := graph_eq hg
      split
      · exact .pure rfl
      · refine .seq fun joined s₂ hlink ↦ ?_
        obtain ⟨host, -, rfl⟩ := onHost_eq hlink
        split
        · refine .seq fun _ s₃ hcount ↦ .pure ?_
          obtain rfl := modify_eq_ok_iff.1 hcount
          rfl
        · exact .pure rfl

theorem Links.warnings {linked : Bool} (h : Links L id n t linked u) : u.solver.warnings = t.solver.warnings := by
  unfold Links at h
  split at h
  · unfold linkTargets at h
    cases hcallee : n.operand? 0 with
    | none =>
      rw [hcallee] at h
      obtain ⟨-, rfl⟩ := pure_eq_ok_iff.1 h
      rfl
    | some callee =>
      simp only [hcallee, bind_eq_ok_iff, lift_eq_ok_iff] at h
      obtain ⟨g, _, hg, targets, _, ⟨-, rfl⟩, h⟩ := h
      obtain ⟨-, rfl⟩ := graph_eq hg
      refine foldlM_preserves (fun _ u ↦ u.solver.warnings = t.solver.warnings) (fun p _ c s₁ d s₂ hs₁ hd ↦ ?_) h rfl
      simp only [bind_eq_ok_iff, pure_eq_ok_iff] at hd
      obtain ⟨b, _, hb, -, rfl⟩ := hd
      exact (linkTarget_warnings _ _ hb).trans hs₁
  · rw [h.2]

/-- The callees of a call that is processed are known. -/
theorem Links.targets {linked : Bool} (h : Links L id n t linked u) (hkind : n.kind = .indirectCall) {callee : NodeId}
    (hcallee : n.operand? 0 = some callee) : ∃ targets, (L.graph t.host).pointsTo callee = .ok targets := by
  rw [Links, if_pos hkind] at h
  unfold linkTargets at h
  simp only [hcallee, bind_eq_ok_iff, lift_eq_ok_iff] at h
  obtain ⟨g, _, hg, targets, _, ⟨htargets, -⟩, -⟩ := h
  obtain ⟨rfl, rfl⟩ := graph_eq hg
  exact ⟨targets, htargets⟩

theorem linkTargets_of_looked {callee : NodeId} {targets : PointerSet} (hcallee : n.operand? 0 = some callee)
    (htargets : (L.graph s.host).pointsTo callee = .ok targets) (h : ∀ p ∈ targets, Looked id s p) :
    linkTargets L id n s = .ok false s := by
  unfold linkTargets
  simp only [hcallee, bind_eq_ok_iff, lift_eq_ok_iff]
  refine ⟨_, s, rfl, targets, s, ⟨htargets, rfl⟩, ?_⟩
  have hidle : ∀ p ∈ targets, linkTarget L id p s = .ok false s := by
    intro p hp
    unfold linkTarget
    simp only [bind_eq_ok_iff, get_eq_ok_iff]
    refine ⟨s, s, ⟨rfl, rfl⟩, ?_⟩
    rw [if_pos (by rw [Bool.or_eq_true, OrderedSet.contains_iff]; exact h p hp)]
    rfl
  suffices hfold : ∀ rest : List Pointer, (∀ p ∈ rest, linkTarget L id p s = .ok false s) →
      (rest.foldlM (fun changed p ↦ return (← linkTarget L id p) || changed) false : Solve μ σ Bool) s =
      .ok false s from
    hfold targets.toList hidle
  intro rest hrest
  induction rest with
  | nil => rfl
  | cons p rest ih =>
    rw [List.foldlM_cons]
    simp only [bind_eq_ok_iff, pure_eq_ok_iff]
    exact ⟨false, s, ⟨false, s, hrest p List.mem_cons_self, rfl, rfl⟩, ih fun q hq ↦
      hrest q (List.mem_cons_of_mem _ hq)⟩

variable [MemoryModel μ]

/-- A visit that succeeds warns of a node that strays, and forgets no warning. -/
theorem visit_warns {changed : Bool} (h : visit L id s = .ok changed s') :
    ∃ n strays, (L.graph s.host).nodes[id]? = some n ∧ Transfer.strays (L.graph s.host) n = .ok strays ∧
      (strays = true → .storeToUnknown id.render ∈ s'.solver.warnings.toList) ∧
      ∀ v ∈ s.solver.warnings.toList, v ∈ s'.solver.warnings.toList := by
  rw [visit_eq] at h
  simp only [bind_eq_ok_iff, lift_eq_ok_iff, get_eq_ok_iff, Graph.node_eq_ok_iff] at h
  obtain ⟨g, _, hg, _, _, ⟨rfl, rfl⟩, m, _, ⟨-, rfl⟩, _, s₁, hset, n, _, ⟨hn, rfl⟩, strays, _, ⟨hstrays, rfl⟩, h⟩ := h
  obtain ⟨rfl, rfl⟩ := graph_eq hg
  obtain rfl := setMemory_eq hset
  obtain ⟨s₂, hwarned, hold, hact⟩ : ∃ s₂, (strays = true → .storeToUnknown id.render ∈ s₂.solver.warnings.toList) ∧
      (∀ v ∈ s.solver.warnings.toList, v ∈ s₂.solver.warnings.toList) ∧
      act L (L.graph s.host) id n s₂ = .ok changed s' := by
    split at h
    · rw [bind_eq_ok_iff] at h
      obtain ⟨_, s₂, hwarn, h⟩ := h
      obtain ⟨hnew, hold⟩ := warn_records _ _ hwarn
      exact ⟨s₂, fun _ ↦ hnew, hold, h⟩
    · rename_i hnot
      refine ⟨_, fun hstrays ↦ absurd hstrays hnot, ?_, h⟩
      exact fun _ hv ↦ hv
  suffices hsame : s'.solver.warnings = s₂.solver.warnings from
    ⟨n, strays, hn, hstrays, hsame ▸ hwarned, hsame ▸ hold⟩
  unfold act at hact
  simp only [bind_eq_ok_iff, lift_eq_ok_iff, get_eq_ok_iff] at hact
  obtain ⟨_, _, ⟨rfl, rfl⟩, e, _, ⟨-, rfl⟩, _, s₃, hset, grew, t, hgain, h⟩ := hact
  obtain rfl := setMemory_eq hset
  have ht : t.solver.warnings = s₂.solver.warnings := by
    unfold gain at hgain
    dsimp only at hgain
    split at hgain
    · simp only [bind_eq_ok_iff, pure_eq_ok_iff] at hgain
      obtain ⟨_, _, hgraph, _, _, hnote, -, rfl⟩ := hgain
      obtain rfl := modify_eq_ok_iff.1 hgraph
      obtain rfl := modify_eq_ok_iff.1 hnote
      rfl
    · obtain ⟨-, rfl⟩ := pure_eq_ok_iff.1 hgain
      rfl
  obtain ⟨u, linked, hlinks, hleave⟩ : ∃ u linked, Links L id n t linked u ∧
      s'.solver.warnings = u.solver.warnings := by
    unfold Links
    split at h
    · rename_i hkind
      simp only [bind_eq_ok_iff, get_eq_ok_iff, pure_eq_ok_iff] at h
      obtain ⟨linked, u, hlinks, _, _, ⟨rfl, rfl⟩, _, _, hset, -, rfl⟩ := h
      obtain rfl := setMemory_eq hset
      exact ⟨u, linked, by rwa [if_pos hkind], rfl⟩
    · rename_i hkind
      simp only [bind_eq_ok_iff, get_eq_ok_iff, pure_eq_ok_iff] at h
      obtain ⟨_, _, ⟨rfl, rfl⟩, _, _, ⟨rfl, rfl⟩, _, _, hset, -, rfl⟩ := h
      obtain rfl := setMemory_eq hset
      exact ⟨t, false, by rw [if_neg hkind]; exact ⟨rfl, rfl⟩, rfl⟩
  exact hleave.trans (hlinks.warnings.trans ht)

variable [Quiescent μ]

/-! ## Nodes at rest -/

/-- A node that has been processed without a change: it warns of nothing new, it finds memory as it
leaves it, it gains nothing, and all its targets were looked at. -/
structure AtRest (L : CallLinker σ) (id : NodeId) (n : Node) (t : Solving μ σ) : Prop where
  node : (L.graph t.host).nodes[id]? = some n
  strays : ∃ strays, Transfer.strays (L.graph t.host) n = .ok strays ∧
    (strays = true → .storeToUnknown id.render ∈ t.solver.warnings.toList)
  memory : ∀ M, Quiescent.Later t.solver.memory M → ∃ M' e, MemoryModel.enter (L.graph t.host) id M = .ok M' ∧
    Transfer.effect (L.graph t.host) t.solver.maxOffset id n M' = .ok e ∧ e.wrote = false ∧ e.gained ⊆ n.pointsTo ∧
      MemoryModel.leave id e.memory = (false, M)
  looked : n.kind = .indirectCall → ∀ callee, n.operand? 0 = some callee →
    ∃ targets, (L.graph t.host).pointsTo callee = .ok targets ∧ ∀ p ∈ targets, Looked id t p

/-- The second state comes of the first by processing nodes without a change. -/
structure Calms (L : CallLinker σ) (s t : Solving μ σ) : Prop where
  graph : L.graph t.host = L.graph s.host
  maxOffset : t.solver.maxOffset = s.solver.maxOffset
  memory : Quiescent.Later s.solver.memory t.solver.memory
  linked : s.solver.linked ⊆ t.solver.linked
  warnings : ∀ v ∈ s.solver.warnings.toList, v ∈ t.solver.warnings.toList

theorem Calms.refl (s : Solving μ σ) : Calms L s s :=
  ⟨rfl, rfl, Quiescent.refl _, OrderedSet.subset_refl _, fun _ hv ↦ hv⟩

theorem Calms.trans (h : Calms L s t) (h' : Calms L t u) : Calms L s u :=
  ⟨h'.graph.trans h.graph, h'.maxOffset.trans h.maxOffset, Quiescent.trans h.memory h'.memory,
    fun x hx ↦ h'.linked x (h.linked x hx), fun v hv ↦ h'.warnings v (h.warnings v hv)⟩

theorem AtRest.mono (h : AtRest L id n s) (hst : Calms L s t) : AtRest L id n t where
  node := hst.graph ▸ h.node
  strays := by
    obtain ⟨strays, hstrays, hwarned⟩ := h.strays
    exact ⟨strays, hst.graph ▸ hstrays, fun hs ↦ hst.warnings _ (hwarned hs)⟩
  memory M hM := by
    rw [hst.graph, hst.maxOffset]
    exact h.memory M (Quiescent.trans hst.memory hM)
  looked hkind callee hcallee := by
    obtain ⟨targets, htargets, hlooked⟩ := h.looked hkind callee hcallee
    exact ⟨targets, hst.graph ▸ htargets, fun p hp ↦ (hlooked p hp).imp_right (hst.linked _)⟩

/-- A visit without a change leaves its node at rest. -/
theorem atRest_of_visit (hL : L.Lawful) (h : visit L id s = .ok false t) : Calms L s t ∧ ∃ n, AtRest L id n t := by
  obtain ⟨n', strays, hn', hstrays, hwarned, hold⟩ := visit_warns h
  obtain ⟨n, m, e, hr⟩ := rested hL h
  obtain rfl := Option.mem_unique hr.node hn'
  obtain ⟨hlater, hquiet⟩ := Quiescent.quiet hr.node hr.enter hr.effect hr.wrote hr.left
  refine ⟨⟨hr.graph, hr.maxOffset, hr.memory ▸ hlater, hr.linked, hold⟩, n, hr.graph ▸ hr.node,
    ⟨strays, hr.graph ▸ hstrays, hwarned⟩, fun M hM ↦ ?_, fun hkind callee hcallee ↦ ?_⟩
  · obtain ⟨M', f, henter, heffect, hwrote, hgained, hleave⟩ := hquiet M (hr.memory ▸ hM)
    rw [hr.graph, hr.maxOffset]
    exact ⟨M', f, henter, heffect, hwrote, hgained ▸ hr.gained, hleave⟩
  · obtain ⟨_, _, f, t₁, u, linked, hv⟩ := visited hL h
    obtain rfl := Option.mem_unique hr.node hv.node
    have hnothing : f.gained ⊆ n.pointsTo := by
      have hchanged := hv.changed.symm
      simp only [Bool.or_eq_false_iff] at hchanged
      exact PointerSet.absorb_fst_eq_false.1 hchanged.1.1.2
    have hgraph : L.graph t₁.host = L.graph s.host := by
      rw [hv.graph_gain]
      refine Graph.update_eq_self fun m hm ↦ ?_
      rw [← Option.mem_unique hv.node hm, OrderedSet.union_eq_left hnothing]
    obtain ⟨targets, htargets⟩ := hv.links.targets hkind hcallee
    rw [hgraph] at htargets
    exact ⟨targets, hr.graph ▸ htargets, hr.looked hkind callee targets hcallee htargets⟩

/-- A visit of a node at rest leads back to the same state. -/
theorem AtRest.visit (h : AtRest L id n s) : visit L id s = .ok false s := by
  obtain ⟨strays, hstrays, hwarned⟩ := h.strays
  obtain ⟨m, e, henter, heffect, hwrote, hgained, hleave⟩ := h.memory _ (Quiescent.refl _)
  rw [visit_eq]
  simp only [bind_eq_ok_iff, lift_eq_ok_iff, get_eq_ok_iff, Graph.node_eq_ok_iff]
  refine ⟨_, s, rfl, s, s, ⟨rfl, rfl⟩, m, s, ⟨henter, rfl⟩, ⟨⟩, { s with solver := { s.solver with memory := m } }, rfl,
    n, _, ⟨h.node, rfl⟩, strays, _, ⟨hstrays, rfl⟩, ?_⟩
  have hact : act L (L.graph s.host) id n { s with solver := { s.solver with memory := m } } = .ok false s := by
    unfold act
    simp only [bind_eq_ok_iff, lift_eq_ok_iff, get_eq_ok_iff]
    refine ⟨_, _, ⟨rfl, rfl⟩, e, _, ⟨heffect, rfl⟩, ⟨⟩, { s with solver := { s.solver with memory := e.memory } }, rfl,
      false, { s with solver := { s.solver with memory := e.memory } }, ?_, ?_⟩
    · unfold gain
      dsimp only
      rw [if_neg (by rw [PointerSet.absorb_fst_eq_false.2 hgained]; decide)]
      exact pure_eq_ok_iff.2 ⟨PointerSet.absorb_fst_eq_false.2 hgained, rfl⟩
    · have hfinish : (do
          let left := MemoryModel.leave id (← get).solver.memory
          setMemory left.2
          return e.wrote || false || false || left.1 : Solve μ σ Bool)
          { s with solver := { s.solver with memory := e.memory } } = .ok false s := by
        simp only [bind_eq_ok_iff, get_eq_ok_iff, pure_eq_ok_iff]
        exact ⟨_, _, ⟨rfl, rfl⟩, ⟨⟩, s, by rw [hleave]; rfl, by rw [hleave, hwrote]; rfl, rfl⟩
      split
      · rename_i hkind
        refine bind_eq_ok_iff.2 ⟨false, _, ?_, hfinish⟩
        cases hcallee : n.operand? 0 with
        | none =>
          unfold linkTargets
          rw [hcallee]
          rfl
        | some callee =>
          obtain ⟨targets, htargets, hlooked⟩ := h.looked hkind callee hcallee
          exact linkTargets_of_looked hcallee htargets hlooked
      · exact hfinish
  split
  · rename_i hyes
    refine bind_eq_ok_iff.2 ⟨⟨⟩, _, ?_, hact⟩
    unfold warn
    simp only [bind_eq_ok_iff, get_eq_ok_iff]
    refine ⟨_, _, ⟨rfl, rfl⟩, ?_⟩
    have hknown : (s.solver.warnings.record (.storeToUnknown id.render)).1 = false := by
      simp [Warnings.record, hwarned hyes]
    rw [if_neg (by rw [hknown]; decide)]
    rfl
  · exact hact

/-! ## Rounds at rest -/

/-- The state with so many more nodes counted. -/
def tally (k : Nat) (s : Solving μ σ) : Solving μ σ :=
  { s with solver := { s.solver with stats := { s.solver.stats with processed := s.solver.stats.processed + k } } }

theorem calms_tally (k : Nat) : Calms L s (tally k s) :=
  ⟨rfl, rfl, Quiescent.refl _, OrderedSet.subset_refl _, fun _ hv ↦ hv⟩

theorem calms_endRound (hL : L.Lawful) {changed : Bool} : Calms L s (endRound L changed s) :=
  ⟨hL.graph_onJournal _ _, rfl, Quiescent.refl _, OrderedSet.subset_refl _, fun _ hv ↦ hv⟩

variable {r r' : Round}

theorem advance_quiet (hL : L.Lawful) (h : advance L r s = .ok (some r') s') (hr' : r'.changed = false) :
    ∃ id queue t, r.queue.pop = some (id, queue) ∧ visit L id s = .ok false t ∧ s' = tally 1 t ∧
    r' = { r with queue } := by
  rcases advance_cases hL h with ⟨hnone, -⟩ | ⟨_, hsome, id, queue, changed, t, hp⟩
  · contradiction
  obtain rfl := Option.some.inj hsome
  obtain rfl : changed = false := by
    cases changed with
    | false => rfl
    | true => exact absurd (hp.busy rfl) (by simp [hr'])
  refine ⟨id, queue, t, hp.pop, hp.visit, ?_, hp.quiet rfl⟩
  have hgraph : L.graph t.host = L.graph s.host := (atRest_of_visit hL hp.visit).1.graph
  unfold advance at h
  simp only [hp.pop, bind_eq_ok_iff] at h
  obtain ⟨_, _, hg, _, _, hvisit, _, _, hcount, _, _, hg', h⟩ := h
  obtain ⟨rfl, rfl⟩ := graph_eq hg
  obtain ⟨rfl, rfl⟩ := EStateM.Result.ok.inj (hvisit.symm.trans hp.visit)
  obtain rfl := modify_eq_ok_iff.1 hcount
  obtain ⟨rfl, rfl⟩ := graph_eq hg'
  rw [if_neg (by simp [hgraph])] at h
  exact (pure_eq_ok_iff.1 h).2.symm

/-- What is left of a round that changes nothing brings all waiting nodes to rest. -/
theorem drain_quiet (hL : L.Lawful) {budget : Nat} (h : drain L budget r s = .ok false s') :
    r.changed = false ∧ Calms L s s' ∧ ∀ id ∈ r.queue.toList, ∃ n, AtRest L id n s' := by
  induction budget generalizing r s with
  | zero => contradiction
  | succ budget ih =>
    simp only [drain, bind_eq_ok_iff] at h
    obtain ⟨x, s₁, hadvance, h⟩ := h
    cases x with
    | none =>
      obtain ⟨hchanged, rfl⟩ := pure_eq_ok_iff.1 h
      rcases advance_cases hL hadvance with ⟨-, hpop, rfl⟩ | ⟨_, hsome, -⟩
      · exact ⟨hchanged, .refl _, by simp [Worklist.pop_eq_none hpop]⟩
      · contradiction
    | some r₁ =>
      obtain ⟨hchanged, hcalms, hrest⟩ := ih h
      obtain ⟨id, queue, t, hpop, hvisit, rfl, rfl⟩ := advance_quiet hL hadvance hchanged
      obtain ⟨hst, n, hn⟩ := atRest_of_visit hL hvisit
      have hafter : Calms L t s' := (calms_tally 1).trans hcalms
      refine ⟨hchanged, hst.trans hafter, fun j hj ↦ ?_⟩
      rw [Worklist.pop_eq_some hpop] at hj
      rcases List.mem_cons.1 hj with rfl | hj
      · exact ⟨n, hn.mono hafter⟩
      · exact hrest j hj

/-- After the rounds of a run every node is at rest. -/
theorem rounds_quiet (hL : L.Lawful) {budget more : Nat} (h : rounds L budget more s = .ok () s') :
    ∀ id ∈ (L.graph s'.host).ids, ∃ n, AtRest L id n s' := by
  induction more generalizing s with
  | zero => contradiction
  | succ more ih =>
    rw [rounds_succ] at h
    simp only [resume, bind_eq_ok_iff] at h
    obtain ⟨changed, t, hdrain, _, _, hend, h⟩ := h
    obtain rfl := modify_eq_ok_iff.1 hend
    cases changed with
    | true => exact ih h
    | false =>
      obtain ⟨-, rfl⟩ := pure_eq_ok_iff.1 h
      obtain ⟨-, hcalms, hrest⟩ := drain_quiet hL hdrain
      have hgraph : L.graph (endRound L false t).host = L.graph s.host := (calms_endRound hL).graph.trans hcalms.graph
      intro id hid
      rw [hgraph, ← Round.toList_start] at hid
      obtain ⟨n, hn⟩ := hrest id hid
      exact ⟨n, hn.mono (calms_endRound hL)⟩

theorem advance_of_atRest {queue : Worklist NodeId} (hpop : r.queue.pop = some (id, queue)) (h : AtRest L id n s) :
    advance L r s = .ok (some { r with queue }) (tally 1 s) := by
  unfold advance
  simp only [hpop, bind_eq_ok_iff]
  refine ⟨_, s, rfl, false, s, h.visit, ⟨⟩, tally 1 s, rfl, _, tally 1 s, rfl, ?_⟩
  change (if false || (L.graph s.host).size < (L.graph s.host).size then _ else _ : Solve μ σ (Option Round))
    (tally 1 s) = _
  rw [if_neg (by simp)]
  refine pure_eq_ok_iff.2 ⟨?_, rfl⟩
  rw [show L.graph (tally 1 s).host = L.graph s.host from rfl, Nat.sub_self]
  rfl

/-- A round over nodes at rest only counts them. -/
theorem drain_of_atRest {budget : Nat} (hr : r.changed = false) (h : ∀ id ∈ r.queue.toList, ∃ n, AtRest L id n s)
    (hbudget : r.queue.toList.length < budget) : drain L budget r s = .ok false (tally r.queue.toList.length s) := by
  induction budget generalizing r s with
  | zero => omega
  | succ budget ih =>
    simp only [drain, bind_eq_ok_iff]
    cases hpop : r.queue.pop with
    | none =>
      refine ⟨none, s, advance_of_pop_none hpop, pure_eq_ok_iff.2 ⟨hr, ?_⟩⟩
      rw [Worklist.pop_eq_none hpop]
      rfl
    | some front =>
      obtain ⟨id, queue⟩ := front
      have hlist := Worklist.pop_eq_some hpop
      obtain ⟨n, hn⟩ := h id (by simp [hlist])
      refine ⟨_, _, advance_of_atRest hpop hn, ?_⟩
      have hrest := ih (r := { r with queue }) (s := tally 1 s) hr
        (fun j hj ↦ (h j (by simp [hlist, hj])).imp fun _ hj ↦ hj.mono (calms_tally 1))
        (by simpa [hlist] using hbudget)
      refine hrest.trans ?_
      rw [hlist, List.length_cons, Nat.add_comm]
      simp only [tally, Nat.add_assoc]

/-- A run over nodes at rest is one round that counts them, and is journaled. -/
theorem run_of_atRest {budget : Nat} (h : ∀ id ∈ (L.graph s.host).ids, ∃ n, AtRest L id n s)
    (hbudget : (L.graph s.host).size < budget) :
    ∃ f g, run L budget s = .ok (s.solver.stats.again (L.graph s.host).size)
      { solver := { s.solver with stats := s.solver.stats.again (L.graph s.host).size }
        host := L.onJournal f (L.onJournal g s.host) } := by
  have hlength : (Round.start (L.graph s.host)).queue.toList.length = (L.graph s.host).size := by
    rw [Round.toList_start, Graph.ids, List.length_range]
  rw [← Round.toList_start] at h
  have hdrain := drain_of_atRest rfl h (hlength ▸ hbudget)
  rw [hlength] at hdrain
  obtain ⟨more, rfl⟩ := Nat.exists_eq_add_of_lt hbudget
  have hrounds : rounds L ((L.graph s.host).size + more + 1) ((L.graph s.host).size + more + 1) s =
      .ok () (endRound L false (tally (L.graph s.host).size s)) := by
    rw [rounds_succ]
    simp only [resume, bind_eq_ok_iff]
    exact ⟨false, _, hdrain, ⟨⟩, _, rfl, rfl⟩
  unfold run
  refine ⟨_, _, bind_eq_ok_iff.2 ⟨_, _, hrounds, rfl⟩⟩

theorem run_again (hL : L.Lawful) {budget more : Nat} {stats : SolverStats} (h : run L budget s = .ok stats t)
    (hmore : (L.graph t.host).size < more) : ∃ f g, run L more t = .ok (stats.again (L.graph t.host).size)
      { solver := { t.solver with stats := stats.again (L.graph t.host).size }
        host := L.onJournal f (L.onJournal g t.host) } := by
  unfold run at h
  simp only [bind_eq_ok_iff, get_eq_ok_iff, pure_eq_ok_iff] at h
  obtain ⟨_, s₁, hrounds, _, _, ⟨rfl, rfl⟩, _, _, hnote, rfl, rfl⟩ := h
  obtain rfl := modify_eq_ok_iff.1 hnote
  refine run_of_atRest (fun id hid ↦ ?_) hmore
  rw [hL.graph_onJournal] at hid
  obtain ⟨n, hn⟩ := rounds_quiet hL hrounds id hid
  exact ⟨n, hn.mono ⟨hL.graph_onJournal _ _, rfl, Quiescent.refl _, OrderedSet.subset_refl _, fun _ hv ↦ hv⟩⟩

end Solve

/-! ## Programs and graphs -/

open Stateful

theorem Lower.root_of_build {prog : Program} {entry : String} {s : Lowering} :
    Ensures (build prog entry) s fun _ t ↦ t.graph.root ≠ none := by
  unfold build
  split
  · exact fun _ _ h ↦ absurd h reject_ne_ok
  · refine .bind_lift fun fn _ ↦ ?_
    extract_lets finish rest
    have hfinish {u : Lowering} {root : NodeId} : Ensures (finish root) u fun _ t ↦ t.graph.root ≠ none := by
      refine .seq fun _ u₁ hroot ↦ .bind_get (.seq fun _ t hnote ↦ .pure ?_)
      obtain rfl := onGraph_eq_ok_iff.1 hroot
      obtain ⟨warnings, journal, rfl⟩ := note_eq_ok hnote
      simp [Graph.setRoot]
    have hrest : Ensures (rest ⟨⟩) s fun _ t ↦ t.graph.root ≠ none := by
      refine .seq fun chain _ _ ↦ .seq fun id _ _ ↦ ?_
      cases chain with
      | none => exact .bind_pure hfinish
      | some span => exact .seq fun _ _ _ ↦ .bind_pure hfinish
    split
    · exact .seq fun _ _ h ↦ absurd h reject_ne_ok
    · exact hrest

/-- A run that succeeds solves a graph with a root, which it keeps. -/
theorem Analysis.rooted_of_run {μ : Type} [MemoryModel μ] {prog : Program} {options : Options} {budget : Nat}
    {a b : Analysis μ} {stats : SolverStats} (h : run prog options budget a = .ok stats b) :
    ∃ c, b.host.graph.root ≠ none ∧ Solve.run (Lowering.linker prog) budget c = .ok stats b := by
  unfold Analysis.run at h
  simp only [bind_eq_ok_iff, get_eq_ok_iff] at h
  obtain ⟨_, _, ⟨rfl, rfl⟩, h⟩ := h
  obtain ⟨c, hroot, hrun⟩ : ∃ c : Analysis μ, c.host.graph.root ≠ none ∧
      Solve.run (Lowering.linker prog) budget c = .ok stats b := by
    split at h
    · simp only [bind_eq_ok_iff] at h
      obtain ⟨_, c, hbuild, hrun⟩ := h
      obtain ⟨host, hhost, rfl⟩ := Solve.onHost_eq hbuild
      exact ⟨_, Lower.root_of_build _ _ hhost, hrun⟩
    · rename_i hroot
      exact ⟨a, by simpa using hroot, h⟩
  have hretains : Analysis.Retains 0 c b := (Solve.Retaining.run budget).leaves (.inl ⟨stats, hrun⟩)
  exact ⟨c, (hretains (Nat.zero_le _)).graph.root hroot, hrun⟩

/-- A run from a state that a successful run leads to takes one round, which counts the nodes and changes
nothing but the journal. -/
def StaysSolved (μ : Type) [MemoryModel μ] : Prop :=
  (∀ (prog : Program) (options : Options) (budget more : Nat) (a b : Analysis μ) (stats : SolverStats),
    Analysis.run prog options budget a = .ok stats b → b.host.graph.size < more →
      ∃ journal, Analysis.run prog options more b = .ok (stats.again b.host.graph.size)
        { solver := { b.solver with stats := stats.again b.host.graph.size }, host := { b.host with journal } }) ∧
  ∀ (budget more : Nat) (s t : Solving μ LoneGraph) (stats : SolverStats),
    Solve.run LoneGraph.linker budget s = .ok stats t → t.host.graph.size < more →
      ∃ journal, Solve.run LoneGraph.linker more t = .ok (stats.again t.host.graph.size)
        { solver := { t.solver with stats := stats.again t.host.graph.size }, host := { t.host with journal } }

theorem staysSolved (μ : Type) [MemoryModel μ] [Quiescent μ] : StaysSolved μ := by
  constructor
  · intro prog options budget more a b stats h hmore
    obtain ⟨c, hroot, hrun⟩ := Analysis.rooted_of_run h
    have hroot' : b.host.graph.root.isNone = false := by
      rwa [Option.isNone_eq_false_iff, Option.isSome_iff_ne_none]
    obtain ⟨f, g, hagain⟩ := Solve.run_again (Lowering.linker_lawful prog) hrun hmore
    refine ⟨f (g b.host.journal), ?_⟩
    unfold Analysis.run
    simp only [bind_eq_ok_iff, get_eq_ok_iff]
    refine ⟨b, b, ⟨rfl, rfl⟩, ?_⟩
    rw [hroot']
    exact hagain
  · intro budget more s t stats h hmore
    obtain ⟨f, g, hagain⟩ := Solve.run_again LoneGraph.linker_lawful h hmore
    exact ⟨f (g t.host.journal), hagain⟩

theorem solved_stays_solved : StaysSolved SharedMemory ∧ StaysSolved NodeMemory := ⟨staysSolved _, staysSolved _⟩

theorem solved_stays_solved_dispatch : ∃ (stats : SolverStats) (b : Analysis NodeMemory) (journal : Journal),
    Analysis.run Analysis.dispatch {} 40 (Analysis.fresh {} {}) = .ok stats b ∧ stats.linked = 2 ∧
      Analysis.run Analysis.dispatch {} 40 b = .ok (stats.again b.host.graph.size)
        { solver := { b.solver with stats := stats.again b.host.graph.size }, host := { b.host with journal } } := by
  have hrun : Stateful.succeeds (fun stats (b : Analysis NodeMemory) ↦
      decide (stats.linked = 2 ∧ b.host.graph.size < 40))
      (Analysis.run Analysis.dispatch {} 40 (Analysis.fresh {} {})) = true := by decide +kernel
  obtain ⟨stats, b, hrun, htest⟩ := ok_of_succeeds hrun
  obtain ⟨hlinked, hsize⟩ := of_decide_eq_true htest
  obtain ⟨journal, hagain⟩ := solved_stays_solved.2.1 Analysis.dispatch {} 40 40 _ b stats hrun hsize
  exact ⟨stats, b, journal, hrun, hlinked, hagain⟩

end PointsTo
