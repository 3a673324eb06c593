import PointsTo.Analysis
import PointsTo.Proofs.Visits

/-!
# Linking calls

A call through a function pointer looks at each of its targets once.  What that does to the graph
depends on the linker; a linker that refuses leaves the graph alone.
-/

namespace PointsTo

open Stateful

namespace Lower

variable {prog : Program} {s s' : Lowering}

theorem node_eq {id : NodeId} {n : Node} (h : node id s = .ok n s') : s = s' := by
  unfold node at h
  simp only [bind_eq_ok_iff, get_eq_ok_iff, lift_eq_ok_iff] at h
  obtain ⟨_, _, ⟨rfl, rfl⟩, -, rfl⟩ := h
  rfl

theorem functionOf?_eq {id : NodeId} {f? : Option FuncId} (h : functionOf? prog id s = .ok f? s') :
    s = s' := by
  unfold functionOf? at h
  rw [bind_eq_ok_iff] at h
  obtain ⟨n, _, hn, h⟩ := h
  obtain rfl := node_eq hn
  cases hvalue : n.value with
  | none =>
    simp only [hvalue, pure_eq_ok_iff] at h
    exact h.2
  | some v =>
    simp only [hvalue, bind_eq_ok_iff, lift_eq_ok_iff] at h
    obtain ⟨value, _, ⟨-, rfl⟩, h⟩ := h
    cases hkind : value.kind <;> simp only [hkind, pure_eq_ok_iff] at h <;> exact h.2

theorem graph_note {severity : Severity} {text : Unit → Query String} {x : PUnit}
    (h : note severity text s = .ok x s') : s'.graph = s.graph := by
  unfold note at h
  simp only [bind_eq_ok_iff, get_eq_ok_iff] at h
  obtain ⟨_, _, ⟨rfl, rfl⟩, h⟩ := h
  split at h
  · simp only [bind_eq_ok_iff, lift_eq_ok_iff] at h
    obtain ⟨line, _, ⟨-, rfl⟩, h⟩ := h
    obtain rfl := modify_eq_ok_iff.1 h
    rfl
  · obtain ⟨-, rfl⟩ := pure_eq_ok_iff.1 h
    rfl

/-- Refusing to link a function changes at most the journal. -/
theorem graph_linkCall {callSite function : NodeId} (h : linkCall prog callSite function s = .ok false s') :
    s'.graph = s.graph := by
  unfold linkCall at h
  rw [bind_eq_ok_iff] at h
  obtain ⟨f?, _, hf, h⟩ := h
  obtain rfl := functionOf?_eq hf
  cases f? with
  | none =>
    obtain ⟨-, rfl⟩ := pure_eq_ok_iff.1 h
    rfl
  | some f =>
    simp only [bind_eq_ok_iff] at h
    obtain ⟨site, _, hsite, h⟩ := h
    obtain rfl := node_eq hsite
    cases hcall : site.value with
    | none =>
      simp only [hcall, pure_eq_ok_iff] at h
      rw [h.2]
    | some call =>
      cases hret : site.paired with
      | none =>
        simp only [hcall, hret, pure_eq_ok_iff] at h
        rw [h.2]
      | some ret =>
        simp only [hcall, hret, bind_eq_ok_iff, lift_eq_ok_iff] at h
        obtain ⟨inst?, _, ⟨-, rfl⟩, h⟩ := h
        cases inst? with
        | none =>
          obtain ⟨-, rfl⟩ := pure_eq_ok_iff.1 h
          rfl
        | some inst =>
          simp only [bind_eq_ok_iff, lift_eq_ok_iff] at h
          obtain ⟨callee, _, ⟨-, rfl⟩, h⟩ := h
          split at h
          · simp only [bind_eq_ok_iff, pure_eq_ok_iff] at h
            obtain ⟨_, _, hnote, -, rfl⟩ := h
            exact graph_note hnote
          · -- From here on the answer is true.
            rw [bind_eq_ok_iff] at h
            obtain ⟨_, _, -, h⟩ := h
            split at h
            · simp only [bind_eq_ok_iff, pure_eq_ok_iff, Bool.true_eq_false, false_and,
                and_false, exists_false] at h
            · simp only [bind_eq_ok_iff] at h
              obtain ⟨span, _, -, _, _, -, _, _, -, h⟩ := h
              split at h <;>
              · simp only [bind_eq_ok_iff, pure_eq_ok_iff, Bool.true_eq_false, false_and,
                  and_false, exists_false] at h

end Lower

theorem Lowering.linker_lawful (prog : Program) : (Lowering.linker prog).Lawful where
  graph_onGraph _ _ := rfl
  graph_onJournal _ _ := rfl
  graph_link h := Lower.graph_linkCall h

namespace Solve

variable {μ σ : Type} {L : CallLinker σ}

/-- What looking at one more target of a call makes of the graph. -/
inductive Linking (L : CallLinker σ) (callSite : NodeId) (p : Pointer) (host : σ) (g : Graph) : Bool → Prop
  | refused (hg : g = L.graph host)
      (hunknown : p.isUnknown = true → ∃ n, (L.graph host).nodes[callSite]? = some n ∧ n.paired = none) :
      Linking L callSite p host g false
  /-- A call of unknown memory returns unknown. -/
  | unknown {n : Node} {ret : NodeId} (hunknown : p.isUnknown = true)
      (hn : (L.graph host).nodes[callSite]? = some n) (hpaired : n.paired = some ret)
      (hg : g = (L.graph host).addOperand ret unknownTarget) : Linking L callSite p host g true
  | joined {host' : σ} (hunknown : p.isUnknown = false)
      (hlink : L.link callSite p.target host = .ok true host') (hg : g = L.graph host') :
      Linking L callSite p host g true

/-- A target of a call that was looked at before, or to which no call is possible. -/
def Looked (callSite : NodeId) (s : Solving μ σ) (p : Pointer) : Prop :=
  p.isNull = true ∨ (callSite, p.target) ∈ s.solver.linked

variable {s s' t u : Solving μ σ} {callSite : NodeId} {p : Pointer} {b : Bool}

theorem onHost_eq {α : Type} {x : EStateM Failure σ α} {a : α} (h : onHost x s = .ok a s') :
    ∃ host, x s.host = .ok a host ∧ s' = { s with host } := by
  unfold onHost at h
  split at h
  · rename_i a' host hx
    obtain ⟨rfl, rfl⟩ := EStateM.Result.ok.inj h
    exact ⟨host, hx, rfl⟩
  · contradiction

theorem linkTarget_cases (hL : L.Lawful) (h : linkTarget L callSite p s = .ok b s') :
    (Looked callSite s p ∧ b = false ∧ s' = s) ∨
    (¬Looked callSite s p ∧ Linking L callSite p s.host (L.graph s'.host) b ∧
      s'.solver.linked = s.solver.linked.insert (callSite, p.target) ∧
      s'.solver.memory = s.solver.memory ∧ s'.solver.maxOffset = s.solver.maxOffset) := by
  unfold linkTarget at h
  simp only [bind_eq_ok_iff, get_eq_ok_iff] at h
  obtain ⟨_, _, ⟨rfl, rfl⟩, h⟩ := h
  have hlooked : (p.isNull || s.solver.linked.contains (callSite, p.target)) = true ↔
      Looked callSite s p := by
    rw [Bool.or_eq_true, OrderedSet.contains_iff, Looked]
  split at h
  · rename_i hseen
    obtain ⟨rfl, rfl⟩ := pure_eq_ok_iff.1 h
    exact .inl ⟨hlooked.1 hseen, rfl, rfl⟩
  · rename_i hseen
    refine .inr ⟨mt hlooked.2 hseen, ?_⟩
    rw [bind_eq_ok_iff] at h
    obtain ⟨_, s₁, hinsert, h⟩ := h
    unfold onSolver at hinsert
    obtain rfl := modify_eq_ok_iff.1 hinsert
    split at h
    · rename_i hunknown
      simp only [bind_eq_ok_iff, lift_eq_ok_iff, Graph.node_eq_ok_iff] at h
      obtain ⟨_, _, hg, n, _, ⟨hn, rfl⟩, h⟩ := h
      obtain ⟨rfl, rfl⟩ := graph_eq hg
      cases hpaired : n.paired with
      | none =>
        simp only [hpaired, pure_eq_ok_iff] at h
        obtain ⟨rfl, rfl⟩ := h
        exact ⟨.refused rfl fun _ ↦ ⟨n, hn, hpaired⟩, rfl, rfl, rfl⟩
      | some ret =>
        simp only [hpaired, bind_eq_ok_iff, pure_eq_ok_iff] at h
        obtain ⟨_, _, hadd, rfl, rfl⟩ := h
        unfold onGraph at hadd
        obtain rfl := modify_eq_ok_iff.1 hadd
        exact ⟨.unknown hunknown hn hpaired (hL.graph_onGraph _ _), rfl, rfl, rfl⟩
    · rename_i hunknown
      have hunknown : p.isUnknown = false := by simpa using hunknown
      simp only [bind_eq_ok_iff, lift_eq_ok_iff, Graph.node_eq_ok_iff] at h
      obtain ⟨_, _, hg, n, _, ⟨hn, rfl⟩, h⟩ := h
      obtain ⟨rfl, rfl⟩ := graph_eq hg
      split at h
      · obtain ⟨rfl, rfl⟩ := pure_eq_ok_iff.1 h
        exact ⟨.refused rfl fun hu ↦ by simp [hunknown] at hu, rfl, rfl, rfl⟩
      · rw [bind_eq_ok_iff] at h
        obtain ⟨joined, t, hlink, h⟩ := h
        obtain ⟨host, hanswer, rfl⟩ := onHost_eq hlink
        split at h
        · rename_i hjoined
          simp only [bind_eq_ok_iff, pure_eq_ok_iff] at h
          obtain ⟨_, _, hcount, rfl, rfl⟩ := h
          obtain ⟨hgraph, hmemory, hlinked, hmax⟩ := count_alike (L := L) hcount
          exact ⟨.joined hunknown (hjoined ▸ hanswer) hgraph, hlinked, hmemory, hmax⟩
        · rename_i hjoined
          obtain ⟨rfl, rfl⟩ := pure_eq_ok_iff.1 h
          have hrefused : joined = false := by simpa using hjoined
          exact ⟨.refused (hL.graph_link (hrefused ▸ hanswer)) fun hu ↦ by simp [hunknown] at hu,
            rfl, rfl, rfl⟩

/-- Looking at one target keeps memory, and the graph if nothing is linked. -/
theorem linkTarget_frame (hL : L.Lawful) (h : linkTarget L callSite p s = .ok b s') :
    s'.solver.memory = s.solver.memory ∧ s'.solver.maxOffset = s.solver.maxOffset ∧
      s.solver.linked ⊆ s'.solver.linked ∧ (b = false → L.graph s'.host = L.graph s.host) ∧
      Looked callSite s' p := by
  rcases linkTarget_cases hL h with ⟨hlooked, rfl, rfl⟩ | ⟨-, hlinking, hlinked, hmemory, hmax⟩
  · exact ⟨rfl, rfl, OrderedSet.subset_refl _, fun _ ↦ rfl, hlooked⟩
  · refine ⟨hmemory, hmax, fun x hx ↦ ?_, fun hb ↦ ?_, .inr ?_⟩
    · rw [hlinked]
      exact OrderedSet.mem_insert.2 (.inr hx)
    · subst hb
      cases hlinking with
      | refused hg _ => exact hg
    · rw [hlinked]
      exact OrderedSet.mem_insert.2 (.inl rfl)

/-- The same for all targets of a call, each of which is looked at. -/
theorem linkTargets_frame (hL : L.Lawful) {n : Node} (h : linkTargets L callSite n s = .ok b s') :
    s'.solver.memory = s.solver.memory ∧ s'.solver.maxOffset = s.solver.maxOffset ∧
      s.solver.linked ⊆ s'.solver.linked ∧ (b = false → L.graph s'.host = L.graph s.host) ∧
      ∀ callee targets, n.operand? 0 = some callee → (L.graph s.host).pointsTo callee = .ok targets →
        ∀ p ∈ targets, Looked callSite s' p := by
  unfold linkTargets at h
  cases hcallee : n.operand? 0 with
  | none =>
    simp only [hcallee, pure_eq_ok_iff] at h
    obtain ⟨-, rfl⟩ := h
    exact ⟨rfl, rfl, OrderedSet.subset_refl _, fun _ ↦ rfl, by simp⟩
  | some callee =>
    simp only [hcallee, bind_eq_ok_iff, lift_eq_ok_iff] at h
    obtain ⟨_, _, hg, targets, _, ⟨htargets, rfl⟩, h⟩ := h
    obtain ⟨rfl, rfl⟩ := graph_eq hg
    have hfold := foldlM_marks
      (P := fun c t ↦ t.solver.memory = s.solver.memory ∧ t.solver.maxOffset = s.solver.maxOffset ∧
        s.solver.linked ⊆ t.solver.linked ∧ (c = false → L.graph t.host = L.graph s.host))
      (R := fun p t ↦ Looked callSite t p) ?_ h
      ⟨rfl, rfl, OrderedSet.subset_refl _, fun _ ↦ rfl⟩
    · obtain ⟨⟨hmemory, hmax, hlinked, hgraph⟩, hlooked, -⟩ := hfold
      refine ⟨hmemory, hmax, hlinked, hgraph, fun callee' targets' hc ht ↦ ?_⟩
      obtain rfl := Option.some.inj hc
      obtain rfl := Except.ok.inj (htargets.symm.trans ht)
      exact hlooked
    · intro p _ c t d u ⟨hmemory, hmax, hlinked, hgraph⟩ hd
      simp only [bind_eq_ok_iff, pure_eq_ok_iff] at hd
      obtain ⟨b₁, _, hp, rfl, rfl⟩ := hd
      obtain ⟨hmemory', hmax', hlinked', hgraph', hlooked⟩ := linkTarget_frame hL hp
      refine ⟨⟨hmemory'.trans hmemory, hmax'.trans hmax, fun x hx ↦ hlinked' x (hlinked x hx), ?_⟩, hlooked, ?_⟩
      · intro hc
        rw [Bool.or_eq_false_iff] at hc
        exact (hgraph' hc.1).trans (hgraph hc.2)
      · exact fun q hq ↦ hq.imp id (hlinked' _)

theorem Links.frame (hL : L.Lawful) {n : Node} (h : Links L callSite n t b u) :
    u.solver.memory = t.solver.memory ∧ u.solver.maxOffset = t.solver.maxOffset ∧
      t.solver.linked ⊆ u.solver.linked ∧ (b = false → L.graph u.host = L.graph t.host) ∧
      (n.kind = .indirectCall → ∀ callee targets, n.operand? 0 = some callee →
        (L.graph t.host).pointsTo callee = .ok targets → ∀ p ∈ targets, Looked callSite u p) := by
  unfold Links at h
  split at h
  · obtain ⟨hmemory, hmax, hlinked, hgraph, hlooked⟩ := linkTargets_frame hL h
    exact ⟨hmemory, hmax, hlinked, hgraph, fun _ ↦ hlooked⟩
  · rename_i hkind
    obtain ⟨rfl, rfl⟩ := h
    exact ⟨rfl, rfl, OrderedSet.subset_refl _, fun _ ↦ rfl, fun hkind' ↦ absurd hkind' hkind⟩

variable [MemoryModel μ]

theorem Visited.maxOffset (hL : L.Lawful) {id : NodeId} {changed linked : Bool} {n : Node} {m : μ} {e : Effect μ}
    (h : Visited L id s s' changed n m e t u linked) : s'.solver.maxOffset = s.solver.maxOffset :=
  h.maxOffset_leave.trans ((h.links.frame hL).2.1.trans h.maxOffset_gain)

/-- A visit that changes nothing: the transfer of the node yields nothing new, and all targets of a
call were looked at. -/
structure Rested (L : CallLinker σ) (id : NodeId) (s s' : Solving μ σ) (n : Node) (m : μ) (e : Effect μ) :
    Prop where
  node : (L.graph s.host).nodes[id]? = some n
  enter : MemoryModel.enter (L.graph s.host) id s.solver.memory = .ok m
  effect : Transfer.effect (L.graph s.host) s.solver.maxOffset id n m = .ok e
  wrote : e.wrote = false
  gained : e.gained ⊆ n.pointsTo
  left : (MemoryModel.leave id e.memory).1 = false
  memory : s'.solver.memory = (MemoryModel.leave id e.memory).2
  graph : L.graph s'.host = L.graph s.host
  maxOffset : s'.solver.maxOffset = s.solver.maxOffset
  linked : s.solver.linked ⊆ s'.solver.linked
  looked : n.kind = .indirectCall → ∀ callee targets, n.operand? 0 = some callee →
    (L.graph s.host).pointsTo callee = .ok targets → ∀ p ∈ targets, Looked id s' p

theorem rested (hL : L.Lawful) {id : NodeId} (h : visit L id s = .ok false s') :
    ∃ n m e, Rested L id s s' n m e := by
  obtain ⟨n, m, e, t, u, linked, hv⟩ := visited hL h
  have hchanged := hv.changed.symm
  simp only [Bool.or_eq_false_iff] at hchanged
  obtain ⟨⟨⟨hwrote, hgrew⟩, rfl⟩, hleft⟩ := hchanged
  have hgained : e.gained ⊆ n.pointsTo := PointerSet.absorb_fst_eq_false.1 hgrew
  have hgraph : L.graph t.host = L.graph s.host := by
    rw [hv.graph_gain]
    refine Graph.update_eq_self fun m hm ↦ ?_
    rw [← Option.mem_unique hv.node hm, OrderedSet.union_eq_left hgained]
  obtain ⟨hmemory, -, hlinked, hgraph', hlooked⟩ := hv.links.frame hL
  rw [hmemory, hv.memory_gain] at hleft
  exact ⟨n, m, e,
    { node := hv.node
      enter := hv.enter
      effect := hv.effect
      wrote := hwrote
      gained := hgained
      left := hleft
      memory := by rw [hv.memory_leave, hmemory, hv.memory_gain]
      graph := hv.graph_leave.trans ((hgraph' rfl).trans hgraph)
      maxOffset := hv.maxOffset hL
      linked := by rwa [hv.linked_leave, ← hv.linked_gain]
      looked := by
        intro hkind callee targets hcallee htargets p hp
        have := hlooked hkind callee targets hcallee (by rwa [hgraph]) p hp
        unfold Looked at this ⊢
        rwa [hv.linked_leave] }⟩

end Solve

end PointsTo
