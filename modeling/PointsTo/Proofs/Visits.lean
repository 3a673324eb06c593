import PointsTo.Analysis
import PointsTo.Proofs.Confinement

/-!
# Processing one node

What `Solve.visit` does to the graph, the memory and the links of a solver, apart from its counts,
its warnings and the journal.
-/

namespace PointsTo

open Stateful

/-- A linker that changes its graph only as it is told, and not at all when it refuses to link. -/
structure CallLinker.Lawful {σ : Type} (L : CallLinker σ) : Prop where
  graph_onGraph : ∀ f s, L.graph (L.onGraph f s) = f (L.graph s)
  graph_onJournal : ∀ f s, L.graph (L.onJournal f s) = L.graph s
  graph_link : ∀ {c f : NodeId} {s s' : σ}, L.link c f s = .ok false s' → L.graph s' = L.graph s

theorem LoneGraph.linker_lawful : LoneGraph.linker.Lawful where
  graph_onGraph _ _ := rfl
  graph_onJournal _ _ := rfl
  graph_link h := by
    obtain ⟨-, rfl⟩ := pure_eq_ok_iff.1 h
    rfl

namespace Solve

variable {μ σ : Type} {L : CallLinker σ}

/-- The same graph, memory and links; counts, warnings and journal may differ. -/
structure Alike (L : CallLinker σ) (s t : Solving μ σ) : Prop where
  graph : L.graph t.host = L.graph s.host
  memory : t.solver.memory = s.solver.memory
  linked : t.solver.linked = s.solver.linked
  maxOffset : t.solver.maxOffset = s.solver.maxOffset

variable {s t u : Solving μ σ}

theorem Alike.refl (s : Solving μ σ) : Alike L s s := ⟨rfl, rfl, rfl, rfl⟩

theorem Alike.trans (h : Alike L s t) (h' : Alike L t u) : Alike L s u :=
  ⟨h'.graph.trans h.graph, h'.memory.trans h.memory, h'.linked.trans h.linked,
    h'.maxOffset.trans h.maxOffset⟩

theorem note_alike (hL : L.Lawful) {severity : Severity} {text : Unit → String} {x : PUnit}
    (h : note L severity text s = .ok x t) : Alike L s t := by
  unfold note at h
  obtain rfl := modify_eq_ok_iff.1 h
  exact ⟨hL.graph_onJournal _ _, rfl, rfl, rfl⟩

theorem count_alike {f : SolverStats → SolverStats} {x : PUnit} (h : count f s = .ok x t) :
    Alike L s t := by
  unfold count onSolver at h
  obtain rfl := modify_eq_ok_iff.1 h
  exact ⟨rfl, rfl, rfl, rfl⟩

theorem warn_alike (hL : L.Lawful) {w : Warning} {x : PUnit} (h : warn L w s = .ok x t) :
    Alike L s t := by
  unfold warn at h
  simp only [bind_eq_ok_iff, get_eq_ok_iff] at h
  obtain ⟨_, _, ⟨rfl, rfl⟩, h⟩ := h
  split at h
  · simp only [bind_eq_ok_iff] at h
    obtain ⟨_, s₁, hnote, h⟩ := h
    unfold onSolver at h
    obtain rfl := modify_eq_ok_iff.1 h
    have halike := note_alike hL hnote
    exact ⟨halike.graph, halike.memory, halike.linked, halike.maxOffset⟩
  · obtain ⟨-, rfl⟩ := pure_eq_ok_iff.1 h
    exact Alike.refl _

theorem warn_total (hL : L.Lawful) (w : Warning) : Yields (warn L w) s fun _ t ↦ Alike L s t := by
  have hwarn : ∃ t, warn L w s = .ok ⟨⟩ t := by
    simp only [warn, bind_eq_ok_iff, get_eq_ok_iff]
    cases h : (s.solver.warnings.record w).1 with
    | false => exact ⟨s, s, s, ⟨rfl, rfl⟩, by simp only [h]; rfl⟩
    | true => exact ⟨_, s, s, ⟨rfl, rfl⟩, by simp only [h]; rfl⟩
  obtain ⟨t, ht⟩ := hwarn
  exact ⟨⟨⟩, t, ht, warn_alike hL ht⟩

theorem setMemory_eq {m : μ} {x : PUnit} (h : setMemory m s = .ok x t) :
    t = { s with solver := { s.solver with memory := m } } := by
  unfold setMemory onSolver at h
  exact (modify_eq_ok_iff.1 h).symm

theorem graph_eq {g : Graph} (h : graph L s = .ok g t) : g = L.graph s.host ∧ s = t := by
  unfold graph at h
  simp only [bind_eq_ok_iff, get_eq_ok_iff, pure_eq_ok_iff] at h
  obtain ⟨_, _, ⟨rfl, rfl⟩, rfl, rfl⟩ := h
  exact ⟨rfl, rfl⟩

/-- The graph after a node gained pointers.  Nothing happens to it if they are not new. -/
theorem gain_eq (hL : L.Lawful) {id : NodeId} {n : Node} {gained : PointerSet} {grew : Bool}
    (h : gain L id n gained s = .ok grew t) (hn : (L.graph s.host).nodes[id]? = some n) :
    grew = (n.pointsTo.absorb gained).1 ∧
      L.graph t.host =
        (L.graph s.host).update id (fun n ↦ { n with pointsTo := n.pointsTo ∪ gained }) ∧
      t.solver = s.solver := by
  unfold gain at h
  dsimp only at h
  split at h
  · simp only [bind_eq_ok_iff, pure_eq_ok_iff] at h
    obtain ⟨_, s₁, hgraph, _, s₂, hnote, rfl, rfl⟩ := h
    unfold onGraph at hgraph
    obtain rfl := modify_eq_ok_iff.1 hgraph
    unfold note at hnote
    obtain rfl := modify_eq_ok_iff.1 hnote
    refine ⟨rfl, ?_, rfl⟩
    rw [hL.graph_onJournal, hL.graph_onGraph]
    -- The new set is computed from the node as it was looked up, which is the node of the graph.
    refine Graph.update_congr fun m hm ↦ ?_
    rw [← Option.mem_unique hn hm, PointerSet.absorb_snd]
  · rename_i hsame
    obtain ⟨rfl, rfl⟩ := pure_eq_ok_iff.1 h
    refine ⟨rfl, ?_, rfl⟩
    have hsub : gained ⊆ n.pointsTo := PointerSet.absorb_fst_eq_false.1 (by simpa using hsame)
    refine (Graph.update_eq_self fun m hm ↦ ?_).symm
    rw [hn, Option.some.injEq] at hm
    subst hm
    rw [OrderedSet.union_eq_left hsub]

variable [MemoryModel μ]

/-- The part of a visit after the memory model has entered the node. -/
def act (L : CallLinker σ) (g : Graph) (id : NodeId) (n : Node) : Solve μ σ Bool := do
  let s := (← get).solver
  let effect ← Transfer.effect g s.maxOffset id n s.memory
  setMemory effect.memory
  let grew ← gain L id n effect.gained
  let linked ← if n.kind = .indirectCall then linkTargets L id n else pure false
  let (left, memory) := MemoryModel.leave id (← get).solver.memory
  setMemory memory
  return effect.wrote || grew || linked || left

theorem visit_eq (id : NodeId) : (visit L id : Solve μ σ Bool) = (do
    let g ← graph L
    setMemory (← MemoryModel.enter g id (← get).solver.memory)
    let n ← g.node id
    if ← Transfer.strays g n then warn L (.storeToUnknown id.render)
    act L g id n) := rfl

/-- The calls that a visit links: none unless the node is a call through a function pointer. -/
def Links (L : CallLinker σ) (id : NodeId) (n : Node) (t : Solving μ σ) (linked : Bool) (u : Solving μ σ) :
    Prop :=
  if n.kind = .indirectCall then linkTargets L id n t = .ok linked u else linked = false ∧ u = t

/-- A visit of a node, step by step: the model enters it and memory becomes `m`; its transfer has the
effect `e`; `t` is the state after the node gained its pointers and `u` the state after its calls were
linked; the model leaves the node. -/
structure Visited (L : CallLinker σ) (id : NodeId) (s s' : Solving μ σ) (changed : Bool) (n : Node) (m : μ)
    (e : Effect μ) (t u : Solving μ σ) (linked : Bool) : Prop where
  node : (L.graph s.host).nodes[id]? = some n
  enter : MemoryModel.enter (L.graph s.host) id s.solver.memory = .ok m
  effect : Transfer.effect (L.graph s.host) s.solver.maxOffset id n m = .ok e
  graph_gain : L.graph t.host =
    (L.graph s.host).update id (fun n ↦ { n with pointsTo := n.pointsTo ∪ e.gained })
  memory_gain : t.solver.memory = e.memory
  linked_gain : t.solver.linked = s.solver.linked
  maxOffset_gain : t.solver.maxOffset = s.solver.maxOffset
  links : Links L id n t linked u
  graph_leave : L.graph s'.host = L.graph u.host
  memory_leave : s'.solver.memory = (MemoryModel.leave id u.solver.memory).2
  linked_leave : s'.solver.linked = u.solver.linked
  maxOffset_leave : s'.solver.maxOffset = u.solver.maxOffset
  changed : changed =
    (e.wrote || (n.pointsTo.absorb e.gained).1 || linked || (MemoryModel.leave id u.solver.memory).1)

theorem visited {s' : Solving μ σ} (hL : L.Lawful) {id : NodeId} {changed : Bool}
    (h : visit L id s = .ok changed s') :
    ∃ n m e t u linked, Visited L id s s' changed n m e t u linked := by
  rw [visit_eq] at h
  simp only [bind_eq_ok_iff, lift_eq_ok_iff, get_eq_ok_iff,
    Graph.node_eq_ok_iff] at h
  obtain ⟨g, s₀, hg, _, _, ⟨rfl, rfl⟩, m, _, ⟨hm, rfl⟩, _, s₁, hset, n, _, ⟨hn, rfl⟩, strays, _,
    ⟨-, rfl⟩, h⟩ := h
  obtain ⟨rfl, rfl⟩ := graph_eq hg
  obtain ⟨s₂, halike, hact⟩ : ∃ s₂, Alike L s₁ s₂ ∧ act L (L.graph s.host) id n s₂ = .ok changed s' := by
    split at h
    · rw [bind_eq_ok_iff] at h
      obtain ⟨_, s₂, hwarn, h⟩ := h
      exact ⟨s₂, warn_alike hL hwarn, h⟩
    · exact ⟨s₁, Alike.refl _, h⟩
  unfold act at hact
  simp only [bind_eq_ok_iff, lift_eq_ok_iff, get_eq_ok_iff] at hact
  obtain ⟨_, _, ⟨rfl, rfl⟩, e, _, ⟨he, rfl⟩, _, s₃, hset', grew, t, hgain, h⟩ := hact
  obtain ⟨u, linked, hlinks, h⟩ : ∃ u linked, Links L id n t linked u ∧
      (do
        let (left, memory) := MemoryModel.leave id (← get).solver.memory
        setMemory memory
        return e.wrote || grew || linked || left : Solve μ σ Bool) u = .ok changed s' := by
    unfold Links
    split at h
    · rename_i hkind
      rw [bind_eq_ok_iff] at h
      obtain ⟨linked, u, hlinks, h⟩ := h
      exact ⟨u, linked, by rwa [if_pos hkind], h⟩
    · rename_i hkind
      exact ⟨t, false, by rw [if_neg hkind]; exact ⟨rfl, rfl⟩, h⟩
  simp only [bind_eq_ok_iff, get_eq_ok_iff, pure_eq_ok_iff] at h
  obtain ⟨_, _, ⟨rfl, rfl⟩, _, _, hleave, rfl, rfl⟩ := h
  obtain rfl := setMemory_eq hset
  obtain rfl := setMemory_eq hset'
  obtain rfl := setMemory_eq hleave
  have hnode : (L.graph s₂.host).nodes[id]? = some n := by rwa [halike.graph]
  obtain ⟨rfl, hgraph, hsolver⟩ := gain_eq hL hgain hnode
  exact ⟨n, m, e, t, u, linked,
    { node := hn
      enter := hm
      effect := by simpa only [halike.memory, halike.maxOffset] using he
      graph_gain := by rw [hgraph]; exact congrArg (Graph.update · _ _) halike.graph
      memory_gain := by rw [hsolver]
      linked_gain := by rw [hsolver]; exact halike.linked
      maxOffset_gain := by rw [hsolver]; exact halike.maxOffset
      links := hlinks
      graph_leave := rfl
      memory_leave := rfl
      linked_leave := rfl
      maxOffset_leave := rfl
      changed := rfl }⟩

end Solve

end PointsTo
