import PointsTo.Proofs.Course

/-!
# Solving a graph on its own

Nobody extends a graph on its own, so solving it adds no nodes.  All that happens besides gaining
pointers is that a call of unknown memory makes its return an unknown one, once for each such call.
-/

namespace PointsTo

open Stateful

/-- The calls that return to a node and for which unknown memory was looked at. -/
def Graph.answered (g : Graph) (linked : OrderedSet (NodeId × NodeId)) (ret : NodeId) : Set NodeId :=
  {c | (c, unknownTarget) ∈ linked ∧ ∃ n, g.nodes[c]? = some n ∧ n.paired = some ret}

/-- A call through a function pointer may go to a target. -/
def Graph.MayCall (g : Graph) (c target : NodeId) : Prop :=
  ∃ n callee s p, g.nodes[c]? = some n ∧ n.kind = .indirectCall ∧ n.operand? 0 = some callee ∧
    g.pointsTo callee = .ok s ∧ p ∈ s ∧ p.target = target

/-- The second graph arose from the first by gaining pointers and by linking these calls. -/
structure Graph.Extended (g h : Graph) (linked : OrderedSet (NodeId × NodeId)) : Prop where
  precedes : g.Precedes h
  operands : ∀ {id : NodeId} {n m : Node}, g.nodes[id]? = some n → h.nodes[id]? = some m →
    m.operands = n.operands ++ List.replicate (h.answered linked id).ncard unknownTarget
  mayCall : ∀ {c target : NodeId}, (c, target) ∈ linked → h.MayCall c target

namespace Graph

variable {g h k : Graph} {linked : OrderedSet (NodeId × NodeId)} {id c ret target : NodeId}

theorem finite_answered : (g.answered linked ret).Finite := by
  refine (Set.finite_lt_nat g.size).subset ?_
  rintro c ⟨-, n, hn, -⟩
  exact lt_size_of_node hn

theorem Precedes.answered_eq (hgh : g.Precedes h) : h.answered linked ret = g.answered linked ret := by
  ext c
  constructor
  · rintro ⟨hc, m, hm, hpaired⟩
    obtain ⟨n, hn, hnm⟩ := hgh.earlier hm
    exact ⟨hc, n, hn, hnm.paired.trans hpaired⟩
  · rintro ⟨hc, n, hn, hpaired⟩
    obtain ⟨m, hm, hnm⟩ := hgh.later hn
    exact ⟨hc, m, hm, hnm.paired.symm.trans hpaired⟩

theorem Precedes.mayCall (hgh : g.Precedes h) (hc : g.MayCall c target) : h.MayCall c target := by
  obtain ⟨n, callee, s, p, hn, hkind, hcallee, hs, hp, htarget⟩ := hc
  obtain ⟨m, hm, hnm⟩ := hgh.later hn
  obtain ⟨t, ht, hst⟩ := hgh.pointsTo_later hs
  exact ⟨m, callee, t, p, hm, hnm.kind ▸ hkind, hnm.operand? hcallee, ht, hst p hp, htarget⟩

theorem Extended.fresh (g : Graph) : g.Extended g ∅ where
  precedes := .refl g
  operands hn hm := by
    obtain rfl := Option.mem_unique hn hm
    have hnone (ret : NodeId) : g.answered ∅ ret = ∅ :=
      Set.eq_empty_of_forall_notMem fun c hc ↦ OrderedSet.not_mem_empty hc.1
    rw [hnone, Set.ncard_empty, List.replicate_zero, List.append_nil]
  mayCall h := absurd h OrderedSet.not_mem_empty

theorem Precedes.gain (id : NodeId) (gained : PointerSet) :
    g.Precedes (g.update id fun n ↦ { n with pointsTo := n.pointsTo ∪ gained }) :=
  .update fun n _ ↦ { Node.Precedes.refl n with pointsTo := fun _ hp ↦ OrderedSet.mem_union.2 (.inl hp) }

/-- Gaining pointers changes no operands. -/
theorem Extended.gain (hg : g.Extended h linked) (id : NodeId) (gained : PointerSet) :
    g.Extended (h.update id fun n ↦ { n with pointsTo := n.pointsTo ∪ gained }) linked := by
  have hstep := Precedes.gain (g := h) id gained
  refine ⟨hg.precedes.trans hstep, fun {j n m} hn hm ↦ ?_, fun hc ↦ hstep.mayCall (hg.mayCall hc)⟩
  rw [hstep.answered_eq]
  rw [nodes_update] at hm
  split at hm
  · obtain ⟨l, hl, rfl⟩ := Option.map_eq_some_iff.1 hm
    exact (hg.operands hn hl :)
  · exact hg.operands hn hm

/-- Looking at a target that is not unknown memory, or from a call without a return, adds nothing. -/
theorem answered_insert_of_not (hc : target = unknownTarget → ∀ n, g.nodes[c]? = some n → n.paired ≠ some ret) :
    g.answered (linked.insert (c, target)) ret = g.answered linked ret := by
  ext d
  constructor
  · rintro ⟨hd, n, hn, hpaired⟩
    rcases OrderedSet.mem_insert.1 hd with heq | hd
    · obtain ⟨rfl, rfl⟩ := Prod.mk.inj heq
      exact absurd hpaired (hc rfl n hn)
    · exact ⟨hd, n, hn, hpaired⟩
  · rintro ⟨hd, hn⟩
    exact ⟨OrderedSet.mem_insert.2 (.inr hd), hn⟩

theorem answered_insert_self {n : Node} (hn : g.nodes[c]? = some n) (hpaired : n.paired = some ret) :
    g.answered (linked.insert (c, unknownTarget)) ret = insert c (g.answered linked ret) := by
  ext d
  constructor
  · rintro ⟨hd, hd'⟩
    rcases OrderedSet.mem_insert.1 hd with heq | hd
    · exact .inl (Prod.mk.inj heq).1
    · exact .inr ⟨hd, hd'⟩
  · rintro (rfl | ⟨hd, hd'⟩)
    · exact ⟨OrderedSet.mem_insert.2 (.inl rfl), n, hn, hpaired⟩
    · exact ⟨OrderedSet.mem_insert.2 (.inr hd), hd'⟩

/-- A graph on its own gains at most operands from linking. -/
theorem precedes_of_linking {p : Pointer} {host : LoneGraph} {b : Bool}
    (hlink : Solve.Linking LoneGraph.linker c p host k b) : host.graph.Precedes k := by
  cases hlink with
  | refused hk _ => exact hk ▸ .refl _
  | unknown _ _ _ hk => exact hk ▸ .addOperand
  | joined _ hjoin _ =>
    obtain ⟨h, -⟩ := pure_eq_ok_iff.1 hjoin
    contradiction

/-- Looking at one more target keeps count of the answered calls. -/
theorem Extended.link {p : Pointer} {host : LoneGraph} {b : Bool} (hg : g.Extended host.graph linked)
    (hcall : host.graph.MayCall c p.target) (hnew : ¬(c, p.target) ∈ linked)
    (hlink : Solve.Linking LoneGraph.linker c p host k b) :
    g.Extended k (linked.insert (c, p.target)) := by
  have htarget : p.isUnknown = true ↔ p.target = unknownTarget := by simp [Pointer.isUnknown]
  have hstep := precedes_of_linking hlink
  have hcalls {d t : NodeId} (hd : (d, t) ∈ linked.insert (c, p.target)) : k.MayCall d t := by
    rcases OrderedSet.mem_insert.1 hd with heq | hd
    · obtain ⟨rfl, rfl⟩ := Prod.mk.inj heq
      exact hstep.mayCall hcall
    · exact hstep.mayCall (hg.mayCall hd)
  cases hlink with
  | refused hk hunpaired =>
    obtain rfl : k = host.graph := hk
    refine ⟨hg.precedes, fun {id n m} hn hm ↦ ?_, hcalls⟩
    have hsame : host.graph.answered (linked.insert (c, p.target)) id = host.graph.answered linked id := by
      refine answered_insert_of_not fun ht l hl ↦ ?_
      obtain ⟨l', hl', hnone⟩ := hunpaired (htarget.2 ht)
      rw [Option.mem_unique hl hl', hnone]
      exact Option.some_ne_none id |>.symm
    exact hsame ▸ hg.operands hn hm
  | @unknown l ret hunknown hl hpaired hk =>
    obtain rfl : k = host.graph.addOperand ret unknownTarget := hk
    have hl : host.graph.nodes[c]? = some l := hl
    refine ⟨hg.precedes.trans hstep, fun {id n m} hn hm ↦ ?_, hcalls⟩
    obtain ⟨m', hm', -, hops⟩ := nodes_addOperand hm
    rw [hops, hg.operands hn hm', hstep.answered_eq, htarget.1 hunknown]
    split
    · rename_i hid
      subst hid
      rw [answered_insert_self hl hpaired, Set.ncard_insert_of_notMem ?_ finite_answered,
        List.replicate_succ', List.append_assoc]
      rintro ⟨hc, -⟩
      exact hnew (htarget.1 hunknown ▸ hc)
    · rename_i hid
      rw [answered_insert_of_not, List.append_nil]
      rintro - l' hl' hpaired'
      rw [Option.mem_unique hl' hl, hpaired, Option.some.injEq] at hpaired'
      exact hid hpaired'.symm
  | joined _ hjoin _ =>
    obtain ⟨h, -⟩ := pure_eq_ok_iff.1 hjoin
    contradiction

/-- No pointers come from linking. -/
theorem covers_of_linking {F : Facts} {p : Pointer} {host : LoneGraph} {b : Bool}
    (hlink : Solve.Linking LoneGraph.linker c p host k b) (hF : F.Covers host.graph) : F.Covers k := by
  cases hlink with
  | refused hk _ => exact hk ▸ hF
  | unknown _ _ _ hk =>
    intro id m hm
    obtain ⟨n, hn, hpts, -⟩ := nodes_addOperand (hk ▸ hm)
    exact hpts ▸ hF hn
  | joined _ hjoin _ =>
    obtain ⟨h, -⟩ := pure_eq_ok_iff.1 hjoin
    contradiction

/-- If all calls that were looked at are possible in a graph that embeds into the one with all
answers, then the graph with these answers embeds too. -/
theorem Extended.embeds {F : Facts} {l : Graph} (hg : g.Extended k linked) (hhk : h.Precedes k)
    (hcalls : ∀ {c target}, (c, target) ∈ linked → h.MayCall c target) (hF : F.Covers h)
    (hl : F.Answers g l) (hhl : h.Embeds l) : k.Embeds l := by
  have hsub (ret : NodeId) : k.answered linked ret ⊆ F.unknownCalls l ret := by
    rw [hhk.answered_eq]
    rintro c ⟨hc, n, hn, hpaired⟩
    obtain ⟨n', callee, s, p, hn', hkind, hcallee, hs, hp, htarget⟩ := hcalls hc
    obtain rfl := Option.mem_unique hn hn'
    obtain ⟨m, hm, hnm⟩ := hhl.later hn
    exact ⟨m, callee, p, hm, hnm.kind ▸ hkind, hnm.paired ▸ hpaired, hnm.operand? hcallee,
      hF.pointsTo hs p hp, by simp [Pointer.isUnknown, htarget]⟩
  refine ⟨hhk.size.symm.trans hhl.size, fun {id n m} hn hm ↦ ?_⟩
  obtain ⟨n₀, hn₀, -⟩ := hg.precedes.earlier hn
  obtain ⟨n₁, hn₁, hprec⟩ := hhk.earlier hn
  have hembeds := hhl.node hn₁ hm
  refine ⟨?_, hprec.kind ▸ hembeds.kind, hprec.successors ▸ hembeds.successors,
    hprec.predecessors ▸ hembeds.predecessors, hprec.paired ▸ hembeds.paired, hprec.offset ▸ hembeds.offset,
    hprec.length ▸ hembeds.length, hprec.size ▸ hembeds.size, hprec.heap ▸ hembeds.heap,
    hprec.zeroed ▸ hembeds.zeroed⟩
  rw [hg.operands hn₀ hn, hl.operands hn₀ hm]
  have hcard := Set.ncard_le_ncard (hsub id) (Facts.finite_unknownCalls id)
  refine ⟨List.replicate ((F.unknownCalls l id).ncard - (k.answered linked id).ncard) unknownTarget, ?_⟩
  rw [List.append_assoc, List.replicate_append_replicate, Nat.add_sub_cancel' hcard]

theorem Extended.link_embeds {F : Facts} {l : Graph} {p : Pointer} {host : LoneGraph} {b : Bool}
    (hg : g.Extended host.graph linked) (hcall : host.graph.MayCall c p.target)
    (hnew : ¬(c, p.target) ∈ linked) (hlink : Solve.Linking LoneGraph.linker c p host k b)
    (hF : F.Covers host.graph) (hl : F.Answers g l) (hhl : host.graph.Embeds l) : k.Embeds l := by
  refine (hg.link hcall hnew hlink).embeds (precedes_of_linking hlink) (fun {d t} hd ↦ ?_) hF hl hhl
  rcases OrderedSet.mem_insert.1 hd with heq | hd
  · obtain ⟨rfl, rfl⟩ := Prod.mk.inj heq
    exact hcall
  · exact hg.mayCall hd

end Graph

namespace Solve

variable {μ : Type} {g : Graph} {s s' t u : Solving μ LoneGraph} {callSite : NodeId} {n : Node} {b : Bool}

/-- The state of a run on a graph of its own. -/
def Extends (g : Graph) (s : Solving μ LoneGraph) : Prop := g.Extended s.host.graph s.solver.linked

theorem Alike.extends (h : Alike LoneGraph.linker s t) (hs : Extends g s) : Extends g t := by
  have hgraph : t.host.graph = s.host.graph := h.graph
  rw [Extends, hgraph, h.linked]
  exact hs

/-- The targets of a call are looked at one after the other, while the graph grows. -/
theorem Links.preserves {P : Graph → OrderedSet (NodeId × NodeId) → Prop}
    (hstep : ∀ {host : LoneGraph} {linked : OrderedSet (NodeId × NodeId)} {p : Pointer} {k : Graph} {b : Bool},
      P host.graph linked → host.graph.MayCall callSite p.target → ¬(callSite, p.target) ∈ linked →
      Linking LoneGraph.linker callSite p host k b → P k (linked.insert (callSite, p.target)))
    (h : Links LoneGraph.linker callSite n t b u)
    (hn : ∃ m, t.host.graph.nodes[callSite]? = some m ∧ n.Embeds m)
    (ht : P t.host.graph t.solver.linked) :
    P u.host.graph u.solver.linked ∧ t.host.graph.Precedes u.host.graph := by
  unfold Links at h
  split at h
  · rename_i hkind
    unfold linkTargets at h
    cases hcallee : n.operand? 0 with
    | none =>
      simp only [hcallee, pure_eq_ok_iff] at h
      obtain ⟨-, rfl⟩ := h
      exact ⟨ht, .refl _⟩
    | some callee =>
      simp only [hcallee, bind_eq_ok_iff, lift_eq_ok_iff] at h
      obtain ⟨_, _, hg, targets, _, ⟨htargets, rfl⟩, h⟩ := h
      obtain ⟨rfl, rfl⟩ := graph_eq hg
      obtain ⟨m, hm, hnm⟩ := hn
      refine foldlM_preserves
        (P := fun _ v ↦ P v.host.graph v.solver.linked ∧ t.host.graph.Precedes v.host.graph) ?_ h
        ⟨ht, .refl _⟩
      intro p hp c v d w ⟨hv, hgrown⟩ hd
      simp only [bind_eq_ok_iff, pure_eq_ok_iff] at hd
      obtain ⟨_, _, hlink, -, rfl⟩ := hd
      rcases linkTarget_cases LoneGraph.linker_lawful hlink with ⟨-, -, rfl⟩ | ⟨hnew, hlinking, hlinked, -⟩
      · exact ⟨hv, hgrown⟩
      · have hcall : t.host.graph.MayCall callSite p.target :=
          ⟨m, callee, targets, p, hm, hnm.kind ▸ hkind, hnm.operand? hcallee, htargets, hp, rfl⟩
        refine ⟨?_, hgrown.trans (Graph.precedes_of_linking hlinking)⟩
        rw [hlinked]
        exact hstep hv (hgrown.mayCall hcall) (fun hc ↦ hnew (.inr hc)) hlinking
  · obtain ⟨rfl, rfl⟩ := h
    exact ⟨ht, .refl _⟩

variable [MemoryModel μ] {id : NodeId} {changed : Bool}

/-- What holds after a node gained its pointers and is kept by looking at its targets holds after a
visit. -/
theorem Visited.preserves {P : Graph → OrderedSet (NodeId × NodeId) → Prop} {m : μ} {e : Effect μ}
    {linked : Bool} (hv : Visited LoneGraph.linker id s s' changed n m e t u linked)
    (hgain : P (s.host.graph.update id fun n ↦ { n with pointsTo := n.pointsTo ∪ e.gained }) s.solver.linked)
    (hstep : ∀ {host : LoneGraph} {linked : OrderedSet (NodeId × NodeId)} {p : Pointer} {k : Graph} {b : Bool},
      P host.graph linked → host.graph.MayCall id p.target → ¬(id, p.target) ∈ linked →
      Linking LoneGraph.linker id p host k b → P k (linked.insert (id, p.target))) :
    P s'.host.graph s'.solver.linked ∧ s.host.graph.Precedes s'.host.graph := by
  have hgraph : t.host.graph = s.host.graph.update id fun n ↦ { n with pointsTo := n.pointsTo ∪ e.gained } :=
    hv.graph_gain
  have hleave : s'.host.graph = u.host.graph := hv.graph_leave
  have hprecedes : s.host.graph.Precedes t.host.graph := hgraph ▸ .gain id e.gained
  obtain ⟨l, hl, hnl⟩ := hprecedes.later hv.node
  rw [← hgraph, ← hv.linked_gain] at hgain
  obtain ⟨hu, hgrown⟩ := hv.links.preserves hstep ⟨l, hl, hnl.toEmbeds⟩ hgain
  rw [hleave, hv.linked_leave]
  exact ⟨hu, hprecedes.trans hgrown⟩

theorem visit_precedes (h : visit LoneGraph.linker id s = .ok changed s') :
    s.host.graph.Precedes s'.host.graph := by
  obtain ⟨n, m, e, t, u, linked, hv⟩ := visited LoneGraph.linker_lawful h
  exact (hv.preserves (P := fun _ _ ↦ True) trivial fun _ _ _ _ ↦ trivial).2

theorem visit_extends (h : visit LoneGraph.linker id s = .ok changed s') (hs : Extends g s) : Extends g s' := by
  obtain ⟨n, m, e, t, u, linked, hv⟩ := visited LoneGraph.linker_lawful h
  exact (hv.preserves (P := g.Extended) (hs.gain id _) fun hP hcall hnew hlink ↦ hP.link hcall hnew hlink).1

theorem Leads.extends {maxOffset : Nat} {journal : Journal} {y : Round × Solving μ LoneGraph}
    (h : Leads LoneGraph.linker (outset LoneGraph.linker (lone μ g maxOffset journal)) y) :
    Extends g y.2 ∧ y.2.solver.maxOffset = maxOffset := by
  refine h.preserves LoneGraph.linker_lawful (P := fun s ↦ Extends g s ∧ s.solver.maxOffset = maxOffset)
    (fun halike hs ↦ ⟨halike.extends hs.1, halike.maxOffset.trans hs.2⟩) (fun hvisit hs ↦ ?_)
    ⟨Graph.Extended.fresh g, rfl⟩
  obtain ⟨n, m, e, t, u, linked, hv⟩ := visited LoneGraph.linker_lawful hvisit
  exact ⟨visit_extends hvisit hs.1, (hv.maxOffset LoneGraph.linker_lawful).trans hs.2⟩

/-- All that a run on a graph of its own has found lies within the facts. -/
structure Bounded [Confined μ] (F : Facts) (g h : Graph) (maxOffset : Nat) (s : Solving μ LoneGraph) : Prop where
  extends_ : Extends g s
  embeds : s.host.graph.Embeds h
  covers : F.Covers s.host.graph
  memory : Confined.Within s.solver.memory F.mem
  maxOffset : s.solver.maxOffset = maxOffset

variable [Confined μ] {F : Facts} {h : Graph} {maxOffset : Nat}

theorem Bounded.visit (hanswers : F.Answers g h) (hsolves : F.Solves h maxOffset) (hs : Bounded F g h maxOffset s)
    (hvisit : visit LoneGraph.linker id s = .ok changed s') : Bounded F g h maxOffset s' := by
  obtain ⟨n, m, e, t, u, linked, hv⟩ := visited LoneGraph.linker_lawful hvisit
  obtain ⟨hgained, hmemory⟩ := Transfer.effect_within (hsolves.of_embeds hs.embeds) hs.covers hv.node
    (Confined.enter hs.memory hv.enter) (hs.maxOffset ▸ hv.effect)
  have hcovers : F.Covers (s.host.graph.update id fun n ↦ { n with pointsTo := n.pointsTo ∪ e.gained }) := by
    intro j l hl p hp
    rw [Graph.nodes_update] at hl
    split at hl
    · rename_i hj
      obtain ⟨l', hl', rfl⟩ := Option.map_eq_some_iff.1 hl
      rcases OrderedSet.mem_union.1 hp with hold | hnew
      · exact hs.covers hl' p hold
      · exact hj ▸ hgained p hnew
    · exact hs.covers hl p hp
  have hextended := hs.extends_.gain id e.gained
  have hembeds := hextended.embeds (.gain id e.gained) hs.extends_.mayCall hs.covers hanswers hs.embeds
  obtain ⟨⟨hu, hcovers', hembeds'⟩, -⟩ := hv.preserves
    (P := fun k linked ↦ g.Extended k linked ∧ F.Covers k ∧ k.Embeds h) ⟨hextended, hcovers, hembeds⟩
    fun ⟨hext, hcov, hemb⟩ hcall hnew hlink ↦ ⟨hext.link hcall hnew hlink, Graph.covers_of_linking hlink hcov,
      hext.link_embeds hcall hnew hlink hcov hanswers hemb⟩
  refine ⟨hu, hembeds', hcovers', ?_, (hv.maxOffset LoneGraph.linker_lawful).trans hs.maxOffset⟩
  rw [hv.memory_leave, (hv.links.frame LoneGraph.linker_lawful).1, hv.memory_gain]
  exact Confined.leave hmemory

theorem Alike.bounded (hst : Alike LoneGraph.linker s t) (hs : Bounded F g h maxOffset s) :
    Bounded F g h maxOffset t := by
  have hgraph : t.host.graph = s.host.graph := hst.graph
  exact ⟨hst.extends hs.extends_, hgraph ▸ hs.embeds, hgraph ▸ hs.covers, hst.memory ▸ hs.memory,
    hst.maxOffset.trans hs.maxOffset⟩

/-- A run from a fresh solver stays within every solution of its graph. -/
theorem Leads.bounded (hcovers : F.Covers g) (hanswers : F.Answers g h) (hsolves : F.Solves h maxOffset)
    {journal : Journal} {y : Round × Solving μ LoneGraph}
    (hy : Leads LoneGraph.linker (outset LoneGraph.linker (lone μ g maxOffset journal)) y) :
    Bounded F g h maxOffset y.2 :=
  hy.preserves LoneGraph.linker_lawful Alike.bounded (fun hvisit hs ↦ hs.visit hanswers hsolves hvisit)
    ⟨Graph.Extended.fresh g, hanswers.embeds, hcovers, Confined.fresh F.mem, rfl⟩

end Solve

end PointsTo
