import PointsTo.Proofs.UnknownCalls

/-!
# Solving well-formed graphs

In a well-formed graph every id names a node.  Solving keeps it so, and processing a node fails only
at an id that names none.  A run on such a graph comes to a round that changes nothing, or goes on
forever.
-/

namespace PointsTo

open Stateful

/-- All that a node refers to is among this many nodes. -/
structure Node.InRange (size : Nat) (n : Node) : Prop where
  operands : ∀ j ∈ n.operands, j < size
  successors : ∀ j ∈ n.successors, j < size
  users : ∀ j ∈ n.users, j < size
  paired : ∀ j ∈ n.paired, j < size
  pointsTo : ∀ p ∈ n.pointsTo.toList, p.target < size

/-- The sentinels are there, and every id and every target names a node. -/
structure Graph.WellFormed (g : Graph) : Prop where
  sentinels : unknownTarget < g.size
  nodes : ∀ n ∈ g.nodes, n.InRange g.size

instance (size : Nat) (n : Node) : Decidable (n.InRange size) :=
  decidable_of_iff ((∀ j ∈ n.operands, j < size) ∧ (∀ j ∈ n.successors, j < size) ∧ (∀ j ∈ n.users, j < size) ∧
      (∀ j ∈ n.paired, j < size) ∧ ∀ p ∈ n.pointsTo.toList, p.target < size)
    ⟨fun ⟨h₁, h₂, h₃, h₄, h₅⟩ ↦ ⟨h₁, h₂, h₃, h₄, h₅⟩, fun h ↦ ⟨h.1, h.2, h.3, h.4, h.5⟩⟩

instance (g : Graph) : Decidable g.WellFormed :=
  decidable_of_iff (unknownTarget < g.size ∧ ∀ n ∈ g.nodes, n.InRange g.size)
    ⟨fun h ↦ ⟨h.1, h.2⟩, fun h ↦ ⟨h.1, h.2⟩⟩

namespace Graph.WellFormed

variable {g : Graph} {id : NodeId} {n : Node}

theorem node (hg : g.WellFormed) (hn : g.nodes[id]? = some n) : n.InRange g.size :=
  hg.nodes n (List.mem_of_getElem? hn)

/-- Changing one node. -/
theorem update (hg : g.WellFormed) {f : Node → Node}
    (hf : ∀ n, g.nodes[id]? = some n → n.InRange g.size → (f n).InRange g.size) : (g.update id f).WellFormed := by
  refine ⟨size_update.symm ▸ hg.sentinels, fun m hm ↦ ?_⟩
  obtain ⟨j, hj⟩ := List.getElem?_of_mem hm
  rw [size_update]
  rw [nodes_update] at hj
  split at hj
  · rename_i hid
    obtain ⟨n, hn, rfl⟩ := Option.map_eq_some_iff.1 hj
    exact hf n (hid ▸ hn) (hg.node hn)
  · exact hg.node hj

theorem gain (hg : g.WellFormed) {gained : PointerSet} (hgained : ∀ p ∈ gained, p.target < g.size) :
    (g.update id fun n ↦ { n with pointsTo := n.pointsTo ∪ gained }).WellFormed := by
  refine hg.update fun n _ hn ↦ { hn with pointsTo := fun p hp ↦ ?_ }
  rcases OrderedSet.mem_union.1 hp with hold | hnew
  · exact hn.pointsTo p hold
  · exact hgained p hnew

theorem addOperand (hg : g.WellFormed) {op : NodeId} (hid : id < g.size) (hop : op < g.size) :
    (g.addOperand id op).WellFormed := by
  have hfirst : (g.update id fun n ↦ { n with operands := n.operands ++ [op] }).WellFormed := by
    refine hg.update fun n _ hn ↦ { hn with operands := fun j hj ↦ ?_ }
    rcases List.mem_append.1 hj with hj | hj
    · exact hn.operands j hj
    · exact List.mem_singleton.1 hj ▸ hop
  refine hfirst.update fun n _ hn ↦ ?_
  split
  · exact hn
  · refine { hn with users := fun j hj ↦ ?_ }
    rcases List.mem_append.1 hj with hj | hj
    · exact hn.users j hj
    · rw [size_update]
      exact List.mem_singleton.1 hj ▸ hid

theorem exists_pointsTo (hid : id < g.size) : ∃ s, g.pointsTo id = .ok s := by
  obtain ⟨n, hn⟩ := exists_node hid
  exact ⟨n.pointsTo, pointsTo_eq_ok_iff.2 ⟨n, hn, rfl⟩⟩

theorem target_lt (hg : g.WellFormed) {s : PointerSet} (hs : g.pointsTo id = .ok s) :
    ∀ p ∈ s, p.target < g.size := by
  obtain ⟨n, hn, rfl⟩ := pointsTo_eq_ok_iff.1 hs
  exact (hg.node hn).pointsTo

theorem operand_lt (hg : g.WellFormed) (hn : g.nodes[id]? = some n) {i : Nat} {op : NodeId}
    (hop : n.operand? i = some op) : op < g.size :=
  (hg.node hn).operands op (List.mem_of_getElem? hop)

theorem exists_node_ok (hid : id < g.size) : ∃ n, g.node id = .ok n := by
  obtain ⟨n, hn⟩ := exists_node hid
  exact ⟨n, node_eq_ok_iff.2 hn⟩

end Graph.WellFormed

/-- Anything among the targets of a graph of this size. -/
def Facts.inRange (size : Nat) : Facts where
  pts _ := {p | p.target < size}
  mem _ _ := {p | p.target < size}

theorem Facts.inRange_solves {g : Graph} {maxOffset size : Nat} (hsize : unknownTarget < size) :
    (inRange size).Solves g maxOffset := by
  have hnull : Pointer.null.target < size := lt_trans (by decide) hsize
  intro id n _
  refine ⟨fun _ _ _ _ hp ↦ hp, fun _ _ p hp ↦ ?_, fun _ _ _ _ _ ↦ hsize, fun _ _ p _ _ ↦ ?_,
    fun _ _ _ _ _ _ _ hp ↦ hp, fun _ _ _ _ _ _ _ _ _ ↦ hsize, fun _ _ _ p _ _ q _ _ place ↦ ?_⟩
  · unfold Graph.shifted
    split
    · exact hp
    · exact hp
  · rintro q (hq | hq | ⟨-, place, hq⟩ | ⟨-, rfl⟩)
    exacts [hq, hq, hq, hnull]
  · rintro v (⟨_, _, hv⟩ | ⟨-, -, rfl⟩)
    exacts [hv, hnull]

theorem Graph.WellFormed.covers {g : Graph} (hg : g.WellFormed) : (Facts.inRange g.size).Covers g :=
  fun _ _ hn ↦ (hg.node hn).pointsTo

/-- A memory model that fails only at ids that name no node. -/
class Total (μ : Type) [MemoryModel μ] : Prop where
  enter {g : Graph} {id : NodeId} (m : μ) : id < g.size → ∃ m', MemoryModel.enter g id m = .ok m'
  load {g : Graph} {p : Pointer} (id : NodeId) (m : μ) :
    p.target < g.size → ∃ read, MemoryModel.load g id p m = .ok read
  copy {g : Graph} {src : Pointer} (id : NodeId) (dest : Pointer) (length : Offset) (m : μ) :
    src.target < g.size → ∃ x, MemoryModel.copy g id src dest length m = .ok x

instance : Total SharedMemory where
  enter m _ := ⟨m, rfl⟩
  load _ m hp := by
    obtain ⟨n, hn⟩ := Graph.WellFormed.exists_node_ok hp
    exact Query.ok_bind hn ⟨_, rfl⟩
  copy _ dest length m hsrc := by
    obtain ⟨n, hn⟩ := Graph.WellFormed.exists_node_ok hsrc
    exact Query.ok_bind hn ⟨_, rfl⟩

instance : Total NodeMemory where
  enter m hid := by
    obtain ⟨n, hn⟩ := Graph.WellFormed.exists_node_ok hid
    exact Query.ok_bind hn ⟨_, rfl⟩
  load _ m hp := by
    obtain ⟨n, hn⟩ := Graph.WellFormed.exists_node_ok hp
    exact Query.ok_bind hn ⟨_, rfl⟩
  copy {g src} id dest length m hsrc := by
    obtain ⟨n, hn⟩ := Graph.WellFormed.exists_node_ok hsrc
    have hcopy : ∃ m', NodeMemory.copy g id src dest length m = .ok m' := by
      unfold NodeMemory.copy
      split
      · exact ⟨m, rfl⟩
      · exact Query.ok_bind hn ⟨_, rfl⟩
    obtain ⟨m', hm'⟩ := hcopy
    exact Query.ok_bind hm' ⟨_, rfl⟩

namespace Transfer

variable {μ : Type} [MemoryModel μ] [Total μ] {g : Graph} {id : NodeId} {n : Node}

theorem collect_total (hg : g.WellFormed) (hn : g.nodes[id]? = some n) : ∃ out, collect g n = .ok out := by
  refine Query.foldlM_total fun op hop c ↦ ?_
  obtain ⟨s, hs⟩ := Graph.WellFormed.exists_pointsTo ((hg.node hn).operands op hop)
  exact Query.ok_bind hs ⟨_, rfl⟩

theorem shiftBounded_total {maxOffset : Nat} {p : Pointer} {amount : Offset} (hp : p.target < g.size) :
    ∃ q, shiftBounded g maxOffset p amount = .ok q := by
  obtain ⟨t, ht⟩ := Graph.WellFormed.exists_node_ok hp
  unfold shiftBounded
  split
  · exact ⟨p, rfl⟩
  · split
    · exact ⟨_, rfl⟩
    · exact Query.ok_bind ht ⟨_, rfl⟩

theorem gep_total (maxOffset : Nat) (hg : g.WellFormed) (hn : g.nodes[id]? = some n) :
    ∃ out, gep g maxOffset n = .ok out := by
  unfold gep
  split
  · exact ⟨∅, rfl⟩
  · rename_i base hbase
    obtain ⟨s, hs⟩ := Graph.WellFormed.exists_pointsTo (hg.operand_lt hn hbase)
    obtain ⟨l, hl⟩ := Query.mapM_total (l := s.toList) (f := (shiftBounded g maxOffset · n.offset))
      fun p hp ↦ shiftBounded_total (hg.target_lt hs p hp)
    exact Query.ok_bind hs (Query.ok_bind hl ⟨_, rfl⟩)

theorem load_total (hg : g.WellFormed) (hn : g.nodes[id]? = some n) (m : μ) :
    ∃ out, load g id n m = .ok out := by
  unfold load
  split
  · exact ⟨∅, rfl⟩
  · rename_i pointer hpointer
    obtain ⟨s, hs⟩ := Graph.WellFormed.exists_pointsTo (hg.operand_lt hn hpointer)
    refine Query.ok_bind hs (Query.foldlM_total fun p hp c ↦ ?_)
    obtain ⟨read, hread⟩ := Total.load id m (hg.target_lt hs p hp)
    split
    · exact ⟨c, rfl⟩
    · split
      · exact ⟨_, rfl⟩
      · exact Query.ok_bind hread ⟨_, rfl⟩

theorem isStrong_total (single : Bool) {p : Pointer} (hp : p.target < g.size) :
    ∃ strong, isStrong g single p = .ok strong := by
  obtain ⟨t, ht⟩ := Graph.WellFormed.exists_node_ok hp
  unfold isStrong
  split
  · exact Query.ok_bind ht ⟨_, rfl⟩
  · exact ⟨false, rfl⟩

omit [Total μ] in
theorem store_total (hg : g.WellFormed) (hn : g.nodes[id]? = some n) (m : μ) :
    ∃ x, store g id n m = .ok x := by
  unfold store
  split
  · rename_i value pointer hvalue hpointer
    obtain ⟨values, hvalues⟩ := Graph.WellFormed.exists_pointsTo (hg.operand_lt hn hvalue)
    obtain ⟨targets, htargets⟩ := Graph.WellFormed.exists_pointsTo (hg.operand_lt hn hpointer)
    refine Query.ok_bind hvalues (Query.ok_bind htargets (Query.foldlM_total fun p hp c ↦ ?_))
    obtain ⟨strong, hstrong⟩ := isStrong_total (targets.size == 1) (hg.target_lt htargets p hp)
    dsimp only
    split
    · exact ⟨c, rfl⟩
    · exact Query.ok_bind hstrong ⟨_, rfl⟩
  · exact ⟨_, rfl⟩

theorem copyOne_total {src : Pointer} (hsrc : src.target < g.size) (id : NodeId) (n : Node) (dest : Pointer)
    (m : μ) : ∃ x, copyOne g id n src dest m = .ok x := by
  unfold copyOne
  split
  · exact ⟨_, rfl⟩
  · split
    · exact ⟨_, rfl⟩
    · exact Total.copy id dest n.length m hsrc

theorem memcpy_total (hg : g.WellFormed) (hn : g.nodes[id]? = some n) (m : μ) :
    ∃ x, memcpy g id n m = .ok x := by
  unfold memcpy
  split
  · rename_i src dest hsrc hdest
    obtain ⟨sources, hsources⟩ := Graph.WellFormed.exists_pointsTo (hg.operand_lt hn hsrc)
    obtain ⟨dests, hdests⟩ := Graph.WellFormed.exists_pointsTo (hg.operand_lt hn hdest)
    refine Query.ok_bind hsources (Query.ok_bind hdests (Query.foldlM_total fun p hp c ↦ ?_))
    dsimp only
    split
    · exact ⟨c, rfl⟩
    · refine Query.foldlM_total fun q _ d ↦ ?_
      obtain ⟨y, hy⟩ := copyOne_total (hg.target_lt hsources p hp) id n q d.2
      split
      · exact ⟨d, rfl⟩
      · exact Query.ok_bind hy ⟨_, rfl⟩
  · exact ⟨_, rfl⟩

/-- In a well-formed graph every node can be processed. -/
theorem effect_total {maxOffset : Nat} (hg : g.WellFormed) (hn : g.nodes[id]? = some n) (m : μ) :
    ∃ e, effect g maxOffset id n m = .ok e := by
  obtain ⟨collected, hcollect⟩ := collect_total hg hn
  obtain ⟨shifted, hgep⟩ := gep_total maxOffset hg hn
  obtain ⟨loaded, hload⟩ := load_total hg hn m
  obtain ⟨stored, hstore⟩ := store_total hg hn m
  obtain ⟨copied, hmemcpy⟩ := memcpy_total hg hn m
  unfold effect
  split
  iterate 4 exact Query.ok_bind hcollect ⟨_, rfl⟩
  · exact Query.ok_bind hgep ⟨_, rfl⟩
  · exact Query.ok_bind hload ⟨_, rfl⟩
  · exact Query.ok_bind hstore ⟨_, rfl⟩
  · exact Query.ok_bind hmemcpy ⟨_, rfl⟩
  · exact ⟨_, rfl⟩

theorem strays_total (hg : g.WellFormed) (hn : g.nodes[id]? = some n) : ∃ b, strays g n = .ok b := by
  unfold strays
  split
  · rename_i value pointer _ hvalue hpointer
    obtain ⟨values, hvalues⟩ := Graph.WellFormed.exists_pointsTo (hg.operand_lt hn hvalue)
    obtain ⟨targets, htargets⟩ := Graph.WellFormed.exists_pointsTo (hg.operand_lt hn hpointer)
    exact Query.ok_bind htargets (Query.ok_bind hvalues ⟨_, rfl⟩)
  · rename_i src dest _ hsrc hdest
    obtain ⟨sources, hsources⟩ := Graph.WellFormed.exists_pointsTo (hg.operand_lt hn hsrc)
    obtain ⟨dests, hdests⟩ := Graph.WellFormed.exists_pointsTo (hg.operand_lt hn hdest)
    exact Query.ok_bind hdests (Query.ok_bind hsources ⟨_, rfl⟩)
  · exact ⟨false, rfl⟩

end Transfer

namespace Solve

variable {μ : Type} {s s' : Solving μ LoneGraph} {id : NodeId} {n : Node}

theorem linkTarget_total {p : Pointer} (hid : id < s.host.graph.size) (hp : p.target < s.host.graph.size) :
    Yields (linkTarget LoneGraph.linker id p) s fun _ t ↦ t.host.graph.size = s.host.graph.size := by
  obtain ⟨n, hn⟩ := Graph.WellFormed.exists_node_ok hid
  obtain ⟨t, ht⟩ := Graph.WellFormed.exists_node_ok hp
  unfold linkTarget
  refine .bind (Q := fun _ u ↦ s = u) ⟨_, _, rfl, rfl⟩ ?_
  rintro _ _ rfl
  split
  · exact .pure rfl
  · refine .bind (Q := fun _ u ↦ u.host = s.host) ⟨_, _, rfl, rfl⟩ fun _ u hu ↦ ?_
    split
    · refine .bind (Q := fun g v ↦ g = s.host.graph ∧ v.host = s.host) ⟨_, u, rfl, by rw [hu]; rfl, hu⟩ ?_
      rintro _ v ⟨rfl, hv⟩
      refine (Yields.lift ⟨n, hn⟩).bind ?_
      rintro m _ ⟨-, rfl⟩
      split
      · exact .pure (by rw [hv])
      · refine ⟨true, _, rfl, ?_⟩
        change (Graph.addOperand v.host.graph _ _).size = _
        rw [hv, Graph.addOperand, Graph.size_update, Graph.size_update]
    · refine .bind (Q := fun g v ↦ g = s.host.graph ∧ v.host = s.host) ⟨_, u, rfl, by rw [hu]; rfl, hu⟩ ?_
      rintro _ v ⟨rfl, hv⟩
      refine (Yields.lift ⟨t, ht⟩).bind ?_
      rintro m _ ⟨-, rfl⟩
      split
      · exact .pure (by rw [hv])
      · exact ⟨false, v, rfl, congrArg (·.graph.size) hv⟩

theorem linkTargets_total (hg : s.host.graph.WellFormed) (hid : id < s.host.graph.size)
    (hn : n.InRange s.host.graph.size) :
    Yields (linkTargets LoneGraph.linker id n) s fun _ t ↦ t.host.graph.size = s.host.graph.size := by
  unfold linkTargets
  split
  · exact .pure rfl
  · rename_i callee hcallee
    have htargets := Graph.WellFormed.exists_pointsTo (hn.operands callee (List.mem_of_getElem? hcallee))
    refine .bind (Q := fun g t ↦ s.host.graph = g ∧ s = t) ⟨_, _, rfl, rfl, rfl⟩ ?_
    rintro _ _ ⟨rfl, rfl⟩
    refine (Yields.lift htargets).bind ?_
    rintro targets _ ⟨htargets, rfl⟩
    refine .foldlM (fun t : Solving μ LoneGraph ↦ t.host.graph.size = s.host.graph.size) (fun p hp c t ht ↦ ?_) rfl
    refine (linkTarget_total (ht ▸ hid) (ht ▸ hg.target_lt htargets p hp)).bind ?_
    exact fun _ u hu ↦ .pure (hu.trans ht)

theorem gain_total (gained : PointerSet) :
    Yields (gain LoneGraph.linker id n gained) s fun grew t ↦
      gain LoneGraph.linker id n gained s = .ok grew t := by
  unfold gain
  dsimp only
  split
  · exact ⟨_, _, rfl, rfl⟩
  · exact ⟨_, _, rfl, rfl⟩

variable [MemoryModel μ] [Confined μ]

/-- The graph is well-formed, and memory holds only pointers to its nodes. -/
structure Sound (s : Solving μ LoneGraph) : Prop where
  graph : s.host.graph.WellFormed
  memory : Confined.Within s.solver.memory (Facts.inRange s.host.graph.size).mem

theorem Alike.sound {t : Solving μ LoneGraph} (hst : Alike LoneGraph.linker s t) (hs : Sound s) : Sound t := by
  have hgraph : t.host.graph = s.host.graph := hst.graph
  exact ⟨hgraph ▸ hs.graph, hst.memory ▸ hgraph ▸ hs.memory⟩

theorem Sound.effect (hs : Sound s) (hn : s.host.graph.nodes[id]? = some n) {m : μ} {e : Effect μ}
    (henter : MemoryModel.enter s.host.graph id s.solver.memory = .ok m)
    (he : Transfer.effect s.host.graph s.solver.maxOffset id n m = .ok e) :
    (∀ p ∈ e.gained, p.target < s.host.graph.size) ∧
      Confined.Within e.memory (Facts.inRange s.host.graph.size).mem :=
  Transfer.effect_within (Facts.inRange_solves hs.graph.sentinels) hs.graph.covers hn
    (Confined.enter hs.memory henter) he

theorem Sound.visit {changed : Bool} (hs : Sound s) (h : visit LoneGraph.linker id s = .ok changed s') :
    Sound s' ∧ s'.host.graph.size = s.host.graph.size := by
  obtain ⟨n, m, e, t, u, linked, hv⟩ := visited LoneGraph.linker_lawful h
  obtain ⟨hgained, hmemory⟩ := hs.effect hv.node hv.enter hv.effect
  have hpreserves := hv.preserves (P := fun k _ ↦ k.WellFormed) (hs.graph.gain hgained)
    fun {host _ p k _} hk _ _ hlink ↦ ?_
  · obtain ⟨hgraph, hprecedes⟩ := hpreserves
    refine ⟨⟨hgraph, ?_⟩, hprecedes.size.symm⟩
    rw [← hprecedes.size, hv.memory_leave, (hv.links.frame LoneGraph.linker_lawful).1, hv.memory_gain]
    exact Confined.leave hmemory
  · cases hlink with
    | refused hg _ => exact hg ▸ hk
    | @unknown l ret _ hl hpaired hg =>
      have hret : ret < host.graph.size := (hk.node hl).paired ret hpaired
      exact hg ▸ hk.addOperand hret hk.sentinels
    | joined _ hjoin _ =>
      obtain ⟨hfalse, -⟩ := pure_eq_ok_iff.1 hjoin
      contradiction

variable [Total μ]

theorem Sound.act_total (hs : Sound s) {t : Solving μ LoneGraph} (hn : s.host.graph.nodes[id]? = some n)
    (henter : MemoryModel.enter s.host.graph id s.solver.memory = .ok t.solver.memory)
    (hgraph : t.host.graph = s.host.graph) (hmax : t.solver.maxOffset = s.solver.maxOffset) :
    Yields (act LoneGraph.linker s.host.graph id n) t fun _ _ ↦ True := by
  unfold act
  refine .bind (Q := fun a u ↦ t = a ∧ t = u) ⟨_, _, rfl, rfl, rfl⟩ ?_
  rintro _ _ ⟨rfl, rfl⟩
  refine (Yields.lift (Transfer.effect_total hs.graph hn _)).bind ?_
  rintro e _ ⟨he, rfl⟩
  have hgained := (hs.effect hn henter (hmax ▸ he)).1
  refine .bind (Q := fun _ u ↦ u.host.graph = s.host.graph) ⟨_, _, rfl, hgraph⟩ fun _ u hu ↦ ?_
  have hnu : (LoneGraph.linker.graph u.host).nodes[id]? = some n := by
    change u.host.graph.nodes[id]? = some n
    rwa [hu]
  refine (gain_total e.gained).bind fun grew v hv ↦ ?_
  have hgain : v.host.graph = s.host.graph.update id fun n ↦ { n with pointsTo := n.pointsTo ∪ e.gained } :=
    hu ▸ (gain_eq LoneGraph.linker_lawful hv hnu).2.1
  have hwf : v.host.graph.WellFormed := hgain ▸ hs.graph.gain hgained
  have hsize : v.host.graph.size = s.host.graph.size := by rw [hgain, Graph.size_update]
  have hlinks : Yields
      (if n.kind = .indirectCall then linkTargets LoneGraph.linker id n else pure false) v
      fun _ w ↦ w.host.graph.size = v.host.graph.size := by
    split
    · exact linkTargets_total hwf (hsize ▸ Graph.lt_size_of_node hn) (hsize ▸ hs.graph.node hn)
    · exact .pure rfl
  split
  · rename_i hkind
    rw [if_pos hkind] at hlinks
    exact hlinks.bind fun _ _ _ ↦ ⟨_, _, rfl, trivial⟩
  · exact ⟨_, _, rfl, trivial⟩

/-- In a well-formed graph the visit of a node succeeds. -/
theorem Sound.visit_total (hs : Sound s) (hid : id < s.host.graph.size) :
    ∃ changed s', Solve.visit LoneGraph.linker id s = .ok changed s' := by
  obtain ⟨n, hn⟩ := Graph.exists_node hid
  suffices h : Yields (Solve.visit LoneGraph.linker id) s fun _ _ ↦ True by
    obtain ⟨changed, s', h, -⟩ := h
    exact ⟨changed, s', h⟩
  rw [visit_eq]
  refine .bind (Q := fun g t ↦ s.host.graph = g ∧ s = t) ⟨_, _, rfl, rfl, rfl⟩ ?_
  rintro _ _ ⟨rfl, rfl⟩
  refine .bind (Q := fun a t ↦ s = a ∧ s = t) ⟨_, _, rfl, rfl, rfl⟩ ?_
  rintro _ _ ⟨rfl, rfl⟩
  refine (Yields.lift (Total.enter _ hid)).bind ?_
  rintro m _ ⟨henter, rfl⟩
  refine .bind (Q := fun _ t ↦ t = { s with solver := { s.solver with memory := m } }) ⟨_, _, rfl, rfl⟩ ?_
  rintro _ t rfl
  refine (Yields.lift ⟨n, Graph.node_eq_ok_iff.2 hn⟩).bind ?_
  rintro _ _ ⟨hn', rfl⟩
  obtain rfl := Option.mem_unique hn (Graph.node_eq_ok_iff.1 hn')
  refine (Yields.lift (Transfer.strays_total hs.graph hn)).bind ?_
  rintro strays _ ⟨-, rfl⟩
  split
  · exact (warn_total LoneGraph.linker_lawful _).bind fun _ u hu ↦
      hs.act_total hn (hu.memory ▸ henter) hu.graph hu.maxOffset
  · exact hs.act_total hn henter rfl rfl

/-! ## Rounds -/

/-- A sound state, and a round in which only nodes of its graph wait. -/
structure InRange (x : Round × Solving μ LoneGraph) : Prop where
  sound : Sound x.2
  queue : ∀ j ∈ x.1.queue.toList, j < x.2.host.graph.size

variable {r : Round} {x y : Round × Solving μ LoneGraph}

theorem InRange.advance_total (hx : InRange (r, s)) {queue : Worklist NodeId}
    (hpop : r.queue.pop = some (id, queue)) :
    ∃ r' s', advance LoneGraph.linker r s = .ok (some r') s' ∧ InRange (r', s') := by
  have hqueue : ∀ j ∈ id :: queue.toList, j < s.host.graph.size := Worklist.pop_eq_some hpop ▸ hx.queue
  obtain ⟨changed, t, hvisit⟩ := hx.sound.visit_total (hqueue id List.mem_cons_self)
  obtain ⟨ht, hsize⟩ := hx.sound.visit hvisit
  obtain ⟨n, hn⟩ := Graph.exists_node (hsize ▸ hqueue id List.mem_cons_self)
  suffices h : Yields (advance LoneGraph.linker r) s fun z u ↦ ∃ r', z = some r' ∧ InRange (r', u) by
    obtain ⟨_, s', h, r', rfl, hr'⟩ := h
    exact ⟨r', s', h, hr'⟩
  unfold advance
  rw [hpop]
  refine .bind (Q := fun g u ↦ s.host.graph = g ∧ s = u) ⟨_, _, rfl, rfl, rfl⟩ ?_
  rintro _ _ ⟨rfl, rfl⟩
  refine .bind (Q := fun b u ↦ changed = b ∧ t = u) ⟨_, _, hvisit, rfl, rfl⟩ ?_
  rintro _ _ ⟨rfl, rfl⟩
  refine .bind (Q := fun _ u ↦ Alike LoneGraph.linker t u) ⟨_, _, rfl, rfl, rfl, rfl, rfl⟩ fun _ u hu ↦ ?_
  have hgraph : u.host.graph = t.host.graph := hu.graph
  refine .bind (Q := fun g v ↦ u.host.graph = g ∧ u = v) ⟨_, _, rfl, rfl, rfl⟩ ?_
  rintro _ _ ⟨rfl, rfl⟩
  -- No nodes are added, so none of them are queued.
  have hnone : List.range' s.host.graph.size (u.host.graph.size - s.host.graph.size) = [] := by
    rw [hgraph, hsize, Nat.sub_self]
    rfl
  have hwait : ∀ j ∈ queue.toList, j < u.host.graph.size := fun j hj ↦ by
    rw [hgraph, hsize]
    exact hqueue j (List.mem_cons_of_mem _ hj)
  rw [hnone]
  split
  · refine .bind (Q := fun _ v ↦ Alike LoneGraph.linker u v) ⟨_, _, rfl, rfl, rfl, rfl, rfl⟩ fun _ v hv ↦ ?_
    have hgraph' : v.host.graph = u.host.graph := hv.graph
    refine (Yields.lift ⟨n, Graph.node_eq_ok_iff.2 (hgraph ▸ hn)⟩).bind ?_
    rintro n _ ⟨hn, rfl⟩
    have hrange := (hu.sound ht).graph.node (Graph.node_eq_ok_iff.1 hn)
    refine .pure ⟨_, rfl, hv.sound (hu.sound ht), fun j hj ↦ ?_⟩
    rw [hgraph']
    rcases Worklist.mem_toList_extend hj with hj | hj
    · rcases Worklist.mem_toList_extend hj with hj | hj
      · rcases Worklist.mem_toList_extend hj with hj | hj
        · exact hwait j hj
        · exact hrange.successors j hj
      · exact hrange.users j hj
    · exact hrange.paired j (Option.mem_toList.1 hj)
  · exact .pure ⟨_, rfl, hu.sound ht, hwait⟩

omit [Total μ] in
theorem InRange.outset (hs : Sound s) : InRange (outset LoneGraph.linker s) where
  sound := hs
  queue j hj := by
    have hids : j ∈ s.host.graph.ids := by rwa [← Round.toList_start]
    exact Graph.mem_ids.1 hids

theorem InRange.next (hx : InRange x) (hnext : next LoneGraph.linker x = some y) : InRange y := by
  obtain ⟨r, s⟩ := x
  obtain ⟨r', s'⟩ := y
  rcases next_step LoneGraph.linker_lawful hnext with hadvance | ⟨-, -, rfl, rfl⟩
  · rcases advance_cases LoneGraph.linker_lawful hadvance with ⟨hnone, -⟩ | ⟨_, -, id, queue, _, _, hp⟩
    · contradiction
    · obtain ⟨r₁, s₁, h, hr₁⟩ := hx.advance_total hp.pop
      rw [hadvance] at h
      obtain ⟨hr, rfl⟩ := EStateM.Result.ok.inj h
      exact Option.some.inj hr ▸ hr₁
  · exact .outset ((endRound_alike LoneGraph.linker_lawful).sound hx.sound)

/-- On a well-formed graph a run goes on until a round changes nothing. -/
theorem InRange.next_total (hx : InRange x) (hopen : ¬Settled x.1) :
    Solve.next LoneGraph.linker x = some (step LoneGraph.linker x) := by
  obtain ⟨r, s⟩ := x
  suffices h : ∃ y, Solve.next LoneGraph.linker (r, s) = some y by
    obtain ⟨y, hy⟩ := h
    rw [step, hy, Option.getD_some]
  cases hpop : r.queue.pop with
  | none =>
    have hchanged : r.changed = true := by
      by_contra hchanged
      exact hopen ⟨hpop, by simpa using hchanged⟩
    exact ⟨_, next_of_pop_none hpop hchanged⟩
  | some next =>
    obtain ⟨r', s', hadvance, -⟩ := hx.advance_total hpop
    exact ⟨_, next_of_advance hadvance⟩

omit [Total μ] in
theorem sound_lone {g : Graph} (hg : g.WellFormed) (maxOffset : Nat) (journal : Journal) :
    Sound (lone μ g maxOffset journal) :=
  ⟨hg, Confined.fresh _⟩

theorem InRange.course (hs : Sound s) (k : Nat) : InRange (course LoneGraph.linker s k) := by
  induction k with
  | zero => exact .outset hs
  | succ k ih =>
    rw [course_succ]
    rcases step_cases (L := LoneGraph.linker) (Solve.course LoneGraph.linker s k) with hnext | ⟨-, hsame⟩
    · exact ih.next hnext
    · rwa [hsame]

end Solve

end PointsTo
