import Mathlib.Order.WellFoundedSet
import PointsTo.Proofs.Growth
import PointsTo.Proofs.Repetition
import PointsTo.Proofs.Stability
import PointsTo.Proofs.StoreFlow

/-!
# Does solving with a memory per node converge?

Not always.  The memory after a node is remade from what its predecessors leave, and it shrinks when a
store becomes a strong update after it was processed.  What was lost may then chase what was kept
around a cycle of control edges forever.  A run on a well-formed graph converges if and only if it
stops forgetting, and it does so if no cycle can be reached from a store whose operands point nowhere
at first.
-/

namespace PointsTo

namespace NodeMemory

/-- What the first memory holds after a node, the second holds too. -/
def Keeps (m m' : NodeMemory) (id : NodeId) : Prop :=
  ∀ map, m.maps.get? id = some map → ∃ map', m'.maps.get? id = some map' ∧ map.Grows map'

variable {m m' m'' : NodeMemory} {id : NodeId}

theorem Keeps.of_eq (h : m'.maps.get? id = m.maps.get? id) : m.Keeps m' id :=
  fun map hmap ↦ ⟨map, h.trans hmap, .refl map⟩

/-- What enters a node depends on its predecessors only. -/
theorem incoming_congr {predecessors : List NodeId} (h : ∀ j ∈ predecessors, m.maps.get? j = m'.maps.get? j) :
    m.incoming predecessors = m'.incoming predecessors := by
  unfold incoming
  refine List.foldl_ext _ _ _ fun merged j hj ↦ ?_
  rw [h j hj]

/-- The maps tell what a visit answers. -/
theorem tells_maps : Solve.Tells fun m : NodeMemory ↦ m.maps := by
  intro g maxOffset id n m m' e henter heffect hsame
  obtain ⟨n', hn', rfl⟩ := enter_eq_ok_iff.1 henter
  obtain ⟨hmem, hwrote⟩ := Transfer.effect_passed rfl heffect
  refine ⟨hwrote, ?_⟩
  rw [hmem] at hsame ⊢
  have hget := congrArg (·.get? id) hsame
  dsimp only at hget
  rw [get?_leave, if_pos rfl] at hget
  change (leave id _).1 = false
  rw [leave, currentAt?_eq_some_iff.2 rfl]
  dsimp only
  exact congrArg Prod.fst (if_pos hget.symm)

end NodeMemory

theorem Graph.passed_tidy {g : Graph} {n : Node} {map : MemoryMap} (hg : g.WellFormed) (hmap : map.Tidy g.size) :
    (g.passed n map).Tidy g.size := by
  unfold passed
  split
  · rename_i values targets _ hops
    obtain ⟨-, b, -, -, -, htargets⟩ := operandSets?_eq_some_iff.1 hops
    refine List.foldlRecOn targets.toList _ hmap fun m hm p hp ↦ ?_
    split
    · exact hm
    · exact NodeMemory.written_tidy hm (hg.target_lt htargets p hp)
  · rename_i sources dests _ hops
    obtain ⟨-, b, -, -, -, hdests⟩ := operandSets?_eq_some_iff.1 hops
    refine List.foldlRecOn sources.toList _ hmap fun m hm src _ ↦ ?_
    split
    · exact hm
    · refine List.foldlRecOn dests.toList _ hm fun m hm dest hdest ↦ ?_
      have hlt := hg.target_lt hdests dest hdest
      split
      · exact hm
      · unfold copiedOne
        split
        · exact hm
        · split
          · exact NodeMemory.written_tidy hm hlt
          · exact NodeMemory.copied_tidy hm hlt
  · exact hmap

namespace Solve

variable {s s' : Solving NodeMemory LoneGraph} {g : Graph} {id : NodeId}

theorem visit_get? {changed : Bool} (h : visit LoneGraph.linker id s = .ok changed s') :
    ∃ n, s.host.graph.nodes[id]? = some n ∧ ∀ j, s'.solver.memory.maps.get? j =
      if j = id then some (s.solver.memory.remade s.host.graph n) else s.solver.memory.maps.get? j := by
  obtain ⟨n, m, e, t, u, linked, hv⟩ := visited LoneGraph.linker_lawful h
  refine ⟨n, hv.node, fun j ↦ ?_⟩
  rw [hv.memory_leave, (hv.links.frame LoneGraph.linker_lawful).1, hv.memory_gain]
  exact NodeMemory.get?_of_effect hv.node hv.enter hv.effect

/-- In one step the memory after a node stays as it is, or is remade. -/
theorem step_get? (x : Round × Solving NodeMemory LoneGraph) (j : NodeId) :
    (step LoneGraph.linker x).2.solver.memory.maps.get? j = x.2.solver.memory.maps.get? j ∨
      ∃ n, x.2.host.graph.nodes[j]? = some n ∧ (step LoneGraph.linker x).2.solver.memory.maps.get? j =
        some (x.2.solver.memory.remade x.2.host.graph n) := by
  rcases step_spec x with halike | ⟨id, queue, changed, t, hp⟩
  · rw [halike.memory]
    exact .inl rfl
  · obtain ⟨n, hn, hget⟩ := visit_get? hp.visit
    rw [hp.alike.memory, hget]
    split
    · rename_i hj
      exact .inr ⟨n, hj ▸ hn, rfl⟩
    · exact .inl rfl

/-- The memory after every node is tidy. -/
def TidyMaps (s : Solving NodeMemory LoneGraph) : Prop :=
  ∀ j map, s.solver.memory.maps.get? j = some map → map.Tidy s.host.graph.size

theorem tidyMaps_course (hs : Sound s) (htidy : TidyMaps s) (k : Nat) :
    TidyMaps (course LoneGraph.linker s k).2 := by
  induction k with
  | zero => exact htidy
  | succ k ih =>
    rw [course_succ]
    intro j map hmap
    rw [← (step_grows (course LoneGraph.linker s k)).1.size]
    rcases step_get? (course LoneGraph.linker s k) j with hsame | ⟨n, -, hremade⟩
    · exact ih j map (hsame ▸ hmap)
    · rw [hremade, Option.some.injEq] at hmap
      rw [← hmap]
      exact Graph.passed_tidy (InRange.course hs k).sound.graph (NodeMemory.incoming_tidy ih _)

/-- No step changes the memory after what is not a node of the graph. -/
theorem course_get?_of_size_le (hg : Extends g s) (hid : g.size ≤ id) (k : Nat) :
    (course LoneGraph.linker s (k + 1)).2.solver.memory.maps.get? id =
      (course LoneGraph.linker s k).2.solver.memory.maps.get? id := by
  rw [course_succ]
  rcases step_get? (course LoneGraph.linker s k) id with hsame | ⟨n, hn, -⟩
  · exact hsame
  · exact absurd ((hg.course k).precedes.size ▸ Graph.lt_size_of_node hn) (Nat.not_lt.2 hid)

/-- The memory after the node does not change in the end. -/
def Subsides (s : Solving NodeMemory LoneGraph) (id : NodeId) : Prop :=
  ∀ᶠ k in Filter.atTop, (course LoneGraph.linker s (k + 1)).2.solver.memory.maps.get? id =
      (course LoneGraph.linker s k).2.solver.memory.maps.get? id

/-- All memory rests in the end if that after each node of the graph does. -/
theorem eventually_maps (hg : Extends g s) (hnodes : ∀ id < g.size, Subsides s id) :
    ∀ᶠ k in Filter.atTop, (course LoneGraph.linker s (k + 1)).2.solver.memory.maps =
      (course LoneGraph.linker s k).2.solver.memory.maps := by
  filter_upwards [(Filter.eventually_all_finite (Set.finite_lt_nat g.size)).2 hnodes] with k hk
  refine OrderedMap.ext_get? fun id ↦ ?_
  by_cases hid : id < g.size
  · exact hk id hid
  · exact course_get?_of_size_le hg (Nat.le_of_not_lt hid) k

/-! ## Memory that only grows -/

theorem subsides_of_keeps (hs : Sound s) (hg : Extends g s) (htidy : TidyMaps s)
    (hkeeps : ∀ᶠ k in Filter.atTop, (course LoneGraph.linker s k).2.solver.memory.Keeps
      (course LoneGraph.linker s (k + 1)).2.solver.memory id) : Subsides s id := by
  have hmaps (k : Nat) (map : MemoryMap)
      (hmap : (course LoneGraph.linker s k).2.solver.memory.maps.get? id = some map) :
      map.Tidy g.size ∧ map.Within (Facts.inRange g.size).mem := by
    have hsize : (course LoneGraph.linker s k).2.host.graph.size = g.size := (hg.course k).precedes.size.symm
    exact hsize ▸ ⟨tidyMaps_course hs htidy k id map hmap, (InRange.course hs k).sound.memory.1 id map hmap⟩
  -- Maps that grow into each other are equal, because they are tidy.
  have hsame {i j : Nat} (hij : (course LoneGraph.linker s i).2.solver.memory.Keeps
      (course LoneGraph.linker s j).2.solver.memory id) (hji : (course LoneGraph.linker s j).2.solver.memory.Keeps
      (course LoneGraph.linker s i).2.solver.memory id) {map : MemoryMap}
      (hmap : (course LoneGraph.linker s i).2.solver.memory.maps.get? id = some map) :
      (course LoneGraph.linker s j).2.solver.memory.maps.get? id = some map := by
    obtain ⟨map', hmap', hgrows⟩ := hij map hmap
    obtain ⟨map'', hmap'', hgrows'⟩ := hji map' hmap'
    obtain rfl := Option.mem_unique hmap hmap''
    rw [hgrows.antisymm hgrows' (hmaps i map hmap).1 (hmaps j map' hmap').1]
    exact hmap'
  refine exists_eventually_eq_iff.1 (eventually_eq_of_growing
    (f := fun k ↦ (course LoneGraph.linker s k).2.solver.memory.maps.get? id)
    (R := fun a b : Option MemoryMap ↦ ∀ map, a = some map → ∃ map', b = some map' ∧ map.Grows map')
    ?_ (fun a map hmap ↦ ⟨map, hmap, .refl map⟩) ?_
    (fun i j hij hji ↦ Option.ext fun map ↦ ⟨hsame hij hji, hsame hji hij⟩) hkeeps)
  · refine (((MemoryMap.finite_tidy g.size).image some).insert none).subset ?_
    rintro _ ⟨k, rfl⟩
    dsimp only
    cases hmap : (course LoneGraph.linker s k).2.solver.memory.maps.get? id with
    | none => exact .inl rfl
    | some map => exact .inr ⟨map, hmaps k map hmap, rfl⟩
  · intro a b c hab hbc map hmap
    obtain ⟨map', hmap', hgrows⟩ := hab map hmap
    obtain ⟨map'', hmap'', hgrows'⟩ := hbc map' hmap'
    exact ⟨map'', hmap'', hgrows.trans hgrows'⟩

end Solve

/-! ## Steady nodes -/

namespace Graph

/-- Memory flows along the control edge. -/
def Feeds (g : Graph) (a b : NodeId) : Prop := a ∈ g.predecessors b

instance (g : Graph) (a b : NodeId) : Decidable (g.Feeds a b) := inferInstanceAs (Decidable (a ∈ g.predecessors b))

/-- A store that lacks an operand, or one of whose operands points nowhere yet: it is open whether and
where it will make strong updates. -/
def Undecided (g : Graph) (id : NodeId) : Prop := ∃ n, g.nodes[id]? = some n ∧ n.kind = .store ∧ ¬g.Ready n

/-- No memory flows to the node that passed an undecided store. -/
def Steady (g : Graph) (id : NodeId) : Prop := ∀ a, g.Undecided a → ¬Relation.ReflTransGen g.Feeds a id

variable {g h : Graph} {a b id : NodeId} {n : Node}

theorem Steady.of_feeds (hb : g.Steady b) (hab : g.Feeds a b) : g.Steady a :=
  fun c hc hca ↦ hb c hc (hca.tail hab)

/-- Memory flows from a node that is not steady. -/
def Stirs (g : Graph) (a b : NodeId) : Prop := ¬g.Steady a ∧ Relation.TransGen g.Feeds a b

theorem Stirs.isStrictOrder
    (hacyclic : ∀ a c, g.Undecided a → Relation.ReflTransGen g.Feeds a c → ¬Relation.TransGen g.Feeds c c) :
    IsStrictOrder NodeId g.Stirs where
  irrefl a := by
    rintro ⟨hunsteady, hcycle⟩
    simp only [Steady, not_forall, not_not] at hunsteady
    obtain ⟨c, hc, hca⟩ := hunsteady
    exact hacyclic c a hc hca hcycle
  trans a b c hab hbc := ⟨hab.1, hab.2.trans hbc.2⟩

theorem Embeds.feeds_iff (hgh : g.Embeds h) (hn : h.nodes[b]? = some n) : g.Feeds a b ↔ a ∈ n.predecessors := by
  obtain ⟨n₀, hn₀, hembeds⟩ := hgh.earlier hn
  rw [Feeds, mem_predecessors, ← hembeds.predecessors]
  constructor
  · rintro ⟨m, hm, ha⟩
    exact Option.mem_unique hm hn₀ ▸ ha
  · exact fun ha ↦ ⟨n₀, hn₀, ha⟩

theorem Steady.ready (hsteady : g.Steady id) (hgh : g.Precedes h) (hn : h.nodes[id]? = some n)
    (hkind : n.kind = .store) : h.Ready n := by
  obtain ⟨n₀, hn₀, hprecedes⟩ := hgh.earlier hn
  by_contra hnot
  refine hsteady id ⟨n₀, hn₀, hprecedes.kind.trans hkind, fun hready ↦ hnot ?_⟩ .refl
  exact hready.later hgh hprecedes.toEmbeds

end Graph

namespace Solve

variable {s : Solving NodeMemory LoneGraph} {g : Graph} {id : NodeId} {x : Round × Solving NodeMemory LoneGraph}

/-- The memory after a steady node is no more than what the node would pass on now. -/
def Behind (g : Graph) (s : Solving NodeMemory LoneGraph) : Prop :=
  ∀ id, g.Steady id → ∀ n, s.host.graph.nodes[id]? = some n → ∀ map, s.solver.memory.maps.get? id = some map →
    map.Grows (s.solver.memory.remade s.host.graph n)

theorem Behind.keeps (hx : Behind g x.2) (hsteady : g.Steady id) :
    x.2.solver.memory.Keeps (step LoneGraph.linker x).2.solver.memory id := by
  rcases step_get? x id with hsame | ⟨n, hn, hremade⟩
  · exact .of_eq hsame
  · exact fun map hmap ↦ ⟨_, hremade, hx id hsteady n hn map hmap⟩

/-- While memory is behind, a steady node would pass on more after a step than before. -/
theorem Behind.remade_grows (hx : Behind g x.2) (hg : Extends g x.2) (hsteady : g.Steady id) {n n' : Node}
    (hn : x.2.host.graph.nodes[id]? = some n) (hn' : (step LoneGraph.linker x).2.host.graph.nodes[id]? = some n') :
    (x.2.solver.memory.remade x.2.host.graph n).Grows
      ((step LoneGraph.linker x).2.solver.memory.remade (step LoneGraph.linker x).2.host.graph n') := by
  have hgrows := (step_grows x).1
  have hembeds := (hgrows.node hn hn').toEmbeds
  refine Graph.passed_grows hgrows hembeds (hsteady.ready hg.precedes hn) ?_
  rw [← hembeds.predecessors]
  refine NodeMemory.incoming_grows fun j hj ↦ ?_
  exact hx.keeps (hsteady.of_feeds ((hg.precedes.embeds.feeds_iff hn).2 hj))

theorem Behind.step (hx : Behind g x.2) (hg : Extends g x.2) : Behind g (step LoneGraph.linker x).2 := by
  intro id hsteady n' hn' map hmap
  obtain ⟨n, hn, -⟩ := (step_grows x).1.earlier hn'
  have hgrows := hx.remade_grows hg hsteady hn hn'
  rcases step_get? x id with hsame | ⟨m, hm, hremade⟩
  · exact (hx id hsteady n hn map (hsame ▸ hmap)).trans hgrows
  · obtain rfl := Option.mem_unique hn hm
    rw [hremade, Option.some.injEq] at hmap
    exact hmap ▸ hgrows

theorem Behind.course (hs : Behind g s) (hg : Extends g s) (k : Nat) : Behind g (course LoneGraph.linker s k).2 := by
  induction k with
  | zero => exact hs
  | succ k ih =>
    rw [course_succ]
    exact ih.step (hg.course k)

/-! ## Nodes whose inputs rest -/

/-- The memory after a node is what the node would pass on now. -/
def UpToDate (id : NodeId) (s : Solving NodeMemory LoneGraph) : Prop :=
  ∃ n, s.host.graph.nodes[id]? = some n ∧
    s.solver.memory.maps.get? id = some (s.solver.memory.remade s.host.graph n)

/-- If a step keeps the graph and what enters a node, the memory after the node stays as it is unless it
comes up to date. -/
theorem UpToDate.step (hgraph : (step LoneGraph.linker x).2.host.graph = x.2.host.graph)
    (hinputs : ∀ j, x.2.host.graph.Feeds j id →
      (step LoneGraph.linker x).2.solver.memory.maps.get? j = x.2.solver.memory.maps.get? j) :
    (UpToDate id x.2 → UpToDate id (step LoneGraph.linker x).2) ∧
      (¬UpToDate id (step LoneGraph.linker x).2 ∨ UpToDate id x.2 →
        (step LoneGraph.linker x).2.solver.memory.maps.get? id = x.2.solver.memory.maps.get? id) := by
  have hremade {n : Node} (hn : x.2.host.graph.nodes[id]? = some n) :
      (Solve.step LoneGraph.linker x).2.solver.memory.remade (Solve.step LoneGraph.linker x).2.host.graph n =
        x.2.solver.memory.remade x.2.host.graph n := by
    rw [NodeMemory.remade, NodeMemory.remade, hgraph, NodeMemory.incoming_congr fun j hj ↦ ?_]
    exact hinputs j (Graph.mem_predecessors.2 ⟨n, hn, hj⟩)
  rcases step_get? x id with hsame | ⟨n, hn, hget⟩
  · refine ⟨?_, fun _ ↦ hsame⟩
    rintro ⟨n, hn, hmap⟩
    exact ⟨n, hgraph ▸ hn, by rw [hsame, hmap, hremade hn]⟩
  · have hdone : UpToDate id (Solve.step LoneGraph.linker x).2 := ⟨n, hgraph ▸ hn, by rw [hget, hremade hn]⟩
    refine ⟨fun _ ↦ hdone, ?_⟩
    rintro (hnot | ⟨n', hn', hmap⟩)
    · exact absurd hdone hnot
    · rw [hget, hmap, Option.mem_unique hn hn']

/-- Once the graph and what the predecessors leave do not change, the memory after a node changes at most
once more. -/
theorem subsides_of_inputs (hs : Sound s) (hg : Extends g s) (hinputs : ∀ j, g.Feeds j id → Subsides s j) :
    Subsides s id := by
  have hall := (Filter.eventually_all_finite (List.finite_toSet (g.predecessors id))).2 hinputs
  obtain ⟨start, hstart⟩ := Filter.eventually_atTop.1 ((eventually_graph hs hg).and hall)
  have hstep (k : Nat) (hk : start ≤ k) :
      (UpToDate id (course LoneGraph.linker s k).2 → UpToDate id (course LoneGraph.linker s (k + 1)).2) ∧
      (¬UpToDate id (course LoneGraph.linker s (k + 1)).2 ∨ UpToDate id (course LoneGraph.linker s k).2 →
        (course LoneGraph.linker s (k + 1)).2.solver.memory.maps.get? id =
          (course LoneGraph.linker s k).2.solver.memory.maps.get? id) := by
    obtain ⟨hgraph, hpredecessors⟩ := hstart k hk
    rw [course_succ] at hgraph hpredecessors ⊢
    refine UpToDate.step hgraph fun j hj ↦ hpredecessors j ?_
    obtain ⟨n, hn, hj⟩ := Graph.mem_predecessors.1 hj
    exact ((hg.course k).precedes.embeds.feeds_iff hn).2 hj
  by_cases hsome : ∃ k, start ≤ k ∧ UpToDate id (course LoneGraph.linker s k).2
  · obtain ⟨k, hk, hdone⟩ := hsome
    refine Filter.eventually_atTop.2 ⟨k, fun j hj ↦ (hstep j (hk.trans hj)).2 (.inr ?_)⟩
    induction j, hj using Nat.le_induction with
    | base => exact hdone
    | succ j hj ih => exact (hstep j (hk.trans hj)).1 ih
  · refine Filter.eventually_atTop.2 ⟨start, fun k hk ↦ (hstep k hk).2 (.inl fun hdone ↦ hsome ?_)⟩
    exact ⟨k + 1, Nat.le_succ_of_le hk, hdone⟩

theorem Behind.subsides (hbehind : Behind g s) (hs : Sound s) (hg : Extends g s) (htidy : TidyMaps s)
    (hsteady : g.Steady id) : Subsides s id := by
  refine subsides_of_keeps hs hg htidy (.of_forall fun k ↦ ?_)
  rw [course_succ]
  exact (hbehind.course hg k).keeps hsteady

/-- If no cycle can be reached from an undecided store, the memory after every node subsides. -/
theorem subsides_of_acyclic (hs : Sound s) (hg : Extends g s) (htidy : TidyMaps s) (hbehind : Behind g s)
    (hacyclic : ∀ a c, g.Undecided a → Relation.ReflTransGen g.Feeds a c → ¬Relation.TransGen g.Feeds c c)
    (hid : id < g.size) : Subsides s id := by
  have := Graph.Stirs.isStrictOrder hacyclic
  -- By induction along the edges that leave a node that is not steady.
  refine ((Set.finite_lt_nat g.size).wellFoundedOn (r := g.Stirs)).induction hid fun b hb ih ↦ ?_
  by_cases hsteady : g.Steady b
  · exact hbehind.subsides hs hg htidy hsteady
  refine subsides_of_inputs hs hg fun a hab ↦ ?_
  by_cases hsteady' : g.Steady a
  · exact hbehind.subsides hs hg htidy hsteady'
  by_cases ha : a < g.size
  · exact ih a ha ⟨hsteady', .single hab⟩
  · exact .of_forall (course_get?_of_size_le hg (Nat.le_of_not_lt ha))

/-! ## Convergence -/

variable {maxOffset : Nat} {journal : Journal}

/-- A fresh solver has no memory after any node. -/
theorem get?_lone : (lone NodeMemory g maxOffset journal).solver.memory.maps.get? id = none := rfl

/-- A run with a memory per node converges if and only if from some step on no memory after a node loses
anything.  It converges if no cycle of control edges can be reached from an undecided store. -/
theorem converges_iff_stops_forgetting (hg : g.WellFormed) (maxOffset : Nat) (journal : Journal) :
    ((∃ budget stats s', run LoneGraph.linker budget (lone NodeMemory g maxOffset journal) = .ok stats s') ↔
      ∃ start, ∀ k ≥ start, ∀ id,
        (course LoneGraph.linker (lone NodeMemory g maxOffset journal) k).2.solver.memory.Keeps
          (course LoneGraph.linker (lone NodeMemory g maxOffset journal) (k + 1)).2.solver.memory id) ∧
    ((∀ a c, g.Undecided a → Relation.ReflTransGen g.Feeds a c → ¬Relation.TransGen g.Feeds c c) →
      ∃ budget stats s', run LoneGraph.linker budget (lone NodeMemory g maxOffset journal) = .ok stats s') := by
  have hs : Sound (lone NodeMemory g maxOffset journal) := sound_lone hg maxOffset journal
  have hext : Extends g (lone NodeMemory g maxOffset journal) := .fresh g
  have htidy : TidyMaps (lone NodeMemory g maxOffset journal) := fun j map hmap ↦ by
    rw [get?_lone] at hmap
    contradiction
  have hbehind : Behind g (lone NodeMemory g maxOffset journal) := fun j _ n _ map hmap ↦ by
    rw [get?_lone] at hmap
    contradiction
  rw [run_iff_settled LoneGraph.linker_lawful, exists_settled_iff NodeMemory.tells_maps hs hext]
  refine ⟨⟨fun hrest ↦ ?_, ?_⟩, fun hacyclic ↦ ?_⟩
  · obtain ⟨start, hstart⟩ := Filter.eventually_atTop.1 hrest
    exact ⟨start, fun k hk id ↦ .of_eq (by rw [hstart k hk])⟩
  · rintro ⟨start, hstart⟩
    refine eventually_maps hext fun id _ ↦ subsides_of_keeps hs hext htidy ?_
    exact Filter.eventually_atTop.2 ⟨start, fun k hk ↦ hstart k hk id⟩
  · exact eventually_maps hext fun id hid ↦ subsides_of_acyclic hs hext htidy hbehind hacyclic hid

/-- Two stores overwrite the same slot, and then memory goes around a cycle. -/
def calm : Graph where
  nodes := Graph.sentinels.nodes ++
    [{ kind := .alloc, pointsTo := .singleton ⟨2, .zero⟩, users := [5, 6] },
      { kind := .alloc, pointsTo := .singleton ⟨3, .zero⟩, users := [5] },
      { kind := .alloc, pointsTo := .singleton ⟨4, .zero⟩, users := [6] },
      { kind := .store, operands := [3, 2], successors := [6] },
      { kind := .store, operands := [4, 2], successors := [10], predecessors := [5] },
      { kind := .noop, successors := [10], predecessors := [8] },
      { kind := .noop, successors := [7], predecessors := [9] },
      { kind := .noop, successors := [8], predecessors := [10] },
      { kind := .noop, successors := [9], predecessors := [6, 7] }]

theorem converges_iff_stops_forgetting_calm :
    calm.WellFormed ∧ Relation.TransGen calm.Feeds 10 10 ∧
      (∀ a c, calm.Undecided a → Relation.ReflTransGen calm.Feeds a c → ¬Relation.TransGen calm.Feeds c c) ∧
      ∃ budget stats s', run LoneGraph.linker budget (lone NodeMemory calm 64) = .ok stats s' := by
  have hwf : calm.WellFormed := by decide
  have hcycle : Relation.TransGen calm.Feeds 10 10 :=
    .tail (.tail (.tail (.single (by decide : calm.Feeds 10 9)) (by decide : calm.Feeds 9 8))
      (by decide : calm.Feeds 8 7)) (by decide)
  have hready : ∀ n ∈ calm.nodes, n.kind = .store → calm.Ready n := by decide
  have hdecided (a : NodeId) : ¬calm.Undecided a := by
    rintro ⟨n, hn, hkind, hnot⟩
    exact hnot (hready n (List.mem_of_getElem? hn) hkind)
  have hacyclic : ∀ a c, calm.Undecided a → Relation.ReflTransGen calm.Feeds a c →
      ¬Relation.TransGen calm.Feeds c c := fun a _ ha ↦ absurd ha (hdecided a)
  exact ⟨hwf, hcycle, hacyclic, (converges_iff_stops_forgetting hwf 64 {}).2 hacyclic⟩

/-- The same, but the second store gets its value through a node that points nowhere at first.  When it
becomes a strong update, what it replaces is already on its way around the cycle, and stays so. -/
def pulse : Graph where
  nodes := Graph.sentinels.nodes ++
    [{ kind := .alloc, pointsTo := .singleton ⟨2, .zero⟩, users := [5, 6] },
      { kind := .alloc, pointsTo := .singleton ⟨3, .zero⟩, users := [5] },
      { kind := .alloc, pointsTo := .singleton ⟨4, .zero⟩, users := [11] },
      { kind := .store, operands := [3, 2], successors := [6] },
      { kind := .store, operands := [11, 2], successors := [10], predecessors := [5] },
      { kind := .noop, successors := [10], predecessors := [8] },
      { kind := .noop, successors := [7], predecessors := [9] },
      { kind := .noop, successors := [8], predecessors := [10] },
      { kind := .noop, successors := [9], predecessors := [6, 7] },
      { kind := .phi, operands := [4], users := [6] }]

/-- A graph on which solving with a memory per node goes on forever: from the step 24 on, it comes to the
same state every eight steps. -/
theorem pulse_never_converges :
    pulse.WellFormed ∧ pulse.Mirrored ∧
      ∀ budget stats s', run LoneGraph.linker budget (lone NodeMemory pulse 4096) ≠ .ok stats s' := by
  have hopen : ¬Settled (course LoneGraph.linker (lone NodeMemory pulse 4096) 24).1 := by decide +kernel
  have hrepeats : Repeats (course LoneGraph.linker (lone NodeMemory pulse 4096) 24)
      (course LoneGraph.linker (lone NodeMemory pulse 4096) (24 + 8)) := by decide +kernel
  exact ⟨by decide, by decide, fun _ _ _ ↦ run_ne_ok_of_repeats (by decide) hopen hrepeats⟩

end Solve

end PointsTo
