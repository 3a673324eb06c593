import PointsTo.Proofs.Totality

/-!
# The pointers that solving can come across

Shifting a pointer keeps its target and bounds its offset, and memory hands on the pointers that were
put there.  So all pointers of a run come from a small universe that the graph and the bound on
offsets determine at the start: the pointers that nodes have then, null and unknown, and bounded or
unknown offsets into the targets of these pointers.
-/

namespace PointsTo

/-- Some node of the graph points into the target. -/
def Graph.Aims (g : Graph) (t : NodeId) : Prop :=
  ∃ (id : NodeId) (n : Node) (p : Pointer), g.nodes[id]? = some n ∧ p ∈ n.pointsTo ∧ p.target = t

/-- An offset inside an object of the size, up to `maxOffset` if the size is not known. -/
def Offset.Inside (maxOffset size : Nat) : Offset → Prop
  | .known n _ => (0 < size → n < size) ∧ (size = 0 → n ≤ maxOffset)
  | .unknown => True

/-- The pointers that solving the graph can come across. -/
inductive Graph.Attainable (g : Graph) (maxOffset : Nat) : Pointer → Prop
  | initial {id : NodeId} {n : Node} {p : Pointer} : g.nodes[id]? = some n → p ∈ n.pointsTo → g.Attainable maxOffset p
  | null : g.Attainable maxOffset .null
  | unknown : g.Attainable maxOffset .unknown
  | inside {p : Pointer} : p.isSentinel = false → g.Aims p.target → p.offset.Inside maxOffset (g.sizeAt p.target) →
    g.Attainable maxOffset p

theorem Offset.inside_bound (maxOffset size : Nat) (o : Offset) : (o.bound maxOffset size).Inside maxOffset size := by
  cases o with
  | unknown => trivial
  | known n h =>
    change Inside maxOffset size (if (0 < size ∧ size ≤ n) ∨ (size = 0 ∧ maxOffset < n) then .unknown else .known n h)
    split
    · trivial
    · constructor <;> omega

namespace Graph.Attainable

variable {g : Graph} {maxOffset : Nat} {p : Pointer}

theorem aims (h : g.Attainable maxOffset p) (hp : p.isSentinel = false) : g.Aims p.target := by
  cases h with
  | initial hn hmem => exact ⟨_, _, p, hn, hmem, rfl⟩
  | null | unknown => contradiction
  | inside _ haims _ => exact haims

end Graph.Attainable

/-- Every pointer of the universe may be everywhere. -/
def Facts.attainable (g : Graph) (maxOffset : Nat) : Facts where
  pts _ := {p | g.Attainable maxOffset p}
  mem _ _ := {p | g.Attainable maxOffset p}

/-- The universe is closed under what any node does, in every graph with the same sizes. -/
theorem Facts.attainable_solves {g h : Graph} {maxOffset : Nat} (hsize : ∀ t, g.sizeAt t = h.sizeAt t) :
    (attainable g maxOffset).Solves h maxOffset := by
  intro id n _
  refine ⟨fun _ _ _ _ hp ↦ hp, fun _ _ p hp ↦ ?_, fun _ _ _ _ _ ↦ .unknown, fun _ _ p _ _ ↦ ?_,
    fun _ _ _ _ _ _ _ hp ↦ hp, fun _ _ _ _ _ _ _ _ _ ↦ .unknown, fun _ _ _ p _ _ q _ _ place ↦ ?_⟩
  · unfold Graph.shifted
    split
    · exact hp
    · rename_i hsentinel
      have hproper : p.isSentinel = false := by simpa using hsentinel
      exact .inside hproper (hp.aims hproper) (hsize p.target ▸ Offset.inside_bound ..)
  · rintro q (hq | hq | ⟨-, place, hq⟩ | ⟨-, rfl⟩)
    exacts [hq, hq, hq, .null]
  · rintro v (⟨_, _, hv⟩ | ⟨-, -, rfl⟩)
    exacts [hv, .null]

namespace Solve

variable {μ σ : Type} [MemoryModel μ] {L : CallLinker σ}

/-- The next step of a run, or the start of a round on the same graph, memory and links.  So the states
that are reached are those of all rounds, of one run or of several. -/
def Proceeds (L : CallLinker σ) (x y : Round × Solving μ σ) : Prop :=
  next L x = some y ∨ ∃ s, Alike L x.2 s ∧ y = outset L s

/-- The second state is reached from the first. -/
def Reaches (L : CallLinker σ) : Round × Solving μ σ → Round × Solving μ σ → Prop := Relation.ReflTransGen (Proceeds L)

variable [Confined μ] {s s' : Solving μ LoneGraph} {g : Graph} {maxOffset : Nat} {x y : Round × Solving μ LoneGraph}

/-- The state of a run on a graph of its own whose pointers, of nodes and in memory, are those of the
universe of the graph at the start. -/
structure Attained (g : Graph) (maxOffset : Nat) (s : Solving μ LoneGraph) : Prop where
  precedes : g.Precedes s.host.graph
  covers : (Facts.attainable g maxOffset).Covers s.host.graph
  memory : Confined.Within s.solver.memory (Facts.attainable g maxOffset).mem
  maxOffset : s.solver.maxOffset = maxOffset

theorem Attained.lone (g : Graph) (maxOffset : Nat) (journal : Journal) :
    Attained g maxOffset (lone μ g maxOffset journal) where
  precedes := .refl g
  covers _ _ hn _ hp := .initial hn hp
  memory := Confined.fresh _
  maxOffset := rfl

theorem Attained.alike (hs : Attained g maxOffset s) (h : Alike LoneGraph.linker s s') : Attained g maxOffset s' := by
  have hgraph : s'.host.graph = s.host.graph := h.graph
  exact ⟨hgraph ▸ hs.precedes, hgraph ▸ hs.covers, h.memory ▸ hs.memory, h.maxOffset.trans hs.maxOffset⟩

theorem Attained.visit {id : NodeId} {changed : Bool} (hs : Attained g maxOffset s)
    (h : visit LoneGraph.linker id s = .ok changed s') : Attained g maxOffset s' := by
  obtain ⟨n, m, e, t, u, linked, hv⟩ := visited LoneGraph.linker_lawful h
  obtain ⟨hgained, hmemory⟩ := Transfer.effect_within (Facts.attainable_solves hs.precedes.embeds.sizeAt_eq)
    hs.covers hv.node (Confined.enter hs.memory hv.enter) (hs.maxOffset ▸ hv.effect)
  have hcovers : (Facts.attainable g maxOffset).Covers
      (s.host.graph.update id fun n ↦ { n with pointsTo := n.pointsTo ∪ e.gained }) := by
    intro j l hl p hp
    rw [Graph.nodes_update] at hl
    split at hl
    · obtain ⟨l', hl', rfl⟩ := Option.map_eq_some_iff.1 hl
      rcases OrderedSet.mem_union.1 hp with hold | hnew
      · exact hs.covers hl' p hold
      · exact hgained p hnew
    · exact hs.covers hl p hp
  obtain ⟨hcovers', hprecedes⟩ := hv.preserves (P := fun k _ ↦ (Facts.attainable g maxOffset).Covers k) hcovers
    fun hk _ _ hlink ↦ Graph.covers_of_linking hlink hk
  refine ⟨hs.precedes.trans hprecedes, hcovers', ?_, (hv.maxOffset LoneGraph.linker_lawful).trans hs.maxOffset⟩
  rw [hv.memory_leave, (hv.links.frame LoneGraph.linker_lawful).1, hv.memory_gain]
  exact Confined.leave hmemory

theorem Attained.proceeds (hx : Attained g maxOffset x.2) (h : Proceeds LoneGraph.linker x y) :
    Attained g maxOffset y.2 := by
  obtain ⟨r, s⟩ := x
  obtain ⟨r', s'⟩ := y
  rcases h with hnext | ⟨t, halike, heq⟩
  · rcases next_cases LoneGraph.linker_lawful hnext with ⟨id, queue, changed, t, hp⟩ | ⟨-, -, -, rfl⟩
    · exact (hx.visit hp.visit).alike hp.alike
    · exact hx.alike (endRound_alike LoneGraph.linker_lawful)
  · obtain ⟨-, rfl⟩ := Prod.mk.inj heq
    exact hx.alike halike

/-- What is known of every state of a run on a graph of its own: all pointers are in the universe and all
targets are nodes, so every node can be processed and the round goes on. -/
structure InBounds (g : Graph) (maxOffset : Nat) (x : Round × Solving μ LoneGraph) : Prop where
  pointsTo : ∀ {id : NodeId} {n : Node} {p : Pointer}, x.2.host.graph.nodes[id]? = some n → p ∈ n.pointsTo →
    g.Attainable maxOffset p
  memory : Confined.Within x.2.solver.memory fun _ _ ↦ {p | g.Attainable maxOffset p}
  target : ∀ {id : NodeId} {n : Node} {p : Pointer}, x.2.host.graph.nodes[id]? = some n → p ∈ n.pointsTo →
    p.target < x.2.host.graph.size
  effect : ∀ {id : NodeId} {n : Node}, x.2.host.graph.nodes[id]? = some n → ∀ m : μ,
    ∃ e, Transfer.effect x.2.host.graph x.2.solver.maxOffset id n m = .ok e
  advance : ∃ r? s', Solve.advance LoneGraph.linker x.1 x.2 = .ok r? s'

variable [Total μ]

theorem InRange.proceeds (hx : InRange x) (h : Proceeds LoneGraph.linker x y) : InRange y := by
  rcases h with hnext | ⟨t, halike, rfl⟩
  · exact hx.next hnext
  · exact .outset (halike.sound hx.sound)

theorem inBounds_of_reaches (hg : g.WellFormed) {journal : Journal}
    (h : Reaches LoneGraph.linker (outset LoneGraph.linker (lone μ g maxOffset journal)) x) :
    InBounds g maxOffset x := by
  obtain ⟨hattained, hrange⟩ : Attained g maxOffset x.2 ∧ InRange x := by
    induction h with
    | refl => exact ⟨.lone g maxOffset journal, .outset (sound_lone hg maxOffset journal)⟩
    | tail _ hstep ih => exact ⟨ih.1.proceeds hstep, ih.2.proceeds hstep⟩
  refine ⟨fun hn hp ↦ hattained.covers hn _ hp, hattained.memory, fun hn hp ↦ ?_, fun hn m ↦ ?_, ?_⟩
  · exact (hrange.sound.graph.node hn).pointsTo _ hp
  · exact Transfer.effect_total hrange.sound.graph hn m
  · obtain ⟨r, s⟩ := x
    cases hpop : r.queue.pop with
    | none => exact ⟨none, s, advance_of_pop_none hpop⟩
    | some popped =>
      obtain ⟨id, queue⟩ := popped
      obtain ⟨r', s', hadvance, -⟩ := hrange.advance_total hpop
      exact ⟨some r', s', hadvance⟩

/-- With both memory models, every state that solving a well-formed graph reaches has its pointers in
the universe of the graph, and no id is looked up that names no node. -/
theorem reached_inBounds (hg : g.WellFormed) (maxOffset : Nat) (journal : Journal) :
    (∀ x, Reaches LoneGraph.linker (outset LoneGraph.linker (lone SharedMemory g maxOffset journal)) x →
      InBounds g maxOffset x) ∧
    ∀ x, Reaches LoneGraph.linker (outset LoneGraph.linker (lone NodeMemory g maxOffset journal)) x →
      InBounds g maxOffset x :=
  ⟨fun _ h ↦ inBounds_of_reaches hg h, fun _ h ↦ inBounds_of_reaches hg h⟩

/-- Offsets grow around the cycle of the spiral and are bounded by the size of its object. -/
def coil : Graph where
  nodes := Graph.sentinels.nodes ++
    [{ kind := .alloc, pointsTo := .singleton ⟨2, .zero⟩, users := [3, 5], successors := [3], size := 24 },
      { kind := .phi, operands := [2, 4, 7], users := [4, 6], predecessors := [2, 6], successors := [4] },
      { kind := .gep, operands := [3], offset := .ofNat 8, users := [3, 5], predecessors := [3], successors := [5] },
      { kind := .store, operands := [4, 2], predecessors := [4], successors := [6] },
      { kind := .memcpy, operands := [2, 3], length := .unknown, predecessors := [5], successors := [3, 7] },
      { kind := .load, operands := [2], users := [3], predecessors := [6] }]

theorem reached_inBounds_coil :
    coil.WellFormed ∧
    (∀ x, Reaches LoneGraph.linker (outset LoneGraph.linker (lone SharedMemory coil 4096)) x →
      InBounds coil 4096 x) ∧
    ∀ x, Reaches LoneGraph.linker (outset LoneGraph.linker (lone NodeMemory coil 4096)) x →
      InBounds coil 4096 x := by
  have hwf : coil.WellFormed := by decide
  exact ⟨hwf, reached_inBounds hwf 4096 {}⟩

end Solve

end PointsTo
