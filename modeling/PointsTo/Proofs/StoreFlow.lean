import PointsTo.Proofs.Course
import PointsTo.Proofs.Growth

/-!
# No store is lost

When a round changes nothing, the memory kept for each node is what the node makes of what its
predecessors leave.  What a store writes is therefore there after every node of a path from it, until
a strong update replaces it.
-/

namespace PointsTo

/-- A store replaces what stands at a place: it is the only place that it may write, it is exact, and
there is something to write. -/
def Graph.Overwrites (g : Graph) (n : Node) (p : Pointer) : Prop :=
  n.kind = .store ∧ ∃ values, Transfer.Operands g n values (.singleton p) ∧ (∃ v, v ∈ values) ∧
    p.offset ≠ .unknown ∧ ∃ t, g.nodes[p.target]? = some t ∧ t.heap = false

namespace Graph

variable {g : Graph} {n : Node} {map : MemoryMap} {values targets : PointerSet} {p v : Pointer}

/-- A store that replaces a place has no other target. -/
theorem overwrites_of_strong (hkind : n.kind = .store) (hops : Transfer.Operands g n values targets)
    (hp : p ∈ targets) (hv : ∃ v, v ∈ values) (hstrong : g.strongAt (targets.size == 1) p = true) :
    g.Overwrites n p := by
  simp only [strongAt, Bool.and_eq_true, Bool.not_eq_true', beq_iff_eq, Option.map_eq_some_iff] at hstrong
  obtain ⟨⟨hsize, hknown⟩, t, ht, hheap⟩ := hstrong
  have htargets : targets = .singleton p := OrderedSet.eq_singleton_of_size hsize hp
  refine ⟨hkind, values, htargets ▸ hops, hv, fun hunknown ↦ ?_, t, ht, hheap⟩
  simp [hunknown, Offset.isUnknown] at hknown

/-- All that a node does not overwrite is kept. -/
theorem mem_passed_of_mem (hv : v ∈ map.contents p.target p.offset) (hnot : ¬g.Overwrites n p) :
    v ∈ (g.passed n map).contents p.target p.offset := by
  unfold passed
  split
  · rename_i values targets hkind hops
    refine List.foldlRecOn (motive := fun out ↦ v ∈ MemoryMap.contents out p.target p.offset) targets.toList _ hv
      fun out hout q hq ↦ ?_
    split
    · exact hout
    · refine NodeMemory.mem_written hout fun hstrong _ ht ho hvalues ↦ absurd ?_ hnot
      have hpq : p = q := by
        cases p
        cases q
        simp_all
      exact hpq ▸ overwrites_of_strong hkind (operandSets?_eq_some_iff.1 hops) hq hvalues hstrong
  · exact grows_copiedAll.contents p.target p.offset hv
  · exact hv

/-- What a store writes through one of its targets is not lost by its other writes. -/
theorem mem_passed_of_store (hkind : n.kind = .store) (hops : Transfer.Operands g n values targets)
    (hp : p ∈ targets) (hproper : p.isSentinel = false) (hv : v ∈ values) :
    v ∈ (g.passed n map).contents p.target p.offset := by
  obtain ⟨before, after, hlist⟩ := List.append_of_mem (show p ∈ targets.toList from hp)
  rw [passed_of_store hkind hops, stored, hlist, List.foldl_append, List.foldl_cons, if_neg (by simp [hproper])]
  refine List.foldlRecOn (motive := fun out ↦ v ∈ MemoryMap.contents out p.target p.offset) after _
    (NodeMemory.mem_written_self hv) fun out hout q _ ↦ ?_
  split
  · exact hout
  · exact NodeMemory.mem_written hout fun _ _ _ _ _ ↦ hv

end Graph

namespace Graph

/-- A store writes a value through a pointer that is no sentinel. -/
def Stores (g : Graph) (id : NodeId) (p v : Pointer) : Prop :=
  ∃ n values targets, g.nodes[id]? = some n ∧ n.kind = .store ∧ Transfer.Operands g n values targets ∧
    p ∈ targets ∧ p.isSentinel = false ∧ v ∈ values

theorem Stores.proper {g : Graph} {id : NodeId} {p v : Pointer} (h : g.Stores id p v) : p.isSentinel = false := by
  obtain ⟨-, -, -, -, -, -, -, hproper, -⟩ := h
  exact hproper

/-- A load may read what stands at a place. -/
def Loads (g : Graph) (n : Node) (p : Pointer) : Prop :=
  n.kind = .load ∧ ∃ pointer targets q, n.operand? 0 = some pointer ∧ g.pointsTo pointer = .ok targets ∧
    q ∈ targets ∧ q.target = p.target ∧ (q.offset = p.offset ∨ p.offset = .unknown ∨ q.offset = .unknown)

/-- Every control edge is known at both of its ends. -/
def Mirrored (g : Graph) : Prop := ∀ a ∈ g.ids, ∀ b ∈ g.successors a, a ∈ g.predecessors b

instance (g : Graph) : Decidable g.Mirrored :=
  inferInstanceAs (Decidable (∀ a ∈ g.ids, ∀ b ∈ g.successors a, a ∈ g.predecessors b))

/-- Nodes that follow each other along control edges. -/
def IsPath (g : Graph) (path : List NodeId) : Prop := path.IsChain fun a b ↦ b ∈ g.successors a

instance (g : Graph) (path : List NodeId) : Decidable (g.IsPath path) :=
  inferInstanceAs (Decidable (path.IsChain fun a b ↦ b ∈ g.successors a))

theorem Mirrored.predecessor {g : Graph} {a b : NodeId} (hg : g.Mirrored) (hab : b ∈ g.successors a) :
    ∃ n, g.nodes[b]? = some n ∧ a ∈ n.predecessors := by
  obtain ⟨n, hn, -⟩ := mem_successors.1 hab
  exact mem_predecessors.1 (hg a (mem_ids.2 (lt_size_of_node hn)) b hab)

end Graph

namespace Solve

variable {σ : Type} {L : CallLinker σ} {s s' t : Solving NodeMemory σ} {r : Round} {id : NodeId} {n : Node}

theorem Rested.entered_eq {m : NodeMemory} {e : Effect NodeMemory} (h : Rested L id s s' n m e) :
    m = s.solver.memory.entered id n := by
  obtain ⟨n', hn', rfl⟩ := NodeMemory.enter_eq_ok_iff.1 h.enter
  obtain rfl := Option.mem_unique hn' h.node
  rfl

/-- A visit without a change finds, as the memory after the node, what the node passes on. -/
theorem Rested.get?_eq {m : NodeMemory} {e : Effect NodeMemory} (h : Rested L id s s' n m e) :
    s.solver.memory.maps.get? id = some (s.solver.memory.remade (L.graph s.host) n) ∧
      s'.solver.memory.maps = s.solver.memory.maps := by
  obtain rfl := h.entered_eq
  have hout := (Transfer.effect_passed rfl h.effect).1
  have hcurrent : e.memory.current = some (id, s.solver.memory.remade (L.graph s.host) n) := by
    rw [hout]
    rfl
  obtain ⟨hmap, hmaps⟩ := NodeMemory.leave_of_current hcurrent h.left
  rw [h.memory, hmaps, hout]
  rw [hout] at hmap
  exact ⟨hmap, rfl⟩

/-- After a round that changes nothing, the memory after each node is what the node makes of what its
predecessors leave, and the node has gained all that it may. -/
theorem remade_of_settled (hL : L.Lawful) (h : Leads L (outset L s) (r, t)) (hr : Settled r)
    (hn : (L.graph t.host).nodes[id]? = some n) :
    t.solver.memory.maps.get? id = some (t.solver.memory.remade (L.graph t.host) n) ∧
      ∃ e, Transfer.effect (L.graph t.host) t.solver.maxOffset id n (t.solver.memory.entered id n) = .ok e ∧
        e.gained ⊆ n.pointsTo := by
  obtain ⟨t₀, done, -, hquiet, hdone⟩ := h.quiet hL hr.2
  rw [Worklist.pop_eq_none hr.1, List.append_nil] at hdone
  obtain ⟨hgraph, hmax, hmemory, hrested⟩ := hquiet.rested hL
    (K := fun m ↦ m.maps = t₀.solver.memory.maps) (fun hr hK ↦ hr.get?_eq.2.trans hK) rfl
  have hid : id ∈ done := by
    rw [hdone, ← hgraph]
    exact Graph.mem_ids.2 (Graph.lt_size_of_node hn)
  obtain ⟨u, u', n', m, e, hr, hgraph', hmax', hK, -⟩ := hrested id hid
  have hsame : L.graph u.host = L.graph t.host := hgraph'.trans hgraph.symm
  obtain rfl := Option.mem_unique hr.node (hsame ▸ hn)
  -- The visited state has the maps of the last one, and nothing else of its memory matters.
  have hmaps : u.solver.memory.maps = t.solver.memory.maps := hK.trans hmemory.symm
  have hincoming : u.solver.memory.incoming = t.solver.memory.incoming := by
    funext predecessors
    rw [NodeMemory.incoming, hmaps]
    rfl
  have hmap := hr.get?_eq.1
  rw [NodeMemory.remade, hmaps, hincoming, hsame] at hmap
  have heffect := hr.effect
  rw [hr.entered_eq, hsame, NodeMemory.entered, hmaps, hincoming, hmax'.trans hmax.symm] at heffect
  exact ⟨hmap, e, heffect, hr.gained⟩

/-- The memory after a node holds a value at a place. -/
def Holds (t : Solving NodeMemory σ) (p v : Pointer) (id : NodeId) : Prop :=
  ∃ map, t.solver.memory.maps.get? id = some map ∧ v ∈ map.contents p.target p.offset

variable {a b : NodeId} {p v : Pointer} {mid : List NodeId}

/-- What the memory after a node holds enters its successors. -/
theorem Holds.enters (ha : Holds t p v a) (hmirrored : (L.graph t.host).Mirrored)
    (hab : b ∈ (L.graph t.host).successors a) :
    ∃ n, (L.graph t.host).nodes[b]? = some n ∧
      v ∈ (t.solver.memory.incoming n.predecessors).contents p.target p.offset := by
  obtain ⟨n, hn, hpred⟩ := hmirrored.predecessor hab
  obtain ⟨map, hmap, hv⟩ := ha
  exact ⟨n, hn, NodeMemory.mem_incoming.2 ⟨a, hpred, map, hmap, hv⟩⟩

/-- A value is handed on from node to node until it is overwritten. -/
theorem Holds.along (ha : Holds t p v a) (hL : L.Lawful) (h : Leads L (outset L s) (r, t)) (hr : Settled r)
    (hmirrored : (L.graph t.host).Mirrored)
    (hpath : (L.graph t.host).IsPath (a :: (mid ++ [b])))
    (hkept : ∀ c ∈ mid, ∀ n, (L.graph t.host).nodes[c]? = some n → ¬(L.graph t.host).Overwrites n p) :
    ∃ c, Holds t p v c ∧ b ∈ (L.graph t.host).successors c := by
  induction mid generalizing a with
  | nil => exact ⟨a, ha, (List.isChain_cons_cons.1 hpath).1⟩
  | cons c rest ih =>
    obtain ⟨hac, hrest⟩ := List.isChain_cons_cons.1 hpath
    obtain ⟨n, hn, hv⟩ := ha.enters hmirrored hac
    have hc : Holds t p v c := ⟨_, (remade_of_settled hL h hr hn).1,
      Graph.mem_passed_of_mem hv (hkept c List.mem_cons_self n hn)⟩
    exact ih hc hrest fun d hd ↦ hkept d (List.mem_cons_of_mem _ hd)

theorem Holds.of_stores (hL : L.Lawful) (h : Leads L (outset L s) (r, t)) (hr : Settled r)
    (hstores : (L.graph t.host).Stores a p v) : Holds t p v a := by
  obtain ⟨n, values, targets, hn, hkind, hops, hp, hproper, hv⟩ := hstores
  exact ⟨_, (remade_of_settled hL h hr hn).1, Graph.mem_passed_of_store hkind hops hp hproper hv⟩

/-- A load has every value that enters it at a place that it may read. -/
theorem mem_pointsTo_of_enters (hL : L.Lawful) (h : Leads L (outset L s) (r, t)) (hr : Settled r)
    (hn : (L.graph t.host).nodes[b]? = some n) (hloads : (L.graph t.host).Loads n p) (hproper : p.isSentinel = false)
    (hv : v ∈ (t.solver.memory.incoming n.predecessors).contents p.target p.offset) : v ∈ n.pointsTo := by
  obtain ⟨hkind, pointer, targets, q, hpointer, htargets, hq, htarget, hoffset⟩ := hloads
  obtain ⟨-, e, heffect, hgained⟩ := remade_of_settled hL h hr hn
  obtain ⟨targets', htargets', htotal, hmem⟩ :=
    Transfer.mem_load hpointer (Transfer.effect_load hkind heffect)
  obtain rfl := Except.ok.inj (htargets.symm.trans htargets')
  have hqproper : q.isSentinel = false := by
    simpa [Pointer.isSentinel, Pointer.isNull, Pointer.isUnknown, htarget] using hproper
  obtain ⟨read, hread⟩ := htotal q hq hqproper
  refine hgained v ((hmem v).2 ⟨q, hq, .inr ⟨hqproper, read, hread, ?_⟩⟩)
  refine NodeMemory.mem_load_of_current rfl hread (MemoryObject.mem_read.2 ?_)
  rw [htarget]
  rcases hoffset with ho | ho | ho
  · exact .inl (ho ▸ hv)
  · exact .inr (.inl (ho ▸ hv))
  · exact .inr (.inr ⟨ho, p.offset, hv⟩)

/-- After a run with a memory per node that succeeds, a load has the value of every store from which a
path leads to it that does not overwrite the place. -/
theorem mem_pointsTo_of_store_path (hL : L.Lawful) {budget : Nat} {stats : SolverStats}
    (hrun : run L budget s = .ok stats s') (hmirrored : (L.graph s'.host).Mirrored)
    (hstores : (L.graph s'.host).Stores a p v)
    (hpath : (L.graph s'.host).IsPath (a :: (mid ++ [b])))
    (hkept : ∀ c ∈ mid, ∀ n, (L.graph s'.host).nodes[c]? = some n → ¬(L.graph s'.host).Overwrites n p)
    (hn : (L.graph s'.host).nodes[b]? = some n) (hloads : (L.graph s'.host).Loads n p) : v ∈ n.pointsTo := by
  obtain ⟨r, t, h, hr, halike⟩ := leads_of_run hL hrun
  rw [halike.graph] at hmirrored hstores hpath hkept hn hloads
  obtain ⟨c, hc, hcb⟩ := (Holds.of_stores hL h hr hstores).along hL h hr hmirrored hpath hkept
  obtain ⟨n', hn', hv⟩ := hc.enters hmirrored hcb
  obtain rfl := Option.mem_unique hn hn'
  exact mem_pointsTo_of_enters hL h hr hn hloads hstores.proper hv

/-- A slot receives an object and another slot another one before the first slot is read. -/
def relay : Graph where
  nodes := Graph.sentinels.nodes ++
    [{ kind := .alloc, pointsTo := .singleton ⟨2, .zero⟩ },
      { kind := .alloc, pointsTo := .singleton ⟨3, .zero⟩ },
      { kind := .store, operands := [3, 2], successors := [5] },
      { kind := .store, operands := [2, 3], successors := [6], predecessors := [4] },
      { kind := .load, operands := [2], predecessors := [5] }]

/-- The solved form of `relay`. -/
def relayed : Graph :=
  relay.update 6 fun n ↦ { n with pointsTo := .singleton ⟨3, .zero⟩ }

theorem mem_pointsTo_of_store_path_relay : ∃ stats s',
    run LoneGraph.linker 20 (lone NodeMemory relay 64) = .ok stats s' ∧ s'.host.graph = relayed ∧
      relayed.Mirrored ∧ relayed.Stores 4 ⟨2, .zero⟩ ⟨3, .zero⟩ ∧ relayed.IsPath (4 :: ([5] ++ [6])) ∧
      ∃ n, relayed.nodes[6]? = some n ∧ relayed.Loads n ⟨2, .zero⟩ ∧ ⟨3, .zero⟩ ∈ n.pointsTo := by
  have hrun : Stateful.succeeds (fun _ s ↦ decide (s.host.graph = relayed))
      (run LoneGraph.linker 20 (lone NodeMemory relay 64)) = true := by
    decide +kernel
  obtain ⟨stats, s', h, hgraph⟩ := Stateful.ok_of_succeeds hrun
  have hgraph : LoneGraph.linker.graph s'.host = relayed := of_decide_eq_true hgraph
  have hmirrored : relayed.Mirrored := by decide
  have hstores : relayed.Stores 4 ⟨2, .zero⟩ ⟨3, .zero⟩ :=
    ⟨_, _, _, rfl, rfl, ⟨3, 2, rfl, rfl, rfl, rfl⟩, OrderedSet.mem_singleton.2 rfl, rfl,
      OrderedSet.mem_singleton.2 rfl⟩
  have hpath : relayed.IsPath (4 :: ([5] ++ [6])) := by decide
  -- The store between them writes elsewhere.
  have hkept : ∀ c ∈ [5], ∀ n, relayed.nodes[c]? = some n → ¬relayed.Overwrites n ⟨2, .zero⟩ := by
    intro c hc n hn ⟨_, values, ⟨a, b, _, hb, _, ht⟩, _⟩
    obtain rfl := List.mem_singleton.1 hc
    obtain rfl := Option.some.inj hn
    obtain rfl := Option.some.inj hb
    have hsame : OrderedSet.singleton (⟨3, .zero⟩ : Pointer) = .singleton ⟨2, .zero⟩ := Except.ok.inj ht
    exact absurd hsame (by decide)
  obtain ⟨n, hn, hloads⟩ : ∃ n, relayed.nodes[6]? = some n ∧ relayed.Loads n ⟨2, .zero⟩ :=
    ⟨_, rfl, rfl, 2, _, ⟨2, .zero⟩, rfl, rfl, OrderedSet.mem_singleton.2 rfl, rfl, .inl rfl⟩
  refine ⟨stats, s', h, hgraph, hmirrored, hstores, hpath, n, hn, hloads, ?_⟩
  rw [← hgraph] at hmirrored hstores hpath hkept hn hloads
  exact mem_pointsTo_of_store_path LoneGraph.linker_lawful h hmirrored hstores hpath hkept hn hloads

end Solve

end PointsTo
