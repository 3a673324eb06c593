import PointsTo.Graph
import PointsTo.Proofs.Execution
import PointsTo.Proofs.Sets

/-!
# Nodes of a growing graph

While a graph is solved, its nodes keep all they have and gain pointers and operands.  `Precedes`
is this order on graphs, and `Embeds` leaves the pointers aside: what a node was asked to do before,
it is asked to do after.
-/

namespace PointsTo

variable {g h k : Graph} {id j : NodeId} {n : Node}

namespace Graph

theorem node_eq_ok_iff : g.node id = .ok n ↔ g.nodes[id]? = some n := Query.lookup_eq_ok_iff

theorem pointsTo_eq_ok_iff {s : PointerSet} :
    g.pointsTo id = .ok s ↔ ∃ n, g.nodes[id]? = some n ∧ n.pointsTo = s := by
  simp only [pointsTo, Query.bind_eq_ok_iff, Query.pure_eq_ok_iff, node_eq_ok_iff]

theorem lt_size_of_node (hn : g.nodes[id]? = some n) : id < g.size :=
  (List.getElem?_eq_some_iff.1 hn).1

theorem exists_node (hid : id < g.size) : ∃ n, g.nodes[id]? = some n :=
  ⟨_, List.getElem?_eq_getElem hid⟩

theorem mem_ids : id ∈ g.ids ↔ id < g.size := List.mem_range

theorem mem_successors : j ∈ g.successors id ↔ ∃ n, g.nodes[id]? = some n ∧ j ∈ n.successors := by
  unfold successors
  cases g.nodes[id]? with
  | none => simp
  | some n => simp

theorem mem_predecessors : j ∈ g.predecessors id ↔ ∃ n, g.nodes[id]? = some n ∧ j ∈ n.predecessors := by
  unfold predecessors
  cases g.nodes[id]? with
  | none => simp
  | some n => simp

/-- Bytes allocated for a target, zero if unknown. -/
def sizeAt (g : Graph) (t : NodeId) : Nat := ((g.nodes[t]?).map (·.size)).getD 0

/-- The memory of a target is zeroed when it is allocated. -/
def Zeroed (g : Graph) (t : NodeId) : Prop := ∃ n, g.nodes[t]? = some n ∧ n.zeroed = true

theorem Zeroed.iff_of_node {t : NodeId} (hn : g.nodes[t]? = some n) : g.Zeroed t ↔ n.zeroed = true :=
  ⟨fun ⟨_, hn', hz⟩ ↦ Option.mem_unique hn' hn ▸ hz, fun hz ↦ ⟨n, hn, hz⟩⟩

/-! ## Changing one node -/

@[simp] theorem size_update {f : Node → Node} : (g.update id f).size = g.size := by
  simp [size, update]

theorem nodes_update_self {f : Node → Node} (hn : g.nodes[id]? = some n) :
    (g.update id f).nodes[id]? = some (f n) := by
  simp [update, hn]

theorem nodes_update_of_ne {f : Node → Node} (hne : j ≠ id) :
    (g.update id f).nodes[j]? = g.nodes[j]? := by
  simp [update, hne.symm]

theorem nodes_update {f : Node → Node} :
    (g.update id f).nodes[j]? = if j = id then (g.nodes[j]?).map f else g.nodes[j]? := by
  by_cases hne : j = id
  · subst hne
    simp [update]
  · simp [nodes_update_of_ne hne, hne]

theorem update_congr {f f' : Node → Node} (hf : ∀ n, g.nodes[id]? = some n → f n = f' n) :
    g.update id f = g.update id f' := by
  have hnodes : (g.update id f).nodes = (g.update id f').nodes := by
    refine List.ext_getElem? fun j ↦ ?_
    rw [nodes_update, nodes_update]
    split
    · rename_i hj
      subst hj
      cases hj : g.nodes[j]? with
      | none => rfl
      | some n => simp [hf n hj]
    · rfl
  simpa [update] using hnodes

theorem update_eq_self {f : Node → Node} (hf : ∀ n, g.nodes[id]? = some n → f n = n) :
    g.update id f = g := by
  rw [update_congr hf, update]
  exact congrArg (Graph.mk · g.root) (List.modify_id id g.nodes)

/-- An operand is added at the end of the list of one node; no pointers change. -/
theorem nodes_addOperand {op : NodeId} {m : Node} (hm : (g.addOperand id op).nodes[j]? = some m) :
    ∃ n, g.nodes[j]? = some n ∧ m.pointsTo = n.pointsTo ∧
      m.operands = n.operands ++ if j = id then [op] else [] := by
  -- The second update records the user, and that is all.
  obtain ⟨l, hl, hpts, hops⟩ : ∃ l,
      (g.update id fun n ↦ { n with operands := n.operands ++ [op] }).nodes[j]? = some l ∧
        m.pointsTo = l.pointsTo ∧ m.operands = l.operands := by
    rw [addOperand, nodes_update] at hm
    split at hm
    · obtain ⟨l, hl, rfl⟩ := Option.map_eq_some_iff.1 hm
      exact ⟨l, hl, by split <;> exact ⟨rfl, rfl⟩⟩
    · exact ⟨m, hm, rfl, rfl⟩
  rw [nodes_update] at hl
  split at hl
  · rename_i hj
    obtain ⟨n, hn, rfl⟩ := Option.map_eq_some_iff.1 hl
    exact ⟨n, hn, hpts, by rw [hops, if_pos hj]⟩
  · rename_i hj
    exact ⟨l, hl, hpts, by rw [hops, if_neg hj, List.append_nil]⟩

end Graph

/-! ## Growth -/

/-- The later node has all operands of the earlier one, and pointers aside they are the same. -/
structure Node.Embeds (n m : Node) : Prop where
  operands : n.operands <+: m.operands
  kind : n.kind = m.kind
  successors : n.successors = m.successors
  predecessors : n.predecessors = m.predecessors
  paired : n.paired = m.paired
  offset : n.offset = m.offset
  length : n.length = m.length
  size : n.size = m.size
  heap : n.heap = m.heap
  zeroed : n.zeroed = m.zeroed

/-- The later node has all operands and pointers of the earlier one. -/
structure Node.Precedes (n m : Node) : Prop extends n.Embeds m where
  pointsTo : n.pointsTo ⊆ m.pointsTo

namespace Node

variable {n m l : Node}

theorem Embeds.refl (n : Node) : n.Embeds n :=
  ⟨List.prefix_refl _, rfl, rfl, rfl, rfl, rfl, rfl, rfl, rfl, rfl⟩

theorem Embeds.trans (hnm : n.Embeds m) (hml : m.Embeds l) : n.Embeds l where
  operands := hnm.operands.trans hml.operands
  kind := hnm.kind.trans hml.kind
  successors := hnm.successors.trans hml.successors
  predecessors := hnm.predecessors.trans hml.predecessors
  paired := hnm.paired.trans hml.paired
  offset := hnm.offset.trans hml.offset
  length := hnm.length.trans hml.length
  size := hnm.size.trans hml.size
  heap := hnm.heap.trans hml.heap
  zeroed := hnm.zeroed.trans hml.zeroed

/-- Operands are appended, so an operand keeps its position. -/
theorem Embeds.operand? (h : n.Embeds m) {i : Nat} {op : NodeId} (hop : n.operand? i = some op) :
    m.operand? i = some op := by
  obtain ⟨rest, hrest⟩ := h.operands
  rw [Node.operand?] at hop ⊢
  rw [← hrest, List.getElem?_append_left (List.getElem?_eq_some_iff.1 hop).1]
  exact hop

theorem Precedes.refl (n : Node) : n.Precedes n := ⟨.refl n, OrderedSet.subset_refl _⟩

theorem Precedes.trans (hnm : n.Precedes m) (hml : m.Precedes l) : n.Precedes l :=
  ⟨hnm.toEmbeds.trans hml.toEmbeds, fun p hp ↦ hml.pointsTo p (hnm.pointsTo p hp)⟩

end Node

/-- No nodes are added, and each node embeds into its later form. -/
structure Graph.Embeds (g h : Graph) : Prop where
  size : g.size = h.size
  node : ∀ {id : NodeId} {n m : Node}, g.nodes[id]? = some n → h.nodes[id]? = some m → n.Embeds m

/-- No nodes are added, and each node precedes its later form. -/
structure Graph.Precedes (g h : Graph) : Prop where
  size : g.size = h.size
  node : ∀ {id : NodeId} {n m : Node}, g.nodes[id]? = some n → h.nodes[id]? = some m → n.Precedes m

namespace Graph

theorem Embeds.later (hgh : g.Embeds h) (hn : g.nodes[id]? = some n) :
    ∃ m, h.nodes[id]? = some m ∧ n.Embeds m := by
  obtain ⟨m, hm⟩ := exists_node (g := h) (hgh.size ▸ lt_size_of_node hn)
  exact ⟨m, hm, hgh.node hn hm⟩

theorem Embeds.earlier (hgh : g.Embeds h) {m : Node} (hm : h.nodes[id]? = some m) :
    ∃ n, g.nodes[id]? = some n ∧ n.Embeds m := by
  obtain ⟨n, hn⟩ := exists_node (g := g) (hgh.size ▸ lt_size_of_node hm)
  exact ⟨n, hn, hgh.node hn hm⟩

/-- What embedding keeps of a node is the same in both graphs. -/
theorem Embeds.map_eq (hgh : g.Embeds h) {α : Type} {f : Node → α} (hf : ∀ n m, n.Embeds m → f n = f m)
    (t : NodeId) : (g.nodes[t]?).map f = (h.nodes[t]?).map f := by
  cases hn : g.nodes[t]? with
  | none =>
    have ht : h.nodes[t]? = none := by
      rw [List.getElem?_eq_none_iff] at hn ⊢
      exact le_trans hgh.size.ge hn
    rw [ht]
  | some n =>
    obtain ⟨m, hm, hnm⟩ := hgh.later hn
    rw [hm, Option.map_some, Option.map_some, hf n m hnm]

theorem Embeds.sizeAt_eq (hgh : g.Embeds h) (t : NodeId) : g.sizeAt t = h.sizeAt t := by
  rw [sizeAt, sizeAt, hgh.map_eq fun _ _ hnm ↦ hnm.size]

theorem Embeds.zeroed_iff (hgh : g.Embeds h) {t : NodeId} : g.Zeroed t ↔ h.Zeroed t := by
  constructor
  · rintro ⟨n, hn, hz⟩
    obtain ⟨m, hm, hnm⟩ := hgh.later hn
    exact ⟨m, hm, hnm.zeroed ▸ hz⟩
  · rintro ⟨m, hm, hz⟩
    obtain ⟨n, hn, hnm⟩ := hgh.earlier hm
    exact ⟨n, hn, hnm.zeroed ▸ hz⟩

namespace Precedes

theorem embeds (hgh : g.Precedes h) : g.Embeds h := ⟨hgh.size, fun hn hm ↦ (hgh.node hn hm).toEmbeds⟩

theorem refl (g : Graph) : g.Precedes g :=
  ⟨rfl, fun hn hm ↦ Option.mem_unique hn hm ▸ Node.Precedes.refl _⟩

theorem later (hgh : g.Precedes h) (hn : g.nodes[id]? = some n) :
    ∃ m, h.nodes[id]? = some m ∧ n.Precedes m := by
  obtain ⟨m, hm, -⟩ := hgh.embeds.later hn
  exact ⟨m, hm, hgh.node hn hm⟩

theorem earlier (hgh : g.Precedes h) {m : Node} (hm : h.nodes[id]? = some m) :
    ∃ n, g.nodes[id]? = some n ∧ n.Precedes m := by
  obtain ⟨n, hn, -⟩ := hgh.embeds.earlier hm
  exact ⟨n, hn, hgh.node hn hm⟩

theorem pointsTo_later (hgh : g.Precedes h) {s : PointerSet} (hs : g.pointsTo id = .ok s) :
    ∃ t, h.pointsTo id = .ok t ∧ s ⊆ t := by
  obtain ⟨n, hn, rfl⟩ := pointsTo_eq_ok_iff.1 hs
  obtain ⟨m, hm, hnm⟩ := hgh.later hn
  exact ⟨m.pointsTo, pointsTo_eq_ok_iff.2 ⟨m, hm, rfl⟩, hnm.pointsTo⟩

theorem trans (hgh : g.Precedes h) (hhk : h.Precedes k) : g.Precedes k := by
  refine ⟨hgh.size.trans hhk.size, fun hn hl ↦ ?_⟩
  obtain ⟨m, hm, hnm⟩ := hgh.later hn
  exact hnm.trans (hhk.node hm hl)

/-- Changing one node to a later form of it. -/
theorem update {f : Node → Node} (hf : ∀ n, g.nodes[id]? = some n → n.Precedes (f n)) :
    g.Precedes (g.update id f) := by
  refine ⟨size_update.symm, fun {j n m} hn hm ↦ ?_⟩
  rw [nodes_update] at hm
  split at hm
  · rename_i hj
    subst hj
    rw [hn, Option.map_some, Option.some.injEq] at hm
    exact hm ▸ hf n hn
  · rw [hn, Option.some.injEq] at hm
    exact hm ▸ Node.Precedes.refl n

theorem addOperand {op : NodeId} : g.Precedes (g.addOperand id op) := by
  refine (update fun n _ ↦ ?_).trans (update fun n _ ↦ ?_)
  · exact { Node.Precedes.refl n with operands := List.prefix_append _ _ }
  · split
    · exact Node.Precedes.refl n
    · exact { Node.Precedes.refl n with }

end Precedes

end Graph

end PointsTo
