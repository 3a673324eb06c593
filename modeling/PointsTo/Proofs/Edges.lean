import Mathlib.Data.List.Basic
import PointsTo.Proofs.Nodes

/-!
# Control edges of a graph under construction

A graph is built by adding nodes, operands and control edges.  Nodes keep their kind, their partner,
their value and the operands that they have.  Control edges come and go: what each operation does to
them is said here by the successors of each node before and after.  Every operation keeps the edges
recorded at both of their ends.
-/

namespace PointsTo

variable {g h k : Graph} {a b x y id first last : NodeId} {n m l : Node} {f : Node → Node}

/-! ## What nodes keep -/

/-- The later node has the kind and partner of the earlier one, its value if it had one, its operands
and its pointers. -/
structure Node.Persists (n m : Node) : Prop where
  kind : m.kind = n.kind
  paired : m.paired = n.paired
  value : ∀ v, n.value = some v → m.value = some v
  operands : n.operands <+: m.operands
  pointsTo : n.pointsTo ⊆ m.pointsTo

namespace Node.Persists

theorem refl (n : Node) : n.Persists n := ⟨rfl, rfl, fun _ h ↦ h, List.prefix_refl _, fun _ h ↦ h⟩

theorem trans (hnm : n.Persists m) (hml : m.Persists l) : n.Persists l where
  kind := hml.kind.trans hnm.kind
  paired := hml.paired.trans hnm.paired
  value v hv := hml.value v (hnm.value v hv)
  operands := hnm.operands.trans hml.operands
  pointsTo p hp := hml.pointsTo p (hnm.pointsTo p hp)

end Node.Persists

/-- A node without its control edges. -/
def Node.core (n : Node) : Node := { n with successors := [], predecessors := [] }

/-- Each node persists in the later graph. -/
structure Graph.Persists (g h : Graph) : Prop where
  node : ∀ {id : NodeId} {n : Node}, g.nodes[id]? = some n → ∃ m, h.nodes[id]? = some m ∧ n.Persists m

namespace Graph

namespace Persists

theorem refl (g : Graph) : g.Persists g := ⟨fun {_ n} hn ↦ ⟨n, hn, .refl n⟩⟩

theorem trans (hgh : g.Persists h) (hhk : h.Persists k) : g.Persists k := by
  refine ⟨fun hn ↦ ?_⟩
  obtain ⟨m, hm, hnm⟩ := hgh.node hn
  obtain ⟨l, hl, hml⟩ := hhk.node hm
  exact ⟨l, hl, hnm.trans hml⟩

theorem size_le (hgh : g.Persists h) : g.size ≤ h.size := by
  by_contra hlt
  obtain ⟨n, hn⟩ := exists_node (g := g) (not_le.1 hlt)
  obtain ⟨m, hm, -⟩ := hgh.node hn
  exact absurd (lt_size_of_node hm) (lt_irrefl _)

theorem update (hf : ∀ n, g.nodes[id]? = some n → n.Persists (f n)) : g.Persists (g.update id f) := by
  refine ⟨fun {j n} hn ↦ ?_⟩
  by_cases hj : j = id
  · subst hj
    exact ⟨f n, nodes_update_self hn, hf n hn⟩
  · exact ⟨n, (nodes_update_of_ne hj).trans hn, .refl n⟩

theorem foldl {α : Type} {op : Graph → α → Graph} (hop : ∀ (h : Graph) a, h.Persists (op h a)) (items : List α) :
    g.Persists (items.foldl op g) :=
  List.foldlRecOn (motive := g.Persists) items op (refl g) fun h hgh a _ ↦ hgh.trans (hop h a)

theorem addOperand : g.Persists (g.addOperand a b) := by
  refine (update fun n _ ↦ ?_).trans (update fun n _ ↦ ?_)
  · exact { Node.Persists.refl n with operands := List.prefix_append _ _ }
  · split
    · exact .refl n
    · exact { Node.Persists.refl n with }

theorem addOperands {ops : List NodeId} : g.Persists (g.addOperands a ops) := foldl (fun _ _ ↦ addOperand) ops

theorem create : g.Persists (g.create n).2 := by
  refine ⟨fun {id m} hm ↦ ?_⟩
  refine ⟨m, ?_, .refl m⟩
  change (g.nodes ++ [n])[id]? = some m
  rw [List.getElem?_append_left (lt_size_of_node hm), hm]

theorem createWith {ops : List NodeId} : g.Persists (g.createWith n ops).2 := create.trans addOperands

end Persists

/-- The operands that are added to a node are its last. -/
theorem nodes_addOperands {ops : List NodeId} (hm : (g.addOperands a ops).nodes[x]? = some m) :
    ∃ n, g.nodes[x]? = some n ∧ m.operands = n.operands ++ if x = a then ops else [] := by
  induction ops generalizing g with
  | nil => exact ⟨m, hm, by simp⟩
  | cons op ops ih =>
    obtain ⟨l, hl, hml⟩ := ih (g := g.addOperand a op) hm
    obtain ⟨n, hn, -, hln⟩ := nodes_addOperand hl
    refine ⟨n, hn, ?_⟩
    rw [hml, hln]
    split <;> simp

theorem map_nodes_update {α : Type} {view : Node → α} {f : Node → Node} (hf : ∀ n, view (f n) = view n) :
    ((g.update a f).nodes[x]?).map view = (g.nodes[x]?).map view := by
  rw [nodes_update]
  split
  · simp [Function.comp_def, hf]
  · rfl

/-- Operands leave the values of nodes alone. -/
theorem value_addOperands {ops : List NodeId} :
    ((g.addOperands a ops).nodes[x]?).map (·.value) = (g.nodes[x]?).map (·.value) := by
  refine List.foldlRecOn (motive := fun h : Graph ↦ (h.nodes[x]?).map (·.value) = (g.nodes[x]?).map (·.value)) ops _
    rfl fun h hh op _ ↦ ?_
  rw [← hh, addOperand, map_nodes_update, map_nodes_update]
  · exact fun _ ↦ rfl
  · intro n
    split <;> rfl

/-! ## What control edges leave alone -/

/-- The graphs differ in their control edges only. -/
structure Rewired (g h : Graph) : Prop where
  core : ∀ id : NodeId, (h.nodes[id]?).map Node.core = (g.nodes[id]?).map Node.core

namespace Rewired

theorem refl (g : Graph) : g.Rewired g := ⟨fun _ ↦ rfl⟩

theorem trans (hgh : g.Rewired h) (hhk : h.Rewired k) : g.Rewired k :=
  ⟨fun id ↦ (hhk.core id).trans (hgh.core id)⟩

theorem update (hf : ∀ n, (f n).core = n.core) : g.Rewired (g.update a f) := by
  refine ⟨fun id ↦ ?_⟩
  rw [nodes_update]
  split
  · rw [Option.map_map]
    exact congrArg (Option.map · g.nodes[id]?) (funext hf)
  · rfl

theorem foldl {α : Type} {op : Graph → α → Graph} (hop : ∀ (h : Graph) a, h.Rewired (op h a)) (items : List α) :
    g.Rewired (items.foldl op g) :=
  List.foldlRecOn (motive := g.Rewired) items op (refl g) fun h hgh a _ ↦ hgh.trans (hop h a)

theorem addSuccessor : g.Rewired (g.addSuccessor a b) := by
  unfold Graph.addSuccessor
  split
  · exact refl g
  · apply trans (update fun n ↦ ?_) (update fun n ↦ ?_)
    · rfl
    · rfl

theorem removeSuccessor : g.Rewired (g.removeSuccessor a b) := by
  apply trans (update fun n ↦ ?_) (update fun n ↦ ?_)
  · rfl
  · rfl

theorem redirect : g.Rewired (g.redirect a b) := (foldl (fun _ _ ↦ removeSuccessor) _).trans addSuccessor

theorem spliceAfter : g.Rewired (g.spliceAfter a first last) :=
  (foldl (fun _ _ ↦ removeSuccessor.trans addSuccessor) _).trans addSuccessor

theorem spliceBefore : g.Rewired (g.spliceBefore a first last) :=
  (foldl (fun _ _ ↦ removeSuccessor.trans addSuccessor) _).trans addSuccessor

theorem node (hgh : g.Rewired h) (hn : g.nodes[id]? = some n) : ∃ m, h.nodes[id]? = some m ∧ m.core = n.core := by
  have hcore := hgh.core id
  rw [hn, Option.map_some, Option.map_eq_some_iff] at hcore
  exact hcore

theorem persists (hgh : g.Rewired h) : g.Persists h := by
  refine ⟨fun {_ n} hn ↦ ?_⟩
  obtain ⟨m, hm, hcore⟩ := hgh.node hn
  have hoperands : m.operands = n.operands := congrArg (·.operands) hcore
  have hvalue : m.value = n.value := congrArg (·.value) hcore
  have hpointsTo : m.pointsTo = n.pointsTo := congrArg (·.pointsTo) hcore
  exact ⟨m, hm, congrArg (·.kind) hcore, congrArg (·.paired) hcore, fun v hv ↦ hvalue.trans hv,
    hoperands ▸ List.prefix_refl _, fun _ hp ↦ hpointsTo ▸ hp⟩

theorem size_eq (hgh : g.Rewired h) : h.size = g.size := by
  refine Nat.le_antisymm ?_ hgh.persists.size_le
  exact (show h.Rewired g from ⟨fun id ↦ (hgh.core id).symm⟩).persists.size_le

end Rewired

/-! ## Sizes -/

@[simp] theorem size_addOperand : (g.addOperand a b).size = g.size := by simp [addOperand]

@[simp] theorem size_addOperands {ops : List NodeId} : (g.addOperands a ops).size = g.size :=
  List.foldlRecOn (motive := fun h : Graph ↦ h.size = g.size) ops _ rfl
    fun _ hsize _ _ ↦ size_addOperand.trans hsize

@[simp] theorem size_create : (g.create n).2.size = g.size + 1 := by simp [create, size]

@[simp] theorem size_createWith {ops : List NodeId} : (g.createWith n ops).2.size = g.size + 1 :=
  size_addOperands.trans size_create

@[simp] theorem size_addSuccessor : (g.addSuccessor a b).size = g.size := Rewired.addSuccessor.size_eq

@[simp] theorem size_removeSuccessor : (g.removeSuccessor a b).size = g.size := Rewired.removeSuccessor.size_eq

@[simp] theorem size_redirect : (g.redirect a b).size = g.size := Rewired.redirect.size_eq

@[simp] theorem size_spliceAfter : (g.spliceAfter a first last).size = g.size := Rewired.spliceAfter.size_eq

@[simp] theorem size_spliceBefore : (g.spliceBefore a first last).size = g.size := Rewired.spliceBefore.size_eq

/-- A node that was just created is the last one. -/
theorem nodes_create_self : (g.create n).2.nodes[g.size]? = some n := by simp [create, size]

theorem nodes_create_of_lt (hid : id < g.size) : (g.create n).2.nodes[id]? = g.nodes[id]? :=
  List.getElem?_append_left hid

/-! ## Successors and predecessors -/

theorem successors_of_node (hn : g.nodes[a]? = some n) : g.successors a = n.successors := by
  simp [successors, hn]

theorem predecessors_of_node (hn : g.nodes[a]? = some n) : g.predecessors a = n.predecessors := by
  simp [predecessors, hn]

theorem successors_of_size_le (ha : g.size ≤ a) : g.successors a = [] := by
  simp [successors, List.getElem?_eq_none ha]

theorem predecessors_of_size_le (ha : g.size ≤ a) : g.predecessors a = [] := by
  simp [predecessors, List.getElem?_eq_none ha]

theorem lt_size_of_mem_successors (hb : b ∈ g.successors a) : a < g.size := by
  by_contra ha
  simp [successors_of_size_le (not_lt.1 ha)] at hb

theorem lt_size_of_mem_predecessors (hb : b ∈ g.predecessors a) : a < g.size := by
  by_contra ha
  simp [predecessors_of_size_le (not_lt.1 ha)] at hb

theorem successors_update (hf : ∀ n, (f n).successors = n.successors) :
    (g.update a f).successors x = g.successors x := by
  unfold successors
  rw [nodes_update]
  split
  · cases g.nodes[x]? with
    | none => rfl
    | some n => simp [hf]
  · rfl

theorem predecessors_update (hf : ∀ n, (f n).predecessors = n.predecessors) :
    (g.update a f).predecessors x = g.predecessors x := by
  unfold predecessors
  rw [nodes_update]
  split
  · cases g.nodes[x]? with
    | none => rfl
    | some n => simp [hf]
  · rfl

/-- The graphs have the same control edges. -/
structure SameEdges (g h : Graph) : Prop where
  successors : ∀ x, h.successors x = g.successors x
  predecessors : ∀ x, h.predecessors x = g.predecessors x

namespace SameEdges

theorem refl (g : Graph) : g.SameEdges g := ⟨fun _ ↦ rfl, fun _ ↦ rfl⟩

theorem trans (hgh : g.SameEdges h) (hhk : h.SameEdges k) : g.SameEdges k where
  successors x := (hhk.successors x).trans (hgh.successors x)
  predecessors x := (hhk.predecessors x).trans (hgh.predecessors x)

theorem update (hs : ∀ n, (f n).successors = n.successors) (hp : ∀ n, (f n).predecessors = n.predecessors) :
    g.SameEdges (g.update a f) :=
  ⟨fun _ ↦ successors_update hs, fun _ ↦ predecessors_update hp⟩

theorem addOperand : g.SameEdges (g.addOperand a b) := by
  refine trans (update (fun n ↦ ?_) fun n ↦ ?_) (update (fun n ↦ ?_) fun n ↦ ?_)
  · rfl
  · rfl
  · split <;> rfl
  · split <;> rfl

theorem addOperands {ops : List NodeId} : g.SameEdges (g.addOperands a ops) :=
  List.foldlRecOn (motive := g.SameEdges) ops _ (refl g) fun _ hgh _ _ ↦ hgh.trans addOperand

theorem create (hs : n.successors = []) (hp : n.predecessors = []) : g.SameEdges (g.create n).2 := by
  refine ⟨fun x ↦ ?_, fun x ↦ ?_⟩
  all_goals
    rcases lt_trichotomy x g.size with hx | rfl | hx
  · simp only [Graph.successors, nodes_create_of_lt hx]
  · rw [successors_of_node nodes_create_self, hs, successors_of_size_le le_rfl]
  · rw [successors_of_size_le (by rw [size_create]; exact hx), successors_of_size_le hx.le]
  · simp only [Graph.predecessors, nodes_create_of_lt hx]
  · rw [predecessors_of_node nodes_create_self, hp, predecessors_of_size_le le_rfl]
  · rw [predecessors_of_size_le (by rw [size_create]; exact hx), predecessors_of_size_le hx.le]

theorem createWith {ops : List NodeId} (hs : n.successors = []) (hp : n.predecessors = []) :
    g.SameEdges (g.createWith n ops).2 :=
  (create hs hp).trans addOperands

end SameEdges

/-! ## Adding and removing an edge -/

theorem hasSuccessor_iff : g.hasSuccessor a b = true ↔ b ∈ g.successors a := by
  rw [hasSuccessor, mem_successors]
  cases g.nodes[a]? with
  | none => simp
  | some n => simp

theorem successors_addSuccessor_of_ne (hx : x ≠ a) : (g.addSuccessor a b).successors x = g.successors x := by
  unfold addSuccessor
  split
  · rfl
  · rw [successors_update]
    · simp only [successors, nodes_update_of_ne hx]
    · exact fun _ ↦ rfl

theorem successors_addSuccessor_self (ha : a < g.size) (hb : b ∉ g.successors a) :
    (g.addSuccessor a b).successors a = g.successors a ++ [b] := by
  obtain ⟨n, hn⟩ := exists_node ha
  rw [addSuccessor, if_neg (fun h ↦ hb (hasSuccessor_iff.1 h)), successors_update]
  · rw [successors_of_node (nodes_update_self hn), successors_of_node hn]
  · exact fun _ ↦ rfl

theorem mem_successors_addSuccessor (ha : a < g.size) :
    y ∈ (g.addSuccessor a b).successors x ↔ y ∈ g.successors x ∨ (x = a ∧ y = b) := by
  by_cases hx : x = a
  · subst hx
    by_cases hb : b ∈ g.successors x
    · rw [addSuccessor, if_pos (hasSuccessor_iff.2 hb)]
      constructor
      · exact .inl
      · rintro (hy | ⟨-, rfl⟩)
        · exact hy
        · exact hb
    · simp [successors_addSuccessor_self ha hb]
  · simp [successors_addSuccessor_of_ne hx, hx]

theorem mem_successors_removeSuccessor :
    y ∈ (g.removeSuccessor a b).successors x ↔ y ∈ g.successors x ∧ ¬(x = a ∧ y = b) := by
  have hsame : (g.removeSuccessor a b).successors x =
      (g.update a fun n ↦ { n with successors := n.successors.filter (· != b) }).successors x :=
    successors_update fun _ ↦ rfl
  rw [hsame]
  by_cases hx : x = a
  · subst hx
    simp only [mem_successors, nodes_update, if_true]
    cases g.nodes[x]? with
    | none => simp
    | some n => simp
  · simp only [successors, nodes_update_of_ne hx, hx, false_and, not_false_iff, and_true]

theorem mem_predecessors_removeSuccessor :
    y ∈ (g.removeSuccessor a b).predecessors x ↔ y ∈ g.predecessors x ∧ ¬(x = b ∧ y = a) := by
  have hsame : (g.update a fun n ↦ { n with successors := n.successors.filter (· != b) }).predecessors x =
      g.predecessors x := predecessors_update fun _ ↦ rfl
  rw [removeSuccessor, ← hsame]
  by_cases hx : x = b
  · subst hx
    rw [mem_predecessors, mem_predecessors, nodes_update, if_pos rfl]
    cases (g.update a fun n ↦ { n with successors := n.successors.filter (· != x) }).nodes[x]? with
    | none => simp
    | some n => simp
  · simp only [predecessors, nodes_update_of_ne hx, hx, false_and, not_false_iff, and_true]

theorem successors_removeSuccessor_of_ne (hx : x ≠ a) :
    (g.removeSuccessor a b).successors x = g.successors x := by
  rw [removeSuccessor, successors_update]
  · simp only [successors, nodes_update_of_ne hx]
  · exact fun _ ↦ rfl

/-! ## Edges recorded at both ends -/

theorem edges_sentinels (x : NodeId) : sentinels.successors x = [] ∧ sentinels.predecessors x = [] := by
  rcases x with _ | _ | x
  · exact ⟨rfl, rfl⟩
  · exact ⟨rfl, rfl⟩
  · exact ⟨successors_of_size_le (by simp [sentinels, size]), predecessors_of_size_le (by simp [sentinels, size])⟩

/-- Every control edge is recorded at both of its ends. -/
def TwoWay (g : Graph) : Prop := ∀ a b, b ∈ g.successors a ↔ a ∈ g.predecessors b

namespace TwoWay

theorem sentinels : Graph.sentinels.TwoWay := fun a b ↦ by simp [edges_sentinels]

theorem of_sameEdges (hg : g.TwoWay) (hgh : g.SameEdges h) : h.TwoWay := by
  intro a b
  rw [hgh.successors, hgh.predecessors]
  exact hg a b

theorem lt_size (hg : g.TwoWay) (hb : b ∈ g.successors a) : b < g.size :=
  lt_size_of_mem_predecessors ((hg a b).1 hb)

theorem addSuccessor (hg : g.TwoWay) (ha : a < g.size) (hb : b < g.size) : (g.addSuccessor a b).TwoWay := by
  by_cases hold : b ∈ g.successors a
  · rw [Graph.addSuccessor, if_pos (hasSuccessor_iff.2 hold)]
    exact hg
  intro x y
  rw [mem_successors_addSuccessor ha, hg, Graph.addSuccessor, if_neg fun h ↦ hold (hasSuccessor_iff.1 h)]
  have hsame : (g.update a fun n ↦ { n with successors := n.successors ++ [b] }).predecessors y =
      g.predecessors y := predecessors_update fun _ ↦ rfl
  rw [← hsame]
  by_cases hy : y = b
  · subst hy
    have hlt : y < (g.update a fun n ↦ { n with successors := n.successors ++ [y] }).size := by simpa using hb
    obtain ⟨n, hn⟩ := exists_node hlt
    rw [predecessors_of_node hn, predecessors_of_node (nodes_update_self hn)]
    simp
  · simp only [predecessors, nodes_update_of_ne hy, hy, and_false, or_false]

theorem removeSuccessor (hg : g.TwoWay) : (g.removeSuccessor a b).TwoWay := by
  intro x y
  rw [mem_successors_removeSuccessor, mem_predecessors_removeSuccessor, hg, and_comm (a := x = a)]

end TwoWay

/-! ## Splicing -/

/-- The second graph comes from the first one by control edges that are added between its nodes or removed. -/
inductive Relinks (g : Graph) : Graph → Prop
  | refl : Relinks g g
  | add {h : Graph} {a b : NodeId} : Relinks g h → a < g.size → b < g.size → Relinks g (h.addSuccessor a b)
  | remove {h : Graph} {a b : NodeId} : Relinks g h → Relinks g (h.removeSuccessor a b)

namespace Relinks

theorem size_eq (hgh : g.Relinks h) : h.size = g.size := by
  induction hgh with
  | refl => rfl
  | add _ _ _ ih => exact size_addSuccessor.trans ih
  | remove _ ih => exact size_removeSuccessor.trans ih

theorem twoWay (hgh : g.Relinks h) (hg : g.TwoWay) : h.TwoWay := by
  induction hgh with
  | refl => exact hg
  | add hgh ha hb ih => exact ih.addSuccessor (hgh.size_eq ▸ ha) (hgh.size_eq ▸ hb)
  | remove _ ih => exact ih.removeSuccessor

theorem redirect (ha : a < g.size) (hb : b < g.size) : g.Relinks (g.redirect a b) :=
  .add (List.foldlRecOn (motive := g.Relinks) _ _ .refl fun _ hh _ _ ↦ hh.remove) ha hb

theorem spliceAfter (hg : g.TwoWay) (ha : a < g.size) (hfirst : first < g.size) (hlast : last < g.size) :
    g.Relinks (g.spliceAfter a first last) :=
  .add (List.foldlRecOn (motive := g.Relinks) _ _ .refl fun _ hh _ hs ↦ hh.remove.add hlast (hg.lt_size hs)) ha hfirst

theorem spliceBefore (hg : g.TwoWay) (ha : a < g.size) (hfirst : first < g.size) (hlast : last < g.size) :
    g.Relinks (g.spliceBefore a first last) :=
  .add (List.foldlRecOn (motive := g.Relinks) _ _ .refl fun _ hh p hp ↦
    hh.remove.add (lt_size_of_mem_successors ((hg p a).2 hp)) hfirst) hlast ha

end Relinks

theorem TwoWay.redirect (hg : g.TwoWay) (ha : a < g.size) (hb : b < g.size) : (g.redirect a b).TwoWay :=
  (Relinks.redirect ha hb).twoWay hg

theorem successors_redirect_of_ne (hx : x ≠ a) : (g.redirect a b).successors x = g.successors x := by
  rw [redirect, successors_addSuccessor_of_ne hx]
  exact List.foldlRecOn (motive := fun h : Graph ↦ h.successors x = g.successors x) _ _ rfl
    fun h hh s _ ↦ (successors_removeSuccessor_of_ne hx).trans hh

/-- Every successor is removed, and removing one never brings another back. -/
theorem successors_foldl_remove {op : Graph → NodeId → Graph}
    (hop : ∀ (h : Graph) s y, y ∈ (op h s).successors a ↔ y ∈ h.successors a ∧ y ≠ s) :
    ((g.successors a).foldl op g).successors a = [] := by
  have hfold (items : List NodeId) (h : Graph) (y : NodeId) :
      y ∈ (items.foldl op h).successors a ↔ y ∈ h.successors a ∧ y ∉ items := by
    induction items generalizing h with
    | nil => simp
    | cons s rest ih =>
      rw [List.foldl_cons, ih, hop]
      simp only [List.mem_cons, not_or, and_assoc]
  refine List.eq_nil_iff_forall_not_mem.2 fun y hy ↦ ?_
  obtain ⟨hin, hnot⟩ := (hfold _ g y).1 hy
  exact hnot hin

theorem successors_redirect_self (ha : a < g.size) : (g.redirect a b).successors a = [b] := by
  have hempty : ((g.successors a).foldl (fun h s ↦ h.removeSuccessor a s) g).successors a = [] :=
    successors_foldl_remove fun h s y ↦ by simp [mem_successors_removeSuccessor]
  have hsize : ((g.successors a).foldl (fun h s ↦ h.removeSuccessor a s) g).size = g.size :=
    List.foldlRecOn (motive := fun h : Graph ↦ h.size = g.size) _ _ rfl
      fun _ hh _ _ ↦ size_removeSuccessor.trans hh
  rw [redirect, successors_addSuccessor_self (hsize ▸ ha) (by simp [hempty]), hempty]
  rfl

theorem TwoWay.spliceAfter (hg : g.TwoWay) (ha : a < g.size) (hfirst : first < g.size) (hlast : last < g.size) :
    (g.spliceAfter a first last).TwoWay := (Relinks.spliceAfter hg ha hfirst hlast).twoWay hg

theorem successors_spliceAfter_of_ne (hx : x ≠ a) (hlast : x ≠ last) :
    (g.spliceAfter a first last).successors x = g.successors x := by
  rw [spliceAfter, successors_addSuccessor_of_ne hx]
  refine List.foldlRecOn (motive := fun h : Graph ↦ h.successors x = g.successors x) _ _ rfl fun h hh s _ ↦ ?_
  rw [successors_addSuccessor_of_ne hlast, successors_removeSuccessor_of_ne hx, hh]

theorem successors_spliceAfter_self (ha : a < g.size) (hlast : a ≠ last) :
    (g.spliceAfter a first last).successors a = [first] := by
  have hempty : ((g.successors a).foldl (fun h s ↦ (h.removeSuccessor a s).addSuccessor last s) g).successors a = [] :=
    successors_foldl_remove fun h s y ↦ by simp [successors_addSuccessor_of_ne hlast, mem_successors_removeSuccessor]
  have hsize : ((g.successors a).foldl (fun h s ↦ (h.removeSuccessor a s).addSuccessor last s) g).size = g.size :=
    List.foldlRecOn (motive := fun h : Graph ↦ h.size = g.size) _ _ rfl fun _ hh _ _ ↦ by simp [hh]
  rw [spliceAfter, successors_addSuccessor_self (hsize ▸ ha) (by simp [hempty]), hempty]
  rfl

/-- The end of the chain takes over the successors of the anchor. -/
theorem successors_spliceAfter_last (ha : a ≠ last) (hlast : last < g.size) (hnew : g.successors last = [])
    (hnodup : (g.successors a).Nodup) : (g.spliceAfter a first last).successors last = g.successors a := by
  have hfold (items : List NodeId) (h : Graph) (hnodup : items.Nodup) (hsize : last < h.size)
      (hapart : ∀ s ∈ items, s ∉ h.successors last) :
      (items.foldl (fun h s ↦ (h.removeSuccessor a s).addSuccessor last s) h).successors last =
      h.successors last ++ items := by
    induction items generalizing h with
    | nil => simp
    | cons s rest ih =>
      rw [List.nodup_cons] at hnodup
      have hkept : (h.removeSuccessor a s).successors last = h.successors last :=
        successors_removeSuccessor_of_ne ha.symm
      have hmore : ((h.removeSuccessor a s).addSuccessor last s).successors last = h.successors last ++ [s] := by
        rw [successors_addSuccessor_self (by simpa using hsize) (hkept ▸ hapart s List.mem_cons_self), hkept]
      rw [List.foldl_cons, ih _ hnodup.2 (by simpa using hsize) fun x hx ↦ ?_, hmore, List.append_assoc]
      · rfl
      · rw [hmore, List.mem_append, List.mem_singleton, not_or]
        exact ⟨hapart x (List.mem_cons_of_mem _ hx), fun heq ↦ hnodup.1 (heq ▸ hx)⟩
  rw [spliceAfter, successors_addSuccessor_of_ne ha.symm, hfold _ g hnodup hlast (by simp [hnew]), hnew,
    List.nil_append]

theorem mem_successors_spliceAfter (hx : x ≠ a) (hlast : last < g.size) (hy : y ∈ g.successors x) :
    y ∈ (g.spliceAfter a first last).successors x := by
  rw [spliceAfter, successors_addSuccessor_of_ne hx]
  refine (List.foldlRecOn (motive := fun h : Graph ↦ h.size = g.size ∧ y ∈ h.successors x) _ _ ⟨rfl, hy⟩
    fun h hh s _ ↦ ⟨by simp [hh.1], ?_⟩).2
  rw [mem_successors_addSuccessor (by simpa [hh.1] using hlast), mem_successors_removeSuccessor]
  exact .inl ⟨hh.2, fun hxa ↦ hx hxa.1⟩

/-- The edges that a splice adds: the anchor leads to the chain, and the chain to where the anchor led. -/
theorem of_mem_successors_spliceAfter (ha : a < g.size) (hlast : last < g.size)
    (hy : y ∈ (g.spliceAfter a first last).successors x) :
    y ∈ g.successors x ∨ y = first ∨ y ∈ g.successors a := by
  have hfold := List.foldlRecOn
    (motive := fun h : Graph ↦ h.size = g.size ∧ (y ∈ h.successors x → y ∈ g.successors x ∨ y ∈ g.successors a))
    (g.successors a) (fun h s ↦ (h.removeSuccessor a s).addSuccessor last s) ⟨rfl, .inl⟩
    fun h hh s hs ↦ ⟨by simp [hh.1], fun hy ↦ ?_⟩
  · rw [spliceAfter, mem_successors_addSuccessor (hfold.1 ▸ ha)] at hy
    rcases hy with hy | ⟨-, rfl⟩
    · exact (hfold.2 hy).imp_right .inr
    · exact .inr (.inl rfl)
  · rw [mem_successors_addSuccessor (by simpa [hh.1] using hlast), mem_successors_removeSuccessor] at hy
    rcases hy with ⟨hy, -⟩ | ⟨-, rfl⟩
    · exact hh.2 hy
    · exact .inr hs

theorem TwoWay.spliceBefore (hg : g.TwoWay) (ha : a < g.size) (hfirst : first < g.size) (hlast : last < g.size) :
    (g.spliceBefore a first last).TwoWay := (Relinks.spliceBefore hg ha hfirst hlast).twoWay hg

/-- A node that does not lead to the anchor keeps its successors. -/
theorem TwoWay.successors_spliceBefore (hg : g.TwoWay) (hx : a ∉ g.successors x) (hlast : x ≠ last) :
    (g.spliceBefore a first last).successors x = g.successors x := by
  rw [Graph.spliceBefore, successors_addSuccessor_of_ne hlast]
  refine List.foldlRecOn (motive := fun h : Graph ↦ h.successors x = g.successors x) _ _ rfl fun h hh p hp ↦ ?_
  have hne : x ≠ p := by
    rintro rfl
    exact hx ((hg x a).2 hp)
  rw [successors_addSuccessor_of_ne hne, successors_removeSuccessor_of_ne hne, hh]

theorem mem_successors_spliceBefore (hg : g.TwoWay) (ha : y ≠ a) (hlast : last < g.size)
    (hy : y ∈ g.successors x) : y ∈ (g.spliceBefore a first last).successors x := by
  have hfold := List.foldlRecOn (motive := fun h : Graph ↦ h.size = g.size ∧ y ∈ h.successors x)
    (g.predecessors a) (fun h p ↦ (h.removeSuccessor p a).addSuccessor p first) ⟨rfl, hy⟩
    fun h hh p hp ↦ ⟨by simp [hh.1], ?_⟩
  · rw [spliceBefore, mem_successors_addSuccessor (hfold.1 ▸ hlast)]
    exact .inl hfold.2
  · have hp : p < g.size := lt_size_of_mem_successors ((hg p a).2 hp)
    rw [mem_successors_addSuccessor (by simpa [hh.1] using hp), mem_successors_removeSuccessor]
    exact .inl ⟨hh.2, fun hya ↦ ha hya.2⟩

/-- The edges that a splice adds: what led to the anchor leads to the chain, and the chain to the anchor. -/
theorem TwoWay.of_mem_successors_spliceBefore (hg : g.TwoWay) (hlast : last < g.size)
    (hy : y ∈ (g.spliceBefore a first last).successors x) : y ∈ g.successors x ∨ y = first ∨ y = a := by
  have hfold := List.foldlRecOn
    (motive := fun h : Graph ↦ h.size = g.size ∧ (y ∈ h.successors x → y ∈ g.successors x ∨ y = first))
    (g.predecessors a) (fun h p ↦ (h.removeSuccessor p a).addSuccessor p first) ⟨rfl, .inl⟩
    fun h hh p hp ↦ ⟨by simp [hh.1], fun hy ↦ ?_⟩
  · rw [Graph.spliceBefore, mem_successors_addSuccessor (hfold.1 ▸ hlast)] at hy
    rcases hy with hy | ⟨-, rfl⟩
    · exact (hfold.2 hy).imp_right .inl
    · exact .inr (.inr rfl)
  · have hp : p < g.size := lt_size_of_mem_successors ((hg p a).2 hp)
    rw [mem_successors_addSuccessor (by simpa [hh.1] using hp), mem_successors_removeSuccessor] at hy
    rcases hy with ⟨hy, -⟩ | ⟨-, rfl⟩
    · exact hh.2 hy
    · exact .inr rfl

end Graph

end PointsTo
