import PointsTo.Proofs.Edges

/-!
# Edges are recorded once at each end

A graph is edited by operations that change the lists of several nodes.  Whatever is done to it, in whatever order, a
control edge stands once in the list of its source and once in the list of its target, or in neither; and a node
stands once among the users of its operands and nowhere else.  Predecessors are dealt with as the successors of the
graph with its control edges reversed.
-/

namespace PointsTo

variable {g h : Graph} {a b x y id op : NodeId} {n : Node} {f f' : Node → Node}

/-! ## Reversed control edges -/

def Node.flip (n : Node) : Node := { n with successors := n.predecessors, predecessors := n.successors }

/-- The graph with its control edges reversed. -/
def Graph.flip (g : Graph) : Graph := { g with nodes := g.nodes.map Node.flip }

namespace Graph

theorem nodes_flip : g.flip.nodes[x]? = (g.nodes[x]?).map Node.flip := by simp [flip]

@[simp] theorem size_flip : g.flip.size = g.size := by simp [flip, size]

@[simp] theorem successors_flip : g.flip.successors x = g.predecessors x := by
  rw [successors, nodes_flip, Option.map_map]
  rfl

@[simp] theorem predecessors_flip : g.flip.predecessors x = g.successors x := by
  rw [predecessors, nodes_flip, Option.map_map]
  rfl

theorem ext_nodes (hnodes : ∀ x : NodeId, g.nodes[x]? = h.nodes[x]?) (hroot : g.root = h.root) : g = h := by
  have hlist : g.nodes = h.nodes := List.ext_getElem? hnodes
  cases g
  cases h
  simp_all

theorem flip_update (hf : ∀ n, (f n).flip = f' n.flip) : (g.update a f).flip = g.flip.update a f' := by
  refine ext_nodes (fun x ↦ ?_) rfl
  rw [nodes_flip, nodes_update, nodes_update, nodes_flip]
  split
  · simp [Function.comp_def, hf]
  · rfl

/-- Changes of different fields can be made in either order. -/
theorem update_comm (hcomm : ∀ n, f (f' n) = f' (f n)) : (g.update a f).update b f' = (g.update b f').update a f := by
  refine ext_nodes (fun x ↦ ?_) rfl
  simp only [nodes_update]
  split_ifs
  · simp [Function.comp_def, hcomm]
  all_goals rfl

theorem flip_removeSuccessor : (g.removeSuccessor a b).flip = g.flip.removeSuccessor b a := by
  rw [removeSuccessor, removeSuccessor, flip_update, flip_update, update_comm]
  all_goals intros; rfl

theorem TwoWay.flip (hg : g.TwoWay) : g.flip.TwoWay := fun x y ↦ by
  rw [successors_flip, predecessors_flip, hg]

theorem TwoWay.flip_addSuccessor (hg : g.TwoWay) : (g.addSuccessor a b).flip = g.flip.addSuccessor b a := by
  have hsame : g.flip.hasSuccessor b a = g.hasSuccessor a b := by
    rw [Bool.eq_iff_iff, hasSuccessor_iff, hasSuccessor_iff, successors_flip, hg]
  rw [Graph.addSuccessor, Graph.addSuccessor, hsame]
  split
  · rfl
  · rw [flip_update, flip_update, update_comm]
    all_goals intros; rfl

/-! ## Control edges -/

theorem nodup_successors_addSuccessor (hg : ∀ x, (g.successors x).Nodup) (ha : a < g.size) (x : NodeId) :
    ((g.addSuccessor a b).successors x).Nodup := by
  by_cases hx : x = a
  · subst hx
    by_cases hb : b ∈ g.successors x
    · rw [addSuccessor, if_pos (hasSuccessor_iff.2 hb)]
      exact hg x
    · rw [successors_addSuccessor_self ha hb, List.nodup_append_comm]
      exact List.nodup_cons.2 ⟨hb, hg x⟩
  · rw [successors_addSuccessor_of_ne hx]
    exact hg x

theorem nodup_successors_removeSuccessor (hg : ∀ x, (g.successors x).Nodup) (x : NodeId) :
    ((g.removeSuccessor a b).successors x).Nodup := by
  by_cases hx : x = a
  · subst hx
    rw [removeSuccessor, successors_update]
    · have hnodup := hg x
      unfold successors at hnodup ⊢
      rw [nodes_update, if_pos rfl]
      cases hn : g.nodes[x]? with
      | none => exact List.nodup_nil
      | some n =>
        rw [hn] at hnodup
        exact List.Nodup.filter _ hnodup
    · exact fun _ ↦ rfl
  · rw [successors_removeSuccessor_of_ne hx]
    exact hg x

/-- Each control edge is recorded once at each of its ends. -/
structure Matched (g : Graph) : Prop where
  twoWay : g.TwoWay
  successors : ∀ x, (g.successors x).Nodup
  predecessors : ∀ x, (g.predecessors x).Nodup

namespace Matched

theorem sentinels : Graph.sentinels.Matched :=
  ⟨.sentinels, fun x ↦ by simp [edges_sentinels], fun x ↦ by simp [edges_sentinels]⟩

theorem of_sameEdges (hg : g.Matched) (hgh : g.SameEdges h) : h.Matched :=
  ⟨hg.twoWay.of_sameEdges hgh, fun x ↦ hgh.successors x ▸ hg.successors x, fun x ↦
  hgh.predecessors x ▸ hg.predecessors x⟩

theorem flip (hg : g.Matched) : g.flip.Matched :=
  ⟨hg.twoWay.flip, fun x ↦ successors_flip ▸ hg.predecessors x, fun x ↦ predecessors_flip ▸ hg.successors x⟩

theorem addSuccessor (hg : g.Matched) (ha : a < g.size) (hb : b < g.size) : (g.addSuccessor a b).Matched := by
  refine ⟨hg.twoWay.addSuccessor ha hb, nodup_successors_addSuccessor hg.successors ha, fun x ↦ ?_⟩
  rw [← successors_flip, hg.twoWay.flip_addSuccessor]
  exact nodup_successors_addSuccessor hg.flip.successors (by simpa using hb) x

theorem removeSuccessor (hg : g.Matched) : (g.removeSuccessor a b).Matched := by
  refine ⟨hg.twoWay.removeSuccessor, nodup_successors_removeSuccessor hg.successors, fun x ↦ ?_⟩
  rw [← successors_flip, flip_removeSuccessor]
  exact nodup_successors_removeSuccessor hg.flip.successors x

theorem relinks (hg : g.Matched) (hgh : g.Relinks h) : h.Matched := by
  induction hgh with
  | refl => exact hg
  | add hgh ha hb ih => exact ih.addSuccessor (hgh.size_eq ▸ ha) (hgh.size_eq ▸ hb)
  | remove _ ih => exact ih.removeSuccessor

theorem count_eq (hg : g.Matched) (a b : NodeId) : (g.successors a).count b = (g.predecessors b).count a := by
  rw [(hg.successors a).count, (hg.predecessors b).count]
  simp only [hg.twoWay a b]

end Matched

/-! ## Operand edges -/

def operandsAt (g : Graph) (a : NodeId) : List NodeId := ((g.nodes[a]?).map (·.operands)).getD []

def usersAt (g : Graph) (a : NodeId) : List NodeId := ((g.nodes[a]?).map (·.users)).getD []

/-- The users of a node are the nodes that have it among their operands, each once. -/
structure Accounted (g : Graph) : Prop where
  users : ∀ a b, b ∈ g.usersAt a ↔ a ∈ g.operandsAt b
  nodup : ∀ a, (g.usersAt a).Nodup

theorem operandsAt_addOperand (hid : id < g.size) :
    (g.addOperand id op).operandsAt x = g.operandsAt x ++ if x = id then [op] else [] := by
  rw [operandsAt, addOperand, map_nodes_update fun n ↦ by split <;> rfl, nodes_update, operandsAt]
  split
  · rename_i hx
    obtain ⟨n, hn⟩ := exists_node (hx ▸ hid)
    simp [hn]
  · simp

theorem usersAt_addOperand (hop : op < g.size) :
    (g.addOperand id op).usersAt x = if x = op ∧ id ∉ g.usersAt op then g.usersAt x ++ [id] else g.usersAt x := by
  have hfirst : ∀ y, (g.update id fun n ↦ { n with operands := n.operands ++ [op] }).usersAt y = g.usersAt y := by
    intro y
    rw [usersAt, usersAt, map_nodes_update]
    exact fun _ ↦ rfl
  rw [← hfirst, ← hfirst, addOperand]
  generalize hg' : (g.update id fun n ↦ { n with operands := n.operands ++ [op] }) = g'
  have hop : op < g'.size := by rw [← hg', size_update]; exact hop
  obtain ⟨n, hn⟩ := exists_node hop
  by_cases hx : x = op
  · subst hx
    by_cases hold : id ∈ n.users
    · simp [usersAt, nodes_update_self hn, hn, hold]
    · simp [usersAt, nodes_update_self hn, hn, hold]
  · simp [usersAt, nodes_update_of_ne hx, hx]

namespace Accounted

theorem addOperand (hg : g.Accounted) (hid : id < g.size) (hop : op < g.size) : (g.addOperand id op).Accounted := by
  refine ⟨fun a b ↦ ?_, fun a ↦ ?_⟩
  · rw [operandsAt_addOperand hid, usersAt_addOperand hop, List.mem_append, ← hg.users]
    by_cases hb : b = id <;> by_cases ha : a = op <;> by_cases hold : id ∈ g.usersAt op <;> simp [ha, hb, hold]
  · rw [usersAt_addOperand hop]
    split
    · rename_i hnew
      rw [List.nodup_append_comm]
      exact List.nodup_cons.2 ⟨hnew.1 ▸ hnew.2, hg.nodup a⟩
    · exact hg.nodup a

theorem addOperands {ops : List NodeId} (hg : g.Accounted) (hid : id < g.size) (hops : ∀ op ∈ ops, op < g.size) :
    (g.addOperands id ops).Accounted := by
  refine (List.foldlRecOn (motive := fun h : Graph ↦ h.Accounted ∧ h.size = g.size) ops _ ⟨hg, rfl⟩
    fun h hh op hop ↦ ?_).1
  exact ⟨hh.1.addOperand (hh.2 ▸ hid) (hh.2 ▸ hops op hop), size_addOperand.trans hh.2⟩

/-- A graph with the same lists is accounted for as well. -/
theorem of_same (hg : g.Accounted) (hops : ∀ x, h.operandsAt x = g.operandsAt x)
    (husers : ∀ x, h.usersAt x = g.usersAt x) : h.Accounted := by
  refine ⟨fun a b ↦ ?_, fun a ↦ ?_⟩
  · rw [hops, husers, hg.users]
  · rw [husers]
    exact hg.nodup a

theorem rewired (hg : g.Accounted) (hgh : g.Rewired h) : h.Accounted := by
  refine hg.of_same (fun x ↦ ?_) fun x ↦ ?_
  · have hcore := congrArg (fun n? ↦ (n?.map (·.operands)).getD []) (hgh.core x)
    simp only [Option.map_map] at hcore
    exact hcore
  · have hcore := congrArg (fun n? ↦ (n?.map (·.users)).getD []) (hgh.core x)
    simp only [Option.map_map] at hcore
    exact hcore

theorem create (hg : g.Accounted) (hops : n.operands = []) (husers : n.users = []) : (g.create n).2.Accounted := by
  have hnode (x : NodeId) : (g.create n).2.nodes[x]? = if x = g.size then some n else g.nodes[x]? := by
    split
    · rename_i hx
      exact hx ▸ nodes_create_self
    · rename_i hx
      rcases Nat.lt_or_gt_of_ne hx with hlt | hgt
      · exact nodes_create_of_lt hlt
      · rw [List.getElem?_eq_none (show g.nodes.length ≤ x from hgt.le), List.getElem?_eq_none]
        exact (size_create : (g.create n).2.nodes.length = g.size + 1).le.trans hgt
  have hnone : g.nodes[g.size]? = none := List.getElem?_eq_none le_rfl
  refine hg.of_same (fun x ↦ ?_) fun x ↦ ?_
  · rw [operandsAt, operandsAt, hnode]
    split
    · rename_i hx
      simp [hx, hnone, hops]
    · rfl
  · rw [usersAt, usersAt, hnode]
    split
    · rename_i hx
      simp [hx, hnone, husers]
    · rfl

end Accounted

/-! ## Sequences of operations -/

/-- An operation that edits a graph. -/
inductive Edit where
  | create (kind : NodeKind)
  | createWith (kind : NodeKind) (operands : List NodeId)
  /-- Allocations and functions. -/
  | createObject (kind : NodeKind)
  | createConstant (p : Pointer)
  | createGep (base : NodeId) (offset : Offset)
  | createMemcpy (src dest : NodeId) (offset length : Offset)
  | addOperand (id operand : NodeId)
  | addSuccessor (a b : NodeId)
  | removeSuccessor (a b : NodeId)
  | redirect (a b : NodeId)
  | insertAfter (anchor id : NodeId)
  | spliceAfter (anchor first last : NodeId)
  | spliceBefore (anchor first last : NodeId)

namespace Edit

def apply (g : Graph) : Edit → Graph
  | create kind => (g.create { kind }).2
  | createWith kind operands => (g.createWith { kind } operands).2
  | createObject kind => (g.createObject kind).2
  | createConstant p => (g.createConstant p).2
  | createGep base offset => (g.createGep base offset).2
  | createMemcpy src dest offset length => (g.createMemcpy src dest offset length).2
  | addOperand id operand => g.addOperand id operand
  | addSuccessor a b => g.addSuccessor a b
  | removeSuccessor a b => g.removeSuccessor a b
  | redirect a b => g.redirect a b
  | insertAfter anchor id => g.insertAfter anchor id
  | spliceAfter anchor first last => g.spliceAfter anchor first last
  | spliceBefore anchor first last => g.spliceBefore anchor first last

/-- The nodes that an operation is given. -/
def ids : Edit → List NodeId
  | create _ | createObject _ | createConstant _ => []
  | createWith _ operands => operands
  | createGep base _ => [base]
  | createMemcpy src dest _ _ => [src, dest]
  | addOperand a b | addSuccessor a b | removeSuccessor a b | redirect a b | insertAfter a b => [a, b]
  | spliceAfter a b c | spliceBefore a b c => [a, b, c]

/-- The operation is given nodes of the graph; a node may be created as its own operand. -/
def InRange (g : Graph) (e : Edit) : Prop := ∀ id ∈ e.ids, id < (e.apply g).size

instance {e : Edit} : Decidable (InRange g e) := inferInstanceAs (Decidable (∀ id ∈ e.ids, id < (e.apply g).size))

end Edit

/-- Each operation is given nodes of the graph that the operations before it leave. -/
def Admits : Graph → List Edit → Prop
  | _, [] => True
  | g, e :: edits => e.InRange g ∧ Admits (e.apply g) edits

def replay (g : Graph) (edits : List Edit) : Graph := edits.foldl Edit.apply g

/-- All edges are recorded at both of their ends. -/
structure Mirrors (g : Graph) : Prop where
  control : g.Matched
  operands : g.Accounted

namespace Mirrors

theorem sentinels : Graph.sentinels.Mirrors := by
  refine ⟨.sentinels, ?_⟩
  have hempty (x : NodeId) : Graph.sentinels.operandsAt x = [] ∧ Graph.sentinels.usersAt x = [] := by
    rcases x with _ | _ | x <;> simp [operandsAt, usersAt, Graph.sentinels]
  exact ⟨fun a b ↦ by simp [hempty], fun a ↦ by simp [hempty]⟩

theorem relinks (hg : g.Mirrors) (hgh : g.Relinks h) (hrewired : g.Rewired h) : h.Mirrors :=
  ⟨hg.control.relinks hgh, hg.operands.rewired hrewired⟩

theorem addOperands {ops : List NodeId} (hg : g.Mirrors) (hid : id < g.size) (hops : ∀ op ∈ ops, op < g.size) :
    (g.addOperands id ops).Mirrors :=
  ⟨hg.control.of_sameEdges .addOperands, hg.operands.addOperands hid hops⟩

/-- A node is created without edges, apart from those to its operands. -/
theorem createWith {ops : List NodeId} (hg : g.Mirrors) (hn : n.successors = [] ∧ n.predecessors = [])
    (hn' : n.operands = [] ∧ n.users = []) (hops : ∀ op ∈ ops, op < g.size + 1) : (g.createWith n ops).2.Mirrors := by
  have hcreate : (g.create n).2.Mirrors :=
    ⟨hg.control.of_sameEdges (.create hn.1 hn.2), hg.operands.create hn'.1 hn'.2⟩
  exact hcreate.addOperands (show g.size < _ by simp) (by simpa using hops)

theorem apply (hg : g.Mirrors) {e : Edit} (he : e.InRange g) : (e.apply g).Mirrors := by
  have hblank {kind : NodeKind} {pointsTo : PointerSet} : (g.create { kind, pointsTo }).2.Mirrors :=
    hg.createWith ⟨rfl, rfl⟩ ⟨rfl, rfl⟩ fun _ h ↦ absurd h List.not_mem_nil
  cases e with
  | create kind => exact hblank
  | createObject kind => exact hblank
  | createConstant p => exact hblank
  | createWith kind operands => exact hg.createWith ⟨rfl, rfl⟩ ⟨rfl, rfl⟩ fun op hop ↦ size_createWith ▸ he op hop
  | createGep base offset => exact hg.createWith ⟨rfl, rfl⟩ ⟨rfl, rfl⟩ fun op hop ↦ size_createWith ▸ he op hop
  | createMemcpy src dest offset length =>
    exact hg.createWith ⟨rfl, rfl⟩ ⟨rfl, rfl⟩ fun op hop ↦ size_createWith ▸ he op hop
  | addOperand id op =>
    have hrange : ∀ x ∈ [id, op], x < g.size := fun x hx ↦ size_addOperand ▸ he x hx
    exact ⟨hg.control.of_sameEdges .addOperand, hg.operands.addOperand (hrange id (by simp)) (hrange op (by simp))⟩
  | addSuccessor a b =>
    have hrange : ∀ x ∈ [a, b], x < g.size := fun x hx ↦ size_addSuccessor ▸ he x hx
    exact hg.relinks (.add .refl (hrange a (by simp)) (hrange b (by simp))) .addSuccessor
  | removeSuccessor a b => exact hg.relinks (.remove .refl) .removeSuccessor
  | redirect a b =>
    have hrange : ∀ x ∈ [a, b], x < g.size := fun x hx ↦ size_redirect ▸ he x hx
    exact hg.relinks (.redirect (hrange a (by simp)) (hrange b (by simp))) .redirect
  | insertAfter a b =>
    have hrange : ∀ x ∈ [a, b], x < g.size := fun x hx ↦ size_spliceAfter ▸ he x hx
    exact hg.relinks (.spliceAfter hg.control.twoWay (hrange a (by simp)) (hrange b (by simp))
      (hrange b (by simp))) .spliceAfter
  | spliceAfter a b c =>
    have hrange : ∀ x ∈ [a, b, c], x < g.size := fun x hx ↦ size_spliceAfter ▸ he x hx
    exact hg.relinks (.spliceAfter hg.control.twoWay (hrange a (by simp)) (hrange b (by simp))
      (hrange c (by simp))) .spliceAfter
  | spliceBefore a b c =>
    have hrange : ∀ x ∈ [a, b, c], x < g.size := fun x hx ↦ size_spliceBefore ▸ he x hx
    exact hg.relinks (.spliceBefore hg.control.twoWay (hrange a (by simp)) (hrange b (by simp)) (hrange c (by simp)))
      .spliceBefore

theorem replay {edits : List Edit} (hg : g.Mirrors) (hedits : g.Admits edits) : (g.replay edits).Mirrors := by
  induction edits generalizing g with
  | nil => exact hg
  | cons e edits ih => exact ih (hg.apply hedits.1) hedits.2

end Mirrors

/-- Whatever operations built a graph, a control edge stands as often in the list of its source as in that of its
target, and at most once; and the users of a node are the nodes that it is an operand of, each of them once. -/
theorem edges_mirrored (edits : List Edit) (hedits : sentinels.Admits edits) (a b : NodeId) :
    ((sentinels.replay edits).successors a).count b = ((sentinels.replay edits).predecessors b).count a ∧
    ((sentinels.replay edits).successors a).count b ≤ 1 ∧
    ((sentinels.replay edits).usersAt a).count b = if a ∈ (sentinels.replay edits).operandsAt b then 1 else 0 := by
  have hg := Mirrors.sentinels.replay hedits
  refine ⟨hg.control.count_eq a b, List.nodup_iff_count_le_one.1 (hg.control.successors a) b, ?_⟩
  rw [(hg.operands.nodup a).count]
  simp only [hg.operands.users a b]

/-- A node that is its own operand and its own successor, with another one put before it. -/
theorem edges_mirrored_selfLoop :
    sentinels.Admits [.createWith .phi [2, 0, 2], .create .noop, .addSuccessor 2 2, .spliceBefore 2 3 3,
    .spliceAfter 2 3 2] ∧
    ∀ a b, ((sentinels.replay [.createWith .phi [2, 0, 2], .create .noop, .addSuccessor 2 2, .spliceBefore 2 3 3,
      .spliceAfter 2 3 2]).successors a).count b ≤ 1 := by
  have hedits : sentinels.Admits [.createWith .phi [2, 0, 2], .create .noop, .addSuccessor 2 2, .spliceBefore 2 3 3,
      .spliceAfter 2 3 2] := ⟨by decide, by decide, by decide, by decide, by decide, trivial⟩
  exact ⟨hedits, fun a b ↦ (edges_mirrored _ hedits a b).2.1⟩

end Graph

end PointsTo
