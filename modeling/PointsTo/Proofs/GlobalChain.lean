import PointsTo.Proofs.Additions
import PointsTo.Proofs.Beginnings

/-!
# The chain of the globals

The globals become one path of nodes in program order: for each global its memory, followed by the stores
of its initializer, field by field, or by a store of unknown if its content is not known.  Control goes
nowhere else.
-/

namespace PointsTo

open Stateful

namespace Graph

variable {g h : Graph} {ids pre post : List NodeId} {a b x y : NodeId}

/-- The node that comes next after a node in the list. -/
def follower? : List NodeId → NodeId → Option NodeId
  | [], _ => none
  | a :: rest, x => if x = a then rest.head? else follower? rest x

theorem mem_of_follower? (h : follower? ids x = some y) : x ∈ ids ∧ y ∈ ids := by
  fun_induction follower? ids x with
  | case1 => contradiction
  | case2 a rest => exact ⟨List.mem_cons_self, List.mem_cons_of_mem _ (List.mem_of_mem_head? h)⟩
  | case3 x a rest _ ih =>
    obtain ⟨hx, hy⟩ := ih h
    exact ⟨List.mem_cons_of_mem _ hx, List.mem_cons_of_mem _ hy⟩

theorem follower?_of_notMem (h : x ∉ ids) : follower? ids x = none := by
  by_contra hne
  obtain ⟨y, hy⟩ := Option.ne_none_iff_exists'.1 hne
  exact h (mem_of_follower? hy).1

theorem follower?_append (h : a ∉ pre) : follower? (pre ++ a :: post) a = post.head? := by
  induction pre with
  | nil => simp [follower?]
  | cons p pre ih =>
    rw [List.mem_cons, not_or] at h
    simpa [follower?, h.1] using ih h.2

/-- A new node comes after a node of the list. -/
theorem follower?_insert (hnodup : (pre ++ a :: post).Nodup) (hb : b ∉ pre ++ a :: post) :
    follower? (pre ++ a :: b :: post) x =
      if x = a then some b else if x = b then post.head? else follower? (pre ++ a :: post) x := by
  induction pre with
  | nil => by_cases hx : x = a <;> simp [follower?, hx]
  | cons p pre ih =>
    have hp : p ≠ a ∧ p ≠ b := by
      constructor
      · rintro rfl
        simp at hnodup
      · rintro rfl
        simp at hb
    have hhead : (pre ++ a :: b :: post).head? = (pre ++ a :: post).head? := by cases pre <;> rfl
    have ih := ih (List.nodup_cons.1 hnodup).2 fun h ↦ hb (List.mem_cons_of_mem _ h)
    by_cases hx : x = p
    · simp [follower?, hx, hp.1, hp.2, hhead]
    · simpa [follower?, hx] using ih

/-- Control runs through these nodes, one after the other, and nowhere else. -/
structure Path (g : Graph) (ids : List NodeId) : Prop where
  nodup : ids.Nodup
  lt_size : ∀ a ∈ ids, a < g.size
  successors : ∀ a, g.successors a = (follower? ids a).toList
  twoWay : g.TwoWay

namespace Path

theorem sentinels : Graph.sentinels.Path [] where
  nodup := List.nodup_nil
  lt_size := by simp
  successors a := by
    rcases a with _ | _ | a
    · rfl
    · rfl
    · exact successors_of_size_le (by simp [Graph.sentinels, size])
  twoWay := .sentinels

/-- Nodes that are not on the path have no control edges. -/
theorem apart (hg : g.Path ids) (ha : a ∉ ids) : g.successors a = [] ∧ g.predecessors a = [] := by
  refine ⟨by rw [hg.successors, follower?_of_notMem ha]; rfl, List.eq_nil_iff_forall_not_mem.2 fun b hb ↦ ?_⟩
  have hnext := (hg.twoWay b a).2 hb
  rw [hg.successors, Option.mem_toList] at hnext
  exact ha (mem_of_follower? hnext).2

theorem sameEdges (hg : g.Path ids) (hgh : g.SameEdges h) (hsize : g.size ≤ h.size) : h.Path ids where
  nodup := hg.nodup
  lt_size a ha := (hg.lt_size a ha).trans_le hsize
  successors a := (hgh.successors a).trans (hg.successors a)
  twoWay := hg.twoWay.of_sameEdges hgh

theorem start (hg : g.Path []) (ha : a < g.size) : g.Path [a] where
  nodup := List.nodup_singleton a
  lt_size _ hb := List.mem_singleton.1 hb ▸ ha
  successors x := by
    rw [hg.successors]
    simp [follower?]
  twoWay := hg.twoWay

theorem next (hg : g.Path (pre ++ a :: post)) : g.successors a = post.head?.toList := by
  have hnodup := List.nodup_middle.1 hg.nodup
  rw [List.nodup_cons, List.mem_append, not_or] at hnodup
  rw [hg.successors, follower?_append hnodup.1.1]

theorem last (hg : g.Path ids) (ha : ids.getLast? = some a) : g.successors a = [] := by
  obtain ⟨pre, rfl⟩ := List.getLast?_eq_some_iff.1 ha
  exact hg.next

/-- On a path each node leads to the next one. -/
theorem isChain (hg : g.Path ids) : ids.IsChain fun a b ↦ g.successors a = [b] := by
  suffices hpart : ∀ pre, g.Path (pre ++ ids) → ids.IsChain fun a b ↦ g.successors a = [b] from hpart [] hg
  clear hg
  intro pre hg
  induction ids generalizing pre with
  | nil => exact .nil
  | cons a rest ih =>
    have hrest := ih (pre ++ [a]) (by simpa using hg)
    cases rest with
    | nil => exact .singleton a
    | cons b rest => exact .cons_cons hg.next hrest

theorem insertAfter (hg : g.Path (pre ++ a :: post)) (hb : b ∉ pre ++ a :: post) (hlt : b < g.size) :
    (g.insertAfter a b).Path (pre ++ a :: b :: post) := by
  have ha : a < g.size := hg.lt_size a (by simp)
  have hne : a ≠ b := by
    rintro rfl
    simp at hb
  refine ⟨?_, fun x hx ↦ ?_, fun x ↦ ?_, hg.twoWay.spliceAfter ha hlt hlt⟩
  · have hmiddle : ((pre ++ [a]) ++ b :: post).Perm (b :: ((pre ++ [a]) ++ post)) := List.perm_middle
    have hperm : (pre ++ a :: b :: post).Perm (b :: (pre ++ a :: post)) := by simpa using hmiddle
    exact hperm.nodup_iff.2 (List.nodup_cons.2 ⟨hb, hg.nodup⟩)
  · rw [Graph.insertAfter, size_spliceAfter]
    by_cases hxb : x = b
    · exact hxb ▸ hlt
    · exact hg.lt_size x (by simpa [hxb] using hx)
  · rw [follower?_insert hg.nodup hb, Graph.insertAfter]
    split
    · rename_i hx
      rw [hx, successors_spliceAfter_self ha hne]
      rfl
    · split
      · rename_i hx
        rw [hx, successors_spliceAfter_last hne hlt (hg.apart hb).1, hg.next]
        rw [hg.next]
        cases post.head? <;> simp
      · rename_i hxa hxb
        rw [successors_spliceAfter_of_ne hxa hxb, hg.successors]

theorem addSuccessor (hg : g.Path (pre ++ [a])) (hb : b ∉ pre ++ [a]) (hlt : b < g.size) :
    (g.addSuccessor a b).Path (pre ++ [a, b]) := by
  have hend : g.successors a = [] := hg.next
  have hinsert := hg.insertAfter hb hlt
  rwa [Graph.insertAfter, spliceAfter, hend] at hinsert

end Path

end Graph

/-! ## Stores -/

namespace Lowering

variable {prog : Program} {s t u : Lowering} {v : ValueId} {id op object target store : NodeId} {g : Global}
  {offset : Nat} {stores : List NodeId} {field : Program.PointerField}

/-- The later state has the names and the nodes of the earlier one. -/
structure Enlarges (s t : Lowering) : Prop where
  named : ∀ {v id}, s.nodes.get? v = some id → t.nodes.get? v = some id
  node : ∀ {id : NodeId} {n : Node}, s.graph.nodes[id]? = some n → ∃ m, t.graph.nodes[id]? = some m ∧ n.Retains m
  zeroed : ∀ {id}, s.graph.Zeroed id → t.graph.Zeroed id
  pinned : s.Pinned → t.Pinned

/-- The node is the address of an object at an offset. -/
def Places (s : Lowering) (object : NodeId) (offset : Nat) (target : NodeId) : Prop :=
  (offset = 0 ∧ target = object) ∨ (0 < offset ∧ ∃ n, s.graph.nodes[target]? = some n ∧ n.kind = .constant ∧
    n.pointsTo = .singleton ⟨object, .ofNat offset⟩)

/-- The node is a store with these operands. -/
def StoreAt (s : Lowering) (id op target : NodeId) : Prop :=
  ∃ n, s.graph.nodes[id]? = some n ∧ n.kind = .store ∧ n.operand? 0 = some op ∧ n.operand? 1 = some target

/-- The node stores the value of a field in an object, at the place of the field. -/
def Fills (prog : Program) (s : Lowering) (object : NodeId) (field : Program.PointerField) (id : NodeId) : Prop :=
  ∃ op target, s.StoreAt id op target ∧ s.Stands prog field.value op ∧ s.Places object field.offset target

/-- The node is the memory of the global. -/
def Allocates (s : Lowering) (g : Global) (id : NodeId) : Prop :=
  s.nodes.get? g.value = some id ∧ ∃ n, s.graph.nodes[id]? = some n ∧ n.kind = .alloc

/-- These stores describe what the global holds to begin with.  Zero takes no stores. -/
inductive Describes (prog : Program) (s : Lowering) (g : Global) (id : NodeId) : (stores : List NodeId) → Prop
  | zero {init : ValueId} (hinit : g.initializer = some init) (hexternal : g.external = false)
      (hzero : prog.isZero init = .ok true) : Describes prog s g id []
  | fields {init : ValueId} {fields : List Program.PointerField} {stores : List NodeId}
      (hinit : g.initializer = some init)
      (hexternal : g.external = false) (hzero : prog.Nonzero init) (hfields : prog.Lists init g.ty 0 fields)
      (hstores : List.Forall₂ (s.Fills prog id) fields stores) : Describes prog s g id stores
  | unknown {store : NodeId} (hunknown : g.initializer = none ∨ g.external = true)
      (hstore : s.StoreAt store unknownTarget id) : Describes prog s g id [store]

/-- The nodes are the memory of the global, followed by the stores of its content. -/
def Occupies (prog : Program) (s : Lowering) (g : Global) (ids : List NodeId) : Prop :=
  ∃ id stores, ids = id :: stores ∧ s.Allocates g id ∧ s.Describes prog g id stores

/-- A global that is zero as a whole is marked. -/
def Marks (prog : Program) (s : Lowering) (g : Global) : Prop := ∀ init id, g.initializer = some init →
  g.external = false → prog.isZero init = .ok true → s.nodes.get? g.value = some id → s.graph.Zeroed id

namespace Enlarges

theorem refl (s : Lowering) : s.Enlarges s := ⟨fun h ↦ h, fun {_ n} hn ↦ ⟨n, hn, .refl n⟩, fun h ↦ h, fun h ↦ h⟩

theorem trans (hst : s.Enlarges t) (htu : t.Enlarges u) : s.Enlarges u where
  named hv := htu.named (hst.named hv)
  node hn := by
    obtain ⟨m, hm, hnm⟩ := hst.node hn
    obtain ⟨l, hl, hml⟩ := htu.node hm
    exact ⟨l, hl, hnm.trans hml⟩
  zeroed hz := htu.zeroed (hst.zeroed hz)
  pinned hs := htu.pinned (hst.pinned hs)

/-- The nodes are retained. -/
theorem of_retains (h : s.graph.Retains s.graph.size t.graph)
    (hnamed : ∀ {v id}, s.nodes.get? v = some id → t.nodes.get? v = some id) (hpinned : s.Pinned → t.Pinned) :
    s.Enlarges t where
  named := hnamed
  node hn := by
    obtain ⟨m, hm, -, hold⟩ := h.node hn
    exact ⟨m, hm, hold (Graph.lt_size_of_node hn)⟩
  zeroed hz := by
    obtain ⟨n, hn, -⟩ := id hz
    exact h.zeroed (Graph.lt_size_of_node hn) hz
  pinned := hpinned

/-- Besides, nothing has got another name. -/
theorem of_graph (h : s.graph.Retains s.graph.size t.graph) (hnodes : t.nodes = s.nodes) : s.Enlarges t := by
  refine of_retains h (fun hv ↦ hnodes ▸ hv) fun hs ↦ hs.mono (fun hn ↦ ?_) fun hv ↦ .inl (hnodes ▸ hv)
  obtain ⟨m, hm, -, hold⟩ := h.node hn
  exact ⟨m, hm, hold (Graph.lt_size_of_node hn)⟩

/-- Lowering takes no nodes away. -/
theorem retains {α : Type} {x : Lower α} {a : α} [hx : ∀ k, Follows (Retains k) x] (h : x s = .ok a t) :
    s.graph.Retains s.graph.size t.graph := ((hx s.graph.size).leaves (.inl ⟨a, h⟩) le_rfl).graph

variable (hst : s.Enlarges t)

include hst

theorem size_le : s.graph.size ≤ t.graph.size := by
  by_contra hlt
  obtain ⟨n, hn⟩ := Graph.exists_node (not_le.1 hlt)
  obtain ⟨m, hm, -⟩ := hst.node hn
  exact absurd (Graph.lt_size_of_node hm) (lt_irrefl _)

theorem stands (h : s.Stands prog v op) : t.Stands prog v op := by
  obtain ⟨id, hid, n, hn, hop⟩ := h
  obtain ⟨m, hm, hnm⟩ := hst.node hn
  exact ⟨id, hid.imp_left hst.named, m, hm, by rw [hnm.kind, hnm.paired, hop]⟩

theorem places (h : s.Places object offset target) : t.Places object offset target := by
  rcases h with h | ⟨hpos, n, hn, hkind, hset⟩
  · exact .inl h
  · obtain ⟨m, hm, hnm⟩ := hst.node hn
    exact .inr ⟨hpos, m, hm, hnm.kind.trans hkind, (hnm.fixed (by rw [hkind]; rfl)).trans hset⟩

theorem storeAt (h : s.StoreAt store op target) : t.StoreAt store op target := by
  obtain ⟨n, hn, hkind, hop, htarget⟩ := h
  obtain ⟨m, hm, hnm⟩ := hst.node hn
  obtain ⟨more, hmore⟩ := hnm.operands
  have hkept {i : Nat} {x : NodeId} (hx : n.operand? i = some x) : m.operand? i = some x := by
    rw [Node.operand?, ← hmore]
    exact List.getElem?_append_left (List.getElem?_eq_some_iff.1 hx).1 |>.trans hx
  exact ⟨m, hm, hnm.kind.trans hkind, hkept hop, hkept htarget⟩

theorem fills (h : s.Fills prog object field store) : t.Fills prog object field store := by
  obtain ⟨op, target, hstore, hop, htarget⟩ := h
  exact ⟨op, target, hst.storeAt hstore, hst.stands hop, hst.places htarget⟩

theorem allocates (h : s.Allocates g id) : t.Allocates g id := by
  obtain ⟨hv, n, hn, hkind⟩ := h
  obtain ⟨m, hm, hnm⟩ := hst.node hn
  exact ⟨hst.named hv, m, hm, hnm.kind.trans hkind⟩

theorem marks (hid : s.Allocates g id) (h : s.Marks prog g) : t.Marks prog g := by
  intro init id' hinit hexternal hzero hid'
  obtain rfl := Option.mem_unique (hst.named hid.1) hid'
  exact hst.zeroed (h init id hinit hexternal hzero hid.1)

theorem describes (h : s.Describes prog g id stores) : t.Describes prog g id stores := by
  cases h with
  | zero hinit hexternal hzero => exact .zero hinit hexternal hzero
  | fields hinit hexternal hzero hfields hstores =>
    exact .fields hinit hexternal hzero hfields (hstores.imp fun _ _ ↦ hst.fills)
  | unknown hunknown hstore => exact .unknown hunknown (hst.storeAt hstore)

theorem occupies {ids : List NodeId} (h : s.Occupies prog g ids) : t.Occupies prog g ids := by
  obtain ⟨id, stores, hids, hid, hstores⟩ := h
  exact ⟨id, stores, hids, hst.allocates hid, hst.describes hstores⟩

end Enlarges

end Lowering

namespace Lower

open Lowering

variable {prog : Program} {ask : Provider} {P : ValueId → Prop} {s t : Lowering} {v : ValueId}
  {id last op target : NodeId} {g : Global} {offset : Nat}

/-- A store is put behind a node. -/
theorem insertStore_chain (hs : s.Early prog) : Ensures (do
    let store ← create (·.createWith { kind := .store } [op, target])
    onGraph (·.insertAfter last store)
    return store) s fun store t ↦ t.Early prog ∧ s.Enlarges t ∧ t.StoreAt store op target ∧
      ∀ pre post, s.graph.Path (pre ++ last :: post) → t.graph.Path (pre ++ last :: store :: post) := by
  refine .seq fun store u hstore ↦ .seq fun _ t ht ↦ .pure ?_
  obtain ⟨rfl, rfl⟩ := create_eq_ok_iff.1 hstore
  obtain rfl := onGraph_eq_ok_iff.1 ht
  have hextends := (Graph.Makes.createStore [op, target]).retains s.graph
  refine ⟨hs.same rfl rfl rfl, .of_graph (hextends.trans .spliceAfter).retains rfl, ?_, fun pre post hpath ↦ ?_⟩
  · obtain ⟨n, hn⟩ : ∃ n, (s.graph.createWith { kind := .store } [op, target]).2.nodes[s.graph.size]? = some n :=
      Graph.exists_node (by simp)
    obtain ⟨l, hl, hops⟩ := Graph.nodes_addOperands hn
    obtain ⟨n', hn', hkept⟩ := Graph.Extends.addOperands.node hl
    obtain rfl := Option.mem_unique hn hn'
    obtain rfl := Option.mem_unique Graph.nodes_create_self hl
    obtain ⟨m, hm, hcore⟩ := Graph.Rewired.spliceAfter.node hn
    have hoperands : m.operands = [op, target] := by
      rw [show m.operands = n.operands from congrArg (·.operands) hcore, hops, if_pos rfl]
      rfl
    exact ⟨m, hm, (congrArg (·.kind) hcore).trans hkept.kind, by simp [Node.operand?, hoperands],
      by simp [Node.operand?, hoperands]⟩
  · have hlt : s.graph.size < (s.graph.createWith { kind := .store } [op, target]).2.size := by simp
    exact (hpath.sameEdges (.createWith rfl rfl) hlt.le).insertAfter (fun hmem ↦ lt_irrefl _ (hpath.lt_size _ hmem)) hlt

section

variable (hask : ask.Grants prog P) [hmoves : ∀ k, ask.Moves (Retains k)]

include hask hmoves

theorem storeInitial_chain (hv : P v) (hs : s.Early prog) : Ensures (storeInitial ask v id offset last) s fun store t ↦
    prog.Foldable v ∧ t.Early prog ∧ s.Enlarges t ∧ (∀ path, t.Fills prog id ⟨path, offset, v⟩ store) ∧
      ∀ pre post, s.graph.Path (pre ++ last :: post) → t.graph.Path (pre ++ last :: store :: post) := by
  refine .seq fun op u hop ↦ ?_
  have hgrants := hask hv hs hop
  have hsu : s.Enlarges u := .of_retains (Enlarges.retains hop) hgrants.named hgrants.pinned
  have hstore {target : NodeId} {w : Lowering} (hw : w.Early prog) (huw : u.Enlarges w)
      (hedges : u.graph.SameEdges w.graph) (htarget : w.Places id offset target) : Ensures (do
        let store ← create (·.createWith { kind := .store } [op, target])
        onGraph (·.insertAfter last store)
        return store) w fun store t ↦ prog.Foldable v ∧ t.Early prog ∧ s.Enlarges t ∧
          (∀ path, t.Fills prog id ⟨path, offset, v⟩ store) ∧
          ∀ pre post, s.graph.Path (pre ++ last :: post) → t.graph.Path (pre ++ last :: store :: post) := by
    intro store t h
    obtain ⟨ht, hwt, hat, hpath⟩ := insertStore_chain hw store t h
    have hsw := hsu.trans huw
    refine ⟨hgrants.foldable, ht, hsw.trans hwt, fun _ ↦ ⟨op, target, hat, ?_, hwt.places htarget⟩, fun pre post h ↦ ?_⟩
    · exact (huw.trans hwt).stands hgrants.stands
    · exact hpath pre post (h.sameEdges (hgrants.edges.trans hedges) hsw.size_le)
  dsimp only
  split
  · rename_i hzero
    exact .bind_pure (hstore hgrants.early (.refl u) (.refl _) (.inl ⟨hzero, rfl⟩))
  · rename_i hpos
    refine .seq fun target w hw ↦ ?_
    obtain ⟨rfl, rfl⟩ := create_eq_ok_iff.1 hw
    refine hstore (hgrants.early.same rfl rfl rfl) (.of_graph (Enlarges.retains hw) rfl) (.create rfl rfl) (.inr ?_)
    exact ⟨Nat.pos_of_ne_zero hpos, _, Graph.nodes_create_self, rfl, rfl⟩

/-- The fields are stored one after the other. -/
theorem storeFields_chain {fields : List Program.PointerField} (hfields : ∀ y ∈ fields, P y.value) (hs : s.Early prog) :
    Ensures (fields.foldlM (fun last y ↦ storeInitial ask y.value id y.offset last) last) s fun last' t ↦
      (∀ y ∈ fields, prog.Foldable y.value) ∧ t.Early prog ∧ s.Enlarges t ∧ ∃ stores,
        List.Forall₂ (t.Fills prog id) fields stores ∧ (last :: stores).getLast? = some last' ∧
        ∀ pre post, s.graph.Path (pre ++ last :: post) → t.graph.Path (pre ++ last :: (stores ++ post)) := by
  induction fields generalizing s last with
  | nil => exact .pure ⟨by simp, hs, .refl s, [], .nil, rfl, fun _ _ h ↦ h⟩
  | cons y fields ih =>
    rw [List.foldlM_cons]
    refine .seq fun store u hstore ↦ ?_
    obtain ⟨hfold, hu, hsu, hfills, hpath⟩ := storeInitial_chain hask (hfields y List.mem_cons_self) hs store u hstore
    intro last' t h
    obtain ⟨hrest, ht, hut, stores, hstores, hlast, hpath'⟩ :=
      ih (fun z hz ↦ hfields z (List.mem_cons_of_mem _ hz)) hu last' t h
    refine ⟨List.forall_mem_cons.2 ⟨hfold, hrest⟩, ht, hsu.trans hut, store :: stores,
      .cons (hut.fills (hfills y.path)) hstores, by simpa using hlast, fun pre post h ↦ ?_⟩
    simpa using hpath' (pre ++ [last]) post (by simpa using hpath pre post h)

/-- The memory of a global is followed by its content. -/
theorem lowerContent_chain (hg : ∀ leaf, prog.Stored g leaf → P leaf) (hs : s.Early prog) :
    Ensures (lowerContent prog ask g id) s fun last t ↦
      (∀ leaf, prog.Stored g leaf → prog.Foldable leaf) ∧ t.Early prog ∧ s.Enlarges t ∧
        (s.Allocates g id → t.Marks prog g) ∧ ∃ stores, t.Describes prog g id stores ∧
        (id :: stores).getLast? = some last ∧
        ∀ pre post, s.graph.Path (pre ++ id :: post) → t.graph.Path (pre ++ id :: (stores ++ post)) := by
  unfold lowerContent
  split
  · rename_i init hinit hexternal
    refine .bind_lift fun zero hzero ↦ ?_
    split
    · rename_i htrue
      refine .seq fun _ t ht ↦ .pure ?_
      obtain rfl := onGraph_eq_ok_iff.1 ht
      refine ⟨?_, hs.same rfl rfl rfl, .of_graph (Enlarges.retains ht) rfl, fun hid ↦ ?_, [],
        .zero hinit hexternal (htrue ▸ hzero), rfl, ?_⟩
      · rintro leaf ⟨init', _, hinit', -, hnonzero, -⟩
        obtain rfl := Option.mem_unique hinit hinit'
        exact absurd (hzero.symm.trans hnonzero) (by simp [htrue])
      · intro _ id' _ _ _ hid'
        obtain ⟨hnamed, n, hn, -⟩ := hid
        obtain rfl := Option.mem_unique hnamed hid'
        exact ⟨_, Graph.nodes_update_self hn, rfl⟩
      · exact fun pre post h ↦ h.sameEdges (.update (fun _ ↦ rfl) fun _ ↦ rfl) (by simp)
    · rename_i hfalse
      have hnonzero : prog.Nonzero init := by simpa [hfalse] using hzero
      intro last t h
      obtain ⟨fields, hlists, hstores⟩ := lowerInitializer_stores hnonzero (Nat.zero_le _) last t h
      have hstored (y : Program.PointerField) (hy : y ∈ fields) : prog.Stored g y.value :=
        ⟨init, y.path, hinit, hexternal, hnonzero, hlists.leaf y hy⟩
      obtain ⟨hfold, ht, hst, stores, hfills, hlast, hpath⟩ := storeFields_chain hask (fun y hy ↦ hg _ (hstored y hy))
        hs last t hstores
      refine ⟨?_, ht, hst, fun _ init' _ hinit' _ hzero' ↦ ?_, stores, .fields hinit hexternal hnonzero hlists hfills,
        hlast, hpath⟩
      · rintro leaf ⟨init', path, hinit', -, -, hleaf⟩
        obtain rfl := Option.mem_unique hinit hinit'
        obtain ⟨y, hy, -, rfl⟩ := hlists.all path leaf hleaf
        exact hfold y hy
      · obtain rfl := Option.mem_unique hinit hinit'
        exact absurd (hzero'.symm.trans hnonzero) (by simp)
  · rename_i hnot
    have hunknown : g.initializer = none ∨ g.external = true := by
      cases hinit : g.initializer with
      | none => exact .inl rfl
      | some init => exact .inr (by simpa using fun hexternal ↦ hnot init hinit hexternal)
    refine .seq fun _ u hwarn ↦ ?_
    have hu := hs.remark (warn_eq_ok hwarn)
    have hsu : s.Enlarges u := .of_graph (Enlarges.retains hwarn) (by obtain ⟨_, _, rfl⟩ := warn_eq_ok hwarn; rfl)
    intro store t h
    obtain ⟨ht, hut, hstore, hpath⟩ := insertStore_chain hu store t h
    refine ⟨?_, ht, hsu.trans hut, fun _ init _ hinit hexternal ↦ (hnot init hinit hexternal).elim, [store],
      .unknown hunknown hstore, rfl, fun pre post hp ↦ hpath pre post ?_⟩
    · rintro leaf ⟨init, _, hinit, hexternal, -⟩
      exact (hnot init hinit hexternal).elim
    · obtain ⟨_, _, rfl⟩ := warn_eq_ok hwarn
      exact hp

end

/-! ## Memory -/

/-- The span has the ends of the list. -/
def Ends (chain : Option Span) (ids : List NodeId) : Prop := chain.map (·.first) = ids.head? ∧ chain.map
    (·.last) = ids.getLast?

/-- A global gets its memory, at the end of the chain. -/
theorem lowerMemory_chain {chain : Option Span} (hg : g ∈ prog.globals) (hs : s.Early prog) :
    Ensures (do
      let id ← create fun h ↦ h.create
        { kind := .alloc, pointsTo := .singleton ⟨h.size, .zero⟩, size := prog.layout.allocSize g.ty }
      assign g.value id
      append chain id) s fun chain' t ↦ t.Early prog ∧ s.graph.Persists t.graph ∧ (s.Pinned → t.Pinned) ∧
        (∀ w, w ≠ g.value → t.nodes.get? w = s.nodes.get? w) ∧ ∃ id, t.Allocates g id ∧ ∀ ids, s.graph.Path ids →
          Ends chain ids → t.graph.Path (ids ++ [id]) ∧ Ends chain' (ids ++ [id]) := by
  refine .seq fun id u hid ↦ .seq fun _ w hassign ↦ ?_
  obtain ⟨rfl, hw⟩ := eq_of_create_assign rfl hid hassign
  obtain ⟨n, hkind, hn, hset, rfl⟩ : ∃ n : Node, n.kind = .alloc ∧ (n.successors = [] ∧ n.predecessors = []) ∧
      n.pointsTo = .singleton ⟨s.graph.size, .zero⟩ ∧
        w = { s with graph := s.graph.append [n], nodes := s.nodes.insert g.value s.graph.size } :=
    ⟨_, rfl, ⟨rfl, rfl⟩, rfl, hw⟩
  have hpinned := pinned_append (s := s) (v := g.value) (by rw [hkind]; rfl) hset rfl
  have hnode : (s.graph.append [n]).nodes[s.graph.size]? = some n := Graph.nodes_append_size
  have hpath {ids : List NodeId} (h : s.graph.Path ids) : (s.graph.append [n]).Path ids :=
    h.sameEdges (.append (by simpa using hn)) (by simp)
  cases chain with
  | none =>
    refine .pure ⟨hs.name (.global hg) rfl rfl rfl, .append, hpinned, fun w hw ↦ OrderedMap.get?_insert_of_ne hw,
      s.graph.size, ⟨OrderedMap.get?_insert_self, n, hnode, hkind⟩, fun ids hids hends ↦ ?_⟩
    obtain rfl : ids = [] := List.head?_eq_none_iff.1 hends.1.symm
    exact ⟨(hpath hids).start (by simp), rfl, rfl⟩
  | some span =>
    refine .seq fun _ t ht ↦ .pure ?_
    obtain rfl := onGraph_eq_ok_iff.1 ht
    obtain ⟨m, hm, hcore⟩ := Graph.Rewired.addSuccessor.node hnode
    refine ⟨hs.name (.global hg) rfl rfl rfl, Graph.Persists.append.trans Graph.Rewired.addSuccessor.persists,
      fun hs ↦ Enlarges.pinned (.of_graph Graph.Extends.addSuccessor.retains rfl) (hpinned hs),
      fun w hw ↦ OrderedMap.get?_insert_of_ne hw, s.graph.size,
      ⟨OrderedMap.get?_insert_self, m, hm, (congrArg (·.kind) hcore).trans hkind⟩, fun ids hids hends ↦ ?_⟩
    obtain ⟨pre, rfl⟩ := List.getLast?_eq_some_iff.1 hends.2.symm
    have hnew : s.graph.size ∉ pre ++ [span.last] := fun hmem ↦ lt_irrefl _ (hids.lt_size _ hmem)
    rw [List.append_assoc, List.singleton_append]
    exact ⟨(hpath hids).addSuccessor hnew (by simp), hends.1.trans (by cases pre <;> rfl), by simp⟩

/-- Every global gets its memory. -/
theorem lowerMemories_chain {globals : List Global} {chain : Option Span} (hglobals : ∀ g ∈ globals, g ∈ prog.globals)
    (hnodup : (globals.map (·.value)).Nodup) (hs : s.Early prog) :
    Ensures (globals.foldlM (fun chain global ↦ do
      let id ← create fun g ↦ g.create
        { kind := .alloc, pointsTo := .singleton ⟨g.size, .zero⟩, size := prog.layout.allocSize global.ty }
      assign global.value id
      append chain id) chain) s fun chain' t ↦ t.Early prog ∧ s.graph.Persists t.graph ∧ (s.Pinned → t.Pinned) ∧
        (∀ w, w ∉ globals.map (·.value) → t.nodes.get? w = s.nodes.get? w) ∧
        ∃ ids, List.Forall₂ t.Allocates globals ids ∧
        ∀ done, s.graph.Path done → Ends chain done → t.graph.Path (done ++ ids) ∧ Ends chain' (done ++ ids) := by
  induction globals generalizing s chain with
  | nil => exact .pure ⟨hs, .refl _, fun h ↦ h, by simp, [], .nil, by simpa using fun _ h h' ↦ ⟨h, h'⟩⟩
  | cons g rest ih =>
    rw [List.map_cons, List.nodup_cons] at hnodup
    rw [List.foldlM_cons]
    refine .seq fun chain₁ u hstep ↦ ?_
    obtain ⟨hu, hsu, hpins, hsame, id, ⟨hnamed, n, hn, hkind⟩, hpath⟩ :=
      lowerMemory_chain (hglobals g List.mem_cons_self) hs chain₁ u hstep
    intro chain' t h
    obtain ⟨ht, hut, hpins', hsame', ids, hids, hpath'⟩ :=
      ih (fun x hx ↦ hglobals x (List.mem_cons_of_mem _ hx)) hnodup.2 hu chain' t h
    refine ⟨ht, hsu.trans hut, fun hs ↦ hpins' (hpins hs), fun w hw ↦ ?_, id :: ids, .cons ?_ hids,
      fun done hdone hends ↦ ?_⟩
    · rw [List.map_cons, List.mem_cons, not_or] at hw
      rw [hsame' w hw.2, hsame w hw.1]
    · obtain ⟨m, hm, hnm⟩ := hut.node hn
      exact ⟨(hsame' g.value hnodup.1).trans hnamed, m, hm, hnm.kind.trans hkind⟩
    · obtain ⟨hdone', hends'⟩ := hpath done hdone hends
      simpa using hpath' (done ++ [id]) hdone' hends'

/-! ## Content -/

section

variable (hprog : prog.Coherent) (hask : ask.Grants prog P) [hmoves : ∀ k, ask.Moves (Retains k)]

include hprog hask hmoves

/-- A request for a global answers its memory. -/
theorem operand_allocated (hg : g ∈ prog.globals) (hP : P g.value) (hs : s.Early prog) (hid : s.Allocates g id)
    {op : NodeId} (h : ask.operand g.value s = .ok op t) : op = id := by
  have hgrants := hask hP hs h
  obtain ⟨hnamed, m, hm, hkind⟩ := (Enlarges.of_retains (Enlarges.retains h) hgrants.named hgrants.pinned).allocates hid
  obtain ⟨id', hid', n, hn, hop⟩ := hgrants.stands
  obtain ⟨index, hindex⟩ := hprog.kindAt_global hg
  obtain rfl : id' = id := by simpa [Program.sentinel?, hindex, hnamed, eq_comm] using hid'
  obtain rfl := Option.mem_unique hm hn
  simpa [hkind, NodeKind.isCall] using hop.symm

/-- The content of every global is put behind its memory. -/
theorem lowerContents_chain {globals : List Global} {ids : List NodeId} {tail : NodeId}
    (hglobals : ∀ g ∈ globals, g ∈ prog.globals)
    (hP : ∀ g ∈ globals, P g.value ∧ ∀ leaf, prog.Stored g leaf → P leaf) (hids : List.Forall₂ s.Allocates globals ids)
    (hs : s.Early prog) :
    Ensures (globals.foldlM (fun tail global ↦ do
      let id ← ask.operand global.value
      let last ← lowerContent prog ask global id
      return if id = tail then last else tail) tail) s fun last t ↦
        (∀ g ∈ globals, ∀ leaf, prog.Stored g leaf → prog.Foldable leaf) ∧ t.Early prog ∧ s.Enlarges t ∧ ∃ parts,
          List.Forall₂ (fun g ids ↦ t.Occupies prog g ids ∧ t.Marks prog g) globals parts ∧
          ∀ pre, s.graph.Path (pre ++ ids) → (pre ++ ids).getLast? = some tail →
            t.graph.Path (pre ++ parts.flatten) ∧ (pre ++ parts.flatten).head? = (pre ++ ids).head? ∧
              (pre ++ parts.flatten).getLast? = some last := by
  induction globals generalizing s tail ids with
  | nil =>
    obtain rfl := List.forall₂_nil_left_iff.1 hids
    exact .pure ⟨by simp, hs, .refl s, [], .nil, fun pre hpath hlast ↦ ⟨hpath, rfl, hlast⟩⟩
  | cons g rest ih =>
    obtain ⟨id, ids, hid, hrest, rfl⟩ := List.forall₂_cons_left_iff.1 hids
    have hg := hglobals g List.mem_cons_self
    obtain ⟨hvalue, hleaves⟩ := hP g List.mem_cons_self
    rw [List.foldlM_cons]
    refine .seq fun tail' w hstep ↦ ?_
    obtain ⟨op, u, hop, hstep⟩ := bind_eq_ok_iff.1 hstep
    obtain ⟨last, w', hlast, hw⟩ := bind_eq_ok_iff.1 hstep
    obtain ⟨rfl, rfl⟩ := pure_eq_ok_iff.1 hw
    have hgrants := hask hvalue hs hop
    obtain rfl := operand_allocated hprog hask hg hvalue hs hid hop
    have hsu : s.Enlarges u := .of_retains (Enlarges.retains hop) hgrants.named hgrants.pinned
    obtain ⟨hfold, hw, huw, hmarks, stores, hstores, hlast, hpath⟩ :=
      lowerContent_chain hask hleaves hgrants.early last _ hlast
    have hsw := hsu.trans huw
    intro last' t h
    obtain ⟨hfolds, ht, hwt, parts, hparts, hpath'⟩ := ih (fun x hx ↦ hglobals x (List.mem_cons_of_mem _ hx))
      (fun x hx ↦ hP x (List.mem_cons_of_mem _ hx)) (hrest.imp fun _ _ ↦ hsw.allocates) hw last' t h
    refine ⟨List.forall_mem_cons.2 ⟨hfold, hfolds⟩, ht, hsw.trans hwt, (op :: stores) :: parts,
      .cons ⟨hwt.occupies ⟨op, stores, rfl, hsw.allocates hid, hstores⟩, ?_⟩ hparts, fun pre hpre hend ↦ ?_⟩
    · exact hwt.marks (hsw.allocates hid) (hmarks (hsu.allocates hid))
    have hnext := hpath pre ids (hpre.sameEdges hgrants.edges hsu.size_le)
    rw [← List.cons_append, ← List.append_assoc] at hnext
    rw [List.flatten_cons, ← List.append_assoc]
    have hhead : (pre ++ op :: stores ++ ids).head? = (pre ++ op :: ids).head? := by cases pre <;> rfl
    rw [← hhead]
    refine hpath' (pre ++ op :: stores) hnext ?_
    -- Only the content of the last global moves the end.
    cases ids with
    | nil =>
      obtain rfl : op = tail := by simpa using hend
      simpa [List.getLast?_append] using hlast
    | cons x ids =>
      have hx : (x :: ids).getLast? = some tail := by simpa [List.getLast?_append] using hend
      have hne : op ≠ tail := by
        rintro rfl
        exact (List.nodup_cons.1 (List.nodup_append.1 hpre.nodup).2.1).1 (List.mem_of_getLast? hx)
      rw [if_neg hne, List.getLast?_append, hx]
      rfl

/-- The globals can be lowered only if all that is stored in them can be folded, and they become a path. -/
theorem lowerGlobals_chain (hP : ∀ g ∈ prog.globals, P g.value ∧ ∀ leaf, prog.Stored g leaf → P leaf)
    (hs : s.Early prog) :
    Ensures (lowerGlobals prog ask) s fun chain t ↦
      (∀ g ∈ prog.globals, ∀ leaf, prog.Stored g leaf → prog.Foldable leaf) ∧ (s.Pinned → t.Pinned) ∧
      (s.graph.Path [] → ∃ parts, List.Forall₂ (fun g ids ↦ t.Occupies prog g ids ∧ t.Marks prog g) prog.globals parts ∧
        t.graph.Path parts.flatten ∧ Ends chain parts.flatten) := by
  refine .seq fun chain u hchain ↦ ?_
  obtain ⟨hu, -, hpins, -, ids, hids, hpath⟩ := lowerMemories_chain (fun _ hg ↦ hg) hprog.nodup_globals hs
    chain u hchain
  cases chain with
  | none =>
    have hnone := allocate_chain none u hchain rfl
    rw [hnone] at hids ⊢
    obtain rfl := List.forall₂_nil_left_iff.1 hids
    exact .pure ⟨by simp, hpins, fun hempty ↦ ⟨[], .nil, hpath [] hempty ⟨rfl, rfl⟩⟩⟩
  | some span =>
    refine .seq fun last w hlast ↦ .seq fun _ t hnote ↦ .pure ?_
    obtain ⟨hfold, -, huw, parts, hparts, hpath'⟩ := lowerContents_chain hprog hask (fun _ hg ↦ hg) hP hids
      hu last w hlast
    have hwt : w.Enlarges t := .of_graph (Enlarges.retains hnote) (by obtain ⟨_, _, rfl⟩ := note_eq_ok hnote; rfl)
    refine ⟨hfold, fun hs ↦ (huw.trans hwt).pinned (hpins hs), fun hempty ↦ ?_⟩
    obtain ⟨hmemory, hfirst, hend⟩ := hpath [] hempty ⟨rfl, rfl⟩
    obtain ⟨hcontent, hhead, hlast⟩ := hpath' [] hmemory hend.symm
    refine ⟨parts, hparts.imp ?_, ?_, (hhead.trans hfirst.symm).symm, hlast.symm⟩
    · rintro g ids ⟨hids, hmarks⟩
      obtain ⟨id, _, -, hid, -⟩ := id hids
      exact ⟨hwt.occupies hids, hwt.marks hid hmarks⟩
    · obtain ⟨_, _, rfl⟩ := note_eq_ok hnote
      exact hcontent

end

/-- All that is stored in globals that can be lowered can be folded. -/
theorem lowerGlobals_foldable (hprog : prog.Coherent) {depth : Nat} (hs : s.Early prog) :
    Ensures (lowerGlobals prog (provider prog depth)) s fun _ _ ↦
      ∀ g ∈ prog.globals, ∀ leaf, prog.Stored g leaf → prog.Foldable leaf := by
  induction depth using Nat.strong_induction_on generalizing s with
  | _ depth ih =>
    by_contra hnot
    -- Otherwise they cannot be lowered at lower depths either, so that no function is begun.
    have hask : (provider prog depth).Early prog := by
      refine provider_early fun d hd t ht chain u h ↦ hnot ?_
      exact fun _ _ _ ↦ ih d hd ht chain u h
    exact hnot fun chain t h ↦ (lowerGlobals_chain hprog hask.operand (fun _ _ ↦ ⟨trivial, fun _ _ ↦ trivial⟩)
      hs chain t h).1

/-- The memory of the globals and the stores of their content are all that is on the path. -/
theorem globalChain_parts (hprog : prog.Coherent) {journal : Journal} {chain : Option Span}
    (h : globalChain prog (Lower.ask prog) { journal } = .ok chain t) :
    t.Pinned ∧ ∃ parts, List.Forall₂ (fun g ids ↦ t.Occupies prog g ids ∧ t.Marks prog g) prog.globals parts ∧
      t.graph.Path parts.flatten ∧ Ends chain parts.flatten := by
  obtain ⟨chain, u, hchain, hrest⟩ := bind_eq_ok_iff.1 (show (lowerGlobals prog (Lower.ask prog) >>= _) _ = _ from h)
  obtain ⟨_, _, hmodify, hpure⟩ := bind_eq_ok_iff.1 hrest
  obtain rfl := modify_eq_ok_iff.1 hmodify
  obtain ⟨rfl, rfl⟩ := pure_eq_ok_iff.1 hpure
  have hs := Early.initial prog journal
  have hfold := lowerGlobals_foldable hprog hs _ u hchain
  have hP (g : Global) (hg : g ∈ prog.globals) := And.intro (Program.Foldable.global hg) (hfold g hg)
  obtain ⟨-, hpins, hpath⟩ := lowerGlobals_chain hprog (provider_grants hprog _) hP hs _ u hchain
  obtain ⟨parts, hparts, hpath, hends⟩ := hpath .sentinels
  have hut : u.Enlarges { u with globals := some chain } := .of_graph (Graph.Extends.refl _).retains rfl
  exact ⟨hut.pinned (hpins (by simp [Pinned])), parts, hparts.imp fun _ _ h ↦ ⟨hut.occupies h.1, h.2⟩, hpath, hends⟩

/-- The globals become one path in program order: for each global its memory and the stores of its content. -/
theorem globalChain_path (hprog : prog.Coherent) {journal : Journal} {span : Span}
    (h : globalChain prog (Lower.ask prog) { journal } = .ok (some span) t) :
    ∃ parts, List.Forall₂ (t.Occupies prog) prog.globals parts ∧ parts.flatten.Nodup ∧
      parts.flatten.head? = some span.first ∧ parts.flatten.IsChain (fun a b ↦ t.graph.successors a = [b]) ∧
      parts.flatten.getLast? = some span.last ∧ t.graph.successors span.last = [] ∧
      ∀ a ∉ parts.flatten, t.graph.successors a = [] ∧ t.graph.predecessors a = [] := by
  obtain ⟨-, parts, hparts, hpath, hfirst, hlast⟩ := globalChain_parts hprog h
  exact ⟨parts, hparts.imp fun _ _ ↦ And.left, hpath.nodup, hfirst.symm, hpath.isChain, hlast.symm,
    hpath.last hlast.symm, fun a ↦ hpath.apart⟩

/-- A pair of pointers, a pointer that is zero, and one that is unknown. -/
def cabinet : Program := Program.assembled
  [.global "pair" (.struct [.ptr, .ptr]), .global "empty" .ptr, .global "foreign" .ptr,
    .constant (.aggregate [2, 1]) (.struct [.ptr, .ptr]), .initializer 0 3, .constant .null .ptr,
    .initializer 1 4, .external 2]

theorem globalChain_path_cabinet : ∃ (span : Span) (t : Lowering),
    globalChain cabinet (Lower.ask cabinet) {} = .ok (some span) t ∧ span = ⟨2, 8⟩ ∧
    ∃ parts, List.Forall₂ (t.Occupies cabinet) cabinet.globals parts ∧ parts.flatten.Nodup ∧
      parts.flatten.head? = some 2 ∧ parts.flatten.IsChain (fun a b ↦ t.graph.successors a = [b]) ∧
      parts.flatten.getLast? = some 8 ∧ t.graph.successors 8 = [] ∧
      ∀ a ∉ parts.flatten, t.graph.successors a = [] ∧ t.graph.predecessors a = [] := by
  have hrun : succeeds (fun chain _ ↦ chain == some ⟨2, 8⟩) (globalChain cabinet (Lower.ask cabinet) {}) = true := by
    decide +kernel
  obtain ⟨chain, t, h, htest⟩ := ok_of_succeeds hrun
  obtain rfl := eq_of_beq htest
  exact ⟨_, t, h, rfl, globalChain_path (Program.coherent_assembled _) h⟩

end Lower

end PointsTo
