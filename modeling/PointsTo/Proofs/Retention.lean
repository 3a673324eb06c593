import Mathlib.Order.Defs.Unbundled
import PointsTo.Proofs.Creation
import PointsTo.Proofs.Primitives

/-!
# What lowering leaves as it is

Lowering runs on a graph that may have been solved in part, and it may fail at any point.  In whatever
way a step of lowering ends, the nodes that were there before keep what they are: only operands, users
and control edges are added to them.  A node that stands for an object is created with a pointer to
itself and never points elsewhere, and a call is created together with its partner.

The nodes that were there before are those below a bound `k`.  Above it lowering is free to complete
the nodes that it has just created.
-/

namespace PointsTo

/-! ## Both ways to end -/

namespace Stateful

variable {σ α β : Type} {R : σ → σ → Prop} {s t : σ}

/-- The computation ends in the second state, whether it succeeds or fails. -/
def Leaves (x : EStateM Failure σ α) (s t : σ) : Prop := (∃ a, x s = .ok a t) ∨ ∃ e, x s = .error e t

theorem leaves_bind_iff {x : EStateM Failure σ α} {next : α → EStateM Failure σ β} :
    Leaves (x >>= next) s t ↔ (∃ e, x s = .error e t) ∨ ∃ a u, x s = .ok a u ∧ Leaves (next a) u t := by
  change (∃ b, EStateM.bind x next s = _) ∨ (∃ e, EStateM.bind x next s = _) ↔ _
  unfold EStateM.bind
  cases x s with
  | error e u => simp [Leaves]
  | ok a u =>
    constructor
    · exact fun h ↦ .inr ⟨a, u, rfl, h⟩
    · rintro (⟨e, he⟩ | ⟨a', u', h, hnext⟩)
      · contradiction
      · obtain ⟨rfl, rfl⟩ := EStateM.Result.ok.inj h
        exact hnext

/-- In whatever way the computation ends, it moves along the relation. -/
class Follows (R : σ → σ → Prop) (x : EStateM Failure σ α) : Prop where
  leaves : ∀ {s t}, Leaves x s t → R s t

namespace Follows

/-- A sequence ends with its first part, or with what comes next. -/
theorem leaves_bind {x : EStateM Failure σ α} {next : α → EStateM Failure σ β} (R : σ → σ → Prop) [hx : Follows R x]
    (h : Leaves (x >>= next) s t) : R s t ∨ ∃ a u, x s = .ok a u ∧ R s u ∧ Leaves (next a) u t := by
  rcases leaves_bind_iff.1 h with ⟨e, he⟩ | ⟨a, u, ha, h⟩
  · exact .inl (hx.leaves (.inr ⟨e, he⟩))
  · exact .inr ⟨a, u, ha, hx.leaves (.inl ⟨a, ha⟩), h⟩

variable [IsPreorder σ R] {x : EStateM Failure σ α} {next : α → EStateM Failure σ β}

instance pure (a : α) : Follows R (pure a : EStateM Failure σ α) where
  leaves {s t} h := by
    rcases h with ⟨b, h⟩ | ⟨e, h⟩
    · obtain ⟨-, rfl⟩ := pure_eq_ok_iff.1 h
      exact refl_of R _
    · contradiction

instance throw (e : Failure) : Follows R (throw e : EStateM Failure σ α) where
  leaves {s t} h := by
    rcases h with ⟨b, h⟩ | ⟨e, h⟩
    · contradiction
    · obtain ⟨-, rfl⟩ := EStateM.Result.error.inj h
      exact refl_of R _

instance lift (q : Query α) : Follows R (liftM q : EStateM Failure σ α) := by
  cases q with
  | ok a => exact pure a
  | error e => exact throw e

instance get : Follows R (get : EStateM Failure σ σ) where
  leaves {s t} h := by
    rcases h with ⟨b, h⟩ | ⟨e, h⟩
    · obtain ⟨-, rfl⟩ := get_eq_ok_iff.1 h
      exact refl_of R _
    · contradiction

omit [IsPreorder σ R] in
theorem modify {change : σ → σ} (h : ∀ s, R s (change s)) : Follows R (modify change : EStateM Failure σ PUnit) where
  leaves {s t} ht := by
    rcases ht with ⟨b, ht⟩ | ⟨e, ht⟩
    · exact modify_eq_ok_iff.1 ht ▸ h s
    · contradiction

theorem bind [Follows R x] (hnext : ∀ a, Follows R (next a)) : Follows R (x >>= next) where
  leaves {s t} h := by
    rcases leaves_bind R h with hst | ⟨a, u, -, hsu, h⟩
    · exact hst
    · exact trans_of R hsu ((hnext a).leaves h)

theorem andThen (hx : Follows R x) (hnext : ∀ a, Follows R (next a)) : Follows R (x >>= next) := bind hnext

instance sequence (x : EStateM Failure σ α) (next : α → EStateM Failure σ β) [Follows R x]
    [hnext : ∀ a, Follows R (next a)] : Follows R (x >>= next) := bind hnext

instance ite (c : Prop) [Decidable c] (x y : EStateM Failure σ α) [hx : Follows R x] [hy : Follows R y] :
    Follows R (if c then x else y) := by
  split
  · exact hx
  · exact hy

theorem foldlM {step : β → α → EStateM Failure σ β} (h : ∀ b a, Follows R (step b a)) (l : List α) (b : β) :
    Follows R (l.foldlM step b) := by
  induction l generalizing b with
  | nil => exact pure b
  | cons a rest ih =>
    rw [List.foldlM_cons]
    exact (h b a).andThen ih

theorem forM {step : α → EStateM Failure σ PUnit} (h : ∀ a, Follows R (step a)) (l : List α) :
    Follows R (l.forM step) := by
  induction l with
  | nil => exact pure PUnit.unit
  | cons a rest ih => exact (h a).andThen fun _ ↦ ih

end Follows

end Stateful

/-! ## Nodes -/

/-- Nodes that stand for an object. -/
def NodeKind.isObject : NodeKind → Bool
  | alloc | dynAlloc | function => true
  | _ => false

/-- Nodes that are created on their own: they stand for no object, have no partner, and begin no function. -/
def NodeKind.isOrdinary : NodeKind → Bool
  | alloc | dynAlloc | function | call | indirectCall | callReturn | entry => false
  | _ => true

namespace Node

variable {n m l : Node} {id : NodeId}

/-- The later node is what the earlier one was, with further operands and users.  It may point to more,
unless its set is fixed. -/
structure Retains (n m : Node) : Prop where
  kind : m.kind = n.kind
  value : m.value = n.value
  offset : m.offset = n.offset
  length : m.length = n.length
  size : m.size = n.size
  heap : m.heap = n.heap
  paired : m.paired = n.paired
  operands : n.operands <+: m.operands
  users : n.users <+: m.users
  pointsTo : n.pointsTo ⊆ m.pointsTo
  fixed : n.kind.isFixed = true → m.pointsTo = n.pointsTo

theorem Retains.refl (n : Node) : n.Retains n :=
  ⟨rfl, rfl, rfl, rfl, rfl, rfl, rfl, List.prefix_refl _, List.prefix_refl _, OrderedSet.subset_refl _, fun _ ↦ rfl⟩

theorem Retains.trans (hnm : n.Retains m) (hml : m.Retains l) : n.Retains l where
  kind := hml.kind.trans hnm.kind
  value := hml.value.trans hnm.value
  offset := hml.offset.trans hnm.offset
  length := hml.length.trans hnm.length
  size := hml.size.trans hnm.size
  heap := hml.heap.trans hnm.heap
  paired := hml.paired.trans hnm.paired
  operands := hnm.operands.trans hml.operands
  users := hnm.users.trans hml.users
  pointsTo p hp := hml.pointsTo p (hnm.pointsTo p hp)
  fixed hfixed := (hml.fixed (hnm.kind ▸ hfixed)).trans (hnm.fixed hfixed)

/-- The later node is of the same kind and points to the same if its set is fixed. -/
structure Matches (n m : Node) : Prop where
  kind : m.kind = n.kind
  fixed : n.kind.isFixed = true → m.pointsTo = n.pointsTo

theorem Matches.trans (hnm : n.Matches m) (hml : m.Matches l) : n.Matches l :=
  ⟨hml.kind.trans hnm.kind, fun hfixed ↦ (hml.fixed (hnm.kind ▸ hfixed)).trans (hnm.fixed hfixed)⟩

theorem Retains.matches (h : n.Retains m) : n.Matches m := ⟨h.kind, h.fixed⟩

/-- The later node is what the earlier one was, but may stand for a value or have another size. -/
structure Edits (n m : Node) : Prop where
  kind : m.kind = n.kind
  paired : m.paired = n.paired
  pointsTo : m.pointsTo = n.pointsTo

theorem Edits.matches (h : n.Edits m) : n.Matches m := ⟨h.kind, fun _ ↦ h.pointsTo⟩

/-- A node that stands for an object points to itself and to nothing else. -/
def Anchored (id : NodeId) (n : Node) : Prop := n.kind.isObject = true → n.pointsTo = .singleton ⟨id, .zero⟩

theorem Anchored.of_matches (hn : n.Anchored id) (h : n.Matches m) : m.Anchored id := by
  intro hobject
  rw [h.kind] at hobject
  have hfixed : n.kind.isFixed = true := by
    cases hkind : n.kind <;> simp_all [NodeKind.isObject, NodeKind.isFixed]
  exact (h.fixed hfixed).trans (hn hobject)

end Node

/-! ## Graphs -/

namespace Graph

variable {k : Nat} {g h i : Graph} {id a b : NodeId} {n m : Node} {f : Node → Node}

/-- The node has the partner that its kind demands. -/
structure Linked (g : Graph) (id : NodeId) (n : Node) : Prop where
  back : ∀ {b}, n.paired = some b → ∃ m, g.nodes[b]? = some m ∧ m.paired = some id
  call : n.kind = .call → ∃ b m, n.paired = some b ∧ g.nodes[b]? = some m ∧ (m.kind = .callReturn ∨ b = id)
  indirectCall : n.kind = .indirectCall → ∃ b m, n.paired = some b ∧ g.nodes[b]? = some m ∧ m.kind = .ret
  callReturn : n.kind = .callReturn → ∃ b m, n.paired = some b ∧ g.nodes[b]? = some m ∧ m.kind = .call

theorem Linked.mono (hn : g.Linked id n) (hkind : m.kind = n.kind) (hpaired : m.paired = n.paired)
    (hnodes : ∀ {b : NodeId} {l : Node}, g.nodes[b]? = some l →
      ∃ l', h.nodes[b]? = some l' ∧ l'.kind = l.kind ∧ l'.paired = l.paired) : h.Linked id m where
  back hb := by
    obtain ⟨l, hl, hback⟩ := hn.back (hpaired ▸ hb)
    obtain ⟨l', hl', -, hpair⟩ := hnodes hl
    exact ⟨l', hl', hpair.trans hback⟩
  call hcall := by
    obtain ⟨b, l, hb, hl, hpartner⟩ := hn.call (hkind ▸ hcall)
    obtain ⟨l', hl', hkept, -⟩ := hnodes hl
    exact ⟨b, l', hpaired.trans hb, hl', hkept ▸ hpartner⟩
  indirectCall hcall := by
    obtain ⟨b, l, hb, hl, hpartner⟩ := hn.indirectCall (hkind ▸ hcall)
    obtain ⟨l', hl', hkept, -⟩ := hnodes hl
    exact ⟨b, l', hpaired.trans hb, hl', hkept.trans hpartner⟩
  callReturn hcall := by
    obtain ⟨b, l, hb, hl, hpartner⟩ := hn.callReturn (hkind ▸ hcall)
    obtain ⟨l', hl', hkept, -⟩ := hnodes hl
    exact ⟨b, l', hpaired.trans hb, hl', hkept.trans hpartner⟩

theorem Zeroed.update (hf : a = id → ∀ n, g.nodes[id]? = some n → n.zeroed = true → (f n).zeroed = true)
    (hz : g.Zeroed a) : (g.update id f).Zeroed a := by
  obtain ⟨n, hn, hz⟩ := hz
  by_cases ha : a = id
  · subst ha
    exact ⟨f n, nodes_update_self hn, hf rfl n hn hz⟩
  · exact ⟨n, (nodes_update_of_ne ha).trans hn, hz⟩

theorem Zeroed.append {ns : List Node} (hz : g.Zeroed a) : (g.append ns).Zeroed a := by
  obtain ⟨n, hn, hz⟩ := hz
  exact ⟨n, (nodes_append_of_lt (lt_size_of_node hn)).trans hn, hz⟩

/-- All nodes are retained, and the new ones are complete.  None of them is the entry of a function. -/
structure Extends (g h : Graph) : Prop where
  root : g.root ≠ none → h.root ≠ none
  node : ∀ {id : NodeId} {n : Node}, g.nodes[id]? = some n → ∃ m, h.nodes[id]? = some m ∧ n.Retains m
  zeroed : ∀ {id : NodeId}, g.Zeroed id → h.Zeroed id
  fresh : ∀ {id : NodeId} {m : Node}, g.size ≤ id → h.nodes[id]? = some m →
    m.Anchored id ∧ m.kind ≠ .entry ∧ h.Linked id m

namespace Extends

theorem refl (g : Graph) : g.Extends g where
  root h := h
  node {_ n} hn := ⟨n, hn, .refl n⟩
  zeroed hz := hz
  fresh hid hm := absurd (lt_size_of_node hm) (not_lt.2 hid)

theorem linked (hgh : g.Extends h) (hn : g.Linked id n) (hnm : n.Retains m) : h.Linked id m := by
  refine hn.mono hnm.kind hnm.paired fun hl ↦ ?_
  obtain ⟨l', hl', hretains⟩ := hgh.node hl
  exact ⟨l', hl', hretains.kind, hretains.paired⟩

theorem trans (hgh : g.Extends h) (hhi : h.Extends i) : g.Extends i where
  root hg := hhi.root (hgh.root hg)
  node hn := by
    obtain ⟨m, hm, hnm⟩ := hgh.node hn
    obtain ⟨l, hl, hml⟩ := hhi.node hm
    exact ⟨l, hl, hnm.trans hml⟩
  zeroed hz := hhi.zeroed (hgh.zeroed hz)
  fresh {id m} hid hm := by
    rcases lt_or_ge id h.size with hlt | hge
    · obtain ⟨l, hl⟩ := exists_node hlt
      obtain ⟨m', hm', hlm⟩ := hhi.node hl
      obtain rfl := Option.mem_unique hm' hm
      obtain ⟨hanchored, hentry, hlinked⟩ := hgh.fresh hid hl
      exact ⟨hanchored.of_matches hlm.matches, hlm.kind ▸ hentry, hhi.linked hlinked hlm⟩
    · exact hhi.fresh hge hm

theorem update (hf : ∀ n : Node, n.Retains (f n)) (hzeroed : ∀ n : Node, n.zeroed = true → (f n).zeroed = true) :
    g.Extends (g.update id f) where
  root h := h
  node {j n} hn := by
    by_cases hj : j = id
    · subst hj
      exact ⟨f n, nodes_update_self hn, hf n⟩
    · exact ⟨n, (nodes_update_of_ne hj).trans hn, .refl n⟩
  zeroed := .update fun _ n _ ↦ hzeroed n
  fresh {j m} hj hm := absurd (lt_size_of_node hm) (not_lt.2 (size_update.trans_le hj))

theorem foldl {α : Type} {op : Graph → α → Graph} (hop : ∀ (h : Graph) a, h.Extends (op h a)) (items : List α) :
    g.Extends (items.foldl op g) :=
  List.foldlRecOn (motive := g.Extends) items op (refl g) fun h hgh a _ ↦ hgh.trans (hop h a)

theorem addOperand : g.Extends (g.addOperand a b) := by
  refine (update (fun n ↦ ?_) fun n hz ↦ ?_).trans (update (fun n ↦ ?_) fun n hz ↦ ?_)
  · exact { Node.Retains.refl n with operands := List.prefix_append _ _ }
  · exact hz
  · split
    · exact .refl n
    · exact { Node.Retains.refl n with users := List.prefix_append _ _ }
  · split
    · exact hz
    · exact hz

theorem addOperands {ops : List NodeId} : g.Extends (g.addOperands a ops) := foldl (fun _ _ ↦ addOperand) ops

theorem addSuccessor : g.Extends (g.addSuccessor a b) := by
  unfold Graph.addSuccessor
  split
  · exact refl g
  · refine (update (fun n ↦ ?_) fun n hz ↦ ?_).trans (update (fun n ↦ ?_) fun n hz ↦ ?_)
    · exact { Node.Retains.refl n with }
    · exact hz
    · exact { Node.Retains.refl n with }
    · exact hz

theorem removeSuccessor : g.Extends (g.removeSuccessor a b) := by
  refine (update (fun n ↦ ?_) fun n hz ↦ ?_).trans (update (fun n ↦ ?_) fun n hz ↦ ?_)
  · exact { Node.Retains.refl n with }
  · exact hz
  · exact { Node.Retains.refl n with }
  · exact hz

theorem redirect : g.Extends (g.redirect a b) := (foldl (fun _ _ ↦ removeSuccessor) _).trans addSuccessor

theorem spliceAfter {first last : NodeId} : g.Extends (g.spliceAfter a first last) :=
  (foldl (fun _ _ ↦ removeSuccessor.trans addSuccessor) _).trans addSuccessor

theorem spliceBefore {first last : NodeId} : g.Extends (g.spliceBefore a first last) :=
  (foldl (fun _ _ ↦ removeSuccessor.trans addSuccessor) _).trans addSuccessor

theorem setRoot : g.Extends (g.setRoot a) where
  root _ := by simp [Graph.setRoot]
  node {_ n} hn := ⟨n, hn, .refl n⟩
  zeroed hz := hz
  fresh hid hm := absurd (lt_size_of_node hm) (not_lt.2 hid)

theorem append {ns : List Node} (hns : ∀ {i : Nat} {n : Node}, ns[i]? = some n →
    n.Anchored (g.size + i) ∧ n.kind ≠ .entry ∧ (g.append ns).Linked (g.size + i) n) : g.Extends (g.append ns) where
  root h := h
  node {id n} hn := ⟨n, (nodes_append_of_lt (lt_size_of_node hn)).trans hn, .refl n⟩
  zeroed := .append
  fresh {id m} hid hm := by
    rcases nodes_append_cases hm with hold | ⟨i, rfl, hi⟩
    · exact absurd (lt_size_of_node hold) (not_lt.2 hid)
    · exact hns hi

theorem create (hn : n.Anchored g.size) (hkind : n.kind.isOrdinary = true ∨ n.kind.isObject = true)
    (hpaired : n.paired = none) : g.Extends (g.create n).2 := by
  refine append fun {i m} hi ↦ ?_
  obtain ⟨rfl, rfl⟩ : i = 0 ∧ n = m := by
    cases i with
    | zero => simpa using hi
    | succ i => simp at hi
  refine ⟨hn, ?_, ?_, ?_, ?_, ?_⟩
  case refine_2 => simp [hpaired]
  all_goals
    intro hcall
    simp [hcall, NodeKind.isOrdinary, NodeKind.isObject] at hkind

/-- A node that is its own partner. -/
theorem createPaired (hkind : n.kind = .call ∨ n.kind = .constant) :
    g.Extends ((g.create n).2.pair g.size g.size) := by
  rw [pair_create_self]
  refine append fun {i m} hi ↦ ?_
  obtain ⟨rfl, rfl⟩ : i = 0 ∧ { n with paired := some g.size } = m := by
    cases i with
    | zero => simpa using hi
    | succ i => simp at hi
  have hself : (g.append [{ n with paired := some g.size }]).nodes[g.size]? = some { n with paired := some g.size } :=
    nodes_append_size
  refine ⟨?_, ?_, fun hb ↦ ?_, fun _ ↦ ⟨_, _, rfl, hself, .inr rfl⟩, ?_, ?_⟩
  case refine_3 =>
    obtain rfl := Option.some.inj hb
    exact ⟨_, hself, rfl⟩
  all_goals
    intro hother
    rcases hkind with hkind | hkind <;> simp [hkind, NodeKind.isObject] at hother

/-- Two new nodes that are each other's partners. -/
theorem of_pair (hroot : h.root = g.root)
    (hold : ∀ {a : NodeId} {l : Node}, g.nodes[a]? = some l →
      ∃ l', h.nodes[a]? = some l' ∧ l.Retains l' ∧ (l.zeroed = true → l'.zeroed = true))
    (hsize : h.size = g.size + 2) (hfirst : h.nodes[g.size]? = some n) (hsecond : h.nodes[g.size + 1]? = some m)
    (hn : n.paired = some (g.size + 1)) (hm : m.paired = some g.size)
    (hkinds : (n.kind = .callReturn ∧ m.kind = .call) ∨ (n.kind = .indirectCall ∧ m.kind = .ret)) : g.Extends h where
  root hg := hroot ▸ hg
  node hl := by
    obtain ⟨l', hl', hretains, -⟩ := hold hl
    exact ⟨l', hl', hretains⟩
  zeroed := by
    rintro a ⟨l, hl, hz⟩
    obtain ⟨l', hl', -, hzeroed⟩ := hold hl
    exact ⟨l', hl', hzeroed hz⟩
  fresh {a l} ha hl := by
    have hlt : a < g.size + 2 := hsize ▸ lt_size_of_node hl
    obtain rfl | rfl : g.size = a ∨ g.size + 1 = a :=
      (Nat.eq_or_lt_of_le ha).imp_right fun h ↦ Nat.le_antisymm h (Nat.le_of_lt_succ hlt)
    · obtain rfl := Option.mem_unique hfirst hl
      have hback {b : NodeId} (hb : n.paired = some b) : ∃ l, h.nodes[b]? = some l ∧ l.paired = some g.size := by
        obtain rfl := Option.mem_unique hn hb
        exact ⟨m, hsecond, hm⟩
      rcases hkinds with ⟨hkind, hpartner⟩ | ⟨hkind, hpartner⟩
      · refine ⟨?_, ?_, hback, ?_, ?_, fun _ ↦ ⟨_, m, hn, hsecond, hpartner⟩⟩
        all_goals simp [Node.Anchored, hkind, NodeKind.isObject]
      · refine ⟨?_, ?_, hback, ?_, fun _ ↦ ⟨_, m, hn, hsecond, hpartner⟩, ?_⟩
        all_goals simp [Node.Anchored, hkind, NodeKind.isObject]
    · obtain rfl := Option.mem_unique hsecond hl
      have hback {b : NodeId} (hb : m.paired = some b) : ∃ l, h.nodes[b]? = some l ∧ l.paired = some (g.size + 1) := by
        obtain rfl := Option.mem_unique hm hb
        exact ⟨n, hfirst, hn⟩
      rcases hkinds with ⟨hpartner, hkind⟩ | ⟨hpartner, hkind⟩
      · refine ⟨?_, ?_, hback, fun _ ↦ ⟨_, n, hm, hfirst, .inl hpartner⟩, ?_, ?_⟩
        all_goals simp [Node.Anchored, hkind, NodeKind.isObject]
      · refine ⟨?_, ?_, hback, ?_, ?_, ?_⟩
        all_goals simp [Node.Anchored, hkind, NodeKind.isObject]

/-- A return site and its call. -/
theorem callPair : g.Extends (((g.create { kind := .callReturn }).2.create { kind := .call }).2.pair
    (g.size + 1) g.size) := by
  rw [pair, create_snd, create_snd, append_append, List.singleton_append, update_append_add, update_append_size]
  refine of_pair rfl (fun {a l} hl ↦ ⟨l, ?_, .refl l, fun hz ↦ hz⟩) size_append nodes_append_size nodes_append_add
    rfl rfl (.inl ⟨rfl, rfl⟩)
  exact (nodes_append_of_lt (lt_size_of_node hl)).trans hl

/-- A call through a pointer and its return. -/
theorem indirectPair (op : NodeId) : g.Extends
    (((g.createWith { kind := .indirectCall } [op]).2.create { kind := .ret }).2.pair g.size (g.size + 1)) := by
  obtain ⟨g', hg', hextends⟩ : ∃ g', (g.createWith { kind := .indirectCall } [op]).2 = g' ∧
      (g.append [{ kind := .indirectCall }]).Extends g' := ⟨_, rfl, addOperands⟩
  have hsize : g'.size = g.size + 1 := by
    rw [← hg', size_createWith]
  obtain ⟨n, hn, hnew⟩ := hextends.node (nodes_append_size (g := g))
  have hcall : (g'.append [{ kind := .ret }]).nodes[g.size]? = some n := (nodes_append_of_lt (by omega)).trans hn
  have hret : (g'.append [{ kind := .ret }]).nodes[g.size + 1]? = some { kind := .ret } := hsize ▸ nodes_append_size
  rw [hg', create_snd, pair]
  refine of_pair (n := { n with paired := some (g.size + 1) }) (m := { kind := .ret, paired := some g.size }) ?_
    (fun {a l} hl ↦ ?_) (by simp [hsize]) ?_ ?_ rfl rfl (.inr ⟨hnew.kind, rfl⟩)
  · rw [← hg']
    rfl
  · have hlt := lt_size_of_node hl
    obtain ⟨l', hl', hretains⟩ := hextends.node ((nodes_append_of_lt hlt).trans hl)
    have hzeroed (hz : l.zeroed = true) : l'.zeroed = true :=
      (Zeroed.iff_of_node hl').1 (hextends.zeroed (.append ⟨l, hl, hz⟩))
    refine ⟨l', ?_, hretains, hzeroed⟩
    have hlt' : a < g'.size := hsize ▸ Nat.lt_succ_of_lt hlt
    rw [nodes_update_of_ne (Nat.lt_succ_of_lt hlt).ne, nodes_update_of_ne hlt.ne, nodes_append_of_lt hlt', hl']
  · rw [nodes_update_of_ne (Nat.lt_succ_self _).ne]
    exact nodes_update_self hcall
  · refine nodes_update_self (n := { kind := .ret }) ?_
    rwa [nodes_update_of_ne (Nat.lt_succ_self _).ne']

end Extends

/-- The nodes below `k` are retained, and no node loses its kind or its fixed set. -/
structure Retains (k : Nat) (g h : Graph) : Prop where
  root : g.root ≠ none → h.root ≠ none
  node : ∀ {id : NodeId} {n : Node}, g.nodes[id]? = some n →
    ∃ m, h.nodes[id]? = some m ∧ n.Matches m ∧ (id < k → n.Retains m)
  zeroed : ∀ {id : NodeId}, id < k → g.Zeroed id → h.Zeroed id
  fresh : ∀ {id : NodeId} {m : Node}, g.size ≤ id → h.nodes[id]? = some m → m.Anchored id

theorem Extends.retains (hgh : g.Extends h) : g.Retains k h where
  root := hgh.root
  node hn := by
    obtain ⟨m, hm, hnm⟩ := hgh.node hn
    exact ⟨m, hm, hnm.matches, fun _ ↦ hnm⟩
  zeroed _ := hgh.zeroed
  fresh hid hm := (hgh.fresh hid hm).1

namespace Retains

theorem size_le (hgh : g.Retains k h) : g.size ≤ h.size := by
  by_contra hlt
  obtain ⟨n, hn⟩ := exists_node (not_le.1 hlt)
  obtain ⟨m, hm, -⟩ := hgh.node hn
  exact lt_irrefl _ (lt_size_of_node hm)

theorem trans (hgh : g.Retains k h) (hhi : h.Retains k i) : g.Retains k i where
  root hg := hhi.root (hgh.root hg)
  node hn := by
    obtain ⟨m, hm, hnm, hold⟩ := hgh.node hn
    obtain ⟨l, hl, hml, hold'⟩ := hhi.node hm
    exact ⟨l, hl, hnm.trans hml, fun hid ↦ (hold hid).trans (hold' hid)⟩
  zeroed hid hz := hhi.zeroed hid (hgh.zeroed hid hz)
  fresh {id m} hid hm := by
    rcases lt_or_ge id h.size with hlt | hge
    · obtain ⟨l, hl⟩ := exists_node hlt
      obtain ⟨m', hm', hlm, -⟩ := hhi.node hl
      obtain rfl := Option.mem_unique hm' hm
      exact (hgh.fresh hid hl).of_matches hlm
    · exact hhi.fresh hge hm

/-- A node is changed as it may be, depending on whether it was there before. -/
theorem update (hmatches : ∀ n, g.nodes[id]? = some n → n.Matches (f n))
    (hold : id < k → ∀ n, g.nodes[id]? = some n → n.Retains (f n) ∧ (n.zeroed = true → (f n).zeroed = true)) :
    g.Retains k (g.update id f) where
  root h := h
  node {j n} hn := by
    by_cases hj : j = id
    · subst hj
      exact ⟨f n, nodes_update_self hn, hmatches n hn, fun hlt ↦ (hold hlt n hn).1⟩
    · exact ⟨n, (nodes_update_of_ne hj).trans hn, (Node.Retains.refl n).matches, fun _ ↦ .refl n⟩
  zeroed hj := .update fun heq n hn ↦ (hold (heq ▸ hj) n hn).2
  fresh {j m} hj hm := absurd (lt_size_of_node hm) (not_lt.2 (size_update.trans_le hj))

theorem create (hn : n.Anchored g.size) : g.Retains k (g.create n).2 where
  root h := h
  node {id m} hm := by
    refine ⟨m, ?_, (Node.Retains.refl m).matches, fun _ ↦ .refl m⟩
    exact (nodes_append_of_lt (lt_size_of_node hm)).trans hm
  zeroed _ := .append
  fresh {id m} hid hm := by
    rcases nodes_append_cases hm with hold | ⟨j, rfl, hj⟩
    · exact absurd (lt_size_of_node hold) (not_lt.2 hid)
    · obtain ⟨rfl, rfl⟩ : j = 0 ∧ n = m := by
        cases j with
        | zero => simpa using hj
        | succ j => simp at hj
      exact hn

end Retains

/-- Every node that stands for an object points to that object alone. -/
def Anchored (g : Graph) : Prop := ∀ (id : NodeId) (n : Node), g.nodes[id]? = some n → n.Anchored id

theorem Anchored.sentinels : sentinels.Anchored := by
  intro id n hn hobject
  have hn := List.mem_of_getElem? hn
  simp only [Graph.sentinels, List.mem_cons, List.not_mem_nil, or_false] at hn
  rcases hn with rfl | rfl
  · simp [NodeKind.isObject] at hobject
  · simp [NodeKind.isObject] at hobject

theorem Anchored.of_retains (hg : g.Anchored) (hgh : g.Retains k h) : h.Anchored := by
  intro id m hm
  rcases lt_or_ge id g.size with hlt | hge
  · obtain ⟨n, hn⟩ := exists_node hlt
    obtain ⟨m', hm', hnm, -⟩ := hgh.node hn
    obtain rfl := Option.mem_unique hm' hm
    exact (hg id n hn).of_matches hnm
  · exact hgh.fresh hge hm

/-- A way to add a node without a partner, which gets the next id. -/
class Makes (make : Graph → NodeId × Graph) : Prop where
  id : ∀ g, (make g).1 = g.size
  retains : ∀ g : Graph, g.Extends (make g).2

namespace Makes

variable {kind : NodeKind} {ops : List NodeId}

theorem create (hkind : n.kind.isOrdinary = true) (hpaired : n.paired = none) : Makes (·.create n) where
  id _ := rfl
  retains _ := by
    refine .create (fun hobject ↦ ?_) (.inl hkind) hpaired
    cases hk : n.kind <;> simp_all [NodeKind.isObject, NodeKind.isOrdinary]

theorem createWith (hkind : n.kind.isOrdinary = true) (hpaired : n.paired = none) : Makes (·.createWith n ops) where
  id _ := rfl
  retains g := ((create hkind hpaired).retains g).trans .addOperands

/-- An object, which points to itself. -/
theorem allocate (hkind : n.kind.isObject = true) (hpaired : n.paired = none) :
    Makes (fun g ↦ g.create { n with pointsTo := .singleton ⟨g.size, .zero⟩ }) where
  id _ := rfl
  retains _ := .create (fun _ ↦ rfl) (.inr hkind) hpaired

instance createAlloc : Makes (·.createObject .alloc) := allocate (n := { kind := .alloc }) rfl rfl

instance createDynAlloc : Makes (·.createObject .dynAlloc) := allocate (n := { kind := .dynAlloc }) rfl rfl

instance createFunction : Makes (·.createFunction) := allocate (n := { kind := .function }) rfl rfl

instance createConstant (p : Pointer) : Makes (·.createConstant p) := create rfl rfl

instance createPhi : Makes (·.create { kind := .phi }) := create rfl rfl

instance createStore (ops : List NodeId) : Makes (·.createWith { kind := .store } ops) := createWith rfl rfl

instance createLoad (ops : List NodeId) : Makes (·.createWith { kind := .load } ops) := createWith rfl rfl

instance createJoin (ops : List NodeId) : Makes (·.createWith { kind := .phi } ops) := createWith rfl rfl

instance createCast (ops : List NodeId) : Makes (·.createWith { kind := .cast } ops) := createWith rfl rfl

instance createGep (base : NodeId) (offset : Offset) : Makes (·.createGep base offset) := createWith rfl rfl

instance createMemcpy (src dest : NodeId) (offset length : Offset) : Makes (·.createMemcpy src dest offset length) :=
  createWith rfl rfl

end Makes

end Graph

/-! ## States of lowering -/

namespace Lowering

variable {k : Nat} {s t u : Lowering}

/-- The later state retains the nodes below `k`, the records and the globals of the earlier one. -/
structure Retained (k : Nat) (s t : Lowering) : Prop where
  graph : s.graph.Retains k t.graph
  records : ∀ f, s.records.get? f ≠ none → t.records.get? f ≠ none
  globals : s.globals ≠ none → t.globals ≠ none

/-- The same, of a state that has all nodes below `k`. -/
def Retains (k : Nat) (s t : Lowering) : Prop := k ≤ s.graph.size → s.Retained k t

instance (k : Nat) : IsPreorder Lowering (Retains k) where
  refl s _ := ⟨(Graph.Extends.refl s.graph).retains, fun _ h ↦ h, fun h ↦ h⟩
  trans s t u hst htu hs := by
    have hst := hst hs
    have htu := htu (hs.trans hst.graph.size_le)
    exact ⟨hst.graph.trans htu.graph, fun f hf ↦ htu.records f (hst.records f hf), fun h ↦ htu.globals (hst.globals h)⟩

theorem retains_of_graph_eq (hgraph : t.graph = s.graph) (hrecords : ∀ f, s.records.get? f ≠ none →
    t.records.get? f ≠ none) (hglobals : s.globals ≠ none → t.globals ≠ none) : s.Retains k t :=
  fun _ ↦ ⟨hgraph.symm ▸ (Graph.Extends.refl s.graph).retains, hrecords, hglobals⟩

end Lowering

end PointsTo
