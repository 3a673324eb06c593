import PointsTo.Proofs.Creation
import PointsTo.Proofs.Validity

/-!
# Steps of lowering

The changes that lowering makes to its state, each with the condition under which it is made.  Every
step keeps the state valid and leaves alone what `Grows` says.  The joining of a call to its callee
and the lowering of a whole function are not among them: they consist of steps, and pass through
states in which a call is not joined yet.
-/

namespace PointsTo

open OrderedMap

/-- Nodes that come without a value and without a partner. -/
def NodeKind.isPlain : NodeKind → Bool
  | .call | .indirectCall | .callReturn | .entry | .function => false
  | _ => true

/-- A node as it is created. -/
structure Node.Blank (n : Node) : Prop where
  successors : n.successors = []
  predecessors : n.predecessors = []
  paired : n.paired = none
  value : n.value = none

/-- The nodes agree in all that lowering relies on, but for the value. -/
structure Node.Alike (n m : Node) : Prop where
  kind : m.kind = n.kind
  paired : m.paired = n.paired
  operands : m.operands = n.operands
  successors : m.successors = n.successors
  predecessors : m.predecessors = n.predecessors
  pointsTo : n.pointsTo ⊆ m.pointsTo

namespace Lowering

/-- One change of the state. -/
inductive Step (prog : Program) (s : Lowering) : Lowering → Prop
  | quiet (warnings : Warnings) (journal : Journal) : Step prog s { s with warnings, journal }
  /-- Functions are found to touch pointers, or not. -/
  | judge {known : OrderedMap FuncId Bool} (hold : ∀ {f b}, s.relevance.get? f = some b → known.get? f = some b)
      (htrue : prog.Truthful s.relevance → prog.Truthful known) :
      Step prog s { s with relevance := known }
  | enlist (caller callee : FuncId) (site : CallSite) :
      Step prog s { s with callGraph := s.callGraph.addCall caller callee site }
  | create {n : Node} (ops : List NodeId) (hkind : n.kind.isPlain = true ∨ n.kind = .entry) (hblank : n.Blank) :
      Step prog s { s with graph := (s.graph.createWith n ops).2 }
  /-- A call of a declaration, or inline assembly. -/
  | external {n : Node} (hkind : n.kind = .call ∨ n.kind = .constant) (hblank : n.Blank) :
      Step prog s { s with graph := s.graph.append [{ n with paired := some s.graph.size }] }
  | indirect {call : ValueId} (op : NodeId) (hcall : prog.Indirect call)
      (hhoused : prog.Scoped → s.Housed prog call) : Step prog s { s with graph := s.graph.indirectCall op call }
  | function {v : ValueId} {f : FuncId} (hkind : prog.kindAt v = some (.function f)) (hv : s.nodes.get? v = none) :
      Step prog s { s with graph := s.graph.functionNode v, nodes := s.nodes.insert v s.graph.size }
  /-- A node gets a value, if it has none, or other data than lowering relies on. -/
  | adjust {a : NodeId} {change : Node → Node} (halike : ∀ n : Node, n.Alike (change n))
      (hvalue : ∀ {n : Node} {v}, s.graph.nodes[a]? = some n → n.value = some v → (change n).value = some v) :
      Step prog s { s with graph := s.graph.update a change }
  | operand {a : NodeId} (op : NodeId) (ha : s.At (fun _ n ↦ n.kind = .phi) a) :
      Step prog s { s with graph := s.graph.addOperand a op }
  | successor {a b : NodeId} (ha : s.Ends prog a) (hb : s.Accepts b) :
      Step prog s { s with graph := s.graph.addSuccessor a b }
  | after {a first last : NodeId} (ha : s.Extends prog a) (hfirst : s.Accepts first)
      (hlast : s.Ends prog last) : Step prog s { s with graph := s.graph.spliceAfter a first last }
  | before {a first last : NodeId} (ha : s.Starts prog a) (hfirst : s.Accepts first)
      (hlast : s.Ends prog last) : Step prog s { s with graph := s.graph.spliceBefore a first last }
  | alter {f : FuncId} {r r' : FunctionRecord} (hr : s.records.get? f = some r)
      (hpers : r.Persists (· < s.graph.size) r') (hvalid : s.RecordValid prog f r') :
      Step prog s { s with records := s.records.insert f r' }
  | block {f : FuncId} {b : BlockId} {span? : Option Span}
      (hvalid : ∀ span, span? = some span → s.BlockValid prog f b span) :
      Step prog s { s with blocks := s.blocks.insert (f, b) span? }
  | place {id : NodeId} (v : ValueId) (hid : s.Starts prog id) :
      Step prog s { s with placed := s.placed.insert v id }
  | globals {chain : Option Span}
      (hchain : ∀ span, chain = some span → span.first < s.graph.size ∧ s.Ends prog span.last) :
      Step prog s { s with globals := some chain }
  | root (id : NodeId) : Step prog s { s with graph := s.graph.setRoot id }

variable {prog : Program} {s t : Lowering} {a b : NodeId} {n m : Node} {old : NodeId → Prop}

/-! ## Growth of the graph -/

/-- New nodes leave the old ones alone. -/
theorem Grows.append {ns : List Node} (hnew : ∀ n ∈ ns, ∀ y ∈ n.successors, s.graph.size ≤ y) :
    s.Grows prog old { s with graph := s.graph.append ns } :=
  { refl prog old s with
    graph := .append
    firm := fun _ _ _ hxy ↦ by
      rw [Graph.successors_append_of_lt (Graph.lt_size_of_mem_successors hxy)]
      exact hxy
    held := fun _ hx _ ↦ Graph.successors_append_of_lt hx.lt_size
    operands := fun _ hn _ hm ↦ by
      rw [Graph.nodes_append_of_lt (Graph.lt_size_of_node hn), hn, Option.some.injEq] at hm
      rw [hm]
    arrivals := fun {x y} _ hy hxy ↦ by
      rcases Nat.lt_or_ge x s.graph.size with hx | hx
      · rwa [← Graph.successors_append_of_lt hx]
      · obtain ⟨i, rfl⟩ := Nat.exists_eq_add_of_le hx
        rw [Graph.successors_append_add] at hxy
        cases hi : ns[i]? with
        | none => simp [hi] at hxy
        | some n =>
          rw [hi, Option.map_some, Option.getD_some] at hxy
          exact absurd (hnew n (List.mem_of_getElem? hi) y hxy) (Nat.not_le.2 hy.lt_size) }

theorem Grows.sameEdges {g : Graph} (hg : s.graph.Persists g) (hedges : s.graph.SameEdges g)
    (hops : ∀ {a : NodeId} {n m : Node}, old a → s.graph.nodes[a]? = some n → n.kind ≠ .phi →
      g.nodes[a]? = some m → m.operands = n.operands) : s.Grows prog old { s with graph := g } :=
  { refl prog old s with
    graph := hg
    firm := fun _ _ _ hxy ↦ by
      rw [hedges.successors]
      exact hxy
    held := fun _ _ _ ↦ hedges.successors _
    operands := hops
    arrivals := fun {x _} _ _ hxy ↦ hedges.successors x ▸ hxy }

theorem Grows.rewired {g : Graph} (hg : s.graph.Rewired g)
    (hfirm : ∀ {x y}, s.FirmSource prog x → s.FirmTarget prog y → y ∈ s.graph.successors x → y ∈ g.successors x)
    (hheld : ∀ {x : NodeId}, old x → s.At (Node.Held prog) x → (∀ y ∈ s.graph.successors x, s.FirmTarget prog y) →
      g.successors x = s.graph.successors x)
    (harrivals : ∀ {x y}, s.At (fun _ n ↦ n.Returning) y → y ∈ g.successors x → y ∈ s.graph.successors x) :
    s.Grows prog old { s with graph := g } :=
  { refl prog old s with
    graph := hg.persists
    firm := fun hx hy _ ↦ hfirm hx hy
    held := hheld
    operands := fun _ hn _ hm ↦ by
      obtain ⟨l, hl, hcore⟩ := hg.node hn
      rw [Option.mem_unique hm hl]
      exact congrArg (·.operands) hcore
    arrivals := fun _ ↦ harrivals }

/-- What may be led to from anywhere does not return from a call through a pointer. -/
theorem Accepts.ne (hb : s.Accepts b) {y : NodeId} (hy : s.At (fun _ n ↦ n.Returning) y) : y ≠ b := by
  rintro rfl
  obtain ⟨n, hn, hnot⟩ := hb
  obtain ⟨m, hm, hret⟩ := hy
  exact hnot (Option.mem_unique hm hn ▸ hret)

/-- Adding an edge from a node that is not held, or not old. -/
theorem Grows.addSuccessor (ha : a < s.graph.size) (hb : s.Accepts b) (hheld : s.At (Node.Held prog) a → ¬old a) :
    s.Grows prog old { s with graph := s.graph.addSuccessor a b } := by
  apply rewired .addSuccessor
  · intro x y _ _ hxy
    exact (Graph.mem_successors_addSuccessor ha).2 (.inl hxy)
  · intro x hold hx _
    apply Graph.successors_addSuccessor_of_ne
    rintro rfl
    exact hheld hx hold
  · intro x y hy hxy
    rcases (Graph.mem_successors_addSuccessor ha).1 hxy with hxy | ⟨-, rfl⟩
    · exact hxy
    · exact absurd rfl (hb.ne hy)

theorem Grows.spliceAfter {first last : NodeId} (hs : s.Valid prog) (ha : s.Extends prog a) (hfirst : s.Accepts first)
    (hlast : s.Ends prog last) : s.Grows prog old { s with graph := s.graph.spliceAfter a first last } := by
  apply rewired .spliceAfter
  · intro x y hx _ hxy
    apply Graph.mem_successors_spliceAfter _ hlast.lt_size hxy
    rintro rfl
    exact ha.not_firmSource hx
  · intro x _ hx _
    apply Graph.successors_spliceAfter_of_ne
    · rintro rfl
      exact ha.1.not_held hx
    · rintro rfl
      exact hlast.not_held hx
  · intro x y hy hxy
    rcases Graph.of_mem_successors_spliceAfter ha.1.lt_size hlast.lt_size hxy with hxy | rfl | hay
    · exact hxy
    · exact absurd rfl (hfirst.ne hy)
    · exact absurd (hs.returning hy hay) ha.1.not_held

theorem Grows.spliceBefore {first last : NodeId} (hs : s.graph.TwoWay) (ha : s.Starts prog a) (hfirst : s.Accepts first)
    (hlast : s.Ends prog last) : s.Grows prog old { s with graph := s.graph.spliceBefore a first last } := by
  apply rewired .spliceBefore
  · intro x y _ hy hxy
    apply Graph.mem_successors_spliceBefore hs _ hlast.lt_size hxy
    rintro rfl
    exact ha.not_firmTarget hy
  · intro x _ hx hfirm
    apply hs.successors_spliceBefore
    · intro hxa
      exact ha.not_firmTarget (hfirm a hxa)
    · rintro rfl
      exact hlast.not_held hx
  · intro x y hy hxy
    rcases hs.of_mem_successors_spliceBefore hlast.lt_size hxy with hxy | rfl | rfl
    · exact hxy
    · exact absurd rfl (hfirst.ne hy)
    · exact absurd rfl (ha.accepts.ne hy)

theorem Grows.update {change : Node → Node} (halike : ∀ n : Node, n.Alike (change n))
    (hvalue : ∀ {n : Node} {v}, s.graph.nodes[a]? = some n → n.value = some v → (change n).value = some v) :
    s.Grows prog old { s with graph := s.graph.update a change } := by
  apply sameEdges
  · apply Graph.Persists.update
    intro n hn
    exact ⟨(halike n).kind, (halike n).paired, fun v hv ↦ hvalue hn hv, (halike n).operands ▸ List.prefix_refl _,
      (halike n).pointsTo⟩
  · exact .update (fun n ↦ (halike n).successors) fun n ↦ (halike n).predecessors
  · intro x n m _ hn _ hm
    rw [Graph.nodes_update] at hm
    split at hm
    · rw [hn, Option.map_some, Option.some.injEq] at hm
      rw [← hm, (halike n).operands]
    · rw [Option.mem_unique hm hn]

theorem Grows.addOperand {op : NodeId} (ha : s.At (fun _ n ↦ n.kind = .phi) a) :
    s.Grows prog old { s with graph := s.graph.addOperand a op } := by
  apply sameEdges .addOperand .addOperand
  intro x n m _ hn hk hm
  obtain ⟨n', hn', -, hops⟩ := Graph.nodes_addOperand hm
  obtain rfl := Option.mem_unique hn hn'
  obtain ⟨l, hl, hl'⟩ := ha
  have hne : x ≠ a := by
    rintro rfl
    exact hk (Option.mem_unique hl hn ▸ hl')
  rw [hops, if_neg hne, List.append_nil]

theorem Grows.createWith {ops : List NodeId} (hblank : n.Blank) :
    s.Grows prog old { s with graph := (s.graph.createWith n ops).2 } := by
  apply sameEdges .createWith (.createWith hblank.successors hblank.predecessors)
  intro x l m _ hl _ hm
  obtain ⟨l', hl', hops⟩ := Graph.nodes_addOperands hm
  have hlt := Graph.lt_size_of_node hl
  obtain rfl := Option.mem_unique hl' ((Graph.nodes_append_of_lt hlt).trans hl)
  rw [hops, if_neg (Nat.ne_of_lt hlt), List.append_nil]

theorem Grows.indirect {call : ValueId} {op : NodeId} :
    s.Grows prog old { s with graph := s.graph.indirectCall op call } := by
  refine (Grows.update (a := op) (fun n ↦ ?_) fun hn hv ↦ ?_).trans (Grows.append ?_)
  · split <;> exact ⟨rfl, rfl, rfl, rfl, rfl, fun _ hp ↦ hp⟩
  · split <;> exact hv
  · simp

theorem Grows.function {v : ValueId} (hv : s.nodes.get? v = none) :
    s.Grows prog old { s with graph := s.graph.functionNode v, nodes := s.nodes.insert v s.graph.size } := by
  refine { (append (by simp) : s.Grows prog old { s with graph := s.graph.functionNode v }) with
    named := fun {w id} hw ↦ ⟨id, get?_insert_eq_some_iff.2 (.inr ⟨?_, hw⟩), fun _ ↦ rfl⟩
    recent := fun _ {w id} hnone hsome ↦ ?_ }
  · rintro rfl
    rw [hv] at hw
    contradiction
  · rcases get?_insert_eq_some_iff.1 hsome with ⟨-, rfl⟩ | ⟨-, hsome⟩
    · exact Nat.le_refl _
    · rw [hnone] at hsome
      contradiction

theorem Grows.alter {f : FuncId} {r r' : FunctionRecord} (hr : s.records.get? f = some r)
    (hpers : r.Persists old r') : s.Grows prog old { s with records := s.records.insert f r' } := by
  refine
    { refl prog old s with
      record := fun {g r₀} hr₀ ↦ ?_
      fresh := fun {g r₁} hr₁ hr₀ ↦ ?_
      persists := fun {g r₀ r₁} hr₀ hr₁ _ ↦ ?_ }
  · by_cases hg : g = f
    · subst hg
      obtain rfl := Option.mem_unique hr hr₀
      exact ⟨r', get?_insert_self, hpers.toKeeps⟩
    · exact ⟨r₀, (get?_insert_of_ne hg).trans hr₀, .refl _⟩
  · rcases get?_insert_eq_some_iff.1 hr₁ with ⟨rfl, -⟩ | ⟨-, hr₁⟩
    · rw [hr] at hr₀
      contradiction
    · rw [hr₀] at hr₁
      contradiction
  · rcases get?_insert_eq_some_iff.1 hr₁ with ⟨rfl, rfl⟩ | ⟨-, hr₁⟩
    · rwa [← Option.mem_unique hr hr₀]
    · rw [Option.mem_unique hr₀ hr₁]
      exact .refl _ _

theorem Grows.block {x : FuncId × BlockId} {span? : Option Span} :
    s.Grows prog old { s with blocks := s.blocks.insert x span? } := by
  refine { refl prog old s with blocks := fun {y} hy ↦ ?_ }
  by_cases hyx : y = x
  · subst hyx
    simp
  · simpa [get?_insert_of_ne hyx] using hy

theorem Grows.place {id : NodeId} {v : ValueId} : s.Grows prog old { s with placed := s.placed.insert v id } := by
  refine { refl prog old s with placed := fun {w} hw ↦ ?_ }
  by_cases hwv : w = v
  · subst hwv
    simp
  · simpa [get?_insert_of_ne hwv] using hw

theorem Step.grows (h : Step prog s t) (hs : s.Valid prog) : s.Grows prog (· < s.graph.size) t := by
  cases h with
  | quiet => exact { Grows.refl prog (· < s.graph.size) s with }
  | judge hold => exact { Grows.refl prog (· < s.graph.size) s with relevance := hold }
  | enlist =>
    exact { Grows.refl prog (· < s.graph.size) s with sites := fun hsite ↦ CallGraph.mem_sites_addCall.2 (.inl hsite) }
  | create ops hkind hblank => exact .createWith hblank
  | external hkind hblank => exact .append (by simp [hblank.successors])
  | indirect => exact .indirect
  | function hkind hv => exact .function hv
  | adjust halike hvalue => exact .update halike hvalue
  | operand op ha => exact .addOperand ha
  | successor ha hb => exact .addSuccessor ha.lt_size hb fun hheld ↦ absurd hheld ha.not_held
  | after ha hfirst hlast => exact .spliceAfter hs ha hfirst hlast
  | before ha hfirst hlast => exact .spliceBefore hs.twoWay ha hfirst hlast
  | alter hr hpers => exact .alter hr hpers
  | block => exact .block
  | place v hid => exact .place
  | globals => exact { Grows.refl prog (· < s.graph.size) s with globals := fun _ ↦ by simp }
  | root id => exact .rewired ⟨fun _ ↦ rfl⟩ (fun _ _ hxy ↦ hxy) (fun _ _ _ ↦ rfl) fun _ hxy ↦ hxy

theorem Step.keeps (h : Step prog s t) (hs : s.Valid prog) : s.Keeps prog t := (h.grows hs).toKeeps

/-! ## Steps keep the state valid -/

theorem NodeValid.of_plain (h : n.kind.isPlain = true ∨ n.kind = .entry) : s.NodeValid prog a n := by
  refine ⟨fun hk ↦ ?_, fun hk ↦ ?_, fun hk ↦ ?_⟩
  all_goals
    rw [hk] at h
    rcases h with h | h <;> contradiction

theorem NodeValid.of_size_le (ha : s.graph.size ≤ a) (hn : s.graph.nodes[a]? = some n) : t.NodeValid prog a n :=
  absurd (Graph.lt_size_of_node hn) (Nat.not_lt.2 ha)

/-- While edges stay as they are, nothing new leads to a return. -/
theorem Keeps.returning {x y : NodeId} (hst : s.Keeps prog t) (hs : s.graph.TwoWay) (hedges : s.graph.SameEdges t.graph)
    (hy : t.At (fun _ n ↦ n.Returning) y) (hxy : y ∈ t.graph.successors x) :
    s.At (fun _ n ↦ n.Returning) y ∧ y ∈ s.graph.successors x := by
  rw [hedges.successors] at hxy
  exact ⟨hy.returning_of_lt hst.graph (hs.lt_size hxy), hxy⟩

namespace Adds

/-- A change of the graph alone. -/
theorem of_graph {g : Graph} (hkeeps : s.Keeps prog { s with graph := g }) (htwo : g.TwoWay)
    (hreturning : ∀ {x y}, ({ s with graph := g } : Lowering).At (fun _ n ↦ n.Returning) y → y ∈ g.successors x →
      (s.At (fun _ n ↦ n.Returning) y ∧ y ∈ s.graph.successors x) ∨ ({ s with graph := g } : Lowering).At
      (Node.Held prog) x)
    (hnode : ∀ {a : NodeId} {n : Node}, s.graph.size ≤ a → g.nodes[a]? = some n →
      ({ s with graph := g } : Lowering).NodeValid prog a n) : s.Adds prog { s with graph := g } :=
  { keeps := hkeeps, twoWay := htwo, returning := hreturning, node := hnode }

/-- A change of the graph that adds no nodes. -/
theorem of_size_eq {g : Graph} (hkeeps : s.Keeps prog { s with graph := g }) (htwo : g.TwoWay)
    (hsize : g.size = s.graph.size)
    (harrivals : ∀ {x y}, s.At (fun _ n ↦ n.Returning) y → y ∈ g.successors x → y ∈ s.graph.successors x) :
    s.Adds prog { s with graph := g } := by
  refine of_graph hkeeps htwo (fun hy hxy ↦ ?_) fun ha hn ↦ ?_
  · have hold := hy.returning_of_lt hkeeps.graph (hsize ▸ hy.lt_size)
    exact .inl ⟨hold, harrivals hold hxy⟩
  · exact absurd (Graph.lt_size_of_node hn) (Nat.not_lt.2 (hsize ▸ ha))

theorem create {ops : List NodeId} (hs : s.Valid prog)
    (hkeeps : s.Keeps prog { s with graph := (s.graph.createWith n ops).2 })
    (hkind : n.kind.isPlain = true ∨ n.kind = .entry) (hblank : n.Blank) :
    s.Adds prog { s with graph := (s.graph.createWith n ops).2 } := by
  have hedges : s.graph.SameEdges (s.graph.createWith n ops).2 := .createWith hblank.successors hblank.predecessors
  refine of_graph hkeeps (hs.twoWay.of_sameEdges hedges)
    (fun hy hxy ↦ .inl (hkeeps.returning hs.twoWay hedges hy hxy)) fun {a m} ha hm ↦ .of_plain ?_
  have hlt : a < s.graph.size + 1 := Graph.size_createWith (g := s.graph) ▸ Graph.lt_size_of_node hm
  obtain rfl : a = s.graph.size := Nat.le_antisymm (Nat.lt_succ_iff.1 hlt) ha
  have hpers : (s.graph.create n).2.Persists (s.graph.createWith n ops).2 := .addOperands
  obtain ⟨l, hl, hnl⟩ := hpers.node (Graph.nodes_create_self (g := s.graph))
  rw [Option.mem_unique hm hl, hnl.kind]
  exact hkind

theorem external (hs : s.Valid prog)
    (hkeeps : s.Keeps prog { s with graph := s.graph.append [{ n with paired := some s.graph.size }] })
    (hkind : n.kind = .call ∨ n.kind = .constant) (hblank : n.Blank) :
    s.Adds prog { s with graph := s.graph.append [{ n with paired := some s.graph.size }] } := by
  have hedges : s.graph.SameEdges (s.graph.append [{ n with paired := some s.graph.size }]) :=
    .append (by simp [hblank.successors, hblank.predecessors])
  refine of_graph hkeeps (hs.twoWay.of_sameEdges hedges)
    (fun hy hxy ↦ .inl (hkeeps.returning hs.twoWay hedges hy hxy)) fun {a m} ha hm ↦ ?_
  rcases Graph.nodes_append_cases hm with hm | ⟨i, rfl, hi⟩
  · exact .of_size_le ha hm
  · rcases i with _ | i
    · obtain rfl := Option.some.inj hi
      refine ⟨fun hk ↦ ?_, fun hk ↦ ?_, fun _ hp ↦ absurd rfl hp⟩
      · rcases hkind with hkind | hkind <;> simp [hkind] at hk
      · rcases hkind with hkind | hkind <;> simp [hkind] at hk
    · simp at hi

theorem indirect {call : ValueId} {op : NodeId} (hs : s.Valid prog)
    (hkeeps : s.Keeps prog { s with graph := s.graph.indirectCall op call }) (hcall : prog.Indirect call)
    (hhoused : prog.Scoped → s.Housed prog call) : s.Adds prog { s with graph := s.graph.indirectCall op call } := by
  refine of_graph hkeeps hs.twoWay.indirectCall (fun {x y} hy hxy ↦ ?_) fun {a m} ha hm ↦ ?_
  · rcases Graph.of_mem_successors_indirectCall hxy with hxy | rfl
    · exact .inl ⟨hy.returning_of_lt hkeeps.graph (hs.twoWay.lt_size hxy), hxy⟩
    · obtain ⟨n, hn⟩ := Graph.exists_node (Graph.lt_size_of_mem_successors hxy)
      rcases Graph.nodes_indirectCall (Nat.le_refl _) hn with ⟨-, hk, -⟩ | ⟨hne, -⟩
      · exact .inr ⟨n, hn, .inl hk⟩
      · exact absurd hne (Nat.ne_of_lt (Nat.lt_succ_self _))
  rcases Graph.nodes_indirectCall ha hm with ⟨rfl, hk, hp, hv⟩ | ⟨rfl, hk⟩
  · refine ⟨fun hk' ↦ ?_, fun _ ↦ ?_, fun hk' ↦ ?_⟩
    · rw [hk] at hk'
      contradiction
    · exact ⟨call, _, hv, hp, hcall, fun hscoped ↦ hkeeps.housed (hhoused hscoped), _,
        Graph.nodes_indirectCall_ret, rfl, rfl⟩
    · rw [hk] at hk'
      contradiction
  · apply NodeValid.of_plain
    rw [hk]
    exact .inl rfl

theorem function {v : ValueId} {f : FuncId} (hs : s.Valid prog)
    (hkeeps : s.Keeps prog { s with graph := s.graph.functionNode v, nodes := s.nodes.insert v s.graph.size })
    (hkind : prog.kindAt v = some (.function f)) :
    s.Adds prog { s with graph := s.graph.functionNode v, nodes := s.nodes.insert v s.graph.size } := by
  have hedges : s.graph.SameEdges (s.graph.functionNode v) := .append (by simp)
  refine
    { keeps := hkeeps
      twoWay := hs.twoWay.of_sameEdges hedges
      returning := fun hy hxy ↦ .inl (hkeeps.returning hs.twoWay hedges hy hxy)
      node := fun {a m} ha hm ↦ ?_
      named := fun {w id} hw ↦ ?_ }
  · rcases Graph.nodes_append_cases hm with hm | ⟨i, rfl, hi⟩
    · exact .of_size_le ha hm
    · rcases i with _ | i
      · obtain rfl := Option.some.inj hi
        exact ⟨fun _ ↦ ⟨v, f, rfl, hkind, get?_insert_self⟩, by simp, by simp⟩
      · simp at hi
  · rcases get?_insert_eq_some_iff.1 hw with ⟨rfl, rfl⟩ | ⟨-, hw⟩
    · refine .inr ⟨⟨_, hkind, _, Graph.nodes_append_size, rfl, rfl⟩, fun _ g hg ↦ ?_, .of_kind hkind (by simp)⟩
      rw [Program.home?_of_kindAt hkind] at hg
      contradiction
    · exact .inl hw

theorem alter {f : FuncId} {r r' : FunctionRecord} (hs : s.Valid prog)
    (hkeeps : s.Keeps prog { s with records := s.records.insert f r' }) (hr : s.records.get? f = some r)
    (hvalid : s.RecordValid prog f r') :
    s.Adds prog { s with records := s.records.insert f r' } := by
  have hrecorded {g : FuncId} (hold : s.records.get? g = none) : (s.records.insert f r').get? g = none := by
    rw [get?_insert_of_ne, hold]
    rintro rfl
    rw [hr] at hold
    contradiction
  refine
    { keeps := hkeeps
      twoWay := hs.twoWay
      node := .of_size_le
      record := fun {g r₁} hr₁ ↦ ?_
      recorded := fun hf hf' ↦ absurd (hrecorded hf) hf'
      started := fun hf hf' ↦ absurd (hrecorded hf) hf' }
  rcases get?_insert_eq_some_iff.1 hr₁ with ⟨rfl, rfl⟩ | ⟨-, hr₁⟩
  · refine .inr { hvalid with unplaced := fun x hx ↦ ?_ }
    obtain ⟨hfirst, hlast, hinst⟩ := hvalid.unplaced x hx
    exact ⟨hkeeps.starts hfirst, hkeeps.extending hlast, hinst⟩
  · exact .inl hr₁

end Adds

theorem Keeps.of_setBlock {f g : FuncId} {b c : BlockId} {span? : Option Span} {span : Span}
    (hkeeps : s.Keeps prog { s with blocks := s.blocks.insert (f, b) span? })
    (hvalid : ∀ span, span? = some span → s.BlockValid prog f b span)
    (hspan : (s.blocks.insert (f, b) span?).get? (g, c) = some (some span)) :
    s.blocks.get? (g, c) = some (some span) ∨
      ({ s with blocks := s.blocks.insert (f, b) span? } : Lowering).BlockValid prog g c span := by
  rcases get?_insert_eq_some_iff.1 hspan with ⟨heq, rfl⟩ | ⟨-, hspan⟩
  · obtain ⟨rfl, rfl⟩ := Prod.mk.inj heq
    exact .inr (hkeeps.blockValid (hvalid span rfl))
  · exact .inl hspan

theorem Step.adds (h : Step prog s t) (hs : s.Valid prog) : s.Adds prog t := by
  have hkeeps := h.keeps hs
  have harrivals {x y : NodeId} (hy : s.At (fun _ n ↦ n.Returning) y) (hxy : y ∈ t.graph.successors x) :
      y ∈ s.graph.successors x := (h.grows hs).arrivals hy.lt_size hy hxy
  cases h with
  | quiet => exact { keeps := hkeeps, twoWay := hs.twoWay, node := .of_size_le }
  | judge hold htrue => exact { keeps := hkeeps, twoWay := hs.twoWay, node := .of_size_le, relevance := htrue }
  | enlist =>
    exact
      { keeps := hkeeps
        twoWay := hs.twoWay
        node := .of_size_le
        sites := fun hnodup h f ↦ CallGraph.nodup_sites_addCall (hnodup h f) }
  | create ops hkind hblank => exact .create hs hkeeps hkind hblank
  | external hkind hblank => exact .external hs hkeeps hkind hblank
  | indirect op hcall hhoused => exact .indirect hs hkeeps hcall hhoused
  | function hkind hv => exact .function hs hkeeps hkind
  | adjust halike hvalue =>
    exact .of_size_eq hkeeps
      (hs.twoWay.of_sameEdges (.update (fun n ↦ (halike n).successors) fun n ↦ (halike n).predecessors))
      Graph.size_update harrivals
  | operand op ha => exact .of_size_eq hkeeps (hs.twoWay.of_sameEdges .addOperand) Graph.size_addOperand harrivals
  | successor ha hb =>
    exact .of_size_eq hkeeps (hs.twoWay.addSuccessor ha.lt_size hb.lt_size) Graph.size_addSuccessor harrivals
  | after ha hfirst hlast =>
    exact .of_size_eq hkeeps (hs.twoWay.spliceAfter ha.1.lt_size hfirst.lt_size hlast.lt_size) Graph.size_spliceAfter
      harrivals
  | before ha hfirst hlast =>
    exact .of_size_eq hkeeps (hs.twoWay.spliceBefore ha.lt_size hfirst.lt_size hlast.lt_size) Graph.size_spliceBefore
      harrivals
  | alter hr hpers hvalid => exact .alter hs hkeeps hr hvalid
  | block hvalid =>
    exact { keeps := hkeeps, twoWay := hs.twoWay, node := .of_size_le, block := hkeeps.of_setBlock hvalid }
  | place v hid =>
    refine { keeps := hkeeps, twoWay := hs.twoWay, node := .of_size_le, placed := fun {w id} hw ↦ ?_ }
    rcases get?_insert_eq_some_iff.1 hw with ⟨-, rfl⟩ | ⟨-, hw⟩
    · exact .inr hid
    · exact .inl hw
  | globals hchain =>
    exact
      { keeps := hkeeps
        twoWay := hs.twoWay
        node := .of_size_le
        globals := fun hspan ↦ .inr (hchain _ (Option.some.inj hspan)) }
  | root id => exact { keeps := hkeeps, twoWay := hs.twoWay, node := .of_size_le }

end Lowering

end PointsTo
