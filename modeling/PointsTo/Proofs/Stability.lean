import Mathlib.Data.Fintype.Pigeonhole
import Mathlib.Order.Filter.AtTopBot.Basic
import Mathlib.Order.Filter.Finite
import Mathlib.Order.Interval.Finset.Nat
import PointsTo.Proofs.Totality

/-!
# Runs that come to rest

There are finitely many sets of pointers into a graph.  So in the course of a run on a well-formed
graph the sets of its nodes and the links of its calls stop growing at some step, and from then on a
visit changes nothing but memory.  A run comes to a round that changes nothing if and only if visits
stop changing anything.
-/

namespace PointsTo

open OrderedSet

open Stateful

/-! ## Sequences of finitely many values -/

/-- A sequence of finitely many values that only grows from some point on is constant in the end. -/
theorem eventually_eq_of_growing {α : Type} {R : α → α → Prop} {f : ℕ → α} (hfinite : (Set.range f).Finite)
    (hrefl : ∀ a, R a a) (htrans : ∀ {a b c}, R a b → R b c → R a c)
    (hantisymm : ∀ i j, R (f i) (f j) → R (f j) (f i) → f i = f j)
    (hgrow : ∀ᶠ k in Filter.atTop, R (f k) (f (k + 1))) : ∃ a, ∀ᶠ k in Filter.atTop, f k = a := by
  obtain ⟨start, hstart⟩ := Filter.eventually_atTop.1 hgrow
  have hmono {i j : ℕ} (hi : start ≤ i) (hij : i ≤ j) : R (f i) (f j) := by
    induction j, hij using Nat.le_induction with
    | base => exact hrefl _
    | succ j hij ih => exact htrans ih (hstart j (hi.trans hij))
  -- Some value comes again and again, and nothing lies between it and itself.
  have := hfinite.to_subtype
  obtain ⟨a, ha⟩ := Finite.exists_infinite_fiber (Set.rangeFactorization f)
  have hoften (i : ℕ) : ∃ j, i < j ∧ f j = a := by
    obtain ⟨j, hj, hij⟩ := (Set.infinite_coe_iff.1 ha).exists_gt i
    exact ⟨j, hij, congrArg Subtype.val hj⟩
  obtain ⟨i, hi, hia⟩ := hoften start
  refine ⟨a, Filter.eventually_atTop.2 ⟨i, fun j hij ↦ ?_⟩⟩
  obtain ⟨k, hjk, hka⟩ := hoften j
  have hback : R (f j) (f i) := by
    rw [hia, ← hka]
    exact hmono (hi.le.trans hij) hjk.le
  rw [← hia]
  exact hantisymm j i hback (hmono hi.le hij)

theorem exists_eventually_eq_iff {α : Type} {f : ℕ → α} :
    (∃ a, ∀ᶠ k in Filter.atTop, f k = a) ↔ ∀ᶠ k in Filter.atTop, f (k + 1) = f k := by
  constructor
  · rintro ⟨a, ha⟩
    obtain ⟨start, hstart⟩ := Filter.eventually_atTop.1 ha
    refine Filter.eventually_atTop.2 ⟨start, fun k hk ↦ ?_⟩
    rw [hstart k hk, hstart (k + 1) (Nat.le_succ_of_le hk)]
  · intro h
    obtain ⟨start, hstart⟩ := Filter.eventually_atTop.1 h
    refine ⟨f start, Filter.eventually_atTop.2 ⟨start, fun k hk ↦ ?_⟩⟩
    induction k, hk using Nat.le_induction with
    | base => rfl
    | succ k hk ih => rw [hstart k hk, ih]

theorem OrderedSet.eventually_eq_of_subset {α : Type} [TotalOrder α] {S : Set α} (hS : S.Finite)
    {f : ℕ → OrderedSet α} (hf : ∀ k, ∀ a ∈ f k, a ∈ S) (hgrow : ∀ k, f k ⊆ f (k + 1)) :
    ∀ᶠ k in Filter.atTop, f (k + 1) = f k := by
  refine exists_eventually_eq_iff.1 (eventually_eq_of_growing (R := fun s t : OrderedSet α ↦ s ⊆ t)
    ((finite_of_members hS).subset ?_) subset_refl (fun hab hbc x hx ↦ hbc x (hab x hx))
    (fun i j hij hji ↦ ext fun x ↦ ⟨hij x, hji x⟩) (.of_forall hgrow))
  rintro _ ⟨k, rfl⟩
  exact hf k

namespace Graph

variable {g h : Graph} {id : NodeId} {n : Node}

/-- What a node points to, nothing if there is no such node. -/
def setAt (g : Graph) (id : NodeId) : PointerSet := ((g.nodes[id]?).map (·.pointsTo)).getD ∅

theorem setAt_of_node (hn : g.nodes[id]? = some n) : g.setAt id = n.pointsTo := by
  rw [setAt, hn]
  rfl

theorem Precedes.setAt_subset (hgh : g.Precedes h) (id : NodeId) : g.setAt id ⊆ h.setAt id := by
  cases hn : g.nodes[id]? with
  | none =>
    rw [setAt, hn]
    exact fun p hp ↦ absurd hp not_mem_empty
  | some n =>
    obtain ⟨m, hm, hnm⟩ := hgh.later hn
    rw [setAt_of_node hn, setAt_of_node hm]
    exact hnm.pointsTo

theorem WellFormed.setAt_lt (hg : g.WellFormed) (id : NodeId) : ∀ p ∈ g.setAt id, p.target < g.size := by
  intro p hp
  cases hn : g.nodes[id]? with
  | none =>
    rw [setAt, hn] at hp
    exact absurd hp not_mem_empty
  | some n =>
    rw [setAt_of_node hn] at hp
    exact (hg.node hn).pointsTo p hp

end Graph

namespace Solve

variable {μ β : Type} {s s' t u : Solving μ LoneGraph} {id : NodeId} {n : Node} {changed : Bool}

/-- A call is linked only to a target that was not looked at before. -/
theorem Links.grows (h : Links LoneGraph.linker id n t true u) :
    ∃ c ∈ u.solver.linked, ¬c ∈ t.solver.linked := by
  unfold Links at h
  split at h
  · unfold linkTargets at h
    cases hcallee : n.operand? 0 with
    | none =>
      simp only [hcallee, pure_eq_ok_iff, Bool.false_eq_true, false_and] at h
    | some callee =>
      simp only [hcallee, bind_eq_ok_iff, lift_eq_ok_iff] at h
      obtain ⟨_, _, hg, targets, _, ⟨-, rfl⟩, h⟩ := h
      obtain ⟨rfl, rfl⟩ := graph_eq hg
      refine (foldlM_preserves (P := fun b v ↦ t.solver.linked ⊆ v.solver.linked ∧
        (b = true → ∃ c ∈ v.solver.linked, ¬c ∈ t.solver.linked)) ?_ h
        ⟨subset_refl _, fun hfalse ↦ by contradiction⟩).2 rfl
      intro p _ b v d _ ⟨hsub, hnew⟩ hd
      simp only [bind_eq_ok_iff, pure_eq_ok_iff] at hd
      obtain ⟨b', w, hlink, rfl, rfl⟩ := hd
      rcases linkTarget_cases LoneGraph.linker_lawful hlink with ⟨-, rfl, rfl⟩ | ⟨hfresh, -, hlinked, -⟩
      · exact ⟨hsub, hnew⟩
      · have hmem {c : NodeId × NodeId} (hc : c = (id, p.target) ∨ c ∈ v.solver.linked) : c ∈ w.solver.linked := by
          rw [hlinked]
          exact mem_insert.2 hc
        refine ⟨fun c hc ↦ hmem (.inr (hsub c hc)), fun _ ↦ ⟨_, hmem (.inl rfl), fun hc ↦ hfresh ?_⟩⟩
        exact .inr (hsub _ hc)
  · exact absurd h.1 (by decide)

variable [MemoryModel μ]

theorem visit_linked_subset (h : visit LoneGraph.linker id s = .ok changed s') :
    s.solver.linked ⊆ s'.solver.linked := by
  obtain ⟨n, m, e, t, u, linked, hv⟩ := visited LoneGraph.linker_lawful h
  have hsub := (hv.links.frame LoneGraph.linker_lawful).2.2.1
  rwa [hv.linked_gain, ← hv.linked_leave] at hsub

/-- A visit after which the node points to no more than before and no more calls are linked keeps the
graph, and can change memory only. -/
theorem Visited.still {m : μ} {e : Effect μ} {linked : Bool}
    (hv : Visited LoneGraph.linker id s s' changed n m e t u linked)
    (hset : s'.host.graph.setAt id ⊆ s.host.graph.setAt id) (hlinked : s'.solver.linked ⊆ s.solver.linked) :
    s'.host.graph = s.host.graph ∧ changed = (e.wrote || (MemoryModel.leave id e.memory).1) := by
  have hgain : t.host.graph = s.host.graph.update id fun n ↦ { n with pointsTo := n.pointsTo ∪ e.gained } :=
    hv.graph_gain
  have hleave : s'.host.graph = u.host.graph := hv.graph_leave
  have hn : s.host.graph.nodes[id]? = some n := hv.node
  have hrefused : linked = false := by
    by_contra htrue
    obtain rfl : linked = true := by simpa using htrue
    obtain ⟨c, hc, hnew⟩ := hv.links.grows
    rw [hv.linked_gain] at hnew
    rw [← hv.linked_leave] at hc
    exact hnew (hlinked c hc)
  obtain ⟨hmemory, -, -, hsame, -⟩ := hv.links.frame LoneGraph.linker_lawful
  have hut : u.host.graph = t.host.graph := hsame hrefused
  have hgained : e.gained ⊆ n.pointsTo := by
    intro p hp
    have hnode : t.host.graph.nodes[id]? = some { n with pointsTo := n.pointsTo ∪ e.gained } := by
      rw [hgain]
      exact Graph.nodes_update_self hn
    rw [hleave, hut, Graph.setAt_of_node hnode, Graph.setAt_of_node hn] at hset
    exact hset p (mem_union.2 (.inr hp))
  constructor
  · rw [hleave, hut, hgain]
    refine Graph.update_eq_self fun m hm ↦ ?_
    rw [← Option.mem_unique hn hm, union_eq_left hgained]
  · rw [hv.changed, hrefused, PointerSet.absorb_fst_eq_false.2 hgained, hmemory, hv.memory_gain, Bool.or_false,
      Bool.or_false]

/-! ## The end of a run -/

/-- The next step processes a node and answers that something changed. -/
def Changes (x : Round × Solving μ LoneGraph) : Prop :=
  ∃ id queue t, Processed LoneGraph.linker x.1 x.2 (step LoneGraph.linker x).1 (step LoneGraph.linker x).2 id queue
    true t

/-- The next step processes a node, or it changes neither graph nor memory nor links. -/
theorem step_spec (x : Round × Solving μ LoneGraph) :
    Alike LoneGraph.linker x.2 (step LoneGraph.linker x).2 ∨ ∃ id queue changed t, Processed LoneGraph.linker x.1 x.2
      (step LoneGraph.linker x).1 (step LoneGraph.linker x).2 id queue changed t := by
  rcases step_cases (L := LoneGraph.linker) x with hnext | ⟨-, hsame⟩
  · have hnext : next LoneGraph.linker (x.1, x.2) = some ((step LoneGraph.linker x).1, (step LoneGraph.linker x).2) :=
      hnext
    rcases next_cases LoneGraph.linker_lawful hnext with hp | ⟨-, -, -, hend⟩
    · exact .inr hp
    · rw [hend]
      exact .inl (endRound_alike LoneGraph.linker_lawful)
  · rw [hsame]
    exact .inl (.refl _)

theorem step_grows (x : Round × Solving μ LoneGraph) :
    x.2.host.graph.Precedes (step LoneGraph.linker x).2.host.graph ∧
      x.2.solver.linked ⊆ (step LoneGraph.linker x).2.solver.linked := by
  rcases step_spec x with halike | ⟨id, queue, changed, t, hp⟩
  · have hgraph : (step LoneGraph.linker x).2.host.graph = x.2.host.graph := halike.graph
    rw [hgraph, halike.linked]
    exact ⟨.refl _, subset_refl _⟩
  · have hgraph : (step LoneGraph.linker x).2.host.graph = t.host.graph := hp.alike.graph
    rw [hgraph, hp.alike.linked]
    exact ⟨visit_precedes hp.visit, visit_linked_subset hp.visit⟩

variable [Confined μ] [Total μ]

/-- A step that changes nothing takes a node from the queue, or starts a round after one with changes. -/
theorem InRange.quiet_step {x : Round × Solving μ LoneGraph} (hx : InRange x) (hopen : ¬Settled x.1)
    (hquiet : ¬Changes x) :
    ((step LoneGraph.linker x).1.changed = x.1.changed ∧
      x.1.queue.toList.length = (step LoneGraph.linker x).1.queue.toList.length + 1) ∨
    (x.1.changed = true ∧ (step LoneGraph.linker x).1.changed = false) := by
  have hnext : Solve.next LoneGraph.linker (x.1, x.2) =
      some ((step LoneGraph.linker x).1, (step LoneGraph.linker x).2) := hx.next_total hopen
  rcases next_cases LoneGraph.linker_lawful hnext with ⟨id, queue, changed, t, hp⟩ | ⟨-, hchanged, hstart, -⟩
  · cases changed with
    | true => exact absurd ⟨id, queue, t, hp⟩ hquiet
    | false =>
      rw [hp.quiet rfl, Worklist.pop_eq_some hp.pop]
      exact .inl ⟨rfl, rfl⟩
  · exact .inr ⟨hchanged, by rw [hstart]; rfl⟩

/-- A run that stops changing anything comes to a round that changes nothing. -/
theorem exists_settled_of_quiet (hs : Sound s)
    (hquiet : ∀ᶠ k in Filter.atTop, ¬Changes (course LoneGraph.linker s k)) :
    ∃ k, Settled (course LoneGraph.linker s k).1 := by
  obtain ⟨start, hstart⟩ := Filter.eventually_atTop.1 hquiet
  -- The queue gets shorter until it is empty; then a round without changes is the last one.
  have hdrain (b : Bool) (hmore : b = true → ∀ k, start ≤ k → (course LoneGraph.linker s k).1.changed = false →
      ∃ j, Settled (course LoneGraph.linker s j).1) (length : Nat) :
      ∀ k, start ≤ k → (course LoneGraph.linker s k).1.changed = b →
        (course LoneGraph.linker s k).1.queue.toList.length = length →
        ∃ j, Settled (course LoneGraph.linker s j).1 := by
    induction length using Nat.strong_induction_on with
    | _ length ih =>
      intro k hk hb hlength
      by_cases hopen : Settled (course LoneGraph.linker s k).1
      · exact ⟨k, hopen⟩
      rcases (InRange.course hs k).quiet_step hopen (hstart k hk) with ⟨hsame, hshort⟩ | ⟨hchanged, hfresh⟩
      · rw [← course_succ] at hsame hshort
        exact ih _ (by omega) (k + 1) (Nat.le_succ_of_le hk) (hsame.trans hb) rfl
      · rw [← course_succ] at hfresh
        exact hmore (hb.symm.trans hchanged) (k + 1) (Nat.le_succ_of_le hk) hfresh
  have hlast := hdrain false fun hfalse ↦ by contradiction
  exact hdrain _ (fun _ k hk hb ↦ hlast _ k hk hb rfl) _ start le_rfl rfl rfl

/-! ## Graph and links -/

variable {g : Graph}

omit [MemoryModel μ] [Confined μ] [Total μ] in
/-- The calls that were looked at are pairs of nodes of the graph. -/
theorem Extends.linked_lt (hs : Extends g s) (hgraph : s.host.graph.WellFormed) :
    ∀ c ∈ s.solver.linked, c ∈ {i | i < g.size} ×ˢ {i | i < g.size} := by
  rintro ⟨c, t⟩ hc
  obtain ⟨n, callee, targets, p, hn, -, -, htargets, hp, rfl⟩ := hs.mayCall hc
  rw [hs.precedes.size]
  exact ⟨Graph.lt_size_of_node hn, hgraph.target_lt htargets p hp⟩

omit [Confined μ] [Total μ] in
theorem Extends.course (hs : Extends g s) (k : Nat) : Extends g (course LoneGraph.linker s k).2 :=
  (leads_course k).preserves LoneGraph.linker_lawful Alike.extends visit_extends hs

/-- At some step the sets of the nodes and the links of the calls have grown for the last time. -/
theorem eventually_still (hs : Sound s) (hg : Extends g s) : ∀ᶠ k in Filter.atTop,
    (course LoneGraph.linker s (k + 1)).2.solver.linked = (course LoneGraph.linker s k).2.solver.linked ∧
      ∀ id ∈ {i | i < g.size}, (course LoneGraph.linker s (k + 1)).2.host.graph.setAt id =
        (course LoneGraph.linker s k).2.host.graph.setAt id := by
  have hgraph (k : Nat) := (InRange.course hs k).sound.graph
  refine .and ?_ ((Filter.eventually_all_finite (Set.finite_lt_nat g.size)).2 fun id _ ↦ ?_)
  · refine eventually_eq_of_subset ((Set.finite_lt_nat g.size).prod (Set.finite_lt_nat g.size))
      (fun k ↦ (hg.course k).linked_lt (hgraph k)) fun k ↦ ?_
    rw [course_succ]
    exact (step_grows _).2
  · refine eventually_eq_of_subset (f := fun k ↦ (course LoneGraph.linker s k).2.host.graph.setAt id)
      (Pointer.finite_lt g.size) (fun k p hp ↦ ?_) fun k ↦ ?_
    · exact (hg.course k).precedes.size ▸ (hgraph k).setAt_lt id p hp
    · rw [course_succ]
      exact (step_grows _).1.setAt_subset id

omit [Confined μ] [Total μ] in
/-- A step that processes a node, after which the sets and the links are what they were, keeps the graph
and can change memory only. -/
theorem Processed.still {x y : Round × Solving μ LoneGraph} {queue : Worklist NodeId} {m : μ} {e : Effect μ}
    {linked : Bool} (hp : Processed LoneGraph.linker x.1 x.2 y.1 y.2 id queue changed s)
    (hv : Visited LoneGraph.linker id x.2 s changed n m e t u linked)
    (hlinked : y.2.solver.linked = x.2.solver.linked)
    (hset : y.2.host.graph.setAt id = x.2.host.graph.setAt id) :
    y.2.host.graph = x.2.host.graph ∧ changed = (e.wrote || (MemoryModel.leave id e.memory).1) := by
  have hgraph : y.2.host.graph = s.host.graph := hp.alike.graph
  rw [hgraph] at hset ⊢
  rw [hp.alike.linked] at hlinked
  exact hv.still (hset ▸ subset_refl _) (hlinked ▸ subset_refl _)

theorem eventually_graph (hs : Sound s) (hg : Extends g s) : ∀ᶠ k in Filter.atTop,
    (course LoneGraph.linker s (k + 1)).2.host.graph = (course LoneGraph.linker s k).2.host.graph := by
  filter_upwards [eventually_still hs hg] with k hstill
  obtain ⟨hlinked, hset⟩ := hstill
  rw [course_succ] at hlinked hset ⊢
  rcases step_spec (course LoneGraph.linker s k) with halike | ⟨id, queue, changed, t, hp⟩
  · exact halike.graph
  · obtain ⟨n, m, e, u, v, linked, hv⟩ := visited LoneGraph.linker_lawful hp.visit
    have hid : id < g.size := (hg.course k).precedes.size ▸ Graph.lt_size_of_node hv.node
    exact (hp.still hv hlinked (hset id hid)).1

/-- What a visit answers about memory can be told from a part of it. -/
def Tells (view : μ → β) : Prop :=
  ∀ {g : Graph} {maxOffset : Nat} {id : NodeId} {n : Node} {m m' : μ} {e : Effect μ},
    MemoryModel.enter g id m = .ok m' → Transfer.effect g maxOffset id n m' = .ok e →
    view (MemoryModel.leave id e.memory).2 = view m → e.wrote = false ∧ (MemoryModel.leave id e.memory).1 = false

/-- From some step on, a visit answers that something changed only if memory changed. -/
theorem eventually_quiet {view : μ → β} (hview : Tells view) (hs : Sound s) (hg : Extends g s) :
    ∀ᶠ k in Filter.atTop, view (course LoneGraph.linker s (k + 1)).2.solver.memory =
      view (course LoneGraph.linker s k).2.solver.memory → ¬Changes (course LoneGraph.linker s k) := by
  filter_upwards [eventually_still hs hg] with k hstill
  obtain ⟨hlinked, hset⟩ := hstill
  rw [course_succ] at hlinked hset ⊢
  rintro hsame ⟨id, queue, t, hp⟩
  obtain ⟨n, m, e, u, v, linked, hv⟩ := visited LoneGraph.linker_lawful hp.visit
  have hid : id < g.size := (hg.course k).precedes.size ▸ Graph.lt_size_of_node hv.node
  have hchanged := (hp.still hv hlinked (hset id hid)).2
  rw [hp.alike.memory, hv.memory_leave, (hv.links.frame LoneGraph.linker_lawful).1, hv.memory_gain] at hsame
  obtain ⟨hwrote, hleft⟩ := hview hv.enter hv.effect hsame
  rw [hwrote, hleft] at hchanged
  contradiction

/-- A run comes to rest if and only if its memory does. -/
theorem exists_settled_iff {view : μ → β} (hview : Tells view) (hs : Sound s) (hg : Extends g s) :
    (∃ k, Settled (course LoneGraph.linker s k).1) ↔ ∀ᶠ k in Filter.atTop,
      view (course LoneGraph.linker s (k + 1)).2.solver.memory =
        view (course LoneGraph.linker s k).2.solver.memory := by
  constructor
  · rintro ⟨k, hk⟩
    refine Filter.eventually_atTop.2 ⟨k, fun j hj ↦ ?_⟩
    rw [course_of_settled hj hk, course_of_settled (Nat.le_succ_of_le hj) hk]
  · intro hrest
    refine exists_settled_of_quiet hs ?_
    filter_upwards [hrest, eventually_quiet hview hs hg] with k hsame hquiet
    exact hquiet hsame

end Solve

end PointsTo
