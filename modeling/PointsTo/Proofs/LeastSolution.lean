import Mathlib.Order.Bounds.Basic
import PointsTo.Proofs.UnknownCalls

/-!
# Shared memory yields the least solution

When a round with one memory for the whole program changes nothing, every node has been processed in
the state that remains, so that the demands of all nodes are met.  Since a run stays within every
solution of its graph, what it has found then is the least solution.
-/

namespace PointsTo

open Stateful

namespace Transfer

open SharedMemory

variable {g : Graph} {maxOffset : Nat} {id : NodeId} {n : Node} {m m' : SharedMemory}

/-- A store that adds nothing finds its values at all its targets. -/
theorem store_quiet (h : store g id n m = .ok (false, m')) :
    m'.objects.contents = m.objects.contents ∧ ∀ values targets, Operands g n values targets →
      ∀ p ∈ targets, p.isSentinel = false → ∀ q ∈ values, q ∈ m.objects.contents p.target p.offset := by
  have hfold := store_induction
    (P := fun c m₁ ↦ c = false → m₁.objects.contents = m.objects.contents)
    (R := fun p c _ ↦ c = false → ∀ values targets, Operands g n values targets →
      ∀ q ∈ values, q ∈ m.objects.contents p.target p.offset) ?_ h fun _ ↦ rfl
  · exact ⟨hfold.1 rfl, fun values targets hops p hp hs ↦ hfold.2 values targets hops p hp hs rfl values targets hops⟩
  · intro values targets hops p hp hs strong _ c m₁ hP
    have hadds := store_adds p values m₁
    refine ⟨fun hc ↦ ?_, fun hc values' targets' hops' q hq ↦ ?_, fun q _ hR hc ↦ ?_⟩
    all_goals
      obtain ⟨hc, hw⟩ := Bool.or_eq_false_iff.1 hc
    · exact (hadds.contents_eq hw).trans (hP hc)
    · obtain ⟨rfl, -⟩ := hops.unique hops'
      rw [← hP hc]
      exact hadds.quiet hw p.target p.offset ⟨rfl, rfl, hq⟩
    · exact hR hc

/-- What a copy from one source to one destination asks of memory. -/
def Copied (g : Graph) (n : Node) (mem : Contents) (src dest : Pointer) : Prop :=
  dest.isSentinel = false →
    (src.isUnknown = true → Pointer.unknown ∈ mem dest.target dest.offset) ∧
    (src.isSentinel = false → ∀ place,
      g.moves mem ⟨src.target, src.offset + n.offset⟩ dest n.length place ⊆ mem dest.target place)

/-- A copy from one source to one destination that adds nothing. -/
theorem copyOne_quiet {src dest : Pointer} {w : Bool} (h : copyOne g id n src dest m = .ok (w, m'))
    (hw : w = false) :
    m'.objects.contents = m.objects.contents ∧ Copied g n m.objects.contents src dest := by
  subst hw
  rcases copyOne_cases h with ⟨hdest, -, rfl⟩ | ⟨hdest, hunknown, hstore⟩ | ⟨hdest, hunknown, hcopy⟩
  · refine ⟨rfl, fun hs ↦ ?_⟩
    simp [Pointer.isSentinel, hdest] at hs
  · have hadds := store_adds dest (.singleton .unknown) m
    change SharedMemory.store dest (.singleton .unknown) m = _ at hstore
    rw [hstore] at hadds
    refine ⟨hadds.contents_eq rfl, fun _ ↦ ⟨fun _ ↦ ?_, fun hs ↦ ?_⟩⟩
    · exact hadds.quiet rfl dest.target dest.offset ⟨rfl, rfl, OrderedSet.mem_singleton.2 rfl⟩
    · simp [Pointer.isSentinel, hunknown] at hs
  · have hadds := copy_adds hcopy
    refine ⟨hadds.contents_eq rfl, fun _ ↦ ⟨fun hu ↦ ?_, fun _ place q hq ↦ ?_⟩⟩
    · simp [hunknown] at hu
    · exact hadds.quiet rfl dest.target place ⟨rfl, hq⟩

theorem memcpy_quiet (h : memcpy g id n m = .ok (false, m')) :
    m'.objects.contents = m.objects.contents ∧ ∀ sources dests, Operands g n sources dests →
      ∀ src ∈ sources, src.isNull = false → ∀ dest ∈ dests, dest.isNull = false →
      Copied g n m.objects.contents src dest := by
  have hfold := memcpy_induction
    (P := fun c m₁ ↦ c = false → m₁.objects.contents = m.objects.contents)
    (R := fun src dest c _ ↦ c = false → Copied g n m.objects.contents src dest) ?_ h fun _ ↦ rfl
  · exact ⟨hfold.1 rfl, fun sources dests hops src hsrc hs dest hdest hd ↦
      hfold.2 sources dests hops src hsrc hs dest hdest hd rfl⟩
  · intro sources dests hops src hsrc hs dest hdest hd c m₁ w m₂ hP hcopy
    refine ⟨fun hc ↦ ?_, fun hc ↦ ?_, fun src' _ dest' _ hR hc ↦ hR (Bool.or_eq_false_iff.1 hc).1⟩
    all_goals
      obtain ⟨hc, hw⟩ := Bool.or_eq_false_iff.1 hc
    · exact (copyOne_quiet hcopy hw).1.trans (hP hc)
    · rw [← hP hc]
      exact (copyOne_quiet hcopy hw).2

/-- A node that gains nothing and writes nothing new has its demand met. -/
theorem effect_meets {e : Effect SharedMemory} (hn : g.nodes[id]? = some n)
    (h : effect g maxOffset id n m = .ok e) (hwrote : e.wrote = false) (hgained : e.gained ⊆ n.pointsTo) :
    (Facts.found g m.objects).Meets g maxOffset id n := by
  have hpts : ∀ p ∈ e.gained, p ∈ (Facts.found g m.objects).pts id := fun p hp ↦ ⟨n, hn, hgained p hp⟩
  have hcovers {j : NodeId} {s : PointerSet} (hs : g.pointsTo j = .ok s) (p : Pointer)
      (hp : p ∈ (Facts.found g m.objects).pts j) : p ∈ s := by
    obtain ⟨s', hs', hp⟩ := Facts.mem_found_pts.1 hp
    exact Except.ok.inj (hs'.symm.trans hs) ▸ hp
  have hmemcpy {src dest : NodeId} {p q : Pointer} (hkind : n.kind = .memcpy) (hsrc : n.operand? 0 = some src)
      (hdest : n.operand? 1 = some dest) (hp : p ∈ (Facts.found g m.objects).pts src)
      (hq : q ∈ (Facts.found g m.objects).pts dest) (hnull : p.isNull = false) :
      Copied g n m.objects.contents p q := by
    obtain ⟨sources, hsources, hp⟩ := Facts.mem_found_pts.1 hp
    obtain ⟨dests, hdests, hq⟩ := Facts.mem_found_pts.1 hq
    intro hproper
    exact (memcpy_quiet (hwrote ▸ effect_memcpy hkind h)).2 sources dests
      ⟨src, dest, hsrc, hdest, hsources, hdests⟩ p hp hnull q hq (Pointer.isNull_of_proper hproper) hproper
  refine ⟨fun hkind op hop p hp ↦ ?_, fun hkind hbase p hp ↦ ?_, fun hkind hpointer p hp hunknown ↦ ?_,
    fun hkind hpointer p hp hproper ↦ ?_, fun hkind hvalue hpointer p hp hproper q hq ↦ ?_,
    fun hkind hsrc hdest p hp hunknown q hq hproper ↦ ?_, fun hkind hsrc hdest p hp hps q hq hqs ↦ ?_⟩
  · obtain ⟨s, hs, hp⟩ := Facts.mem_found_pts.1 hp
    exact hpts p ((mem_collect (effect_collect hkind h) p).2 ⟨op, hop, s, hs, hp⟩)
  · obtain ⟨s, hs, hmem⟩ := mem_gep hbase (effect_gep hkind h)
    exact hpts _ ((hmem _).2 ⟨p, hcovers hs p hp, rfl⟩)
  · obtain ⟨s, hs, -, hmem⟩ := Transfer.mem_load hpointer (effect_load hkind h)
    exact hpts _ ((hmem _).2 ⟨p, hcovers hs p hp, .inl ⟨hunknown, rfl⟩⟩)
  · obtain ⟨s, hs, htotal, hmem⟩ := Transfer.mem_load hpointer (effect_load hkind h)
    obtain ⟨read, hread⟩ := htotal p (hcovers hs p hp) hproper
    intro q hq
    exact hpts q ((hmem q).2 ⟨p, hcovers hs p hp, .inr ⟨hproper, read, hread, (SharedMemory.mem_load hread).2 hq⟩⟩)
  · obtain ⟨values, hvalues, hq⟩ := Facts.mem_found_pts.1 hq
    obtain ⟨targets, htargets, hp⟩ := Facts.mem_found_pts.1 hp
    exact (store_quiet (hwrote ▸ effect_store hkind h)).2 values targets
      ⟨_, _, hvalue, hpointer, hvalues, htargets⟩ p hp hproper q hq
  · have hcopied := hmemcpy hkind hsrc hdest hp hq (Pointer.isNull_of_unknown hunknown)
    exact (hcopied hproper).1 hunknown
  · have hcopied := hmemcpy hkind hsrc hdest hp hq (Pointer.isNull_of_proper hps)
    exact (hcopied hqs).2 hps

theorem effect_contents {e : Effect SharedMemory} (h : effect g maxOffset id n m = .ok e)
    (hwrote : e.wrote = false) : e.memory.objects.contents = m.objects.contents := by
  rcases effect_cases h with ⟨-, -, hm, -⟩ | ⟨-, -, hm, -⟩ | ⟨-, -, hm, -⟩ | ⟨-, h, -⟩ | ⟨-, h, -⟩ | ⟨-, hm, -⟩
  · rw [hm]
  · rw [hm]
  · rw [hm]
  · exact (store_quiet (hwrote ▸ h)).1
  · exact (memcpy_quiet (hwrote ▸ h)).1
  · rw [hm]

end Transfer

namespace Solve

variable {σ : Type} {L : CallLinker σ} {s s' t : Solving SharedMemory σ} {r : Round}

/-- What a solver with shared memory has found. -/
def found (L : CallLinker σ) (s : Solving SharedMemory σ) : Facts :=
  .found (L.graph s.host) s.solver.memory.objects

theorem Alike.found_eq (h : Alike L s t) : found L t = found L s := by
  rw [found, found, h.graph, h.memory]

theorem Rested.contents_eq {id : NodeId} {n : Node} {m : SharedMemory} {e : Effect SharedMemory}
    (h : Rested L id s s' n m e) : s'.solver.memory.objects.contents = s.solver.memory.objects.contents := by
  obtain rfl := Except.ok.inj h.enter
  rw [h.memory]
  exact Transfer.effect_contents h.effect h.wrote

theorem Rested.meets {id : NodeId} {n : Node} {m : SharedMemory} {e : Effect SharedMemory}
    (h : Rested L id s s' n m e) : (found L s).Meets (L.graph s.host) s.solver.maxOffset id n := by
  obtain rfl := Except.ok.inj h.enter
  exact Transfer.effect_meets h.node h.effect h.wrote h.gained

/-- After a round that changes nothing all demands are met, and all targets of calls were looked at. -/
theorem found_solves (hL : L.Lawful) (h : Leads L (outset L s) (r, t)) (hr : Settled r) :
    (found L t).Solves (L.graph t.host) t.solver.maxOffset ∧
      ∀ {c callee : NodeId} {n : Node} {p : Pointer}, (L.graph t.host).nodes[c]? = some n →
        n.kind = .indirectCall → n.operand? 0 = some callee → p ∈ (found L t).pts callee → Looked c t p := by
  obtain ⟨t₀, done, -, hquiet, hdone⟩ := h.quiet hL hr.2
  rw [Worklist.pop_eq_none hr.1, List.append_nil] at hdone
  obtain ⟨hgraph, hmax, hmemory, hrested⟩ := hquiet.rested hL
    (K := fun m ↦ m.objects.contents = t₀.solver.memory.objects.contents)
    (fun hr hK ↦ hr.contents_eq.trans hK) rfl
  -- Every node was visited in a state that has the graph and the contents of the last one.
  have hall {id : NodeId} {n : Node} (hn : (L.graph t.host).nodes[id]? = some n) :
      ∃ u u' m e, Rested L id u u' n m e ∧ L.graph u.host = L.graph t.host ∧
        u.solver.maxOffset = t.solver.maxOffset ∧ found L u = found L t ∧
        u'.solver.linked ⊆ t.solver.linked := by
    have hid : id ∈ done := by
      rw [hdone, ← hgraph]
      exact Graph.mem_ids.2 (Graph.lt_size_of_node hn)
    obtain ⟨u, u', n', m, e, hr, hgraph', hmax', hK, hlinked⟩ := hrested id hid
    have hsame : L.graph u.host = L.graph t.host := hgraph'.trans hgraph.symm
    obtain rfl := Option.mem_unique hr.node (hsame ▸ hn)
    refine ⟨u, u', m, e, hr, hsame, hmax'.trans hmax.symm, ?_, hlinked⟩
    rw [found, found, Facts.found, Facts.found, hsame, hK, hmemory]
  refine ⟨fun id n hn ↦ ?_, fun {c callee n p} hn hkind hcallee hp ↦ ?_⟩
  · obtain ⟨u, u', m, e, hr, hsame, hmax', hfound, -⟩ := hall hn
    have hmeets := hr.meets
    rwa [hfound, hsame, hmax'] at hmeets
  · obtain ⟨u, u', m, e, hr, hsame, -, -, hlinked⟩ := hall hn
    obtain ⟨targets, htargets, hp⟩ := Facts.mem_found_pts.1 hp
    exact (hr.looked hkind callee targets hcallee (hsame ▸ htargets) p hp).imp id (hlinked _)

section Lone

variable {g : Graph} {maxOffset budget : Nat} {journal : Journal} {stats : SolverStats}
  {s s' t : Solving SharedMemory LoneGraph}

/-- Once all targets were looked at, exactly the calls of unknown memory were answered. -/
theorem Extends.answers (h : Extends g t)
    (hlooked : ∀ {c callee : NodeId} {n : Node} {p : Pointer}, t.host.graph.nodes[c]? = some n →
      n.kind = .indirectCall → n.operand? 0 = some callee → p ∈ (found LoneGraph.linker t).pts callee →
      Looked c t p) :
    (found LoneGraph.linker t).Answers g t.host.graph := by
  have hcalls (ret : NodeId) : (found LoneGraph.linker t).unknownCalls t.host.graph ret =
      t.host.graph.answered t.solver.linked ret := by
    ext c
    constructor
    · rintro ⟨n, callee, p, hn, hkind, hpaired, hcallee, hp, hunknown⟩
      have htarget : p.target = unknownTarget := by simpa [Pointer.isUnknown] using hunknown
      rcases hlooked hn hkind hcallee hp with hnull | hlinked
      · simp [Pointer.isNull_of_unknown hunknown] at hnull
      · exact ⟨htarget ▸ hlinked, n, hn, hpaired⟩
    · rintro ⟨hlinked, n, hn, hpaired⟩
      obtain ⟨n', callee, targets, p, hn', hkind, hcallee, htargets, hp, htarget⟩ := h.mayCall hlinked
      obtain rfl := Option.mem_unique hn hn'
      exact ⟨n, callee, p, hn, hkind, hpaired, hcallee, Facts.mem_found_pts.2 ⟨targets, htargets, hp⟩,
        by simp [Pointer.isUnknown, htarget]⟩
  refine ⟨h.precedes.embeds, fun hn hm ↦ ?_⟩
  rw [hcalls]
  exact h.operands hn hm

theorem found_solution (h : run LoneGraph.linker budget (lone SharedMemory g maxOffset journal) = .ok stats s') :
    (found LoneGraph.linker s').Covers g ∧ (found LoneGraph.linker s').Answers g s'.host.graph ∧
      (found LoneGraph.linker s').Solves s'.host.graph maxOffset := by
  obtain ⟨r, t, hleads, hsettled, halike⟩ := leads_of_run LoneGraph.linker_lawful h
  have hgraph : s'.host.graph = t.host.graph := halike.graph
  rw [halike.found_eq, hgraph]
  obtain ⟨hext, hmax⟩ := hleads.extends
  obtain ⟨hsolves, hlooked⟩ := found_solves LoneGraph.linker_lawful hleads hsettled
  refine ⟨fun id n hn p hp ↦ ?_, hext.answers hlooked, hmax ▸ hsolves⟩
  obtain ⟨m, hm, hnm⟩ := hext.precedes.later hn
  exact ⟨m, hm, hnm.pointsTo p hp⟩

/-- A run with shared memory that succeeds has found the least solution of its graph. -/
theorem found_isLeast_of_run
    (h : run LoneGraph.linker budget (lone SharedMemory g maxOffset journal) = .ok stats s') :
    (found LoneGraph.linker s').Answers g s'.host.graph ∧
      IsLeast {F | F.Solution g maxOffset} (found LoneGraph.linker s') := by
  obtain ⟨hcovers, hanswers, hsolves⟩ := found_solution h
  refine ⟨hanswers, ⟨hcovers, s'.host.graph, hanswers, hsolves⟩, ?_⟩
  rintro F ⟨hF, k, hk, hFk⟩
  obtain ⟨r, t, hleads, -, halike⟩ := leads_of_run LoneGraph.linker_lawful h
  have hbounded := hleads.bounded hF hk hFk
  rw [halike.found_eq]
  refine ⟨fun id p ↦ ?_, hbounded.memory⟩
  rintro ⟨n, hn, hp⟩
  exact hbounded.covers hn p hp

/-- A zeroed object is stored to a slot, read back and shifted, its bytes are copied onto the slot, and
unknown memory is called. -/
def busy : Graph where
  nodes := Graph.sentinels.nodes ++
    [{ kind := .alloc, pointsTo := .singleton ⟨2, .zero⟩ },
      { kind := .alloc, pointsTo := .singleton ⟨3, .zero⟩, zeroed := true, size := 16 },
      { kind := .store, operands := [3, 2] },
      { kind := .load, operands := [2] },
      { kind := .gep, operands := [5], offset := .ofNat 8 },
      { kind := .memcpy, operands := [3, 2] },
      { kind := .load, operands := [2] },
      { kind := .indirectCall, operands := [1], paired := some 10 },
      { kind := .ret, paired := some 9 }]

theorem found_isLeast_of_run_busy : ∃ stats s',
    run LoneGraph.linker 40 (lone SharedMemory busy 64) = .ok stats s' ∧
      (found LoneGraph.linker s').Answers busy s'.host.graph ∧
      IsLeast {F | F.Solution busy 64} (found LoneGraph.linker s') := by
  have hrun : succeeds (fun _ _ ↦ true) (run LoneGraph.linker 40 (lone SharedMemory busy 64)) = true := by
    decide +kernel
  obtain ⟨stats, s', h, -⟩ := ok_of_succeeds hrun
  exact ⟨stats, s', h, found_isLeast_of_run h⟩

/-- A run with a memory per node never has anything that the run with shared memory does not find: no
pointer of a node, and nothing in the memory after a node. -/
theorem nodeRun_within_sharedRun {journal' : Journal} {r : Round} {t : Solving NodeMemory LoneGraph}
    (h : run LoneGraph.linker budget (lone SharedMemory g maxOffset journal) = .ok stats s')
    (ht : Leads LoneGraph.linker (outset LoneGraph.linker (lone NodeMemory g maxOffset journal')) (r, t)) :
    (∀ {id : NodeId} {n : Node}, t.host.graph.nodes[id]? = some n →
      ∃ m, s'.host.graph.nodes[id]? = some m ∧ n.pointsTo ⊆ m.pointsTo) ∧
    ∀ {id : NodeId} {map : MemoryMap}, t.solver.memory.maps.get? id = some map → ∀ target offset,
      (map.object target).entry offset ⊆ (s'.solver.memory.objects.object target).entry offset := by
  obtain ⟨hcovers, hanswers, hsolves⟩ := found_solution h
  have hbounded := ht.bounded hcovers hanswers hsolves
  refine ⟨fun hn ↦ ?_, fun hmap target offset p hp ↦ hbounded.memory.1 _ _ hmap target offset hp⟩
  obtain ⟨m, hm, -⟩ := hbounded.embeds.later hn
  refine ⟨m, hm, fun p hp ↦ ?_⟩
  obtain ⟨m', hm', hp⟩ := hbounded.covers hn p hp
  exact Option.mem_unique hm' hm ▸ hp

theorem nodeRun_within_sharedRun_busy : ∃ stats s' r t,
    run LoneGraph.linker 40 (lone SharedMemory busy 64) = .ok stats s' ∧
    Leads LoneGraph.linker (outset LoneGraph.linker (lone NodeMemory busy 64)) (r, t) ∧
    (∀ {id : NodeId} {n : Node}, t.host.graph.nodes[id]? = some n →
      ∃ m, s'.host.graph.nodes[id]? = some m ∧ n.pointsTo ⊆ m.pointsTo) ∧
    ∀ {id : NodeId} {map : MemoryMap}, t.solver.memory.maps.get? id = some map → ∀ target offset,
      (map.object target).entry offset ⊆ (s'.solver.memory.objects.object target).entry offset := by
  have hshared : succeeds (fun _ _ ↦ true) (run LoneGraph.linker 40 (lone SharedMemory busy 64)) = true := by
    decide +kernel
  have hnode : succeeds (fun _ _ ↦ true) (run LoneGraph.linker 40 (lone NodeMemory busy 64)) = true := by
    decide +kernel
  obtain ⟨stats, s', h, -⟩ := ok_of_succeeds hshared
  obtain ⟨_, _, h', -⟩ := ok_of_succeeds hnode
  obtain ⟨r, t, ht, -, -⟩ := leads_of_run LoneGraph.linker_lawful h'
  exact ⟨stats, s', r, t, h, ht, nodeRun_within_sharedRun h ht⟩

end Lone

end Solve

end PointsTo
