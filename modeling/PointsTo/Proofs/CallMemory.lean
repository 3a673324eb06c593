import PointsTo.Proofs.LinkedCalls
import PointsTo.Proofs.StoreFlow

/-!
# Memory across calls through pointers

With a memory per node, what holds at the return of a call through a pointer comes along the control
edges that the linked functions leave there.  As long as no defined function is linked, the call leads
straight to its return and memory is kept.  The first defined function takes this edge away.  From then
on what reaches the return is what comes back from the defined functions, and the memory before the call
is lost even if a declaration, through which memory passes unchanged, may be called as well.
-/

namespace PointsTo

namespace Graph

variable {g : Graph} {n : Node} {map : MemoryMap}

/-- Only stores and copies change memory. -/
theorem passed_of_ne (hstore : n.kind ≠ .store) (hcopy : n.kind ≠ .memcpy) : g.passed n map = map := by
  unfold passed
  split
  · rename_i h _
    exact absurd h hstore
  · rename_i h _
    exact absurd h hcopy
  · rfl

end Graph

namespace Solve

variable {σ : Type} {L : CallLinker σ} {s t : Solving NodeMemory σ} {budget : Nat} {stats : SolverStats} {id : NodeId}
  {n : Node} {p v : Pointer}

/-- After a run, a node that changes no memory holds what its predecessors hold. -/
theorem holds_iff_of_run (hL : L.Lawful) (hrun : run L budget s = .ok stats t)
    (hn : (L.graph t.host).nodes[id]? = some n) (hstore : n.kind ≠ .store) (hcopy : n.kind ≠ .memcpy) :
    Holds t p v id ↔ ∃ a ∈ n.predecessors, Holds t p v a := by
  obtain ⟨r, u, h, hr, halike⟩ := leads_of_run hL hrun
  rw [halike.graph] at hn
  have hmap := (remade_of_settled hL h hr hn).1
  rw [NodeMemory.remade, Graph.passed_of_ne hstore hcopy, ← halike.memory] at hmap
  have hholds : Holds t p v id ↔ v ∈ (t.solver.memory.incoming n.predecessors).contents p.target p.offset := by
    unfold Holds
    rw [hmap]
    simp
  exact hholds.trans NodeMemory.mem_incoming

end Solve

namespace Lowering

variable (prog : Program) (s : Lowering)

/-- The callee set of a call through a pointer has a function that can be called with its arguments. -/
def Targets (c : NodeId) (call : ValueId) (f : FuncId) : Prop :=
  ∃ target, s.graph.MayCall c target ∧ s.Denotes prog target f ∧ prog.Admits call f

variable {prog s} {linked : OrderedSet (NodeId × NodeId)} {c ret m q : NodeId} {call : ValueId} {f : FuncId}

theorem Wiring.targets (h : s.Wiring prog linked) (hcall : s.IsIndirect c ret call)
    (hlinks : s.Links prog c ret call f m q) : s.Targets prog c call f := by
  obtain ⟨target, hlooked, hdenotes, hadmits⟩ := (h.wired hcall).source hlinks
  exact ⟨target, (h.looked hlooked).2, hdenotes, hadmits⟩

theorem Links.defined (h : s.Links prog c ret call f m q) :
    ∃ fn, prog.functions[f]? = some fn ∧ fn.isDeclaration = false := by
  obtain ⟨r, hjoins⟩ := h.joined
  exact hjoins.defined

end Lowering

namespace Analysis

open Command Lowering Solve Stateful

section

variable {prog : Program} {options : Options} {journal : Journal} {budget : Nat} {stats : SolverStats}
  {t : Analysis NodeMemory} {c ret : NodeId} {call : ValueId} {f : FuncId}

/-- A defined function of the callee set is linked to the call. -/
theorem links_of_targets (hprog : prog.Coherent) (h : run prog options budget (fresh options journal) = .ok stats t)
    (hcall : t.host.IsIndirect c ret call) (htargets : t.host.Targets prog c call f)
    (hdef : ∃ fn, prog.functions[f]? = some fn ∧ fn.isDeclaration = false) :
    ∃ m q, t.host.Links prog c ret call f m q := by
  have hwiring := wiring_of_run hprog h
  obtain ⟨root, s, -, -, hrun⟩ := run_fresh h
  obtain ⟨target, ⟨n, e, set, p, hn, hk, he, hset, hp, rfl⟩, hdenotes, inst, fn, hinst, hfn, hadmits⟩ := htargets
  have hlooked := looked_of_run (linker_lawful prog) hrun hn hk he hset p hp
  -- Null stands for no function.
  have hnull : ¬p.isNull = true := by
    intro hnull
    have htarget : p.target = nullTarget := by simpa [Pointer.isNull] using hnull
    obtain ⟨l, hl, hk, -⟩ := hdenotes.node hwiring.valid
    obtain ⟨l', hl', hk'⟩ := hwiring.valid.null
    rw [htarget, hl', Option.some.injEq] at hl
    rw [hl, hk] at hk'
    contradiction
  obtain ⟨fn', hfn', hdef⟩ := hdef
  obtain rfl := Option.mem_unique hfn hfn'
  have hanswers := (hwiring.wired hcall).answers (hlooked.resolve_left hnull)
  exact (hanswers.function hdenotes hinst hfn hadmits).2.2 hdef

/-- What a call through a pointer leaves in memory.  If no defined function can be called, it is what
was there before.  Otherwise it is what comes back from the defined functions of the callee set, and all
that holds at their exits is part of it. -/
theorem holds_return_iff (hprog : prog.Coherent) (h : run prog options budget (fresh options journal) = .ok stats t)
    (hcall : t.host.IsIndirect c ret call) (p v : Pointer) :
    (Holds t p v ret ↔
      (Holds t p v c ∧ ∀ f fn, t.host.Targets prog c call f → prog.functions[f]? = some fn → fn.isDeclaration = true) ∨
      ∃ f m q, t.host.Targets prog c call f ∧ t.host.Links prog c ret call f m q ∧ Holds t p v q) ∧
    ∀ f fn r, t.host.Targets prog c call f → prog.functions[f]? = some fn → fn.isDeclaration = false →
      t.host.records.get? f = some r → Holds t p v r.exit → Holds t p v ret := by
  have hwiring := wiring_of_run hprog h
  obtain ⟨root, s, -, -, hrun⟩ := run_fresh h
  have htwo := hwiring.valid.twoWay
  obtain ⟨n, hn, hk, hpaired, hv⟩ := hcall
  have hcall : t.host.IsIndirect c ret call := ⟨n, hn, hk, hpaired, hv⟩
  obtain ⟨_, _, _, hpaired', -, -, l, hl, hlk, -⟩ := (hwiring.valid.node hn).indirect hk
  obtain rfl := Option.mem_unique hpaired hpaired'
  -- What holds at a node that writes nothing is what holds at one of the nodes that lead to it.
  have hholds {b : NodeId} {n : Node} (hn : t.host.graph.nodes[b]? = some n) (hstore : n.kind ≠ .store)
      (hcopy : n.kind ≠ .memcpy) : Holds t p v b ↔ ∃ a, b ∈ t.host.graph.successors a ∧ Holds t p v a := by
    rw [holds_iff_of_run (linker_lawful prog) hrun hn hstore hcopy]
    refine exists_congr fun a ↦ and_congr_left fun _ ↦ ?_
    rw [htwo a b, Graph.mem_predecessors]
    constructor
    · exact fun ha ↦ ⟨n, hn, ha⟩
    · rintro ⟨m, hm, ha⟩
      rwa [Option.mem_unique hn hm]
  have hret := hholds hl (by simp [hlk]) (by simp [hlk])
  have hreturns {f : FuncId} {m q : NodeId} (hlinks : t.host.Links prog c ret call f m q) (hq : Holds t p v q) :
      Holds t p v ret := by
    refine hret.2 ⟨q, ?_, hq⟩
    rw [hlinks.back]
    exact List.mem_singleton_self ret
  refine ⟨⟨fun h' ↦ ?_, ?_⟩, fun f fn r htargets hfn hdef hr hexit ↦ ?_⟩
  · obtain ⟨x, hx, hheld⟩ := hret.1 h'
    by_cases hlinks : ∃ f m q, t.host.Links prog c ret call f m q
    · obtain ⟨f, m, q, hlinks⟩ := hlinks
      obtain ⟨g, m', hback⟩ := ((hwiring.wired hcall).taken hlinks).2 x hx
      exact .inr ⟨g, m', x, hwiring.targets hcall hback, hback, hheld⟩
    · simp only [not_exists] at hlinks
      obtain rfl := ((hwiring.wired hcall).free hlinks).2 x hx
      refine .inl ⟨hheld, fun f fn htargets hfn ↦ ?_⟩
      by_contra hdef
      obtain ⟨m, q, hlinked⟩ := links_of_targets hprog h hcall htargets ⟨fn, hfn, by simpa using hdef⟩
      exact hlinks f m q hlinked
  · rintro (⟨hheld, hdeclared⟩ | ⟨f, m, q, -, hlinks, hq⟩)
    · have hfree : ∀ f m q, ¬t.host.Links prog c ret call f m q := by
        intro f m q hlinks
        obtain ⟨fn, hfn, hdef⟩ := hlinks.defined
        rw [hdeclared f fn (hwiring.targets hcall hlinks) hfn] at hdef
        contradiction
      refine hret.2 ⟨c, ?_, hheld⟩
      rw [((hwiring.wired hcall).free hfree).1]
      exact List.mem_singleton_self ret
    · exact hreturns hlinks hq
  · obtain ⟨m, q, hlinks⟩ := links_of_targets hprog h hcall htargets ⟨fn, hfn, hdef⟩
    obtain ⟨r', hjoins⟩ := hlinks.joined
    obtain rfl := Option.mem_unique hr hjoins.record
    obtain ⟨site, hsite, hkind, -⟩ := hlinks.pair.site hwiring.valid
    exact hreturns hlinks ((hholds hsite (by simp [hkind]) (by simp [hkind])).2 ⟨r.exit, hjoins.exit, hexit⟩)

end

/-- A slot is written before a call of a declaration or of a function with other parameters. -/
def spared : Program := .assembled
  [function "main" .void [] false, function "g" .void [.ptr] false, function "ext" .void [] false,
    Command.global "X" .ptr, constant .null .ptr, initializer 4 5, block 0, block 1, alloca 0 0 (.int 64),
    store 0 0 6 4,
    constant (.int 1) (.int 1), select 0 0 8 1 3 .ptr, call 0 0 9 [] .void, load 0 0 4 .ptr, ret 0 0 none,
    store 1 0 5 4, ret 1 0 none]

theorem holds_return_iff_spared : ∃ stats, ∃ t : Analysis NodeMemory, run spared {} 60 (fresh {} {}) = .ok stats t ∧
    t.host.IsIndirect 10 11 10 ∧ Holds t ⟨2, .zero⟩ ⟨5, .zero⟩ 10 ∧ Holds t ⟨2, .zero⟩ ⟨5, .zero⟩ 11 := by
  have hrun : Stateful.succeeds (fun _ (t : Analysis NodeMemory) ↦ decide (
      (t.host.graph.nodes[10]?).map (fun n ↦ (n.kind, n.paired, n.value)) = some (.indirectCall, some 11, some 10) ∧
      (t.host.graph.nodes[11]?).map (fun n ↦ n.kind) = some .ret ∧ t.host.graph.successors 10 = [11] ∧
      (t.solver.memory.maps.get? 10).map (fun map ↦ ((map.object 2).entry .zero).toList) = some [⟨5, .zero⟩]))
      (run spared {} 60 (fresh {} {})) = true := by
    decide +kernel
  obtain ⟨stats, t, hrun, htest⟩ := ok_of_succeeds hrun
  obtain ⟨hcall, hreturn, hleads, hmap⟩ := of_decide_eq_true htest
  obtain ⟨n, hn, hcall⟩ := Option.map_eq_some_iff.1 hcall
  obtain ⟨l, hl, hreturn⟩ := Option.map_eq_some_iff.1 hreturn
  obtain ⟨map, hmap, hentry⟩ := Option.map_eq_some_iff.1 hmap
  simp only [Prod.mk.injEq] at hcall
  have hprog : spared.Coherent := Program.coherent_assembled _
  have hindirect : t.host.IsIndirect 10 11 10 := ⟨n, hn, hcall⟩
  have hheld : Holds t ⟨2, .zero⟩ ⟨5, .zero⟩ 10 := by
    refine ⟨map, hmap, ?_⟩
    change _ ∈ ((map.object 2).entry .zero).toList
    rw [hentry]
    exact List.mem_singleton_self _
  refine ⟨stats, t, hrun, hindirect, hheld, ?_⟩
  refine (holds_return_iff hprog hrun hindirect _ _).1.2 (.inl ⟨hheld, fun f fn htargets hfn ↦ ?_⟩)
  by_contra hdef
  obtain ⟨m, q, hlinks⟩ := links_of_targets hprog hrun hindirect htargets ⟨fn, hfn, by simpa using hdef⟩
  obtain ⟨m', hm', hkind, -⟩ := hlinks.pair.2
  obtain rfl := List.mem_singleton.1 (hleads ▸ hlinks.leads)
  obtain rfl := Option.mem_unique hl hm'
  exact absurd (hkind.symm.trans hreturn) (by decide)

/-- The same with a function that can be called. -/
def unspared : Program := .assembled
  [function "main" .void [] false, function "g" .void [] false, function "ext" .void [] false,
    Command.global "X" .ptr, constant .null .ptr, initializer 3 4, block 0, block 1, alloca 0 0 (.int 64),
    store 0 0 5 3,
    constant (.int 1) (.int 1), select 0 0 7 1 2 .ptr, call 0 0 8 [] .void, load 0 0 3 .ptr, ret 0 0 none,
    store 1 0 4 3, ret 1 0 none]

/-- A declaration may be called, and what was in memory before the call is not there after it. -/
theorem memory_lost : ∃ stats, ∃ t : Analysis NodeMemory, run unspared {} 60 (fresh {} {}) = .ok stats t ∧
    t.host.IsIndirect 10 11 9 ∧
    (∃ fn, unspared.functions[2]? = some fn ∧ fn.isDeclaration = true ∧ t.host.Targets unspared 10 9 2) ∧
    Holds t ⟨2, .zero⟩ ⟨5, .zero⟩ 10 ∧ ¬Holds t ⟨2, .zero⟩ ⟨5, .zero⟩ 11 := by
  have hrun : Stateful.succeeds (fun _ (t : Analysis NodeMemory) ↦ decide (
      (t.host.graph.nodes[10]?).map (fun n ↦ (n.kind, n.paired, n.value)) = some (.indirectCall, some 11, some 9) ∧
      (t.host.graph.nodes[10]?).map (fun n ↦ n.operand? 0) = some (some 9) ∧
      (t.host.graph.nodes[9]?).map (fun n ↦ n.pointsTo.toList) = some [⟨7, .zero⟩, ⟨8, .zero⟩] ∧
      t.host.nodes.get? 2 = some 8 ∧
      (t.solver.memory.maps.get? 10).map (fun map ↦ ((map.object 2).entry .zero).toList) = some [⟨5, .zero⟩] ∧
      (t.solver.memory.maps.get? 11).map (fun map ↦ ((map.object 2).entry .zero).toList) = some [.null]))
      (run unspared {} 60 (fresh {} {})) = true := by
    decide +kernel
  obtain ⟨stats, t, hrun, htest⟩ := ok_of_succeeds hrun
  obtain ⟨hcall, hcallee, hset, hext, hbefore, hafter⟩ := of_decide_eq_true htest
  obtain ⟨n, hn, hcall⟩ := Option.map_eq_some_iff.1 hcall
  obtain ⟨n', hn', hcallee⟩ := Option.map_eq_some_iff.1 hcallee
  obtain rfl := Option.mem_unique hn hn'
  obtain ⟨e, he, hset⟩ := Option.map_eq_some_iff.1 hset
  obtain ⟨before, hbefore, hold⟩ := Option.map_eq_some_iff.1 hbefore
  obtain ⟨after, hafter, hnew⟩ := Option.map_eq_some_iff.1 hafter
  simp only [Prod.mk.injEq] at hcall
  refine ⟨stats, t, hrun, ⟨n, hn, hcall⟩, ⟨_, rfl, rfl, 8, ?_, ⟨2, rfl, hext⟩, _, _, rfl, rfl, .inr rfl⟩, ?_, ?_⟩
  · refine ⟨n, 9, e.pointsTo, ⟨8, .zero⟩, hn, hcall.1, hcallee, Graph.pointsTo_eq_ok_iff.2 ⟨e, he, rfl⟩, ?_, rfl⟩
    change _ ∈ e.pointsTo.toList
    rw [hset]
    simp
  · refine ⟨before, hbefore, ?_⟩
    change _ ∈ ((before.object 2).entry .zero).toList
    rw [hold]
    exact List.mem_singleton_self _
  · rintro ⟨map, hmap, hmem⟩
    obtain rfl := Option.mem_unique hafter hmap
    change _ ∈ ((after.object 2).entry .zero).toList at hmem
    rw [hnew, List.mem_singleton] at hmem
    exact absurd hmem (by decide)

end Analysis

end PointsTo
