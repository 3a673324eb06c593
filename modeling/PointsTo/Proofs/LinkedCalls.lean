import PointsTo.Proofs.Course
import PointsTo.Proofs.Wiring

/-!
# Calls through pointers in a solved program

While a program is solved, every call through a pointer stays wired: what is linked to it is what
follows from the targets that have been looked at.  In the end all targets have been looked at, so all
functions that the call may go to are linked to it, each of them once.
-/

namespace PointsTo

theorem Node.Persists.operand? {n m : Node} {i : Nat} {op : NodeId} (hnm : n.Persists m)
    (hop : n.operand? i = some op) : m.operand? i = some op := by
  obtain ⟨rest, hrest⟩ := hnm.operands
  rw [Node.operand?, ← hrest]
  exact List.getElem?_append_left (List.getElem?_eq_some_iff.1 hop).1 ▸ hop

theorem Graph.Persists.mayCall {g h : Graph} {c target : NodeId} (hgh : g.Persists h) (hc : g.MayCall c target) :
    h.MayCall c target := by
  obtain ⟨n, callee, s, p, hn, hkind, hcallee, hs, hp, htarget⟩ := hc
  obtain ⟨m, hm, hnm⟩ := hgh.node hn
  obtain ⟨n', hn', rfl⟩ := Graph.pointsTo_eq_ok_iff.1 hs
  obtain ⟨m', hm', hnm'⟩ := hgh.node hn'
  exact ⟨m, callee, m'.pointsTo, p, hm, hnm.kind.trans hkind, hnm.operand? hcallee,
    Graph.pointsTo_eq_ok_iff.2 ⟨m', hm', rfl⟩, hnm'.pointsTo p hp, htarget⟩

namespace Lowering

/-- Every call through a pointer is wired. -/
structure Wiring (prog : Program) (linked : OrderedSet (NodeId × NodeId)) (s : Lowering) : Prop
    extends s.Intact prog where
  wired : ∀ {c ret call}, s.IsIndirect c ret call → s.Wired prog (fun target ↦ (c, target) ∈ linked) c ret call
  looked : ∀ {c target}, (c, target) ∈ linked → target < s.graph.size ∧ s.graph.MayCall c target

variable {prog : Program} {linked : OrderedSet (NodeId × NodeId)} {s t : Lowering} {c ret target : NodeId}
  {call : ValueId} {inst : Instruction} {f : FuncId} {fn : Function}

/-- A call has one return and stands for one instruction. -/
theorem IsIndirect.unique {ret' : NodeId} {call' : ValueId} (h : s.IsIndirect c ret call)
    (h' : s.IsIndirect c ret' call') : ret' = ret ∧ call' = call := by
  obtain ⟨n, hn, -, hp, hv⟩ := h
  obtain ⟨l, hl, -, hp', hv'⟩ := h'
  obtain rfl := Option.mem_unique hl hn
  exact ⟨Option.mem_unique hp' hp, Option.mem_unique hv' hv⟩

theorem Valid.isIndirect (hs : s.Valid prog) (h : s.graph.MayCall c target) : ∃ ret call, s.IsIndirect c ret call := by
  obtain ⟨n, _, _, _, hn, hk, -⟩ := h
  obtain ⟨call, ret, hv, hp, -⟩ := (hs.node hn).indirect hk
  exact ⟨ret, call, n, hn, hk, hp, hv⟩

namespace Wiring

theorem initial (prog : Program) (journal : Journal) : Wiring prog ∅ { journal } where
  toIntact := .initial prog journal
  wired := by
    rintro c ret call ⟨n, hn, hk, -⟩
    rcases c with _ | _ | c
    all_goals
      simp [Graph.sentinels] at hn
      try (rw [← hn] at hk; contradiction)
  looked h := absurd h OrderedSet.not_mem_empty

/-- Requests keep all calls wired, and what they create is wired. -/
theorem evolves {mine : ValueId → Prop} (h : s.Wiring prog linked) (hst : s.Evolves prog mine t) :
    t.Wiring prog linked where
  toIntact := h.toIntact.evolves hst
  wired {c ret call} hcall := by
    rcases Nat.lt_or_ge c s.graph.size with hc | hc
    · have hcall' := hcall.of_persists h.valid hst.graph hc
      exact (h.wired hcall').evolves h.valid hcall' hst fun target hlooked ↦ (h.looked hlooked).1
    · apply Wired.of_unlinked (hst.unlinked hc hcall) hst.valid hcall
      intro target hlooked
      obtain ⟨n, _, _, _, hn, -⟩ := (h.looked hlooked).2
      exact absurd (Graph.lt_size_of_node hn) (Nat.not_lt.2 hc)
  looked hlooked := by
    obtain ⟨hlt, hmay⟩ := h.looked hlooked
    exact ⟨hlt.trans_le hst.size_le, hst.graph.mayCall hmay⟩

theorem step (h : s.Wiring prog linked) (hstep : s.Step prog t) : t.Wiring prog linked := by
  have hst : s.Serves prog t := hstep.evolves h.valid
  exact h.evolves hst

/-- One more target of a call is looked at. -/
theorem look (h : s.Wiring prog linked) (hst : s.Amends prog c ret t) (hcall : s.IsIndirect c ret call)
    (hmay : s.graph.MayCall c target) (hlt : target < s.graph.size)
    (hself : t.Wired prog (fun x ↦ x = target ∨ (c, x) ∈ linked) c ret call) :
    t.Wiring prog (linked.insert (c, target)) where
  toIntact := h.toIntact.amends hst hcall
  wired {c' ret' call'} hcall' := by
    have hold := hcall'.of_persists h.valid hst.graph (hst.size ▸ hcall'.lt_size)
    by_cases hc : c' = c
    · subst hc
      obtain ⟨rfl, rfl⟩ := hcall.unique hold
      have hiff (x : NodeId) : (c', x) ∈ linked.insert (c', target) ↔ x = target ∨ (c', x) ∈ linked := by
        simp [OrderedSet.mem_insert]
      simp only [hiff]
      exact hself
    · have hiff (x : NodeId) : (c', x) ∈ linked.insert (c, target) ↔ (c', x) ∈ linked := by
        simp [OrderedSet.mem_insert, hc]
      simp only [hiff]
      exact (h.wired hold).amends h.valid hold hcall hc hst fun _ hlooked ↦ (h.looked hlooked).1
  looked {c' x} hx := by
    rw [hst.size]
    rcases OrderedSet.mem_insert.1 hx with heq | hx
    · obtain ⟨rfl, rfl⟩ := Prod.mk.inj heq
      exact ⟨hlt, hst.graph.mayCall hmay⟩
    · exact ⟨(h.looked hx).1, hst.graph.mayCall (h.looked hx).2⟩

/-- A target from which nothing follows. -/
theorem ignore (h : s.Wiring prog linked) (hcall : s.IsIndirect c ret call) (hmay : s.graph.MayCall c target)
    (hlt : target < s.graph.size) (hanswers : s.Answers prog c ret call target) :
    s.Wiring prog (linked.insert (c, target)) :=
  h.look (.refl h.valid) hcall hmay hlt ((h.wired hcall).look hanswers)

theorem addOperand (h : s.Wiring prog linked) (hcall : s.IsIndirect c ret call) (hmay : s.graph.MayCall c target)
    (hlt : target < s.graph.size)
    (hsite : ∀ {f inst fn}, s.Denotes prog target f → prog.kindAt call = some (.instruction inst) →
      prog.functions[f]? = some fn → fn.isDeclaration = true ∧ ⟨.indirect, c⟩ ∈ s.callGraph.sites inst.function f) :
    Wiring prog (linked.insert (c, target)) { s with graph := s.graph.addOperand ret unknownTarget } := by
  have hst : s.Amends prog c ret { s with graph := s.graph.addOperand ret unknownTarget } := .addOperand h.valid
  have hwired := (h.wired hcall).addOperand h.valid hcall fun _ hlooked ↦ (h.looked hlooked).1
  apply h.look hst hcall hmay hlt (hwired.look _)
  have htakes : ({ s with graph := s.graph.addOperand ret unknownTarget } : Lowering).Takes ret unknownTarget := by
    obtain ⟨n, hn⟩ := Graph.exists_node (hst.size ▸ (hcall.returning h.valid).lt_size)
    obtain ⟨n₀, -, -, hops⟩ := Graph.nodes_addOperand hn
    exact ⟨n, hn, by simp [hops]⟩
  refine ⟨fun _ ↦ htakes, fun hf hinst hfn _ ↦ ?_⟩
  obtain ⟨hdecl, hsite⟩ := hsite hf hinst hfn
  exact ⟨hsite, fun _ ↦ htakes, fun hdef ↦ by simp [hdecl] at hdef⟩

/-- A function that can be called is linked; others leave the call as it is. -/
theorem attaches {b : Bool} (h : s.Wiring prog linked) (hprog : prog.Coherent) (hcall : s.IsIndirect c ret call)
    (hmay : s.graph.MayCall c target) (hnew : (c, target) ∉ linked) (hf : s.Denotes prog target f)
    (hinst : prog.kindAt call = some (.instruction inst)) (hfn : prog.functions[f]? = some fn)
    (hst : s.Attaches prog c ret call inst f fn b t) :
    t.Wiring prog (linked.insert (c, target)) ∧ s.Keeps prog t := by
  have hlt : target < s.graph.size := (hf.node h.valid).lt_size
  have hnot : target ≠ unknownTarget := by
    rintro rfl
    obtain ⟨n, hn, hk, -⟩ := hf.node h.valid
    obtain ⟨l, hl, hk'⟩ := h.valid.unknown
    rw [Option.mem_unique hl hn, hk] at hk'
    contradiction
  have hstep : s.Step prog (s.enlisted inst.function f c) := .enlist inst.function f ⟨.indirect, c⟩
  have henlisted := h.step hstep
  have henlists := hstep.keeps h.valid
  have hsite : ⟨.indirect, c⟩ ∈ (s.enlisted inst.function f c).callGraph.sites inst.function f :=
    CallGraph.mem_sites_addCall.2 (.inr ⟨rfl, rfl, rfl⟩)
  cases hst with
  | refused hrefused ht =>
    refine ⟨(h.ignore hcall hmay hlt ⟨fun heq ↦ absurd heq hnot, fun hg hinst' hfn' hadmits ↦ ?_⟩).step ht.step,
      ht.step.keeps h.valid⟩
    obtain rfl := hf.function_eq hg h.valid
    obtain rfl := Program.instruction_unique hinst hinst'
    obtain rfl := Option.mem_unique hfn hfn'
    exact absurd hadmits hrefused
  | declared hadmits hdecl =>
    refine ⟨henlisted.addOperand hcall hmay hlt fun hg hinst' hfn' ↦ ?_,
      henlists.trans (Amends.addOperand henlisted.valid (c := c)).keeps⟩
    obtain rfl := hf.function_eq hg h.valid
    obtain rfl := Program.instruction_unique hinst hinst'
    obtain rfl := Option.mem_unique hfn hfn'
    exact ⟨hdecl, hsite⟩
  | @defined span u _ hadmits hdef hmakes ht =>
    have hu := henlisted.evolves hmakes.evolves
    have hcall' : u.IsIndirect c ret call := IsIndirect.mono hcall hmakes.graph
    have hfresh : span.first ∉ u.graph.successors c := by
      have hsame : u.graph.successors c = s.graph.successors c :=
        hmakes.evolves.held hcall.lt_size (hcall.imp fun _ hn ↦ .inl hn.1)
        ((henlisted.wired hcall).firm henlisted.valid hcall)
      rw [hsame]
      intro hmem
      exact absurd (h.valid.twoWay.lt_size hmem) (Nat.not_lt.2 hmakes.new.1)
    have hvacant := hmakes.vacant (hcall'.not_direct hu.valid)
    have hmakes' := hmakes.evolves
    have hwired := (hu.wired hcall').attach hu.valid hcall' hmakes.pair hmakes.joins hfresh hvacant hprog
      ((hf.mono henlists).mono hmakes'.toKeeps) ⟨inst, fn, hinst, hfn, hadmits⟩ hnew
      (fun {inst'} hinst' ↦ by
        obtain rfl := Program.instruction_unique hinst hinst'
        exact hmakes'.sites hsite)
      (fun _ hlooked ↦ (hu.looked hlooked).1) ⟨fn, hfn, hdef⟩ hnot
    have hamends := Wired.attach_amends hu.valid hcall' hmakes.pair hfresh hvacant
    have hattached := hu.look hamends hcall' (hmakes.graph.mayCall hmay) (hlt.trans_le hmakes.size_le) hwired
    exact ⟨hattached.step ht.step,
      ((henlists.trans hmakes'.toKeeps).trans hamends.keeps).trans (ht.step.keeps hattached.valid)⟩

end Wiring

end Lowering

namespace Solve

open Stateful

variable {μ : Type} {prog : Program} {s : Solving μ Lowering} {c : NodeId} {p : Pointer}

/-- All calls are wired in the later state, and what was lowered is kept. -/
abbrev Wires (prog : Program) (s t : Solving μ Lowering) : Prop :=
  t.host.Wiring prog t.solver.linked ∧ s.host.Keeps prog t.host

/-- Looking at a target of a call keeps all calls wired. -/
theorem linkTarget_wiring (hprog : prog.Coherent) (hs : s.host.Wiring prog s.solver.linked)
    (hmay : s.host.graph.MayCall c p.target) :
    Ensures (linkTarget (Lowering.linker prog) c p) s fun _ t ↦ Wires prog s t := by
  obtain ⟨ret, call, hcall⟩ := hs.valid.isIndirect hmay
  obtain ⟨n, hn, hk, hp, hv⟩ := hcall
  refine .bind_get ?_
  split
  · exact .pure ⟨hs, .refl prog _⟩
  rename_i hseen
  have hnew : (c, p.target) ∉ s.solver.linked := by
    intro hmem
    exact hseen (by simp [OrderedSet.contains_iff.2 hmem])
  refine .seq fun _ _ h ↦ ?_
  obtain rfl := modify_eq_ok_iff.1 h
  split
  · -- A call of unknown memory returns unknown.
    rename_i hunknown
    have htarget : p.target = unknownTarget := by simpa [Pointer.isUnknown] using hunknown
    refine .seq fun g _ hg ↦ ?_
    obtain ⟨rfl, rfl⟩ := graph_eq hg
    refine .bind_lift fun n' hn' ↦ ?_
    obtain rfl := Option.mem_unique hn (Graph.node_eq_ok_iff.1 hn')
    simp only [hp]
    refine .seq fun _ _ h ↦ .pure ?_
    obtain rfl := modify_eq_ok_iff.1 h
    refine ⟨hs.addOperand ⟨n, hn, hk, hp, hv⟩ hmay (htarget ▸ hs.valid.unknown.lt_size) fun hf ↦ ?_,
      (Lowering.Amends.addOperand hs.valid (c := c)).keeps⟩
    -- Unknown memory is no function.
    obtain ⟨l, hl, hk', -⟩ := hf.node hs.valid
    obtain ⟨l', hl', hk''⟩ := hs.valid.unknown
    rw [htarget] at hl
    rw [Option.mem_unique hl' hl, hk'] at hk''
    contradiction
  rename_i hunknown
  have htarget : p.target ≠ unknownTarget := by simpa [Pointer.isUnknown] using hunknown
  refine .seq fun g _ hg ↦ ?_
  obtain ⟨rfl, rfl⟩ := graph_eq hg
  refine .bind_lift fun l hl ↦ ?_
  have hl : s.host.graph.nodes[p.target]? = some l := Graph.node_eq_ok_iff.1 hl
  split
  · rename_i hnot
    refine .pure ⟨hs.ignore ⟨n, hn, hk, hp, hv⟩ hmay (Graph.lt_size_of_node hl)
      ⟨fun heq ↦ absurd heq htarget, fun hf ↦ ?_⟩, .refl prog _⟩
    obtain ⟨l', hl', hk', -⟩ := hf.node hs.valid
    simp [Option.mem_unique hl hl', hk'] at hnot
  rename_i hfunction
  have hfunction : l.kind = .function := by simpa using hfunction
  -- Every function node stands for a function of the program.
  obtain ⟨v, f, hvalue, hf, -⟩ := (hs.valid.node hl).function hfunction
  have hdenotes : s.host.Denotes prog p.target f := .of_node hs.valid ⟨l, hl, hfunction, v, hvalue, hf⟩
  obtain ⟨fn, hfn, -⟩ := Option.map_eq_some_iff.1 (hprog.function hf)
  obtain ⟨call', ret', hv', -, ⟨⟨inst, hinst⟩, -⟩, -⟩ := (hs.valid.node hn).indirect hk
  obtain rfl := Option.mem_unique hv hv'
  refine .seq fun joined t ht ↦ ?_
  obtain ⟨host, hlink, rfl⟩ := onHost_eq ht
  have hattaches := Lower.linkCall_ensures hprog hs.valid ⟨n, hn, hk, hp, hv⟩ hinst hdenotes hfn joined host hlink
  have hwiring := hs.attaches hprog ⟨n, hn, hk, hp, hv⟩ hmay hnew hdenotes hinst hfn hattaches
  split
  · refine .seq fun _ _ h ↦ .pure ?_
    obtain rfl := modify_eq_ok_iff.1 h
    exact hwiring
  · exact .pure hwiring

/-- So does looking at all of them: a target that was found stays one. -/
theorem linkTargets_wiring (hprog : prog.Coherent) (hs : s.host.Wiring prog s.solver.linked) {n m : Node}
    (hm : s.host.graph.nodes[c]? = some m) (hnm : n.Persists m) (hk : n.kind = .indirectCall) :
    Ensures (linkTargets (Lowering.linker prog) c n) s fun _ t ↦ Wires prog s t := by
  unfold linkTargets
  split
  · exact .pure ⟨hs, .refl prog _⟩
  · rename_i callee hcallee
    refine .seq fun g _ hg ↦ ?_
    obtain ⟨rfl, rfl⟩ := graph_eq hg
    refine .bind_lift fun targets htargets ↦ ?_
    refine .foldlM (fun _ ↦ Wires prog s)
      (fun p hp changed t ht ↦ ?_) ⟨hs, .refl prog _⟩
    have hmay : s.host.graph.MayCall c p.target :=
      ⟨m, callee, targets, p, hm, hnm.kind.trans hk, hnm.operand? hcallee, htargets, hp, rfl⟩
    exact (linkTarget_wiring hprog ht.1 (ht.2.graph.mayCall hmay)).bind fun _ u hu ↦ .pure ⟨hu.1, ht.2.trans hu.2⟩

theorem note_wiring {severity : Severity} {text : Unit → String} (hs : s.host.Wiring prog s.solver.linked) :
    Ensures (note (Lowering.linker prog) severity text) s fun _ t ↦ Wires prog s t ∧ t.host.graph = s.host.graph := by
  intro _ t ht
  obtain rfl := modify_eq_ok_iff.1 ht
  exact ⟨⟨hs.step (.quiet s.host.warnings _), Lowering.Step.keeps (.quiet s.host.warnings _) hs.valid⟩, rfl⟩

theorem warn_wiring {w : Warning} (hs : s.host.Wiring prog s.solver.linked) :
    Ensures (warn (Lowering.linker prog) w) s fun _ t ↦ Wires prog s t ∧ t.host.graph = s.host.graph := by
  unfold warn
  refine .bind_get ?_
  dsimp only
  split
  · refine (note_wiring hs).bind fun _ t ht ↦ ?_
    intro _ u hu
    obtain rfl := modify_eq_ok_iff.1 hu
    exact ht
  · exact .pure ⟨⟨hs, .refl prog _⟩, rfl⟩

/-- Pointers that are gained are no business of lowering. -/
theorem gain_wiring {n : Node} {gained : PointerSet} (hs : s.host.Wiring prog s.solver.linked)
    (hn : s.host.graph.nodes[c]? = some n) :
    Ensures (gain (Lowering.linker prog) c n gained) s fun _ t ↦ Wires prog s t := by
  unfold gain
  dsimp only
  split
  · refine .seq fun _ t ht ↦ ?_
    obtain rfl := modify_eq_ok_iff.1 ht
    -- The new set is computed from the node as it was looked up, which is the node of the graph.
    have hupdate : (s.host.graph.update c fun m ↦ { m with pointsTo := (n.pointsTo.absorb gained).2 }) =
        s.host.graph.update c fun m ↦ { m with pointsTo := m.pointsTo ∪ gained } := by
      refine Graph.update_congr fun m hm ↦ ?_
      rw [← Option.mem_unique hn hm, PointerSet.absorb_snd]
    have hstep : s.host.Step prog { s.host with
        graph := s.host.graph.update c fun m ↦ { m with pointsTo := (n.pointsTo.absorb gained).2 } } := by
      rw [hupdate]
      exact .adjust (fun m ↦ ⟨rfl, rfl, rfl, rfl, rfl, fun p hp ↦ OrderedSet.mem_union.2 (.inl hp)⟩) fun _ hv ↦ hv
    have ht : (Lowering.Wiring prog s.solver.linked { s.host with
        graph := s.host.graph.update c fun m ↦ { m with pointsTo := (n.pointsTo.absorb gained).2 } }) := hs.step hstep
    exact (note_wiring (s := ⟨s.solver, _⟩) ht).bind
      fun _ t h ↦ .pure ⟨h.1.1, (hstep.keeps hs.valid).trans h.1.2⟩
  · exact .pure ⟨hs, .refl prog _⟩

variable [MemoryModel μ]

theorem visit_wiring (hprog : prog.Coherent) (hs : s.host.Wiring prog s.solver.linked) (id : NodeId) :
    Ensures (visit (Lowering.linker prog) id) s fun _ t ↦ Wires prog s t := by
  rw [visit_eq]
  refine .seq fun g _ hg ↦ .bind_get (.bind_lift fun memory _ ↦ .seq fun _ t ht ↦ .bind_lift fun n hn ↦ ?_)
  obtain ⟨rfl, rfl⟩ := graph_eq hg
  obtain rfl := setMemory_eq ht
  have hact {u : Solving μ Lowering} (hu : u.host.Wiring prog u.solver.linked) (hsu : s.host.Keeps prog u.host)
      (hsame : u.host.graph = s.host.graph) :
        Ensures (act (Lowering.linker prog) s.host.graph id n) u fun _ t ↦ Wires prog s t := by
    refine .bind_get (.bind_lift fun e _ ↦ .seq fun _ u₁ hset ↦ ?_)
    obtain rfl := setMemory_eq hset
    have hnode : u.host.graph.nodes[id]? = some n := hsame ▸ Graph.node_eq_ok_iff.1 hn
    refine (gain_wiring (s := { u with solver := { u.solver with memory := e.memory } }) hu hnode).bind
      fun grew u₂ h₂ ↦ ?_
    obtain ⟨hu₂, hkeeps⟩ := h₂
    obtain ⟨m, hm, hnm⟩ := hkeeps.graph.node hnode
    have hleave {u : Solving μ Lowering} {linked : Bool}
        (hu : Wires prog s u) :
        Ensures (do
          let left := MemoryModel.leave id (← get).solver.memory
          setMemory left.2
          return e.wrote || grew || linked || left.1 : Solve μ Lowering Bool) u fun _ t ↦ Wires prog s t := by
      refine .bind_get (.seq fun _ t hset ↦ .pure ?_)
      obtain rfl := setMemory_eq hset
      exact hu
    split
    · rename_i hk
      exact (linkTargets_wiring hprog hu₂ hm hnm hk).bind fun linked u₃ h₃ ↦
        hleave ⟨h₃.1, (hsu.trans hkeeps).trans h₃.2⟩
    · exact .bind_pure (hleave ⟨hu₂, hsu.trans hkeeps⟩)
  refine .bind_lift fun strays _ ↦ ?_
  split
  · exact (warn_wiring (s := { s with solver := { s.solver with memory } }) hs).bind
      fun _ u hu ↦ hact hu.1.1 hu.1.2 hu.2
  · exact hact hs (.refl prog _) rfl

/-- A run keeps all calls wired, and the rest of what was lowered as well. -/
theorem run_wiring (hprog : prog.Coherent) (hs : s.host.Wiring prog s.solver.linked) {budget : Nat} :
    Ensures (run (Lowering.linker prog) budget) s fun _ t ↦ Wires prog s t := by
  refine run_keeps (P := Wires prog s)
    (fun id t ht ↦ ?_) (fun _ _ ht ↦ ht) (fun t _ ht ↦ ?_) ⟨hs, .refl prog _⟩
  · exact (visit_wiring hprog ht.1 id).mono fun _ u hu ↦ ⟨hu.1, ht.2.trans hu.2⟩
  · exact ⟨ht.1.step (.quiet t.host.warnings _),
      ht.2.trans (Lowering.Step.keeps (.quiet t.host.warnings _) ht.1.valid)⟩

end Solve

namespace Lowering.Wiring

variable {prog : Program} {linked : OrderedSet (NodeId × NodeId)} {s : Lowering} {c ret m q : NodeId} {call : ValueId}
  {f : FuncId}

/-- A call of the function that is attached to a call through a pointer in any way is the one that is
linked to it. -/
theorem unique (h : s.Wiring prog linked) (hcall : s.IsIndirect c ret call) (hlink : s.Links prog c ret call f m q)
    {m' q' : NodeId} {call' : ValueId} {r : FunctionRecord} (hpair : s.IsPair m' q' call')
    (hr : s.records.get? f = some r) (hentry : r.entry ∈ s.graph.successors m')
    (hattached : m' ∈ s.graph.successors c ∨ ret ∈ s.graph.successors q' ∨ s.Takes ret q') : m' = m ∧ q' = q := by
  have hwired := h.wired hcall
  have hsite := hpair.site h.valid
  obtain ⟨n, hn, hk, hp, -⟩ := hpair.2
  -- In each case the call is linked.
  have hlinked : ∃ g, s.Links prog c ret call g m' q' := by
    have hcaller {g : FuncId} {m₁ : NodeId} (hlink₁ : s.Links prog c ret call g m₁ q') :
        s.Links prog c ret call g m' q' := by
      obtain ⟨l, hl, -, hp₁, -⟩ := hlink₁.pair.site h.valid
      obtain ⟨l', hl', -, hp', -⟩ := hsite
      rw [Option.mem_unique hl hl', hp', Option.some.injEq] at hp₁
      exact hp₁ ▸ hlink₁
    rcases hattached with hleads | hback | hresult
    · obtain ⟨g, q₁, hlink₁⟩ := (hwired.taken hlink).1 m' hleads
      obtain ⟨l, hl, -, hp₁, -⟩ := hlink₁.pair.2
      rw [Option.mem_unique hl hn, hp, Option.some.injEq] at hp₁
      exact ⟨g, hp₁ ▸ hlink₁⟩
    · obtain ⟨g, m₁, hlink₁⟩ := (hwired.taken hlink).2 q' hback
      exact ⟨g, hcaller hlink₁⟩
    · rcases hwired.results hresult with rfl | ⟨g, m₁, hlink₁⟩
      · obtain ⟨l, hl, hk', -⟩ := hsite
        obtain ⟨l', hl', hunknown⟩ := h.valid.unknown
        rw [Option.mem_unique hl' hl, hk'] at hunknown
        contradiction
      · exact ⟨g, hcaller hlink₁⟩
  obtain ⟨g, hlink'⟩ := hlinked
  obtain ⟨r', hjoins⟩ := hlink'.joined
  rw [hjoins.entry, List.mem_singleton] at hentry
  obtain rfl : f = g := h.valid.entries hr hjoins.record hentry
  obtain rfl := hwired.unique hlink hlink'
  exact ⟨rfl, (hlink.eq hlink' h.valid).2⟩

end Lowering.Wiring

namespace Analysis

open Command Stateful

variable {μ : Type} [MemoryModel μ] {prog : Program} {options : Options} {journal : Journal} {budget : Nat}
  {stats : SolverStats} {t : Analysis μ}

/-- An analysis from scratch lowers the program and then solves its graph. -/
theorem run_fresh (h : run prog options budget (fresh options journal) = .ok stats t) :
    ∃ root, ∃ s : Analysis μ, Lower.build prog options.entry { journal } = .ok root s.host ∧
      s.solver = .fresh μ options.maxOffset ∧ Solve.run (Lowering.linker prog) budget s = .ok stats t := by
  unfold run at h
  simp only [bind_eq_ok_iff, get_eq_ok_iff] at h
  obtain ⟨_, _, ⟨rfl, rfl⟩, h⟩ := h
  split at h
  · rw [bind_eq_ok_iff] at h
    obtain ⟨root, _, hbuild, h⟩ := h
    obtain ⟨host, hhost, rfl⟩ := Solve.onHost_eq hbuild
    exact ⟨root, ⟨(fresh options journal : Analysis μ).solver, host⟩, hhost, rfl, h⟩
  · rename_i hroot
    exact absurd rfl hroot

theorem wiring_of_run (hprog : prog.Coherent) (h : run prog options budget (fresh options journal) = .ok stats t) :
    t.host.Wiring prog t.solver.linked := by
  obtain ⟨root, s, hbuild, hsolver, hrun⟩ := run_fresh h
  have hlinked : s.solver.linked = ∅ := by rw [hsolver]; rfl
  have hserves := (Lower.build_ensures hprog (.initial prog journal) (fun _ _ _ _ ↦ rfl) root s.host hbuild).1
  have hs : s.host.Wiring prog s.solver.linked := hlinked ▸ (Lowering.Wiring.initial prog journal).evolves hserves
  exact (Solve.run_wiring hprog hs stats t hrun).1

/-- Every target of a call through a pointer is linked to it, once: unknown memory by an operand of the
return, a declaration by a call site and such an operand, and a defined function by a call site and one
call with its return site. -/
theorem targets_linked_once (hprog : prog.Coherent)
    (h : run prog options budget (fresh options journal) = .ok stats t) {c e : NodeId} {n : Node} {targets : PointerSet}
    {p : Pointer} (hn : t.host.graph.nodes[c]? = some n) (hk : n.kind = .indirectCall) (he : n.operand? 0 = some e)
    (htargets : t.host.graph.pointsTo e = .ok targets) (hp : p ∈ targets) :
    ∃ call inst ret, n.value = some call ∧ prog.kindAt call = some (.instruction inst) ∧ n.paired = some ret ∧
      (p.isUnknown = true → t.host.Takes ret unknownTarget) ∧
      ∀ {l v f fn}, t.host.graph.nodes[p.target]? = some l → l.kind = .function → l.value = some v →
        prog.kindAt v = some (.function f) → prog.functions[f]? = some fn →
        (fn.variadic = true ∨ inst.arguments.length = fn.params.length) →
        (t.host.callGraph.sites inst.function f).count ⟨.indirect, c⟩ = 1 ∧
        ((fn.isDeclaration = true ∧ t.host.Takes ret unknownTarget) ∨
          (fn.isDeclaration = false ∧ ∃ r m q, t.host.records.get? f = some r ∧ t.host.IsPair m q call ∧
            t.host.At (fun _ n ↦ n.kind = .callReturn ∧ n.paired = some m) q ∧ m ∈ t.host.graph.successors c ∧
            t.host.graph.successors m = [r.entry] ∧ q ∈ t.host.graph.successors r.exit ∧
            t.host.graph.successors q = [ret] ∧ t.host.Takes ret q ∧
            ∀ {m' q' call'}, t.host.IsPair m' q' call' → r.entry ∈ t.host.graph.successors m' →
              (m' ∈ t.host.graph.successors c ∨ ret ∈ t.host.graph.successors q' ∨ t.host.Takes ret q') →
              m' = m ∧ q' = q)) := by
  have hwiring := wiring_of_run hprog h
  have hvalid := hwiring.valid
  obtain ⟨call, ret, hv, hpaired, ⟨⟨inst, hinst⟩, -⟩, -⟩ := (hvalid.node hn).indirect hk
  have hcall : t.host.IsIndirect c ret call := ⟨n, hn, hk, hpaired, hv⟩
  obtain ⟨root, s, -, -, hrun⟩ := run_fresh h
  have hlooked := Solve.looked_of_run (Lowering.linker_lawful prog) hrun hn hk he htargets p hp
  -- Null is neither unknown memory nor a function.
  have hanswers (hnull : p.isNull = false) : t.host.Answers prog c ret call p.target := by
    apply (hwiring.wired hcall).answers
    exact hlooked.resolve_left (by simp [hnull])
  refine ⟨call, inst, ret, hv, hinst, hpaired, fun hunknown ↦
    ?_, fun {l v f fn} hl hfunction hvalue hf hfn hadmits ↦ ?_⟩
  · have htarget : p.target = unknownTarget := by simpa [Pointer.isUnknown] using hunknown
    exact (hanswers (by simp [Pointer.isNull, htarget, nullTarget, unknownTarget])).unknown htarget
  · have hnull : p.isNull = false := by
      refine Bool.eq_false_iff.2 fun hnull ↦ ?_
      obtain ⟨l', hl', hk'⟩ := hvalid.null
      rw [show p.target = nullTarget by simpa [Pointer.isNull] using hnull] at hl
      rw [Option.mem_unique hl' hl, hfunction] at hk'
      contradiction
    have hdenotes : t.host.Denotes prog p.target f := .of_node hvalid ⟨l, hl, hfunction, v, hvalue, hf⟩
    obtain ⟨hsite, hdecl, hdef⟩ := (hanswers hnull).function hdenotes hinst hfn hadmits
    refine ⟨List.count_eq_one_of_mem (hvalid.sites _ _) hsite, ?_⟩
    cases hdeclared : fn.isDeclaration with
    | true => exact .inl ⟨rfl, hdecl hdeclared⟩
    | false =>
      obtain ⟨m, q, hlink⟩ := hdef hdeclared
      obtain ⟨r, hjoins⟩ := hlink.joined
      refine .inr ⟨rfl, r, m, q, hjoins.record, hlink.pair, (hlink.pair.site hvalid).imp fun _ hn ↦ ⟨hn.1, hn.2.1⟩,
        hlink.leads, hjoins.entry, hjoins.exit, hlink.back, hlink.result, fun hpair hentry hattached ↦ ?_⟩
      exact hwiring.unique hcall hlink hpair hjoins.record hentry hattached

/-- A call that may go to a function, to a declaration and to unknown memory. -/
def dispatch : Program := .assembled
  [function "main" .void [] false, function "g" .ptr [.ptr] false, function "ext" .ptr [.ptr] false,
    constant (.int 1) (.int 64), block 0, block 1, alloca 0 0 (.int 64), cast 0 0 .intToPtr 5 .ptr,
    select 0 0 5 1 3 .ptr, select 0 0 5 8 7 .ptr, call 0 0 9 [6] .ptr, ret 0 0 none, ret 1 0 (some 2)]

theorem targets_linked_once_dispatch : ∃ stats, ∃ t : Analysis NodeMemory,
    run dispatch {} 40 (fresh {} {}) = .ok stats t ∧ t.host.Takes 11 unknownTarget ∧
      (t.host.callGraph.sites 0 2).count ⟨.indirect, 10⟩ = 1 ∧ (t.host.callGraph.sites 0 1).count ⟨.indirect, 10⟩ = 1 ∧
      ∃ r m q, t.host.records.get? 1 = some r ∧ t.host.IsPair m q 10 ∧ m ∈ t.host.graph.successors 10 ∧
        t.host.graph.successors m = [r.entry] ∧ q ∈ t.host.graph.successors r.exit ∧
        t.host.graph.successors q = [11] ∧ t.host.Takes 11 q := by
  have hrun : Stateful.succeeds (fun _ (t : Analysis NodeMemory) ↦ decide (
      (t.host.graph.nodes[10]?).map (fun n ↦ (n.kind, n.operand? 0, n.value, n.paired)) =
        some (.indirectCall, some 9, some 10, some 11) ∧
      (t.host.graph.nodes[9]?).map (·.pointsTo.toList) = some [.unknown, ⟨6, .zero⟩, ⟨7, .zero⟩] ∧
      (t.host.graph.nodes[6]?).map (fun n ↦ (n.kind, n.value)) = some (.function, some 1) ∧
      (t.host.graph.nodes[7]?).map (fun n ↦ (n.kind, n.value)) = some (.function, some 3)))
      (run dispatch {} 40 (fresh {} {})) = true := by
    decide +kernel
  obtain ⟨stats, t, hrun, htest⟩ := ok_of_succeeds hrun
  obtain ⟨hcall, htargets, hg, hext⟩ := of_decide_eq_true htest
  obtain ⟨n, hn, hcall⟩ := Option.map_eq_some_iff.1 hcall
  obtain ⟨e, he, htargets⟩ := Option.map_eq_some_iff.1 htargets
  obtain ⟨l, hl, hg⟩ := Option.map_eq_some_iff.1 hg
  obtain ⟨l', hl', hext⟩ := Option.map_eq_some_iff.1 hext
  simp only [Prod.mk.injEq] at hcall hg hext
  have hprog : dispatch.Coherent := Program.coherent_assembled _
  have hpointer {p : Pointer} (hp : p ∈ [.unknown, ⟨6, .zero⟩, ⟨7, .zero⟩]) : p ∈ e.pointsTo := by
    change p ∈ e.pointsTo.toList
    rwa [htargets]
  have hset : t.host.graph.pointsTo 9 = .ok e.pointsTo := Graph.pointsTo_eq_ok_iff.2 ⟨e, he, rfl⟩
  have hinst : dispatch.kindAt 10 = some (.instruction ⟨.call, [9, 6], 0, 0⟩) := rfl
  obtain ⟨fn, hfn, hdef, hparams⟩ : ∃ fn, dispatch.functions[1]? = some fn ∧ fn.isDeclaration = false ∧
      fn.params.length = 1 := ⟨_, rfl, rfl, rfl⟩
  obtain ⟨fn', hfn', hparams'⟩ : ∃ fn, dispatch.functions[2]? = some fn ∧ fn.params.length = 1 := ⟨_, rfl, rfl⟩
  have hlinked {p : Pointer} (hp : p ∈ [.unknown, ⟨6, .zero⟩, ⟨7, .zero⟩]) :=
    targets_linked_once hprog hrun hn hcall.1 hcall.2.1 hset (hpointer hp)
  simp only [hcall.2.2.1, hcall.2.2.2, Option.some.injEq, exists_and_left, exists_eq_left', hinst,
    ValueKind.instruction.injEq] at hlinked
  have hunknown := (hlinked (.head _)).1 rfl
  obtain ⟨hsite', -⟩ := (hlinked (.tail _ (.tail _ (.head _)))).2 hl' hext.1 hext.2
    (rfl : dispatch.kindAt 3 = some (.function 2)) hfn' (.inr hparams'.symm)
  obtain ⟨hsite, ⟨hdecl, -⟩ | ⟨-, r, hr, m, q, hpair, -, hleads, hentry, hexit, hback, hresult, -⟩⟩ :=
    (hlinked (.tail _ (.head _))).2 hl hg.1 hg.2 (rfl : dispatch.kindAt 1 = some (.function 1)) hfn (.inr hparams.symm)
  · simp [hdef] at hdecl
  · exact ⟨stats, t, hrun, hunknown, hsite', hsite, r, m, q, hr, hpair, hleads, hentry, hexit, hback, hresult⟩

end Analysis

end PointsTo
