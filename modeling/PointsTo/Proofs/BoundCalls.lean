import PointsTo.Proofs.LinkedCalls

/-!
# Arguments and returns at calls

What a call hands to its callee and gets back from it, once a program is lowered and at any time
between runs of the solver.  The return site of a call has the returns of the callee for operands,
whether they were there when the call was made or came later.  In a scoped program pointers that are
passed reach the formals that receive them.

A return leads to the exit of its function if it ends its block.  Nodes that are placed behind another
return come between it and the exit.
-/

namespace PointsTo

namespace Lowering

variable {prog : Program} {s : Lowering} {m q phi : NodeId} {call v : ValueId}

/-- The operand is what a request for the value answers. -/
theorem Gets.takes (h : s.Gets prog v phi) (hs : s.Valid prog) (ask : Provider) :
    ∃ op, Lower.operand prog ask v s = .ok op s ∧ s.Takes phi op := by
  obtain ⟨n, hn, op, hop, hresolves⟩ := h
  exact ⟨op, hresolves.operand_eq hs ask, n, hn, hop⟩

/-- Returns of complete functions that end their blocks lead to the exit. -/
theorem Intact.returns (h : s.Intact prog) {f : FuncId} {r : FunctionRecord} (hr : s.records.get? f = some r) :
    ∀ id ∈ r.returns, s.At (fun id n ↦ n.kind = .ret ∧ ∃ v, n.value = some v ∧
      (prog.EndsBlock v → r.exit ∈ s.graph.successors id)) id := by
  intro id hid
  obtain ⟨n, hn, hk, hp, v, hv⟩ := (h.valid.record hr).returns id hid
  refine ⟨n, hn, hk, v, hv, fun hends ↦ ?_⟩
  exact (h.valid.record hr).closed (h.finished hr).complete id hid ⟨n, hn, hk, hp, v, hv, hends⟩

end Lowering

namespace Lower

open Command Stateful

variable {prog : Program}

/-- Runs of the solver, one after the other, on what was built. -/
theorem wiring_of_runs {μ : Type} [MemoryModel μ] (hprog : prog.Coherent) {budgets : List Nat} {s t : Analysis μ}
    (hs : s.host.Wiring prog s.solver.linked)
    (h : (budgets.forM fun budget ↦ discard (Solve.run (Lowering.linker prog) budget)) s = .ok ⟨⟩ t) :
    t.host.Wiring prog t.solver.linked := by
  refine Ensures.forM (fun s : Analysis μ ↦ s.host.Wiring prog s.solver.linked) (fun budget _ u hu ↦ ?_) hs ⟨⟩ t h
  exact (Solve.run_wiring hprog hu).bind fun _ _ ht ↦ .pure ht.1

/-- After a build and any number of runs of the solver, every call of a defined function leads to its
entry and comes back from its exit with its returns, and in a scoped program all pointers that it passes
are received. -/
theorem calls_are_bound {μ : Type} [MemoryModel μ] (hprog : prog.Coherent) {entry : String} {journal : Journal}
    {root : NodeId} {s : Lowering} (hbuild : build prog entry { journal } = .ok root s) {maxOffset : Nat}
    {budgets : List Nat} {t : Analysis μ}
    (hruns : (budgets.forM fun budget ↦ discard (Solve.run (Lowering.linker prog) budget))
      { solver := .fresh μ maxOffset, host := s } = .ok ⟨⟩ t)
    {m q : NodeId} {call : ValueId} (hpair : t.host.IsPair m q call) :
    ∃ inst f fn r, prog.kindAt call = some (.instruction inst) ∧ prog.functions[f]? = some fn ∧
      fn.isDeclaration = false ∧ prog.Calls call f ∧ t.host.records.get? f = some r ∧
      (prog.Scoped → ∀ {j : Nat} {param v : ValueId}, fn.params[j]? = some param → inst.arguments[j]? = some v →
        prog.isPointer param = .ok true → ∃ phi op, t.host.nodes.get? param = some phi ∧
          operand prog (ask prog) v t.host = .ok op t.host ∧ t.host.Takes phi op) ∧
      (prog.Scoped → fn.variadic = true → ∃ phi, r.variadic = some phi ∧ ∀ {j : Nat} {v : ValueId},
        fn.params.length ≤ j → inst.arguments[j]? = some v → prog.isPointer v = .ok true →
        ∃ op, operand prog (ask prog) v t.host = .ok op t.host ∧ t.host.Takes phi op) ∧
      t.host.At (fun _ n ↦ n.kind = .callReturn ∧ n.paired = some m ∧ n.operands = r.returns) q ∧
      (∀ id ∈ r.returns, t.host.At (fun id n ↦ n.kind = .ret ∧ ∃ v, n.value = some v ∧
        (prog.EndsBlock v → r.exit ∈ t.host.graph.successors id)) id) ∧
      t.host.graph.successors m = [r.entry] ∧ q ∈ t.host.graph.successors r.exit := by
  have hserves := (build_ensures hprog (.initial prog journal) (fun _ _ _ _ ↦ rfl) root s hbuild).1
  have hs := (Lowering.Wiring.initial prog journal).evolves hserves
  have ht := (wiring_of_runs hprog hs hruns).toIntact
  obtain ⟨f, r, hjoins⟩ := ht.joined hpair
  obtain ⟨⟨inst, hinst⟩, -⟩ := hjoins.calls
  obtain ⟨fn, hfn, hdef⟩ := hjoins.defined
  refine ⟨inst, f, fn, r, hinst, hfn, hdef, hjoins.calls, hjoins.record,
    fun hscoped {j param v} hparam harg hpointer ↦ ?_,
    fun hscoped hvariadic ↦ ?_, ?_, ht.returns hjoins.record, hjoins.entry, hjoins.exit⟩
  · obtain ⟨phi, hphi⟩ := Option.ne_none_iff_exists'.1
      ((ht.valid.record hjoins.record).formal hfn (List.mem_of_getElem? hparam) hpointer)
    have hgets := hjoins.bound hscoped v phi (.formal hinst hfn hdef hparam harg hpointer hphi)
    obtain ⟨op, hop, htakes⟩ := hgets.takes ht.valid (ask prog)
    exact ⟨phi, op, hphi, hop, htakes⟩
  · obtain ⟨phi, hphi⟩ := Option.ne_none_iff_exists'.1 ((ht.valid.record hjoins.record).rest hfn hvariadic)
    refine ⟨phi, hphi, fun {j v} hj harg hpointer ↦ ?_⟩
    have hgets := hjoins.bound hscoped v phi (.rest hinst hfn hdef hvariadic hj harg hpointer hjoins.record hphi)
    exact hgets.takes ht.valid (ask prog)
  · obtain ⟨n, hn, hk, hp, -⟩ := hpair.site ht.valid
    obtain ⟨l, hl, hops⟩ := hjoins.returns (ht.finished hjoins.record).complete
    obtain rfl := Option.mem_unique hl hn
    exact ⟨l, hn, hk, hp, hops⟩

/-- A function that calls itself by its name and through a pointer. -/
def looping : Program := .assembled
  [function "main" .void [] false, function "f" .ptr [.ptr] true, constant (.int 1) (.int 1), block 0, block 1,
    alloca 0 0 (.int 64), call 0 0 1 [4, 4] .ptr, ret 0 0 none, call 1 0 1 [2, 2] .ptr, select 1 0 3 1 1 .ptr,
    call 1 0 8 [7, 7] .ptr, ret 1 0 (some 9)]

theorem calls_are_bound_looping : ∃ root s, ∃ t : Analysis NodeMemory, build looping "main" {} = .ok root s ∧
    ([60, 60].forM fun budget ↦ discard (Solve.run (Lowering.linker looping) budget))
      { solver := .fresh NodeMemory 8, host := s } = .ok ⟨⟩ t ∧
    (∃ r phi op, t.host.records.get? 1 = some r ∧ t.host.nodes.get? 2 = some phi ∧
      operand looping (ask looping) 2 t.host = .ok op t.host ∧ t.host.Takes phi op ∧
      t.host.At (fun _ n ↦ n.kind = .callReturn ∧ n.paired = some 12 ∧ n.operands = r.returns) 11 ∧
      t.host.graph.successors 12 = [r.entry] ∧ 11 ∈ t.host.graph.successors r.exit) ∧
    ∃ f r, t.host.records.get? f = some r ∧
      t.host.At (fun _ n ↦ n.kind = .callReturn ∧ n.paired = some 20 ∧ n.operands = r.returns) 19 ∧
      t.host.graph.successors 20 = [r.entry] ∧ 19 ∈ t.host.graph.successors r.exit := by
  have hbuild : succeeds (fun _ s ↦ succeeds (fun _ (t : Analysis NodeMemory) ↦ decide (
      (t.host.graph.nodes[12]?).map (fun n ↦ (n.kind, n.paired, n.value)) = some (.call, some 11, some 7) ∧
      (t.host.graph.nodes[20]?).map (fun n ↦ (n.kind, n.paired, n.value)) = some (.call, some 19, some 9)))
      (([60, 60].forM fun budget ↦ discard (Solve.run (Lowering.linker looping) budget))
        { solver := .fresh NodeMemory 8, host := s })) (build looping "main" {}) = true := by
    decide +kernel
  obtain ⟨root, s, hbuild, hruns⟩ := ok_of_succeeds hbuild
  obtain ⟨_, t, hruns, htest⟩ := ok_of_succeeds hruns
  obtain ⟨hnamed, hpointer⟩ := of_decide_eq_true htest
  have hprog : looping.Coherent := Program.coherent_assembled _
  have hpair {m q : NodeId} {v : ValueId} (hne : q ≠ m)
      (h : (t.host.graph.nodes[m]?).map (fun n ↦ (n.kind, n.paired, n.value)) = some (.call, some q, some v)) :
      t.host.IsPair m q v := by
    obtain ⟨n, hn, h⟩ := Option.map_eq_some_iff.1 h
    simp only [Prod.mk.injEq] at h
    exact ⟨hne, n, hn, h⟩
  refine ⟨root, s, t, hbuild, hruns, ?_, ?_⟩
  · obtain ⟨inst, f, fn, r, hinst, hfn, -, hcalls, hr, hformals, -, hsite, -, hentry, hexit⟩ :=
      calls_are_bound hprog hbuild hruns (hpair (by decide) hnamed)
    obtain rfl : f = 1 := by
      have hcalled : looping.calledFunction? 7 = .ok (some 1) := rfl
      rcases hcalls.2 with hf | hf
      · rw [hcalled] at hf
        exact (Option.some.inj (Except.ok.inj hf)).symm
      · rw [hcalled] at hf
        simp at hf
    obtain ⟨fn', hfn', hparam⟩ : ∃ fn, looping.functions[1]? = some fn ∧ fn.params[0]? = some 2 := ⟨_, rfl, rfl⟩
    obtain rfl := Option.mem_unique hfn hfn'
    have hinst' : looping.kindAt 7 = some (.instruction ⟨.call, [1, 2, 2], 1, 0⟩) := rfl
    obtain rfl := Program.instruction_unique hinst hinst'
    obtain ⟨phi, op, hphi, hop, htakes⟩ := hformals (by decide) hparam (rfl : _ = some 2) rfl
    exact ⟨r, phi, op, hr, hphi, hop, htakes, hsite, hentry, hexit⟩
  · obtain ⟨inst, f, fn, r, -, -, -, -, hr, -, -, hsite, -, hentry, hexit⟩ :=
      calls_are_bound hprog hbuild hruns (hpair (by decide) hpointer)
    exact ⟨f, r, hr, hsite, hentry, hexit⟩

/-- A return in the middle of its block. -/
def resumed : Program := .assembled
  [function "main" .void [] false, function "f" .void [.int 64] false, block 0, block 1, alloca 0 0 (.int 64),
    cast 0 0 .ptrToInt 3 (.int 64), call 0 0 1 [4] .void, ret 0 0 none, ret 1 0 none, constant (.int 1) (.int 64),
    binary 1 0 .add 2 8 (.int 64)]

/-- A call that passes the result of a call in another function. -/
def borrowing : Program := .assembled
  [function "main" .void [] false, function "g" (.int 64) [] false, function "k" .void [.int 64] false,
    function "w" .void [.ptr] false, constant (.int 1) (.int 64), block 0, block 0, block 0, successor 0 0 1,
    successor 0 1 2, block 1, block 2, block 3, call 0 0 1 [] (.int 64), cast 0 1 .intToPtr 7 .ptr,
    call 0 2 2 [11] .void, ret 0 2 none, cast 1 0 .ptrToInt 6 (.int 64), ret 1 0 none, call 2 0 4 [7] .void,
    ret 2 0 none, ret 3 0 none]

/-- A node that is placed behind a return takes the exit from it.  A value of another function that is
lowered again no longer resolves to the node that a formal got for it. -/
theorem bindings_lost :
    (∃ root t r id, build resumed "main" {} = .ok root t ∧ t.IsPair 8 7 5 ∧ t.records.get? 1 = some r ∧
      t.graph.successors 8 = [r.entry] ∧ id ∈ r.returns ∧ r.exit ∉ t.graph.successors id) ∧
    (∃ fn inst, borrowing.functions[3]? = some fn ∧ fn.params = [5] ∧ borrowing.isPointer 5 = .ok true ∧
      borrowing.kindAt 13 = some (.instruction inst) ∧ inst.arguments = [7]) ∧
    ∃ root t r phi op, build borrowing "main" {} = .ok root t ∧ t.IsPair 13 12 13 ∧ t.records.get? 3 = some r ∧
      t.graph.successors 13 = [r.entry] ∧ t.nodes.get? 5 = some phi ∧
      operand borrowing (ask borrowing) 7 t = .ok op t ∧ ¬t.Takes phi op := by
  refine ⟨?_, ⟨_, _, rfl, rfl, rfl, rfl, rfl⟩, ?_⟩
  · have hbuild : succeeds (fun _ t ↦ decide (
        (t.graph.nodes[8]?).map (fun n ↦ (n.kind, n.paired, n.value)) = some (.call, some 7, some 5) ∧
        (t.records.get? 1).map (fun r ↦ (r.entry, r.exit, r.returns)) = some (9, 10, [11]) ∧
        t.graph.successors 8 = [9] ∧ t.graph.successors 11 = [13])) (build resumed "main" {}) = true := by
      decide +kernel
    obtain ⟨root, t, hbuild, htest⟩ := ok_of_succeeds hbuild
    obtain ⟨hpair, hr, hentry, hreturn⟩ := of_decide_eq_true htest
    obtain ⟨n, hn, hpair⟩ := Option.map_eq_some_iff.1 hpair
    obtain ⟨r, hr, hrecord⟩ := Option.map_eq_some_iff.1 hr
    simp only [Prod.mk.injEq] at hpair hrecord
    obtain ⟨hentry', hexit, hreturns⟩ := hrecord
    refine ⟨root, t, r, 11, hbuild, ⟨by decide, n, hn, hpair⟩, hr, hentry' ▸ hentry, by simp [hreturns], ?_⟩
    simp [hexit, hreturn]
  · have hbuild : succeeds (fun _ t ↦ decide (
        (t.graph.nodes[13]?).map (fun n ↦ (n.kind, n.paired, n.value)) = some (.call, some 12, some 13) ∧
        (t.records.get? 3).map (fun r ↦ r.entry) = some 14 ∧ t.graph.successors 13 = [14] ∧
        t.nodes.get? 5 = some 16 ∧ (t.graph.nodes[16]?).map (fun n ↦ n.operands) = some [18] ∧
        t.nodes.get? 7 = some 4 ∧ (t.graph.nodes[4]?).map (fun n ↦ n.kind) = some .callReturn))
        (build borrowing "main" {}) = true := by
      decide +kernel
    obtain ⟨root, t, hbuild, htest⟩ := ok_of_succeeds hbuild
    obtain ⟨hpair, hr, hentry, hphi, hoperands, hvalue, hkind⟩ := of_decide_eq_true htest
    obtain ⟨n, hn, hpair⟩ := Option.map_eq_some_iff.1 hpair
    obtain ⟨r, hr, hr'⟩ := Option.map_eq_some_iff.1 hr
    obtain ⟨site, hsite, hkind⟩ := Option.map_eq_some_iff.1 hkind
    obtain ⟨l, hl, hoperands⟩ := Option.map_eq_some_iff.1 hoperands
    simp only [Prod.mk.injEq] at hpair
    refine ⟨root, t, r, 16, 4, hbuild, ⟨by decide, n, hn, hpair⟩, hr, hr' ▸ hentry, hphi, ?_, ?_⟩
    · have hserves := (build_ensures (Program.coherent_assembled _) (.initial borrowing {}) (fun _ _ _ _ ↦ rfl)
        root t hbuild).1
      have hresolves : t.Resolves borrowing 7 4 := .inl ⟨4, hvalue, site, hsite, by simp [hkind, NodeKind.isCall]⟩
      exact hresolves.operand_eq ((Lowering.Wiring.initial borrowing {}).evolves hserves).valid (ask borrowing)
    · rintro ⟨l', hl', hmem⟩
      obtain rfl := Option.mem_unique hl hl'
      simp [hoperands] at hmem

end Lower

end PointsTo
