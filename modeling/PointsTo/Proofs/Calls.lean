import PointsTo.Lowering.Sequence
import PointsTo.Proofs.Joining

/-!
# Lowering of calls

A call of a defined function is joined to it.  Other calls make chains like other instructions do: for
calls of declarations, for inline assembly and for calls through a pointer, which lead to their
returns until a callee is found.
-/

namespace PointsTo

theorem Instruction.mem_operands_of_callee? {inst : Instruction} {callee : ValueId}
    (h : inst.callee? = some callee) : callee ∈ inst.operands := by
  unfold callee? at h
  split at h
  · exact List.mem_of_head? h
  · contradiction

namespace Lowering

variable {prog : Program} {s t u : Lowering} {v : ValueId} {inst : Instruction} {span : Span} {last : NodeId}

/-- What is said about the program leaves an instruction due. -/
theorem Due.remarks (h : s.Due prog v inst) (hst : s.Remarks t) : t.Due prog v inst := by
  have hstep : s.Step prog t := hst.step
  have hkeeps := hstep.keeps h.valid
  obtain ⟨warnings, journal, rfl⟩ := hst
  exact
    { valid := h.valid.adds (hstep.adds h.valid)
      instruction := h.instruction
      unnamed := h.unnamed
      recorded := h.recorded
      judged := fun hscoped ↦ (h.judged hscoped).imp fun _ hb ↦ hb.mono hkeeps
      incomplete := h.incomplete }

theorem Lowered.after (h : t.Lowered prog v span u) (hs : s.Valid prog) (hstep : s.Step prog t) :
    s.Lowered prog v span u :=
  { (hstep.evolves hs).trans h.toEvolves with
    new := (hstep.keeps hs).size_le.trans h.new
    starts := h.starts
    ends := h.ends
    closed := h.closed
    fits := h.fits
    known := h.known }

/-- A chain may go on with nodes that are no returns. -/
theorem Lowered.extend (h : s.Lowered prog v span t) (hv : prog.kindAt v = some (.instruction inst))
    (hphi : inst.isPhi = false) (hnew : s.graph.size ≤ last) (hends : t.Ends prog last)
    (hret : t.At (fun _ n ↦ n.kind ≠ .ret) last) : s.Lowered prog v ⟨span.first, last⟩ t :=
  { h with
    new := hnew
    ends := hends
    closed := .inl (hret.imp fun _ hn ↦ Node.open_of_ne_ret hn)
    fits := ⟨_, hv, hret.imp fun _ _ ↦ by simp [ValueKind.Fits, hphi]⟩ }

/-- The block that the value stands in was visited, if it stands in one. -/
def Visited (prog : Program) (s : Lowering) (v : ValueId) : Prop :=
  ∀ inst, prog.kindAt v = some (.instruction inst) → s.blocks.get? (inst.function, inst.block) ≠ none

theorem Visited.mono (h : s.Visited prog v) (hst : s.Keeps prog t) : t.Visited prog v :=
  fun inst hv ↦ hst.blocks (h inst hv)

namespace Makes

variable {f : FuncId}

/-- A call that has no node yet passes itself to no pointer. -/
theorem ignores_self (h : s.Makes prog v f span t) (hdue : s.Due prog v inst) (hscoped : prog.Scoped)
    (hf : prog.calledFunction? v = .ok (some f)) (hpasses : prog.Passes v f v) : False := by
  have hnothing (hnothing : prog.PassesNothing v) : False := hnothing f v ⟨⟨inst, hdue.instruction⟩, .inl hf⟩ hpasses
  obtain ⟨r, hjoins⟩ := h.joins
  obtain ⟨phi, hphi⟩ := h.valid.receives (by simp [hjoins.record]) hpasses
  obtain ⟨-, -, op, -, hresolves⟩ := hjoins.bound hscoped v phi hphi
  have hnamed : t.nodes.get? v ≠ none := by
    rcases hresolves with ⟨id, hid, -⟩ | ⟨-, hsentinel⟩
    · simp [hid]
    · simp [Program.sentinel?, hdue.instruction] at hsentinel
  rcases h.lowers hscoped hdue.instruction (hdue.unnamed hscoped) hnamed with hfalse | hjudged | hhome
  · exact hfalse
  · exact hnothing (hjudged.passesNothing h.valid)
  · exact hhome (hdue.housed hscoped)

theorem lowered (h : s.Makes prog v f span t) (hprog : prog.Coherent) (hdue : s.Due prog v inst)
    (hf : prog.calledFunction? v = .ok (some f)) (hphi : inst.isPhi = false) (hstems : inst.opcode.stems = false) :
    s.Lowered prog v span { t with
      graph := t.graph.update span.first fun n ↦ { n with value := n.value <|> some v }
      nodes := t.nodes.insert v span.first } := by
  have hstep : t.Step prog { t with graph := t.graph.update span.first fun n ↦
    { n with value := n.value <|> some v } } :=
    .value
  have hgraph := (hstep.keeps h.valid).graph
  have hcall := h.pair.2
  have hsite := h.pair.site h.valid
  have hstarts : t.Starts prog span.first := by
    refine ⟨hcall.imp fun n hn ↦ ?_, h.valid.not_isExit (hcall.imp fun n hn ↦ by simp [hn.1])⟩
    exact ⟨by simp [hn.1], by simp [hn.1], by simp [hn.1], fun _ ↦ .inr ⟨v, hn.2.2, f, hf⟩⟩
  have hends : t.Ends prog span.last := by
    refine ⟨hsite.imp fun n hn ↦ ?_, h.valid.not_isExit (hsite.imp fun n hn ↦ by simp [hn.1])⟩
    exact ⟨by simp [hn.1], by simp [hn.1], fun _ ↦ ⟨v, hn.2.2, f, hf⟩⟩
  have hignores (hscoped : prog.Scoped) {m q : NodeId} {call : ValueId} (hm : s.graph.size ≤ m)
      (hpair : t.IsPair m q call) : prog.Ignores call v := by
    by_cases hapart : m = span.first ∨ m = span.last
    · obtain rfl := h.eq_call hpair hapart
      intro f' hcalls
      have hf' : f' = f := by
        rcases hcalls.2 with hf' | hf'
        · rw [hf] at hf'
          simpa using (Except.ok.inj hf').symm
        · rw [hf] at hf'
          simp at hf'
      subst hf'
      refine ⟨h.ignores_self hdue hscoped hf, fun fn hfn hparam ↦ ?_⟩
      obtain ⟨j, hj⟩ := List.mem_iff_getElem?.1 hparam
      have hkind := hprog.param (by rw [hfn]; rfl) hj
      rw [hdue.instruction] at hkind
      simp at hkind
    · refine ignores_of_passing hprog hscoped hdue.instruction (hdue.housed hscoped) ?_
      exact (h.passing hscoped hm hapart hpair).resolve_left id
  refine
    { h.evolves.assign (fun g hg ↦ ?_) (fun _ _ ↦ rfl) (fun hscoped ↦ ⟨hdue.unnamed hscoped, h.new.1⟩) ?_
        (fun hscoped ↦ h.housed (hdue.housed hscoped)) hignores (fun hscoped {_} hnone _ ↦ hdue.other hscoped hnone)
        (hdue.plain hstems) with
      new := h.new.2
      starts := hstarts.of_graph hgraph rfl
      ends := hends.of_graph hgraph rfl
      closed := .inl ?_
      fits := ?_
      known := .inl (by simp) }
  · rw [hdue.instruction] at hg
    simp at hg
  · exact ⟨_, hdue.instruction, hcall.imp fun n _ ↦ by simp [ValueKind.Fits, hphi]⟩
  · exact hsite.mono hgraph fun _ _ hnm hn ↦ Node.open_of_ne_ret (by simp [hnm.kind, hn.1])
  · exact ⟨_, hdue.instruction, hsite.mono hgraph fun _ _ _ _ ↦ by simp [ValueKind.Fits, hphi]⟩

end Makes

end Lowering

namespace Lower

open Stateful

variable {prog : Program} {ask : Provider} {s t : Lowering} {v w : ValueId} {inst : Instruction} {f : FuncId}

/-- Makes a node that is its own partner. -/
theorem external_ensures {n : Node} {make : Graph → NodeId × Graph} {β : Type} {next : NodeId → Lower β}
    {Q : β → Lowering → Prop} (hs : s.Valid prog) (hmake : make s.graph = s.graph.create n)
    (hkind : n.kind = .call ∨ n.kind = .constant) (hblank : n.Blank)
    (hnext : ∀ id t, s.Step prog t → s.graph.size ≤ id → t.Starts prog id → t.Ends prog id →
      t.At (fun _ n ↦ n.kind ≠ .ret) id → Ensures (next id) t Q) :
    Ensures (do
      let id ← create make
      onGraph (·.pair id id)
      next id) s Q := by
  refine .seq fun id _ h₁ ↦ .seq fun _ t h₂ ↦ ?_
  obtain ⟨hid, rfl⟩ := create_eq_ok_iff.1 h₁
  rw [hmake] at hid
  obtain rfl : s.graph.size = id := hid
  obtain rfl : { s with graph := s.graph.append [{ n with paired := some s.graph.size }] } = t := by
    rw [← Graph.pair_create_self, ← hmake]
    exact onGraph_eq_ok_iff.1 h₂
  have hnode : (s.graph.append [{ n with paired := some s.graph.size }]).nodes[s.graph.size]? =
      some { n with paired := some s.graph.size } := Graph.nodes_append_size
  have hexit : ¬({ s with graph := s.graph.append [{ n with paired := some s.graph.size }] } : Lowering).IsExit
      s.graph.size := fun hexit ↦ absurd (hs.exit_lt hexit) (Nat.lt_irrefl _)
  refine hnext _ _ (.external hkind hblank) (Nat.le_refl _) ⟨⟨_, hnode, ?_⟩, hexit⟩ ⟨⟨_, hnode, ?_⟩, hexit⟩
    ⟨_, hnode, ?_⟩
  · refine ⟨?_, ?_, ?_, fun _ ↦ .inl rfl⟩
    all_goals rcases hkind with hk | hk <;> simp [hk]
  · refine ⟨?_, fun _ ↦ rfl, ?_⟩
    all_goals rcases hkind with hk | hk <;> simp [hk]
  · rcases hkind with hk | hk <;> simp [hk]

section

variable (hprog : prog.Coherent) (hask : ask.Sound prog) (hdue : s.Due prog v inst) (hphi : inst.isPhi = false)
  (hstems : inst.opcode.stems = false)

include hprog hdue hphi hstems

/-- A node that stands for the call is made with a partner of its own. -/
theorem lowerExternal_ensures {n : Node} {make : Graph → NodeId × Graph} (hst : s.Serves prog t)
    (hmake : make t.graph = t.graph.create n) (hkind : n.kind = .call ∨ n.kind = .constant) (hblank : n.Blank) :
    Ensures (do
      let id ← create make
      onGraph (·.pair id id)
      assign v id
      return id) t fun id u ↦ s.Lowered prog v (.only id) u := by
  refine external_ensures hst.valid hmake hkind hblank fun id u hu hid hstarts hends hret ↦ ?_
  have hnew := hst.size_le.trans hid
  refine (assign_ensures hprog hdue (hst.step hu) hnew hret.lt_size (by simp [hphi])
    (hdue.plain hstems)).bind fun _ w hw ↦ .pure ?_
  exact hw.lowered hdue.instruction hnew hstarts hends (.inl hret) (by simp [hphi])

theorem lowerExternalCall_ensures :
    Ensures (lowerExternalCall v) s fun id t ↦ s.Lowered prog v (.only id) t :=
  lowerExternal_ensures hprog hdue hphi hstems (n := { kind := .call, pointsTo := .singleton .unknown })
    (.refl hdue.valid) rfl (.inl rfl) ⟨rfl, rfl, rfl, rfl⟩

theorem lowerAsm_ensures : Ensures (lowerAsm v) s fun id t ↦ s.Lowered prog v (.only id) t := by
  refine .seq fun _ t hwarn ↦ ?_
  have ht : s.Serves prog t := (Lowering.Evolves.refl hdue.valid).step (warn_eq_ok hwarn).step
  exact lowerExternal_ensures hprog hdue hphi hstems (n := { kind := .constant, pointsTo := .singleton .unknown }) ht
    rfl (.inr rfl) ⟨rfl, rfl, rfl, rfl⟩

include hask

theorem lowerIndirectCall_ensures (hnone : prog.calledFunction? v = .ok none) :
    Ensures (lowerIndirectCall prog ask v inst) s fun span t ↦ s.Lowered prog v span t := by
  unfold lowerIndirectCall
  split
  · exact fun _ _ h ↦ absurd h missing_ne_ok
  · rename_i callee hcallee
    refine .bind_lift fun pointer hpointer ↦ ?_
    have hw : prog.Within inst.function pointer :=
      .strip (.operand hdue.instruction (inst.mem_operands_of_callee? hcallee)) hpointer
    refine (operand_ensures hask hdue.recorded (.refl hdue.valid) hw).bind fun op t h ↦ ?_
    obtain ⟨ht, hop⟩ := h
    refine .seq fun id _ h₁ ↦ .seq fun site _ h₂ ↦ .seq fun _ _ h₃ ↦ .seq fun _ _ h₄ ↦ .seq fun _ _ h₅ ↦
      .seq fun _ u h₆ ↦ .pure ?_
    obtain ⟨hid, rfl⟩ := create_eq_ok_iff.1 h₁
    obtain ⟨hsite, rfl⟩ := create_eq_ok_iff.1 h₂
    obtain rfl := onGraph_eq_ok_iff.1 h₃
    obtain rfl := onGraph_eq_ok_iff.1 h₄
    obtain rfl := setValue_eq_ok_iff.1 h₅
    replace hid : id = t.graph.size := hid.symm
    replace hsite : site = t.graph.size + 1 := hsite.symm.trans Graph.size_createWith
    obtain rfl : { t with graph := t.graph.indirectCall op v, nodes := t.nodes.insert v id } = u := by
      rw [← Graph.indirectCall_eq hop hid hsite]
      exact assign_eq_ok_iff.1 h₆
    have hstep : t.Step prog { t with graph := t.graph.indirectCall op v } :=
      .indirect op ⟨⟨inst, hdue.instruction⟩, hnone⟩ fun hscoped ↦ ht.housed (hdue.housed hscoped)
    have hserves := ht.step hstep
    have hret : (t.graph.indirectCall op v).nodes[site]? =
        some { kind := .ret, predecessors := [t.graph.size], paired := some t.graph.size, value := some v } :=
      hsite ▸ Graph.nodes_indirectCall_ret
    obtain ⟨n, hn⟩ : ∃ n, (t.graph.indirectCall op v).nodes[id]? = some n := by
      apply Graph.exists_node
      have hlt := Graph.lt_size_of_node hret
      rw [hsite] at hlt
      exact hid ▸ (Nat.lt_succ_self _).trans hlt
    have hk : n.kind = .indirectCall := by
      rcases Graph.nodes_indirectCall (Nat.le_of_eq hid.symm) hn with ⟨-, hk, -⟩ | ⟨hne, -⟩
      · exact hk
      · exact absurd (hid.symm.trans hne) (Nat.ne_of_lt (Nat.lt_succ_self _))
    have hexit {a : NodeId} {m : Node} (hm : (t.graph.indirectCall op v).nodes[a]? = some m) (hne : m.kind ≠ .noop) :
        ¬({ t with graph := t.graph.indirectCall op v, nodes := t.nodes.insert v id } : Lowering).IsExit a :=
      hserves.valid.not_isExit ⟨m, hm, hne⟩
    refine
      { hdue.name hprog hserves (hid ▸ ht.size_le) (Graph.lt_size_of_node hn) (by simp [hphi])
          (hdue.plain hstems) with
        new := ht.size_le.trans (hsite ▸ Nat.le_succ _)
        starts := ⟨⟨n, hn, ?_⟩, hexit hn (by simp [hk])⟩
        ends := ⟨⟨_, hret, ?_⟩, hexit hret (by simp)⟩
        closed := .inl ⟨_, hret, fun _ hp ↦ ?_⟩
        fits := ⟨_, hdue.instruction, _, hret, by simp [ValueKind.Fits, hphi]⟩
        known := .inl (by simp) }
    · exact ⟨by simp [hk], by simp [hk], by simp [hk], by simp [hk]⟩
    · exact ⟨by simp, by simp, by simp⟩
    · contradiction

/-! ## Allocation -/

omit hprog hdue hphi hstems hask in
theorem constantSize_ensures {v? : Option ValueId} : Ensures (constantSize prog v?) s fun _ t ↦ s = t := by
  unfold constantSize
  split
  · exact .pure rfl
  · refine .bind_lift fun n? _ ↦ ?_
    split
    · exact .pure rfl
    · exact .pure rfl

theorem lowerRealloc_ensures :
    Ensures (lowerRealloc prog ask v inst.arguments) s fun span t ↦ s.Lowered prog v span t := by
  unfold lowerRealloc
  split
  · exact fun _ _ h ↦ absurd h missing_ne_ok
  · rename_i old hold
    refine .bind_lift fun base hbase ↦ ?_
    have hw : prog.Within inst.function base :=
      .strip (.operand hdue.instruction (inst.mem_operands_of_argument (List.mem_of_getElem? hold))) hbase
    refine (operand_ensures hask hdue.recorded (.refl hdue.valid) hw).bind fun op t h ↦ ?_
    obtain ⟨ht, -⟩ := h
    refine (create_ensures prog { kind := .dynAlloc, pointsTo := .singleton ⟨t.graph.size, .zero⟩ } [] rfl rfl
      ⟨rfl, rfl, rfl, rfl⟩).bind fun id t₁ h₁ ↦ ?_
    refine constantSize_ensures.bind fun size _ hst ↦ hst ▸ .seq fun n _ hn ↦ ?_
    obtain ⟨-, rfl⟩ := node_eq_ok_iff.1 hn
    refine .seq fun _ t₂ h₂ ↦ ?_
    have hstep₂ : t₁.Step prog t₂ := by
      rw [← onGraph_eq_ok_iff.1 h₂]
      exact .adjust (fun _ ↦ ⟨rfl, rfl, rfl, rfl, rfl, fun _ hp ↦ hp⟩) fun _ hv ↦ hv
    refine (create_ensures prog { kind := .memcpy, offset := .zero, length := .unknown } [op, id] rfl rfl
      ⟨rfl, rfl, rfl, rfl⟩).bind fun copy t₃ h₃ ↦ ?_
    have hs₁ := ht.step h₁.step
    have hs₂ := hs₁.step hstep₂
    have hs₃ := hs₂.step h₃.step
    have hk₃ := (hstep₂.keeps hs₁.valid).trans (h₃.step.keeps hs₂.valid)
    obtain ⟨hfirst, hends⟩ := h₁.ends ht.valid rfl
    obtain ⟨haccepts, hlast⟩ := h₃.ends hs₂.valid rfl
    refine (addSuccessor_ensures (hk₃.ends hends) haccepts.accepts).bind fun _ t₄ h ↦ ?_
    obtain ⟨h₄, hvacant⟩ := h
    have hcopy : t₄.Vacant copy := hvacant _ (h₃.isNode.imp fun _ hn ↦ hn.2.2)
    refine (setValue_ensures prog hcopy).bind fun _ t₅ h ↦ ?_
    obtain ⟨h₅, -⟩ := h
    have hs₄ := hs₃.step h₄
    have hk₅ := (h₄.keeps hs₃.valid).trans (h₅.keeps hs₄.valid)
    have hid : id < t₅.graph.size := hfirst.lt_size.trans_le (hk₃.trans hk₅).size_le
    have hnew : s.graph.size ≤ id := h₁.id_eq ▸ ht.size_le
    have hnew' : s.graph.size ≤ copy := h₃.id_eq ▸ hs₂.size_le
    refine (assign_ensures hprog hdue (hs₄.step h₅) hnew hid (by simp [hphi])
      (hdue.plain hstems)).bind fun _ u hu ↦ .pure ?_
    refine hu.lowered hdue.instruction hnew' (hk₅.starts (hk₃.starts hfirst)) (hk₅.ends hlast) (.inl ?_)
      (by simp [hphi])
    exact h₃.isNode.mono hk₅.graph fun _ _ hnm hn ↦ by simp [hnm.kind, hn.1]

theorem lowerAllocation_ensures {allocator : Allocator} :
    Ensures (lowerAllocation prog ask v inst.arguments allocator) s fun span t ↦ s.Lowered prog v span t := by
  have hallocate (n : Node) (hkind : n.kind = .dynAlloc) (hblank : n.Blank) :
      Ensures (lowerAllocation.allocate v n) s fun span t ↦ s.Lowered prog v span t := by
    refine (makeFor_ensures hprog hdue (.refl hdue.valid) { n with pointsTo := .singleton ⟨s.graph.size, .zero⟩ } []
      rfl ?_ ?_ (by simp [hphi]) (hdue.plain hstems)).bind fun id t ht ↦ .pure ht
    · change n.kind.isPlain = true
      rw [hkind]
      rfl
    · exact ⟨hblank.successors, hblank.predecessors, hblank.paired, hblank.value⟩
  unfold lowerAllocation
  split
  · exact lowerRealloc_ensures hprog hask hdue hphi hstems
  · exact constantSize_ensures.bind fun size _ hst ↦ hst ▸ hallocate _ rfl ⟨rfl, rfl, rfl, rfl⟩
  · refine constantSize_ensures.bind fun count _ hst ↦ hst ▸ ?_
    exact constantSize_ensures.bind fun size _ hst ↦ hst ▸ hallocate _ rfl ⟨rfl, rfl, rfl, rfl⟩
  · exact constantSize_ensures.bind fun size _ hst ↦ hst ▸ hallocate _ rfl ⟨rfl, rfl, rfl, rfl⟩

/-! ## Intrinsics -/

theorem lowerTransfer_ensures :
    Ensures (lowerTransfer prog ask v inst.arguments) s fun id t ↦ s.Lowered prog v (.only id) t := by
  unfold lowerTransfer
  split
  · rename_i dest src rest hargs
    have hdest : prog.Within inst.function dest :=
      .operand hdue.instruction (inst.mem_operands_of_argument (by simp [hargs]))
    have hsrc : prog.Within inst.function src :=
      .operand hdue.instruction (inst.mem_operands_of_argument (by simp [hargs]))
    have hmake (length : Offset) : Ensures (do
        let src ← ask.operand src
        let dest ← ask.operand dest
        createFor v (·.createMemcpy src dest .zero length)) s fun id t ↦ s.Lowered prog v (.only id) t := by
      refine (operand_ensures hask hdue.recorded (.refl hdue.valid) hsrc).bind fun op t ht ↦ ?_
      refine (operand_ensures hask hdue.recorded ht.1 hdest).bind fun op' u hu ↦ ?_
      exact makeFor_ensures hprog hdue hu.1 { kind := .memcpy, offset := .zero, length } [op, op'] rfl rfl
        ⟨rfl, rfl, rfl, rfl⟩ (by simp [hphi]) (hdue.plain hstems)
    dsimp only
    split
    · exact .bind_pure (hmake _)
    · refine .bind_lift fun n? _ ↦ ?_
      split
      · exact .bind_pure (hmake _)
      · exact .bind_pure (hmake _)
  · exact fun _ _ h ↦ absurd h missing_ne_ok

end

/-- The two nodes of a fill. -/
theorem fillMemory_ensures (hask : ask.Sound prog) (hv : prog.kindAt v = some (.instruction inst))
    (hhome : prog.Scoped → s.records.get? inst.function ≠ none) (hphi : inst.isPhi = false) (hfills : prog.Fills v)
    (hst : s.Serves prog t) (hw : prog.Within inst.function w) {stored : NodeId} :
    Ensures (fillMemory ask v w stored) t fun span u ↦ s.Lowered prog v span u := by
  refine (operand_ensures hask hhome hst hw).bind fun op t ⟨ht, _⟩ ↦ ?_
  refine (create_ensures prog { kind := .gep, offset := .unknown } [op] rfl rfl ⟨rfl, rfl, rfl, rfl⟩).bind
    fun gep t₁ h₁ ↦ ?_
  refine (create_ensures prog { kind := .store } [stored, gep] rfl rfl ⟨rfl, rfl, rfl, rfl⟩).bind fun store t₂ h₂ ↦ ?_
  have hs₁ := ht.step h₁.step
  have hs₂ := hs₁.step h₂.step
  have hk₂ := h₂.step.keeps hs₁.valid
  obtain ⟨hfirst, hends⟩ := h₁.ends ht.valid rfl
  obtain ⟨haccepts, hlast⟩ := h₂.ends hs₁.valid rfl
  refine (addSuccessor_ensures (hk₂.ends hends) haccepts.accepts).bind fun _ t₃ ⟨h₃, hvacant⟩ ↦ ?_
  have hs₃ := hs₂.step h₃
  refine (setValue_ensures prog (hvacant _ (h₂.vacant (h₁.isNode.imp fun _ hn ↦ hn.2.2)))).bind
    fun _ t₄ ⟨h₄, hvacant₄⟩ ↦ ?_
  have hne : store ≠ gep := by
    rw [h₂.id_eq]
    exact (Nat.ne_of_lt hfirst.lt_size).symm
  refine (setValue_ensures prog (hvacant₄ _ hne (hvacant _ (h₂.isNode.imp fun _ hn ↦ hn.2.2)))).bind
    fun _ u ⟨h₅, _⟩ ↦ .pure ?_
  have hs₄ := hs₃.step h₄
  have hk := ((h₃.keeps hs₂.valid).trans (h₄.keeps hs₃.valid)).trans (h₅.keeps hs₄.valid)
  have hkind : u.At (fun _ n ↦ n.kind = .store) store := (h₂.isNode.imp fun _ hn ↦ hn.1).mono_kind hk.graph
  have hevolves : s.Evolves prog (· = v) u := (hs₄.step h₅).mono fun _ h ↦ h.elim
  exact
    { hevolves with
      new := h₂.id_eq ▸ hs₁.size_le
      starts := hk.starts (hk₂.starts hfirst)
      ends := hk.ends hlast
      closed := .inl (hkind.imp fun n hn ↦ Node.open_of_ne_ret (by simp [hn]))
      fits := ⟨_, hv, hkind.imp fun n _ ↦ by simp [ValueKind.Fits, hphi]⟩
      known := .inr hfills }

theorem slotType?_ensures : Ensures (slotType? prog v) s fun _ t ↦ s = t := by
  refine .bind_lift fun inst? _ ↦ ?_
  split
  · exact .pure rfl
  · exact .pure rfl

/-- A fill makes a chain, or only marks the memory that it fills.  Its node is known by no name. -/
theorem lowerMemset_ensures (hask : ask.Sound prog) (hs : s.Valid prog) (hv : prog.kindAt v = some (.instruction inst))
    (hhome : prog.Scoped → s.records.get? inst.function ≠ none) (hphi : inst.isPhi = false) (hfills : prog.Fills v) :
    Ensures (lowerMemset prog ask v) s fun span? t ↦
      (∀ span, span? = some span → s.Lowered prog v span t) ∧ (span? = none → s.Serves prog t) := by
  refine nthOperand_ensures hv fun dest hdest ↦ ?_
  refine nthOperand_ensures hv fun fill _ ↦ .bind_lift fun base hbase ↦ ?_
  have hw : prog.Within inst.function base := hdest.strip hbase
  refine .bind_lift fun n? _ ↦ ?_
  have hfill {t : Lowering} (ht : s.Serves prog t) (stored : NodeId) :
      Ensures (fillMemory ask v base stored >>= fun span ↦ pure (some span)) t fun span? t ↦
        (∀ span, span? = some span → s.Lowered prog v span t) ∧ (span? = none → s.Serves prog t) := by
    refine (fillMemory_ensures hask hv hhome hphi hfills ht hw).bind fun span u hu ↦
      .pure ⟨fun span' hspan ↦ ?_, by simp⟩
    obtain rfl := Option.some.inj hspan
    exact hu
  split
  · refine slotType?_ensures.bind fun ty? _ hst ↦ hst ▸ ?_
    cases ty? with
    | none => exact hfill (.refl hs) nullTarget
    | some ty =>
      dsimp only
      split
      · refine (operand_ensures hask hhome (.refl hs) hw).bind fun id t ht ↦ .seq fun _ u hu ↦
          .pure ⟨by simp, fun _ ↦ ?_⟩
        obtain rfl := onGraph_eq_ok_iff.1 hu
        exact ht.1.step (.adjust (fun _ ↦ ⟨rfl, rfl, rfl, rfl, rfl, fun _ hp ↦ hp⟩) fun _ hv ↦ hv)
      · exact .pure ⟨by simp, fun _ ↦ .refl hs⟩
  · refine .bind_lift fun _ _ ↦ .seq fun _ t hwarn ↦ ?_
    exact hfill ((Lowering.Evolves.refl hs).step (warn_eq_ok hwarn).step) unknownTarget

section

variable (hprog : prog.Coherent) (hask : ask.Sound prog) (hdue : s.Due prog v inst) (hphi : inst.isPhi = false)
  (hstems : inst.opcode.stems = false)

include hprog hask hdue hphi hstems

theorem lowerVaStart_ensures :
    Ensures (lowerVaStart prog ask v inst) s fun span t ↦ s.Lowered prog v span t := by
  refine .seq fun r? _ h ↦ ?_
  obtain ⟨-, rfl⟩ := record?_eq_ok_iff.1 h
  split
  · refine .bind_lift fun _ _ ↦ .seq fun _ t hwarn ↦ ?_
    have ht : s.Serves prog t := (Lowering.Evolves.refl hdue.valid).step (warn_eq_ok hwarn).step
    exact (lowerUnknown_ensures hprog hdue ht hphi (hdue.plain hstems)).bind fun _ _ h ↦ .pure h
  · rename_i phi _
    refine nthOperand_ensures hdue.instruction fun list hlist ↦ .bind_lift fun base hbase ↦ ?_
    refine (operand_ensures hask hdue.recorded (.refl hdue.valid) (hlist.strip hbase)).bind fun op t h ↦ ?_
    obtain ⟨ht, -⟩ := h
    refine (makeFor_ensures hprog hdue ht { kind := .alloc, pointsTo := .singleton ⟨t.graph.size, .zero⟩ } []
      rfl rfl ⟨rfl, rfl, rfl, rfl⟩ (by simp [hphi]) (hdue.plain hstems)).bind fun object t₁ h₁ ↦ ?_
    refine .seq fun n _ hn ↦ ?_
    obtain ⟨-, rfl⟩ := node_eq_ok_iff.1 hn
    -- What follows does not depend on how the slot is made.
    have hfinish {slot : NodeId} {t₂ : Lowering} (h₂ : t₁.Step prog t₂) : Ensures (do
        let init ← create (·.createWith { kind := .store } [object, slot])
        let memory ← create (·.createConstant ⟨object, .unknown⟩)
        let fill ← create (·.createWith { kind := .store } [phi, memory])
        onGraph (·.addSuccessor object init)
        onGraph (·.addSuccessor init fill)
        note .debug fun _ ↦ return s!"va_start in @{(← prog.function inst.function).name}"
        return ⟨object, fill⟩) t₂ fun span t ↦ s.Lowered prog v span t := by
      have hs₂ := h₁.step h₂
      refine (create_ensures prog { kind := .store } [object, slot] rfl rfl ⟨rfl, rfl, rfl, rfl⟩).bind
        fun init t₃ h₃ ↦ ?_
      refine (create_ensures prog { kind := .constant, pointsTo := .singleton ⟨object, .unknown⟩ } [] rfl rfl
        ⟨rfl, rfl, rfl, rfl⟩).bind fun memory t₄ h₄ ↦ ?_
      refine (create_ensures prog { kind := .store } [phi, memory] rfl rfl ⟨rfl, rfl, rfl, rfl⟩).bind
        fun fill t₅ h₅ ↦ ?_
      have hs₃ := hs₂.step h₃.step
      have hs₄ := hs₃.step h₄.step
      have hs₅ := hs₄.step h₅.step
      have hk₅ := (h₄.step.keeps hs₃.valid).trans (h₅.step.keeps hs₄.valid)
      obtain ⟨hinit, hinit'⟩ := h₃.ends hs₂.valid rfl
      obtain ⟨hfill, hfill'⟩ := h₅.ends hs₄.valid rfl
      refine (addSuccessor_ensures hs₅.ends (hk₅.starts hinit).accepts).bind fun _ t₆ h ↦ ?_
      obtain ⟨h₆, -⟩ := h
      have hk₆ := h₆.keeps hs₅.valid
      refine (addSuccessor_ensures (hk₆.ends (hk₅.ends hinit')) (hk₆.starts hfill).accepts).bind fun _ t₇ h ↦ ?_
      obtain ⟨h₇, -⟩ := h
      have hs₇ := (hs₅.step h₆).step h₇
      have hk₇ := hk₆.trans (h₇.keeps (hs₅.step h₆).valid)
      refine .seq fun _ u hnote ↦ .pure ?_
      have hk := hk₇.trans ((note_eq_ok hnote).step.keeps hs₇.valid)
      refine (hs₇.step (note_eq_ok hnote).step).extend hdue.instruction hphi (h₅.id_eq ▸ hs₄.size_le)
        (hk.ends hfill') ?_
      exact h₅.isNode.mono hk.graph fun _ _ hnm hn ↦ by simp [hnm.kind, hn.1]
    split
    · exact (create_ensures prog { kind := .constant, pointsTo := .singleton ⟨op, .unknown⟩ } [] rfl rfl
        ⟨rfl, rfl, rfl, rfl⟩).bind fun _ _ h₂ ↦ hfinish h₂.step
    · exact (create_ensures prog { kind := .gep, offset := .unknown } [op] rfl rfl
        ⟨rfl, rfl, rfl, rfl⟩).bind fun _ _ h₂ ↦ hfinish h₂.step

theorem lowerIntrinsic_ensures {fn : Function} (hf : prog.calledFunction? v = .ok (some f))
    (hfn : prog.functions[f]? = some fn) (hdecl : fn.isDeclaration = true) :
    Ensures (lowerIntrinsic prog ask v inst fn.name) s fun span t ↦ s.Lowered prog v span t := by
  unfold lowerIntrinsic
  split
  · exact (lowerTransfer_ensures hprog hask hdue hphi hstems).bind fun _ _ h ↦ .pure h
  · exact (lowerTransfer_ensures hprog hask hdue hphi hstems).bind fun _ _ h ↦ .pure h
  · rename_i hmemset
    have hfills : prog.Fills v := ⟨f, fn, hf, hfn, hdecl, hmemset⟩
    refine (lowerMemset_ensures hask hdue.valid hdue.instruction hdue.recorded hphi hfills).bind
      fun span? t h ↦ ?_
    cases span? with
    | some span => exact .pure (h.1 span rfl)
    | none =>
      have ht := h.2 rfl
      refine (create_ensures prog { kind := .noop } [] rfl rfl ⟨rfl, rfl, rfl, rfl⟩).bind fun id u hu ↦ .pure ?_
      obtain ⟨hstarts, hends⟩ := hu.ends ht.valid rfl
      have hevolves : s.Evolves prog (· = v) u := (ht.step hu.step).mono fun _ h ↦ h.elim
      exact
        { hevolves with
          new := hu.id_eq ▸ ht.size_le
          starts := hstarts
          ends := hends
          closed := .inl (hu.isNode.imp fun n hn ↦ Node.open_of_ne_ret (by simp [hn.1]))
          fits := ⟨_, hdue.instruction, hu.isNode.imp fun n _ ↦ by simp [ValueKind.Fits, hphi]⟩
          known := .inr hfills }
  · exact lowerVaStart_ensures hprog hask hdue hphi hstems
  · refine .bind_lift fun _ _ ↦ .seq fun _ t hwarn ↦ ?_
    have ht := warn_eq_ok hwarn
    exact (lowerAlloc_ensures hprog (hdue.remarks ht) hphi hstems).bind fun _ _ h ↦ .pure (h.after hdue.valid ht.step)
  · refine nthOperand_ensures hdue.instruction fun pointer h ↦ ?_
    exact (lowerLoad_ensures hprog hask hdue hphi hstems h).bind fun _ _ h ↦ .pure h
  · exact .bind_lift fun _ _ _ _ h ↦ absurd h reject_ne_ok

theorem lowerCall_ensures :
    Ensures (lowerCall prog ask v) s fun span t ↦ s.Lowered prog v span t := by
  refine .bind_lift fun asm _ ↦ ?_
  split
  · exact (lowerAsm_ensures hprog hdue hphi hstems).bind fun _ _ h ↦ .pure h
  · refine (instruction_ensures hdue.instruction).bind fun inst' _ ⟨hinst, hst⟩ ↦ hst ▸ .bind_lift fun f? hf ↦ ?_
    subst hinst
    cases f? with
    | none => exact lowerIndirectCall_ensures hprog hask hdue hphi hstems hf
    | some f =>
      refine .bind_lift fun callee hcallee ↦ ?_
      split
      · rename_i hdecl
        split
        · exact lowerAllocation_ensures hprog hask hdue hphi hstems
        · split
          · exact lowerIntrinsic_ensures hprog hask hdue hphi hstems hf (Query.lookup_eq_ok_iff.1 hcallee) hdecl
          · exact (lowerExternalCall_ensures hprog hdue hphi hstems).bind fun _ _ h ↦ .pure h
      · rename_i hdef
        refine (callFunction_ensures hprog hask hdue.valid hdue.instruction hdue.recorded
          ⟨⟨_, hdue.instruction⟩, .inl hf⟩
          (Query.lookup_eq_ok_iff.1 hcallee) (Bool.eq_false_iff.2 hdef)).bind fun span t ht ↦ ?_
        refine .seq fun _ _ henlist ↦ .seq fun _ u hu ↦ .pure ?_
        obtain rfl := modify_eq_ok_iff.1 henlist
        rw [← assign_eq_ok_iff.1 hu]
        exact (ht.step (.enlist inst'.function f ⟨.direct, span.first⟩)).lowered hprog hdue hf hphi hstems

end

/-! ## Instructions -/

theorem lowerInstruction_ensures (hprog : prog.Coherent) (hask : ask.Sound prog) (hdue : s.Due prog v inst) :
    Ensures (lowerInstruction prog ask v) s fun span t ↦ s.Lowered prog v span t ∧ t.Reflects prog v inst := by
  refine (instruction_ensures hdue.instruction).bind fun inst' _ h ↦ h.2 ▸ .seq fun _ s' hnote ↦ ?_
  obtain ⟨rfl, -⟩ := h
  have hremarks := note_eq_ok hnote
  have hdue' := hdue.remarks hremarks
  suffices h : Ensures _ s' fun span t ↦ s'.Lowered prog v span t ∧ t.Reflects prog v inst' from
    h.mono fun _ _ ht ↦ ⟨ht.1.after hdue.valid hremarks.step, ht.2⟩
  have hphi (hop : inst'.opcode ≠ .phi) : inst'.isPhi = false := by
    unfold Instruction.isPhi
    split
    · contradiction
    · rfl
  have hplain {span : Span} {t : Lowering} (h : s'.Lowered prog v span t) (hop : inst'.opcode ≠ .phi)
      (hcast : inst'.opcode ≠ .cast .intToPtr) (hret : inst'.opcode ≠ .ret) :
      s'.Lowered prog v span t ∧ t.Reflects prog v inst' := ⟨h, .of_opcode (hphi hop) hcast hret⟩
  split
  case h_7 hop =>
    refine (lowerPhi_ensures hprog hdue' (congrArg _ hop)).bind fun _ _ h ↦ .pure ⟨h.1, fun _ ↦ by simp [h.2], ?_, ?_⟩
    · simp [hop]
    · simp [hop]
  case h_12 hop => exact (lowerIntToPtr_ensures hprog hask hdue' (hphi (by simp [hop])) hop).bind fun _ _ h ↦ .pure h
  case h_22 hop => exact (lowerReturn_ensures hprog hask hdue' (hphi (by simp [hop])) hop).bind fun _ _ h ↦ .pure h
  case h_24 => exact .bind_lift fun _ _ _ _ h ↦ absurd h reject_ne_ok
  all_goals
    rename_i hop
    have hphi := hphi (by simp [hop])
    have hstems := congrArg Opcode.stems hop
    refine Ensures.mono ?_ fun _ _ h ↦ hplain h (by simp [hop]) (by simp [hop]) (by simp [hop])
  case h_1 => exact (lowerAlloc_ensures hprog hdue' hphi hstems).bind fun _ _ h ↦ .pure h
  case h_2 => exact (lowerStore_ensures hprog hask hdue' hphi hstems).bind fun _ _ h ↦ .pure h
  case h_3 =>
    refine nthOperand_ensures hdue.instruction fun pointer h ↦ ?_
    exact (lowerLoad_ensures hprog hask hdue' hphi hstems h).bind fun _ _ h ↦ .pure h
  case h_4 => exact (lowerGep_ensures hprog hask hdue' hphi hstems).bind fun _ _ h ↦ .pure h
  case h_5 => exact lowerExtract_ensures hprog hask hdue' hphi hstems
  case h_6 => exact (lowerSelect_ensures hprog hask hdue' hstems).bind fun _ _ h ↦ .pure h
  case h_8 | h_9 | h_10 => exact (lowerCast_ensures hprog hask hdue' hphi hop).bind fun _ _ h ↦ .pure h
  case h_11 => exact (lowerPtrToInt_ensures hprog hask hdue' hphi hop).bind fun _ _ h ↦ .pure h
  case h_13 | h_14 | h_15 | h_16 | h_17 | h_18 | h_19 =>
    exact (lowerUnknown_ensures hprog hdue' (.refl hdue'.valid) hphi (hdue'.plain hstems)).bind fun _ _ h ↦ .pure h
  case h_20 => exact (lowerAdd_ensures hprog hask hdue' hphi).bind fun _ _ h ↦ .pure h
  case h_21 => exact (lowerArithmetic_ensures hprog hask hdue' hphi).bind fun _ _ h ↦ .pure h
  case h_23 => exact lowerCall_ensures hprog hask hdue' hphi hstems

theorem isUnvisited_ensures :
    Ensures (isUnvisited prog v) s fun unvisited t ↦ (s.Visited prog v → unvisited = false) ∧ s = t := by
  refine .bind_lift fun inst? hinst ↦ ?_
  cases inst? with
  | none => exact .pure ⟨fun _ ↦ rfl, rfl⟩
  | some inst =>
    refine .bind_get (.pure ⟨fun hvisited ↦ ?_, rfl⟩)
    rw [OrderedMap.contains_iff.2 (hvisited inst (Program.instruction?_eq_ok_iff.1 hinst))]
    rfl

/-- The incoming values of a phi become its operands. -/
theorem attachIncoming_ensures (hask : ask.Sound prog) (hs : s.Valid prog)
    (hv : prog.kindAt v = some (.instruction inst)) (hhome : prog.Scoped → s.records.get? inst.function ≠ none)
    {phi : NodeId} (hphi : s.At (fun _ n ↦ n.kind = .phi) phi) :
    Ensures (attachIncoming prog ask v phi) s fun _ t ↦ s.Serves prog t ∧
      ∀ w ∈ inst.operands, prog.Scoped → s.Visited prog w → t.Gets prog w phi := by
  refine .bind_lift fun inst? hinst ↦ ?_
  cases inst? with
  | none => simp [Program.instruction?_eq_ok_iff.2 hv] at hinst
  | some inst' =>
    obtain rfl := Program.instruction_unique hv (Program.instruction?_eq_ok_iff.1 hinst)
    refine .forM_marks (fun w hw t ht ↦ ?_) (.refl hs)
    refine isUnvisited_ensures.bind fun unvisited _ ⟨hvisited, hst⟩ ↦ hst ▸ ?_
    cases unvisited with
    | true => exact .pure ⟨ht, fun _ h ↦ by simpa using hvisited (h.mono ht.toKeeps), fun _ _ h ↦ h⟩
    | false =>
      have hwithin : prog.Within inst.function w := .operand hv hw
      refine (passOperand_ensures hask ht.valid (fun hscoped ↦ hwithin.housed hscoped (ht.recorded (hhome hscoped)))
        (hphi.mono_kind ht.graph)).mono fun _ u ⟨hu, hgets⟩ ↦ ⟨ht.trans hu, fun hscoped _ ↦ hgets hscoped, ?_⟩
      exact fun x _ hx hscoped h ↦ (hx hscoped h).mono hu.toKeeps hscoped hu.valid

end Lower

end PointsTo
