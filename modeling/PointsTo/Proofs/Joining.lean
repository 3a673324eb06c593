import PointsTo.Lowering.Call
import PointsTo.Proofs.Instructions

/-!
# Joining calls to functions

A call of a defined function is made in stages: the call and its return site are created, the callee
is lowered if it is not yet, the two are joined, the arguments are bound, and the return site gets the
returns of the callee or waits for them.  In between other calls may be made, and the callee may turn
out to be under construction.  In the end the call is joined, and all else is as a request leaves it.
-/

namespace PointsTo

namespace Lowering

variable {prog : Program} {s t u : Lowering} {m q : NodeId} {call : ValueId} {f : FuncId} {r r' : FunctionRecord}
  {old apart : NodeId → Prop} {mine : ValueId → Prop}

/-! ## Stages of a call -/

/-- A call that leads nowhere yet. -/
structure Pending (prog : Program) (s : Lowering) (m q : NodeId) (call : ValueId) : Prop where
  pair : s.IsPair m q call
  fresh : s.graph.successors m = []
  vacant : ¬prog.Direct call → s.graph.successors q = []
  empty : s.At (fun _ n ↦ n.operands = []) q
  unawaited : ∀ {f r}, s.records.get? f = some r → q ∉ r.awaiting
  later : ∀ {f r}, s.records.get? f = some r → r.complete = false → r.exit < q

/-- A call that leads to its callee and comes back from it, with nothing returned yet. -/
structure Entered (prog : Program) (s : Lowering) (m q : NodeId) (call : ValueId) (f : FuncId)
    (r : FunctionRecord) : Prop where
  pair : s.IsPair m q call
  record : s.records.get? f = some r
  entry : s.graph.successors m = [r.entry]
  exit : q ∈ s.graph.successors r.exit
  vacant : ¬prog.Direct call → s.graph.successors q = []
  empty : s.At (fun _ n ↦ n.operands = []) q
  unawaited : q ∉ r.awaiting
  later : r.complete = false → r.exit < q

/-- The operands of a return site stay as they are. -/
theorem Grows.site (hst : s.Grows prog old t) (hs : s.Valid prog) (hpair : s.IsPair m q call) (hq : old q)
    {ops : List NodeId} (h : s.At (fun _ n ↦ n.operands = ops) q) : t.At (fun _ n ↦ n.operands = ops) q := by
  obtain ⟨n, hn, hops⟩ := h
  obtain ⟨l, hl, hk, -⟩ := hpair.site hs
  obtain ⟨n', hn', -⟩ := hst.graph.node hn
  obtain rfl := Option.mem_unique hl hn
  exact ⟨n', hn', (hst.operands hq hn (by simp [hk]) hn').trans hops⟩

/-- A return site that leads nowhere still does so later, unless the call names its callee. -/
theorem IsPair.vacant (h : s.IsPair m q call) (hs : s.Valid prog) (hst : s.Grows prog old t) (hq : old q)
    (hdirect : ¬prog.Direct call) (hvacant : s.graph.successors q = []) : t.graph.successors q = [] := by
  rw [hst.held hq, hvacant]
  · exact (h.site hs).imp fun n hn ↦ .inr (.inr ⟨hn.1, call, hn.2.2, hdirect⟩)
  · simp [hvacant]

theorem Pending.serves (h : s.Pending prog m q call) (hs : s.Valid prog) (hst : s.Serves prog t) :
    t.Pending prog m q call where
  pair := h.pair.mono hst.graph
  fresh := by
    rw [hst.held h.pair.2.lt_size h.pair.held, h.fresh]
    simp [h.fresh]
  vacant hdirect := h.pair.vacant hs hst.toGrows (h.pair.site hs).lt_size hdirect (h.vacant hdirect)
  empty := hst.toGrows.site hs h.pair (h.pair.site hs).lt_size h.empty
  unawaited {f r'} hr' := by
    have hq := (h.pair.site hs).lt_size
    cases hr : s.records.get? f with
    | none =>
      -- Whatever waits for a new function is newer than its exit.
      intro hmem
      have hfresh := (hst.fresh hr' hr).2
      have hlt := ((hst.valid.record hr').awaiting q hmem).1
      exact absurd (hfresh.trans_lt hlt) (Nat.lt_asymm hq)
    | some r =>
      exact (hst.persists hr hr' (hs.record hr).exit.lt_size).not_mem_awaiting hq (h.unawaited hr)
  later {f r'} hr' hc := by
    cases hr : s.records.get? f with
    | none =>
      rw [(hst.finished hr hr').complete] at hc
      contradiction
    | some r =>
      have hpers := hst.persists hr hr' (hs.record hr).exit.lt_size
      rw [hpers.exit]
      exact h.later hr (hpers.complete ▸ hc)

theorem Entered.serves (h : s.Entered prog m q call f r) (hs : s.Valid prog) (hst : s.Serves prog t) :
    ∃ r', t.Entered prog m q call f r' ∧ r'.complete = r.complete ∧ (r.complete = true → r'.returns = r.returns) := by
  have hq := (h.pair.site hs).lt_size
  obtain ⟨r', hr', -⟩ := hst.record h.record
  have hpers := hst.persists h.record hr' (hs.record h.record).exit.lt_size
  refine ⟨r', ⟨h.pair.mono hst.graph, hr', ?_, ?_, fun hdirect ↦ ?_, hst.toGrows.site hs h.pair hq h.empty, ?_, ?_⟩,
    hpers.complete, hpers.returns⟩
  · rw [hst.held h.pair.2.lt_size h.pair.held, h.entry, hpers.entry]
    rw [h.entry]
    intro y hy
    rw [List.mem_singleton.1 hy]
    exact .inl ((hs.record h.record).entry.imp fun n hn ↦ .inl hn)
  · rw [hpers.exit]
    have hsite : s.At (fun _ n ↦ n.kind = .callReturn) q := (h.pair.site hs).imp fun _ hn ↦ hn.1
    exact hst.firm (.inr ⟨f, r, h.record, rfl⟩) (.inl (hsite.imp fun _ hn ↦ .inr (.inl hn)))
      (hsite.accepts (by simp)) h.exit
  · exact h.pair.vacant hs hst.toGrows hq hdirect (h.vacant hdirect)
  · exact hpers.not_mem_awaiting hq h.unawaited
  · rw [hpers.complete, hpers.exit]
    exact h.later

/-- Calls are apart from each other and from the exits of functions. -/
theorem IsPair.alone (h : s.IsPair m q call) (hs : s.Valid prog) :
    (∀ m' q' call', s.IsPair m' q' call' → ¬(m' = m ∨ m' = q) → ¬(q' = m ∨ q' = q)) ∧
      ∀ a, s.IsExit a → ¬(a = m ∨ a = q) := by
  obtain ⟨n, hn, hk, -⟩ := h.2
  obtain ⟨l, hl, hk', hp', -⟩ := h.site hs
  refine ⟨fun m' q' call' h' hne ↦ ?_, fun a ha ↦ ?_⟩
  · obtain ⟨l', hl', hk'', hp'', -⟩ := h'.site hs
    rintro (rfl | rfl)
    · rw [Option.mem_unique hl' hn, hk] at hk''
      contradiction
    · rw [Option.mem_unique hl' hl, hp', Option.some.injEq] at hp''
      exact hne (.inl hp''.symm)
  · rintro (rfl | rfl)
    · exact hs.not_isExit ⟨n, hn, by simp [hk]⟩ ha
    · exact hs.not_isExit ⟨l, hl, by simp [hk']⟩ ha

theorem IsPair.ne_other (h : s.IsPair m q call) (hs : s.Valid prog) {a : NodeId}
    (ha : s.At (fun _ n ↦ n.kind = .ret ∨ n.kind = .indirectCall) a) : ¬(a = m ∨ a = q) := by
  obtain ⟨n, hn, hk, -⟩ := h.2
  obtain ⟨l, hl, hk', -⟩ := h.site hs
  obtain ⟨l', hl', hother⟩ := ha
  rintro (rfl | rfl)
  · rw [Option.mem_unique hl' hn, hk] at hother
    simp at hother
  · rw [Option.mem_unique hl' hl, hk'] at hother
    simp at hother

/-- The stages of a call follow each other. -/
theorem EvolvesApart.next (h : s.EvolvesApart prog (fun a ↦ a = m ∨ a = q) mine t)
    (h' : t.EvolvesApart prog (fun a ↦ a = m ∨ a = q) mine u) (hpair : t.IsPair m q call) :
    s.EvolvesApart prog (fun a ↦ a = m ∨ a = q) mine u :=
  h.trans h' (hpair.alone h.valid).1 (hpair.alone h.valid).2 fun _ ha ↦ hpair.ne_other h.valid ha

/-- A change that names nothing, opens no function and makes no other calls. -/
theorem EvolvesApart.of_grows (hgrows : s.Grows prog (fun a ↦ a < s.graph.size ∧ ¬apart a) t) (ht : t.Valid prog)
    (hnodes : t.nodes = s.nodes) (hrecords : ∀ f, s.records.get? f = none → t.records.get? f = none)
    (hpairs : ∀ m q call, s.graph.size ≤ m → ¬apart m → ¬t.IsPair m q call)
    (hcalls : ∀ c r call, s.graph.size ≤ c → ¬t.IsIndirect c r call) : s.EvolvesApart prog apart mine t :=
  { hgrows with
    valid := ht
    lowers := fun _ {v _} _ hnone hsome ↦ absurd (hnodes ▸ hnone) hsome
    joined := fun {m q call} hm hapart hpair ↦ absurd hpair (hpairs m q call hm hapart)
    passing := fun _ {m q call} hm hapart hpair ↦ absurd hpair (hpairs m q call hm hapart)
    unlinked := fun {c r call} hc hcall ↦ absurd hcall (hcalls c r call hc)
    finished := fun {f r} hnone hsome ↦ by
      rw [hrecords f hnone] at hsome
      contradiction }

/-! ### Opening a call -/

theorem Adds.openCall (hs : s.Valid prog) : s.Adds prog { s with graph := s.graph.openCall call } := by
  have hgrows : s.Grows prog (fun _ ↦ True) { s with graph := s.graph.openCall call } := .append (by simp)
  have hedges : s.graph.SameEdges (s.graph.openCall call) := .append (by simp)
  refine .of_graph hgrows.toKeeps (hs.twoWay.of_sameEdges hedges)
    (fun hy hxy ↦ .inl (hgrows.toKeeps.returning hs.twoWay hedges hy hxy)) fun {a n} ha hn ↦ ?_
  rcases Graph.nodes_append_cases hn with hn | ⟨i, rfl, hi⟩
  · exact .of_size_le ha hn
  · rcases i with _ | _ | i
    · obtain rfl := Option.some.inj hi
      exact ⟨by simp, by simp, by simp⟩
    · obtain rfl := Option.some.inj hi
      exact ⟨by simp, by simp, fun _ _ ↦ ⟨call, _, rfl, rfl, _, Graph.nodes_append_size, rfl, rfl, rfl⟩⟩
    · simp at hi

theorem Valid.pending_openCall (hs : s.Valid prog) :
    ({ s with graph := s.graph.openCall call } : Lowering).Pending prog (s.graph.size + 1) s.graph.size call := by
  have hcall : (s.graph.openCall call).nodes[s.graph.size + 1]? =
      some { kind := .call, paired := some s.graph.size, value := some call } := Graph.nodes_append_add
  have hsite : (s.graph.openCall call).nodes[s.graph.size]? =
      some { kind := .callReturn, paired := some (s.graph.size + 1), value := some call } := Graph.nodes_append_size
  refine ⟨⟨?_, _, hcall, rfl, rfl, rfl⟩, ?_, fun _ ↦ Graph.successors_of_node hsite, ⟨_, hsite, rfl⟩,
    fun {f r} hr hmem ↦ ?_, fun hr _ ↦ (hs.record hr).exit.lt_size⟩
  · exact Nat.ne_of_lt (Nat.lt_succ_self _)
  · rw [Graph.successors_of_node hcall]
  · obtain ⟨-, m, hsite, -⟩ := (hs.record hr).awaiting _ hmem
    exact absurd hsite.lt_size (Nat.lt_irrefl _)

theorem EvolvesApart.openCall (hs : s.Valid prog) :
    s.EvolvesApart prog (fun a ↦ a = s.graph.size + 1 ∨ a = s.graph.size) mine
      { s with graph := s.graph.openCall call } := by
  refine .of_grows (.append (by simp)) (hs.adds (.openCall hs)) rfl (fun _ h ↦ h)
    (fun m q call' hm hapart hpair ↦ ?_) fun c r call' hc hcall ↦ ?_
  · have hlt : m < (s.graph.openCall call).size := hpair.2.lt_size
    rw [Graph.openCall, Graph.size_append] at hlt
    rcases Nat.eq_or_lt_of_le hm with heq | hgt
    · exact hapart (.inr heq.symm)
    · exact hapart (.inl (Nat.le_antisymm (Nat.lt_succ_iff.1 hlt) hgt))
  · obtain ⟨n, hn, hk, -⟩ := hcall
    rcases Graph.nodes_append_cases hn with hn | ⟨i, rfl, hi⟩
    · exact absurd (Graph.lt_size_of_node hn) (Nat.not_lt.2 hc)
    · rcases i with _ | _ | i
      · obtain rfl := Option.some.inj hi
        contradiction
      · obtain rfl := Option.some.inj hi
        contradiction
      · simp at hi

/-! ### Leading to the callee and back -/

section

variable (hs : s.Valid prog)

include hs

theorem EvolvesApart.joinCall (h : s.Pending prog m q call) (hr : s.records.get? f = some r) :
    s.EvolvesApart prog (fun a ↦ a = m ∨ a = q) mine
      { s with graph := (s.graph.addSuccessor m r.entry).addSuccessor r.exit q } := by
  have hvalid := hs.record hr
  have hm := h.pair.2.lt_size
  have hexit := hvalid.exit.lt_size
  have hsite : s.Accepts q := ((h.pair.site hs).imp fun _ hn ↦ hn.1).accepts (by simp)
  have hto : s.Grows prog (fun a ↦ a < s.graph.size ∧ ¬(a = m ∨ a = q))
      { s with graph := s.graph.addSuccessor m r.entry } :=
    .addSuccessor hm (hvalid.entry.accepts (by simp)) fun _ hold ↦ hold.2 (.inl rfl)
  have hback : ({ s with graph := s.graph.addSuccessor m r.entry } : Lowering).Grows prog
      (fun a ↦ a < s.graph.size ∧ ¬(a = m ∨ a = q))
      { s with graph := (s.graph.addSuccessor m r.entry).addSuccessor r.exit q } := by
    apply Grows.addSuccessor (hexit.trans_le hto.size_le) (hto.accepts hsite)
    -- The exit of a function is no call.
    rintro ⟨n, hn, hheld⟩
    obtain ⟨l, hl, hk⟩ := hvalid.exit.mono_kind hto.graph
    rw [Option.mem_unique hn hl] at hheld
    rcases hheld with hk' | ⟨hk', -⟩ | ⟨hk', -⟩
    all_goals
      rw [hk] at hk'
      contradiction
  have htwo : ((s.graph.addSuccessor m r.entry).addSuccessor r.exit q).TwoWay := by
    apply (hs.twoWay.addSuccessor hm hvalid.entry.lt_size).addSuccessor
    · exact hexit.trans_le hto.size_le
    · exact (h.pair.site hs).lt_size.trans_le hto.size_le
  have hsize : ((s.graph.addSuccessor m r.entry).addSuccessor r.exit q).size = s.graph.size := by
    rw [Graph.size_addSuccessor, Graph.size_addSuccessor]
  have hgrows := hto.trans hback
  refine .of_grows hgrows (hs.adds (.of_size_eq hgrows.toKeeps htwo hsize fun {x y} hy hxy ↦ ?_)) rfl (fun _ h ↦ h)
    (fun _ _ _ hm' _ hpair ↦ ?_) fun _ _ _ hc hcall ↦ ?_
  · exact hgrows.arrivals ⟨hy.lt_size, h.pair.ne_other hs (hy.imp fun _ hn ↦ .inl hn.1)⟩ hy hxy
  · exact absurd hpair.2.lt_size (Nat.not_lt.2 (hsize ▸ hm'))
  · exact absurd hcall.lt_size (Nat.not_lt.2 (hsize ▸ hc))

theorem Pending.entered (h : s.Pending prog m q call) (hr : s.records.get? f = some r) :
    ({ s with graph := (s.graph.addSuccessor m r.entry).addSuccessor r.exit q } : Lowering).Entered prog m q
    call f r := by
  have hrewired : s.graph.Rewired ((s.graph.addSuccessor m r.entry).addSuccessor r.exit q) :=
    .trans .addSuccessor .addSuccessor
  have hne : m ≠ r.exit := fun heq ↦ (h.pair.alone hs).2 _ ⟨f, r, hr, rfl⟩ (.inl heq.symm)
  have hexit : q ≠ r.exit := fun heq ↦ (h.pair.alone hs).2 _ ⟨f, r, hr, rfl⟩ (.inr heq.symm)
  refine ⟨h.pair.mono hrewired.persists, hr, ?_, ?_, fun hdirect ↦ ?_, ?_, h.unawaited hr, h.later hr⟩
  · rw [Graph.successors_addSuccessor_of_ne hne, Graph.successors_addSuccessor_self h.pair.2.lt_size, h.fresh]
    · rfl
    · simp [h.fresh]
  · have hlt : r.exit < (s.graph.addSuccessor m r.entry).size := by
      rw [Graph.size_addSuccessor]
      exact (hs.record hr).exit.lt_size
    exact (Graph.mem_successors_addSuccessor hlt).2 (.inr ⟨rfl, rfl⟩)
  · rw [Graph.successors_addSuccessor_of_ne hexit, Graph.successors_addSuccessor_of_ne h.pair.1, h.vacant hdirect]
  · obtain ⟨n, hn, hops⟩ := h.empty
    obtain ⟨l, hl, hcore⟩ := hrewired.node hn
    exact ⟨l, hl, (congrArg (·.operands) hcore).trans hops⟩

/-! ### Returning -/

theorem Entered.joins (h : s.Entered prog m q call f r) (hcalls : prog.Calls call f)
    (hdef : ∃ fn, prog.functions[f]? = some fn ∧ fn.isDeclaration = false)
    (hbound : prog.Scoped → s.Bound prog call f) (hcomplete : r.complete = true) :
    s.EvolvesApart prog (fun a ↦ a = m ∨ a = q) mine { s with graph := s.graph.addOperands q r.returns } ∧
      ({ s with graph := s.graph.addOperands q r.returns } : Lowering).Joins prog m q call f r := by
  have hgrows : s.Grows prog (fun a ↦ a < s.graph.size ∧ ¬(a = m ∨ a = q))
      { s with graph := s.graph.addOperands q r.returns } := by
    apply Grows.sameEdges .addOperands .addOperands
    intro a n n' hold hn _ hn'
    obtain ⟨l, hl, hops⟩ := Graph.nodes_addOperands hn'
    rw [hops, if_neg fun heq ↦ hold.2 (.inr heq), List.append_nil, Option.mem_unique hl hn]
  have hsize : (s.graph.addOperands q r.returns).size = s.graph.size := Graph.size_addOperands
  have hedges : s.graph.SameEdges (s.graph.addOperands q r.returns) := .addOperands
  have ht : ({ s with graph := s.graph.addOperands q r.returns } : Lowering).Valid prog :=
    hs.adds (.of_size_eq hgrows.toKeeps (hs.twoWay.of_sameEdges hedges) hsize fun {x _} _ hxy ↦
    hedges.successors x ▸ hxy)
  refine ⟨.of_grows hgrows ht rfl (fun _ h ↦ h) (fun _ _ _ hm _ hpair ↦ ?_) fun _ _ _ hc hcall ↦ ?_, ?_⟩
  · exact absurd hpair.2.lt_size (Nat.not_lt.2 (hsize ▸ hm))
  · exact absurd hcall.lt_size (Nat.not_lt.2 (hsize ▸ hc))
  · refine ⟨h.record, hcalls, hdef, ?_, ?_, fun _ ↦ ?_, by simp [hcomplete], fun hscoped ↦ ?_⟩
    · rw [hedges.successors, h.entry]
    · rw [hedges.successors]
      exact h.exit
    · obtain ⟨n, hn, hops⟩ := h.empty
      obtain ⟨n', hn', -⟩ := hgrows.graph.node hn
      obtain ⟨l, hl, hops'⟩ := Graph.nodes_addOperands hn'
      refine ⟨n', hn', ?_⟩
      change n'.operands = r.returns
      rw [hops', if_pos rfl, Option.mem_unique hl hn, hops, List.nil_append]
    · exact (hbound hscoped).mono hgrows.toKeeps hscoped hs (by simp [h.record]) ht

theorem Entered.awaits (h : s.Entered prog m q call f r) (hcalls : prog.Calls call f)
    (hdef : ∃ fn, prog.functions[f]? = some fn ∧ fn.isDeclaration = false)
    (hbound : prog.Scoped → s.Bound prog call f) (hcomplete : r.complete = false) :
    s.EvolvesApart prog (fun a ↦ a = m ∨ a = q) mine
        { s with records := s.records.insert f { r with awaiting := r.awaiting ++ [q] } } ∧
      ({ s with records := s.records.insert f { r with awaiting := r.awaiting ++ [q] } } : Lowering).Joins prog m q
        call f { r with awaiting := r.awaiting ++ [q] } := by
  have hvalid := hs.record h.record
  have hpers : r.Persists (fun a ↦ a < s.graph.size ∧ ¬(a = m ∨ a = q)) { r with awaiting := r.awaiting ++ [q] } := by
    refine { FunctionRecord.Keeps.refl r with complete := rfl, returns := fun _ ↦ rfl, awaiting := ⟨[q], rfl, ?_⟩ }
    intro x hx hold
    exact hold.2 (.inr (List.mem_singleton.1 hx))
  have hgrows : s.Grows prog (fun a ↦ a < s.graph.size ∧ ¬(a = m ∨ a = q))
      { s with records := s.records.insert f { r with awaiting := r.awaiting ++ [q] } } := .alter h.record hpers
  have hvalid' : s.RecordValid prog f { r with awaiting := r.awaiting ++ [q] } :=
    { hvalid with
      awaiting := fun x hx ↦ by
        rcases List.mem_append.1 hx with hx | hx
        · exact hvalid.awaiting x hx
        · rw [List.mem_singleton.1 hx]
          refine ⟨h.later hcomplete, m, (h.pair.site hs).imp fun n hn ↦ ⟨hn.1, hn.2.1⟩, h.pair.held, ?_⟩
          simp [h.entry]
      nodup := by
        refine List.nodup_append.2 ⟨hvalid.nodup, List.nodup_singleton q, fun x hx y hy ↦ ?_⟩
        rintro rfl
        exact h.unawaited (List.mem_singleton.1 hy ▸ hx) }
  have ht : ({ s with records := s.records.insert f { r with awaiting := r.awaiting ++ [q] } } : Lowering).Valid prog :=
    hs.adds (.alter hs hgrows.toKeeps h.record hvalid')
  refine ⟨.of_grows hgrows ht rfl (fun g hg ↦ ?_) (fun _ _ _ hm _ hpair ↦ ?_) fun _ _ _ hc hcall ↦ ?_, ?_⟩
  · rw [OrderedMap.get?_insert_of_ne, hg]
    rintro rfl
    rw [h.record] at hg
    contradiction
  · exact absurd hpair.2.lt_size (Nat.not_lt.2 hm)
  · exact absurd hcall.lt_size (Nat.not_lt.2 hc)
  · refine ⟨OrderedMap.get?_insert_self, hcalls, hdef, h.entry, h.exit, by
      simp [hcomplete], fun _ ↦ ?_, fun hscoped ↦ ?_⟩
    · exact ⟨by simp, h.empty⟩
    · exact (hbound hscoped).mono hgrows.toKeeps hscoped hs (by simp [h.record]) ht

end

/-! ## Calls -/

/-- The formal has the argument for an operand. -/
def Feeds (prog : Program) (s : Lowering) (x : ValueId × ValueId) : Prop :=
  prog.isPointer x.1 = .ok true → ∀ phi, s.nodes.get? x.1 = some phi → s.Gets prog x.2 phi

theorem Feeds.mono {x : ValueId × ValueId} {fn : Function} (h : s.Feeds prog x) (hst : s.Keeps prog t)
    (hscoped : prog.Scoped) (hs : s.Valid prog) (hf : s.records.get? f ≠ none) (hfn : prog.functions[f]? = some fn)
    (hx : x.1 ∈ fn.params) (ht : t.Valid prog) : t.Feeds prog x := by
  intro hpointer phi hphi
  -- Pointer formals have their nodes from the start.
  obtain ⟨r, hr⟩ := Option.ne_none_iff_exists'.1 hf
  obtain ⟨phi', hphi'⟩ := Option.ne_none_iff_exists'.1 ((hs.record hr).formal hfn hx hpointer)
  obtain rfl := Option.mem_unique hphi (hst.named_lasting (.inl hscoped) hphi')
  exact (h hpointer phi hphi').mono hst hscoped ht

/-- Formals and the phi for what is passed beyond them are all that receives. -/
theorem Bound.of_feeds {inst : Instruction} {fn : Function} (hcall : prog.kindAt call = some (.instruction inst))
    (hfn : prog.functions[f]? = some fn) (hformals : ∀ x ∈ fn.params.zip inst.arguments, s.Feeds prog x)
    (hrest : ∀ r phi, s.records.get? f = some r → r.variadic = some phi →
      ∀ v ∈ inst.arguments.drop fn.params.length, prog.isPointer v = .ok true → s.Gets prog v phi) :
    s.Bound prog call f := by
  intro v phi hphi
  cases hphi with
  | formal hinst hfn' _ hparam harg hpointer hphi =>
    obtain rfl := Program.instruction_unique hcall hinst
    obtain rfl := Option.mem_unique hfn hfn'
    refine hformals (_, v) (List.mem_of_getElem? (List.getElem?_zip_eq_some.2 ⟨hparam, harg⟩)) hpointer phi hphi
  | rest hinst hfn' _ _ hj harg hpointer hr hphi =>
    obtain rfl := Program.instruction_unique hcall hinst
    obtain rfl := Option.mem_unique hfn hfn'
    refine hrest _ phi hr hphi v ?_ hpointer
    obtain ⟨i, rfl⟩ := Nat.exists_eq_add_of_le hj
    rw [← List.getElem?_drop] at harg
    exact List.mem_of_getElem? harg

/-- A call of a function is made and joined.  Where its return site leads to is not yet said, unless the
call names its callee. -/
structure Makes (prog : Program) (s : Lowering) (call : ValueId) (f : FuncId) (span : Span) (t : Lowering) : Prop
    extends s.EvolvesApart prog (fun a ↦ a = span.first ∨ a = span.last) (fun _ ↦ False) t where
  new : s.graph.size ≤ span.first ∧ s.graph.size ≤ span.last
  pair : t.IsPair span.first span.last call
  joins : ∃ r, t.Joins prog span.first span.last call f r
  vacant : ¬prog.Direct call → t.graph.successors span.last = []

namespace Makes

variable {span : Span}

/-- The call that is made is the only one among its nodes. -/
theorem eq_call (h : s.Makes prog call f span t) {call' : ValueId} (hpair : t.IsPair m q call')
    (hm : m = span.first ∨ m = span.last) : call' = call := by
  obtain ⟨n, hn, hk, -, hv⟩ := hpair.2
  rcases hm with rfl | rfl
  · obtain ⟨l, hl, -, -, hv'⟩ := h.pair.2
    rw [Option.mem_unique hn hl, hv', Option.some.injEq] at hv
    exact hv.symm
  · obtain ⟨l, hl, hk', -⟩ := h.pair.site h.valid
    rw [Option.mem_unique hn hl, hk'] at hk
    contradiction

theorem joined_self (h : s.Makes prog call f span t) {call' : ValueId} (hpair : t.IsPair m q call')
    (hm : m = span.first ∨ m = span.last) : t.Joined prog m q call' := by
  obtain rfl := h.eq_call hpair hm
  obtain ⟨r, hjoins⟩ := h.joins
  obtain ⟨n, hn, hk, hp, -⟩ := hpair.2
  rcases hm with rfl | rfl
  · obtain ⟨l, hl, -, hp', -⟩ := h.pair.2
    rw [Option.mem_unique hn hl, hp', Option.some.injEq] at hp
    exact ⟨f, r, hp ▸ hjoins⟩
  · obtain ⟨l, hl, hk', -⟩ := h.pair.site h.valid
    rw [Option.mem_unique hn hl, hk'] at hk
    contradiction

/-- The state evolves, and lowers nothing but the call. -/
theorem evolves (h : s.Makes prog call f span t) : s.Evolves prog (· = call) t := by
  have hapart : s.EvolvesApart prog (fun a ↦ a = span.first ∨ a = span.last) (· = call) t :=
    { h.toEvolvesApart with
      lowers := fun hscoped {_ _} hv hnone hsome ↦ (h.lowers hscoped hv hnone hsome).imp_left False.elim
      passing := fun hscoped {_ _ _} hm hapart hpair ↦ (h.passing hscoped hm hapart hpair).imp_left False.elim }
  refine hapart.evolves (fun a ha ↦ ?_) fun m q call' hm hpair ↦ ⟨h.joined_self hpair hm, h.eq_call hpair hm⟩
  rcases ha with rfl | rfl
  · exact h.new.1
  · exact h.new.2

theorem step (h : s.Makes prog call f span t) (hstep : t.Step prog u) : s.Makes prog call f span u := by
  have hu : t.Evolves prog (fun _ ↦ False) u := hstep.evolves h.valid
  obtain ⟨r, hjoins⟩ := h.joins
  have hsite := (h.pair.site h.valid).lt_size
  refine ⟨h.toEvolvesApart.next (hu.leaving _) h.pair, h.new, h.pair.mono hu.graph, ?_, fun hdirect ↦ ?_⟩
  · exact hjoins.grows h.pair h.valid hu.toGrows hu.valid h.pair.2.lt_size hsite
      (h.valid.record hjoins.record).exit.lt_size
  · exact h.pair.vacant h.valid hu.toGrows hsite hdirect (h.vacant hdirect)

end Makes

/-- The node of a formal is a phi. -/
theorem Valid.formal_isPhi {fn : Function} {param : ValueId} {phi : NodeId} (hs : s.Valid prog) (hprog : prog.Coherent)
    (hfn : prog.functions[f]? = some fn) (hparam : param ∈ fn.params) (hphi : s.nodes.get? param = some phi) :
    s.At (fun _ n ↦ n.kind = .phi) phi := by
  obtain ⟨j, hj⟩ := List.mem_iff_getElem?.1 hparam
  obtain ⟨k, hk, hfits⟩ := hs.named hphi
  rwa [Option.mem_unique hk (hprog.param (by rw [hfn]; rfl) hj)] at hfits

end Lowering

namespace Lower

open Stateful

variable {prog : Program} {ask : Provider} {s t : Lowering} {call v : ValueId} {inst : Instruction} {f : FuncId}
  {fn : Function} {phi : NodeId}

/-- A value is asked for and made an operand of a phi. -/
theorem passOperand_ensures (hask : ask.Sound prog) (hs : s.Valid prog) (hv : prog.Scoped → s.Housed prog v)
    (hphi : s.At (fun _ n ↦ n.kind = .phi) phi) :
    Ensures (ask.operand v >>= fun op ↦ onGraph (·.addOperand phi op)) s fun _ t ↦
      s.Serves prog t ∧ (prog.Scoped → t.Gets prog v phi) := by
  refine .seq fun op t hop _ u hu ↦ ?_
  obtain rfl := onGraph_eq_ok_iff.1 hu
  have hsupplies := hask.operand hs hv hop
  have hphi' := hphi.mono_kind hsupplies.graph
  have hstep : t.Step prog { t with graph := t.graph.addOperand phi op } :=
    .operand op hphi'
  have hserves := hsupplies.toEvolves.step hstep
  refine ⟨hserves, fun hscoped ↦ ?_⟩
  obtain ⟨n, hn, -⟩ := hphi'
  obtain ⟨n', hn', -⟩ := (hstep.grows hsupplies.valid).graph.node hn
  obtain ⟨_, -, -, hops⟩ := Graph.nodes_addOperand hn'
  refine ⟨n', hn', op, by simp [hops], ?_⟩
  exact (hsupplies.resolves (.inl hscoped)).mono (hstep.grows hsupplies.valid).graph (fun _ h ↦ h) hserves.valid

section

variable (hprog : prog.Coherent) (hask : ask.Sound prog) (hs : s.Valid prog)
  (hcall : prog.kindAt call = some (.instruction inst)) (hhome : prog.Scoped → s.records.get? inst.function ≠ none)

include hask hcall hhome

/-- Arguments are asked for in the state that the ones before leave. -/
theorem passArgument_ensures (hst : s.Serves prog t) (hv : v ∈ inst.arguments)
    (hphi : t.At (fun _ n ↦ n.kind = .phi) phi) :
    Ensures (ask.operand v >>= fun op ↦ onGraph (·.addOperand phi op)) t fun _ u ↦
      s.Serves prog u ∧ t.Keeps prog u ∧ (prog.Scoped → u.Gets prog v phi) := by
  refine (passOperand_ensures hask hst.valid (fun hscoped ↦ ?_) hphi).mono fun _ u ⟨hserves, hgets⟩ ↦
    ⟨hst.trans hserves, hserves.toKeeps, hgets⟩
  exact (Program.Within.operand hcall (inst.mem_operands_of_argument hv)).housed hscoped
    (hst.recorded (hhome hscoped))

include hs

theorem bindVariadic_ensures {arguments : List ValueId} (hargs : ∀ v ∈ arguments, v ∈ inst.arguments)
    (hphi : s.At (fun _ n ↦ n.kind = .phi) phi) :
    Ensures (bindVariadic prog ask phi arguments) s fun _ t ↦ s.Serves prog t ∧
      ∀ v ∈ arguments, prog.Scoped → prog.isPointer v = .ok true → t.Gets prog v phi := by
  refine .forM_marks (fun v hv t ht ↦ ?_) (.refl hs)
  refine .bind_lift fun pointer hpointer ↦ ?_
  cases pointer with
  | false =>
    refine .pure ⟨ht, fun _ htrue ↦ ?_, fun _ _ h ↦ h⟩
    rw [hpointer] at htrue
    simp at htrue
  | true =>
    refine (passArgument_ensures hask hcall hhome ht (hargs v hv) (hphi.mono_kind ht.graph)).mono
      fun _ u ⟨hu, hkeeps, hgets⟩ ↦ ⟨hu, fun hscoped _ ↦ hgets hscoped, fun w _ hw hscoped htrue ↦ ?_⟩
    exact (hw hscoped htrue).mono hkeeps hscoped hu.valid

include hprog

theorem bindArguments_ensures (hfn : prog.functions[f]? = some fn) (hf : s.records.get? f ≠ none) :
    Ensures (bindArguments prog ask fn.params inst.arguments) s fun _ t ↦ s.Serves prog t ∧
      ∀ x ∈ fn.params.zip inst.arguments, prog.Scoped → t.Feeds prog x := by
  refine .forM_marks (fun x hx t ht ↦ ?_) (.refl hs)
  have hmem := List.of_mem_zip hx
  refine .bind_lift fun pointer hpointer ↦ ?_
  cases pointer with
  | false =>
    refine .pure ⟨ht, fun _ htrue ↦ ?_, fun _ _ h ↦ h⟩
    rw [hpointer] at htrue
    simp at htrue
  | true =>
    refine .seq fun phi? _ h ↦ ?_
    obtain ⟨hphi, rfl⟩ := nodeOf?_eq_ok_iff.1 h
    cases phi? with
    | none =>
      obtain ⟨r, hr⟩ := Option.ne_none_iff_exists'.1 (ht.recorded hf)
      exact absurd hphi ((ht.valid.record hr).formal hfn hmem.1 hpointer)
    | some phi =>
      have hnode := ht.valid.formal_isPhi hprog hfn hmem.1 hphi
      refine (passArgument_ensures hask hcall hhome ht hmem.2 hnode).mono fun _ u ⟨hu, hkeeps, hgets⟩ ↦
        ⟨hu, fun hscoped _ phi' hphi' ↦ ?_, fun y hy hfeeds hscoped ↦ ?_⟩
      · obtain rfl := Option.mem_unique hphi' (hkeeps.named_lasting (.inl hscoped) hphi)
        exact hgets hscoped
      · exact (hfeeds hscoped).mono hkeeps hscoped ht.valid (ht.recorded hf) hfn (List.of_mem_zip hy).1 hu.valid

end

/-- The return site gets the returns of the callee, or waits for them. -/
theorem finishCall_ensures {u : Lowering} {m q : NodeId} {r : FunctionRecord} {text : Unit → Query String}
    (hnew : s.graph.size ≤ m ∧ s.graph.size ≤ q)
    (hst : s.EvolvesApart prog (fun a ↦ a = m ∨ a = q) (fun _ ↦ False) t) (h : t.Entered prog m q call f r)
    (hserves : t.Serves prog u) (hbound : prog.Scoped → u.Bound prog call f) (hcalls : prog.Calls call f)
    (hdef : ∃ fn, prog.functions[f]? = some fn ∧ fn.isDeclaration = false) :
    Ensures (if r.complete = true then do
        onGraph (·.addOperands q r.returns)
        note .trace text
        pure ⟨m, q⟩
      else do
        updateRecord prog f call fun r ↦ { r with awaiting := r.awaiting ++ [q] }
        note .trace text
        pure ⟨m, q⟩) u fun span w ↦ s.Makes prog call f span w := by
  have hsu := hst.next (hserves.leaving _) h.pair
  obtain ⟨r', hentered, hcomplete, hreturns⟩ := h.serves hst.valid hserves
  have hnote {w : Lowering} (hw : u.EvolvesApart prog (fun a ↦ a = m ∨ a = q) (fun _ ↦ False) w)
      (hjoins : ∃ r, w.Joins prog m q call f r) (hvacant : ¬prog.Direct call → w.graph.successors q = []) :
      Ensures (note .trace text >>= fun _ ↦ pure (⟨m, q⟩ : Span)) w fun span x ↦ s.Makes prog call f span x := by
    refine .seq fun _ x hx ↦ .pure ?_
    have hmakes : s.Makes prog call f ⟨m, q⟩ w :=
      ⟨hsu.next hw hentered.pair, hnew, hentered.pair.mono hw.graph, hjoins, hvacant⟩
    exact hmakes.step (note_eq_ok hx).step
  split
  · rename_i hc
    refine .seq fun _ w hw ↦ ?_
    obtain rfl := onGraph_eq_ok_iff.1 hw
    rw [← hreturns hc]
    obtain ⟨hevolves, hjoins⟩ := hentered.joins hsu.valid hcalls hdef hbound (hcomplete.trans hc)
    refine hnote hevolves ⟨r', hjoins⟩ fun hdirect ↦ ?_
    have hedges : u.graph.SameEdges (u.graph.addOperands q r'.returns) := .addOperands
    exact (hedges.successors q).trans (hentered.vacant hdirect)
  · rename_i hc
    refine .seq fun _ w hw ↦ ?_
    obtain ⟨r₁, hr₁, rfl⟩ := updateRecord_eq_ok_iff.1 hw
    obtain rfl := Option.mem_unique hentered.record hr₁
    obtain ⟨hevolves, hjoins⟩ := hentered.awaits hsu.valid hcalls hdef hbound
      (hcomplete.trans (Bool.eq_false_iff.2 hc))
    exact hnote hevolves ⟨_, hjoins⟩ hentered.vacant

/-- The call and its return site are created. -/
theorem pending_of_create {s₁ s₂ s₃ s₄ : Lowering} {x y z : Unit} (hs : s.Valid prog)
    (h₁ : create (·.create { kind := .callReturn }) s = .ok q s₁)
    (h₂ : create (·.create { kind := .call }) s₁ = .ok m s₂)
    (h₃ : onGraph (·.pair m q) s₂ = .ok x s₃) (h₄ : setValue m call s₃ = .ok y s₄) (h₅ : setValue q call s₄ = .ok z t) :
    (s.graph.size ≤ m ∧ s.graph.size ≤ q) ∧ t.records = s.records ∧ t.Pending prog m q call ∧
      s.EvolvesApart prog (fun a ↦ a = m ∨ a = q) (fun _ ↦ False) t := by
  obtain ⟨hq, rfl⟩ := create_eq_ok_iff.1 h₁
  obtain ⟨hm, rfl⟩ := create_eq_ok_iff.1 h₂
  obtain rfl := onGraph_eq_ok_iff.1 h₃
  obtain rfl := setValue_eq_ok_iff.1 h₄
  replace hq : q = s.graph.size := hq.symm
  replace hm : m = s.graph.size + 1 := hm.symm.trans Graph.size_create
  have ht : { s with graph := s.graph.openCall call } = t := by
    rw [← Graph.openCall_eq hq hm]
    exact setValue_eq_ok_iff.1 h₅
  rw [← ht, hm, hq]
  exact ⟨⟨Nat.le_succ _, Nat.le_refl _⟩, rfl, hs.pending_openCall, .openCall hs⟩

theorem callFunction_ensures (hprog : prog.Coherent) (hask : ask.Sound prog) (hs : s.Valid prog)
    (hcall : prog.kindAt call = some (.instruction inst)) (hhome : prog.Scoped → s.records.get? inst.function ≠ none)
    (hcalls : prog.Calls call f) (hfn : prog.functions[f]? = some fn) (hdef : fn.isDeclaration = false) :
    Ensures (callFunction prog ask call f) s fun span t ↦ s.Makes prog call f span t := by
  refine (instruction_ensures hcall).bind fun inst' _ h ↦ h.1 ▸ h.2 ▸ ?_
  refine .seq fun q _ h₁ ↦ .seq fun m _ h₂ ↦ .seq fun _ _ h₃ ↦ .seq fun _ _ h₄ ↦ .seq fun _ s₁ h₅ ↦ ?_
  obtain ⟨hnew, hrecords, hpending, hopen⟩ := pending_of_create hs h₁ h₂ h₃ h₄ h₅
  have hhome₁ (hscoped : prog.Scoped) : s₁.records.get? inst.function ≠ none := hrecords ▸ hhome hscoped
  -- The callee is lowered, unless it is already or is being lowered.
  refine .seq fun entry s₂ hentry ↦ ?_
  obtain ⟨hserves, r, hr, rfl⟩ := hask.entry hopen.valid (fun hscoped ↦ hopen.valid.started (hhome₁ hscoped)) hentry
  have hpending₂ := hpending.serves hopen.valid hserves
  have hs₂ := hopen.next (hserves.leaving _) hpending.pair
  refine .seq fun r' _ h ↦ .seq fun _ _ h₆ ↦ .seq fun _ s₃ h₇ ↦ .bind_lift fun fn' hfn' ↦ ?_
  obtain ⟨hr', rfl⟩ := record_eq_ok_iff.1 h
  obtain rfl := Option.mem_unique hr hr'
  obtain rfl := onGraph_eq_ok_iff.1 h₆
  obtain rfl := Option.mem_unique hfn (Query.lookup_eq_ok_iff.1 hfn')
  have hjoin : s₂.EvolvesApart prog (fun a ↦ a = m ∨ a = q) (fun _ ↦ False) s₃ ∧ s₃.Entered prog m q call f r := by
    rw [← onGraph_eq_ok_iff.1 h₇]
    exact ⟨.joinCall hserves.valid hpending₂ hr, hpending₂.entered hserves.valid hr⟩
  obtain ⟨hjoin, hentered⟩ := hjoin
  have hs₃ := hs₂.next hjoin hpending₂.pair
  have hhome₃ (hscoped : prog.Scoped) : s₃.records.get? inst.function ≠ none := hs₃.recorded (hhome hscoped)
  have hf : s₃.records.get? f ≠ none := by simp [hentered.record]
  refine (bindArguments_ensures hprog hask hs₃.valid hcall hhome₃ hfn hf).bind fun _ t h ↦ ?_
  obtain ⟨ht, hfeeds⟩ := h
  have hvariadic {u : Lowering} (hu : s₃.Serves prog u) {r' : FunctionRecord} (hr' : u.records.get? f = some r') :
      r'.variadic = r.variadic := by
    obtain ⟨r₁, hr₁, hkeeps⟩ := hu.record hentered.record
    rw [Option.mem_unique hr' hr₁, hkeeps.variadic]
  dsimp only
  split
  · rename_i phi hphi
    have hnode : t.At (fun _ n ↦ n.kind = .phi) phi :=
      ((hs₃.valid.record hentered.record).variadic hphi).mono_kind ht.graph
    refine (bindVariadic_ensures hask ht.valid hcall (fun hscoped ↦ ht.recorded (hhome₃ hscoped))
      (fun v hv ↦ List.mem_of_mem_drop hv) hnode).bind fun _ u h ↦ ?_
    obtain ⟨hu, hgets⟩ := h
    refine finishCall_ensures hnew hs₃ hentered (ht.trans hu) (fun hscoped ↦ ?_) hcalls ⟨fn, hfn, hdef⟩
    refine .of_feeds hcall hfn (fun x hx ↦ ?_) fun r' phi' hr' hphi' v hv hpointer ↦ ?_
    · exact (hfeeds x hx hscoped).mono hu.toKeeps hscoped ht.valid (ht.recorded hf) hfn (List.of_mem_zip hx).1 hu.valid
    · rw [hvariadic (ht.trans hu) hr', hphi, Option.some.injEq] at hphi'
      exact hphi' ▸ hgets v hv hscoped hpointer
  · rename_i hnone
    refine finishCall_ensures hnew hs₃ hentered ht (fun hscoped ↦ ?_) hcalls ⟨fn, hfn, hdef⟩
    refine .of_feeds hcall hfn (fun x hx ↦ hfeeds x hx hscoped) fun r' phi' hr' hphi' ↦ ?_
    rw [hvariadic ht hr', hnone] at hphi'
    contradiction

end Lower

end PointsTo
