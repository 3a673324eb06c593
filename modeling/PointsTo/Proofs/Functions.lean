import PointsTo.Lowering.Build
import PointsTo.Proofs.Bodies

/-!
# Lowering of functions

A function is opened, its body is lowered, and in the end its returns lead to its exit and become the
operands of the return sites that wait for them.  From outside this is one request: every call that
was made meanwhile is joined, every function that was opened is complete, and no old node is touched.
Since requests are all that lowering does, and a request is served by further requests of less depth,
every provider is sound.
-/

namespace PointsTo

open OrderedMap

namespace Graph

variable {g : Graph} {x : NodeId} {m : Node} {ops : List NodeId}

/-- The operands that several nodes get are their last. -/
theorem nodes_foldl_addOperands {sites : List NodeId} (hnodup : sites.Nodup)
    (hm : (sites.foldl (fun g site ↦ g.addOperands site ops) g).nodes[x]? = some m) :
    ∃ n, g.nodes[x]? = some n ∧ m.operands = n.operands ++ if x ∈ sites then ops else [] := by
  induction sites generalizing g with
  | nil => exact ⟨m, hm, by simp⟩
  | cons site sites ih =>
    obtain ⟨hsite, hnodup⟩ := List.nodup_cons.1 hnodup
    obtain ⟨l, hl, hml⟩ := ih hnodup hm
    obtain ⟨n, hn, hnl⟩ := nodes_addOperands hl
    refine ⟨n, hn, ?_⟩
    rw [hml, hnl, List.append_assoc]
    by_cases hx : x = site
    · subst hx
      simp [hsite]
    · simp [hx]

theorem SameEdges.foldl_addOperands {sites : List NodeId} :
    g.SameEdges (sites.foldl (fun g site ↦ g.addOperands site ops) g) :=
  List.foldlRecOn (motive := g.SameEdges) sites _ (.refl g) fun _ hgh _ _ ↦ hgh.trans .addOperands

theorem size_foldl_addOperands {sites : List NodeId} :
    (sites.foldl (fun g site ↦ g.addOperands site ops) g).size = g.size :=
  List.foldlRecOn (motive := fun h : Graph ↦ h.size = g.size) sites _ rfl fun _ hsize _ _ ↦ size_addOperands.trans hsize

end Graph

namespace Lowering

variable {prog : Program} {s t u : Lowering} {f : FuncId} {r : FunctionRecord} {mine : ValueId → Prop}

/-! ## Completion -/

/-- Returns lead to the exit. -/
theorem Evolves.lead (hs : s.Valid prog) {exit : NodeId} (hexit : s.Accepts exit) (ids : List NodeId)
    (hids : ∀ id ∈ ids, s.Ends prog id) :
    s.Serves prog { s with graph := ids.foldl (fun g id ↦ g.addSuccessor id exit) s.graph } ∧
      (∀ id ∈ ids, exit ∈ (ids.foldl (fun g id ↦ g.addSuccessor id exit) s.graph).successors id) ∧
      ∀ x y, y ∈ s.graph.successors x → y ∈ (ids.foldl (fun g id ↦ g.addSuccessor id exit) s.graph).successors x := by
  induction ids generalizing s with
  | nil => exact ⟨.refl hs, by simp, fun _ _ h ↦ h⟩
  | cons id ids ih =>
    have hends := hids id (by simp)
    have hstep : s.Step prog { s with graph := s.graph.addSuccessor id exit } := .successor hends hexit
    have hserves : s.Serves prog { s with graph := s.graph.addSuccessor id exit } := hstep.evolves hs
    obtain ⟨hrest, hlead, hkeep⟩ := ih hserves.valid (hserves.accepts hexit) fun x hx ↦
      hserves.ends (hids x (by simp [hx]))
    refine ⟨hserves.trans hrest, fun x hx ↦ ?_, fun x y hxy ↦ hkeep x y ?_⟩
    · rcases List.mem_cons.1 hx with rfl | hx
      · exact hkeep x exit ((Graph.mem_successors_addSuccessor hends.lt_size).2 (.inr ⟨rfl, rfl⟩))
      · exact hlead x hx
    · exact (Graph.mem_successors_addSuccessor hends.lt_size).2 (.inl hxy)

/-- The state once a function is complete. -/
def completed (s : Lowering) (f : FuncId) (r : FunctionRecord) : Lowering :=
  { s with
    records := s.records.insert f { r with complete := true, awaiting := [] }
    graph := r.awaiting.foldl (fun g site ↦ g.addOperands site r.returns) s.graph }

section

variable (hs : s.Valid prog) (hr : s.records.get? f = some r)

include hs hr

/-- Only the record of the function and the return sites that wait for it change. -/
theorem Grows.completed : s.Grows prog (fun a ↦ a ∉ r.awaiting ∧ a ≠ r.exit) (s.completed f r) := by
  have hedges : s.graph.SameEdges (s.completed f r).graph := .foldl_addOperands
  refine
    { refl prog (fun a ↦ a ∉ r.awaiting ∧ a ≠ r.exit) s with
      graph := .foldl (fun _ _ ↦ .addOperands) _
      record := fun {g r₀} hr₀ ↦ ?_
      fresh := fun {g r₁} hr₁ hr₀ ↦ ?_
      firm := fun _ _ _ hxy ↦ by
        rw [hedges.successors]
        exact hxy
      persists := fun {g r₀ r₁} hr₀ hr₁ hold ↦ ?_
      held := fun _ _ _ ↦ hedges.successors _
      operands := fun {a n m} hold hn _ hm ↦ ?_
      arrivals := fun {x _} _ _ hxy ↦ hedges.successors x ▸ hxy }
  · by_cases hg : g = f
    · subst hg
      obtain rfl := Option.mem_unique hr hr₀
      exact ⟨_, get?_insert_self, ⟨rfl, rfl, rfl⟩⟩
    · exact ⟨r₀, (get?_insert_of_ne hg).trans hr₀, .refl _⟩
  · rcases get?_insert_eq_some_iff.1 hr₁ with ⟨rfl, -⟩ | ⟨-, hr₁⟩
    · rw [hr] at hr₀
      contradiction
    · rw [hr₀] at hr₁
      contradiction
  · rcases get?_insert_eq_some_iff.1 hr₁ with ⟨rfl, -⟩ | ⟨-, hr₁⟩
    · obtain rfl := Option.mem_unique hr hr₀
      exact absurd rfl hold.2
    · rw [Option.mem_unique hr₀ hr₁]
      exact .refl _ _
  · obtain ⟨n', hn', hops⟩ := Graph.nodes_foldl_addOperands (hs.record hr).nodup hm
    rw [hops, if_neg hold.1, List.append_nil, Option.mem_unique hn hn']

theorem Valid.completed (hlead : ∀ id ∈ r.returns, r.exit ∈ s.graph.successors id) : (s.completed f r).Valid prog := by
  have hgrows : s.Grows prog (fun a ↦ a ∉ r.awaiting ∧ a ≠ r.exit) (s.completed f r) := .completed hs hr
  have hedges : s.graph.SameEdges (s.completed f r).graph := .foldl_addOperands
  have hsize : (s.completed f r).graph.size = s.graph.size := Graph.size_foldl_addOperands
  have hrecorded {g : FuncId} (hold : s.records.get? g = none) : (s.completed f r).records.get? g = none := by
    refine (get?_insert_of_ne ?_).trans hold
    rintro rfl
    rw [hr] at hold
    contradiction
  refine hs.adds
    { keeps := hgrows.toKeeps
      twoWay := hs.twoWay.of_sameEdges hedges
      returning := fun hy hxy ↦ .inl (hgrows.toKeeps.returning hs.twoWay hedges hy hxy)
      node := fun ha hn ↦ absurd (Graph.lt_size_of_node hn) (Nat.not_lt.2 (hsize ▸ ha))
      record := fun {g r₁} hr₁ ↦ ?_
      recorded := fun hf hf' ↦ absurd (hrecorded hf) hf'
      started := fun hf hf' ↦ absurd (hrecorded hf) hf' }
  rcases get?_insert_eq_some_iff.1 hr₁ with ⟨rfl, rfl⟩ | ⟨-, hr₁⟩
  · refine .inr
      { hgrows.toKeeps.recordValid hr (hs.record hr) with
        awaiting := by simp
        nodup := List.nodup_nil
        closed := fun _ id hid _ ↦ ?_ }
    rw [hedges.successors]
    exact hlead id hid
  · exact .inl hr₁

/-- A call of the function is joined for good. -/
theorem Joins.completed {m q : NodeId} {call : ValueId} (h : s.Joins prog m q call f r)
    (hopen : r.complete = false) (ht : (s.completed f r).Valid prog) :
    (s.completed f r).Joins prog m q call f { r with complete := true, awaiting := [] } := by
  have hgrows : s.Grows prog (fun a ↦ a ∉ r.awaiting ∧ a ≠ r.exit) (s.completed f r) := .completed hs hr
  have hedges : s.graph.SameEdges (s.completed f r).graph := .foldl_addOperands
  obtain ⟨hmem, n, hn, hops⟩ := h.awaits hopen
  refine ⟨get?_insert_self, h.calls, h.defined, ?_, ?_, fun _ ↦ ?_, by simp, fun hscoped ↦ ?_⟩
  · rw [hedges.successors]
    exact h.entry
  · rw [hedges.successors]
    exact h.exit
  · obtain ⟨n', hn', -⟩ := hgrows.graph.node hn
    obtain ⟨l, hl, hops'⟩ := Graph.nodes_foldl_addOperands (hs.record hr).nodup hn'
    refine ⟨n', hn', ?_⟩
    change n'.operands = r.returns
    rw [hops', if_pos hmem, Option.mem_unique hl hn, hops, List.nil_append]
  · exact (h.bound hscoped).mono hgrows.toKeeps hscoped hs (by simp [hr]) ht

/-- A call of another function waits for nothing here. -/
theorem Joins.other_completed {m q : NodeId} {call : ValueId} {g : FuncId} {r' : FunctionRecord}
    (h : s.Joins prog m q call g r') (hpair : s.IsPair m q call) (hgf : g ≠ f) (ht : (s.completed f r).Valid prog) :
    (s.completed f r).Joins prog m q call g r' := by
  have hgrows : s.Grows prog (fun a ↦ a ∉ r.awaiting ∧ a ≠ r.exit) (s.completed f r) := .completed hs hr
  have hedges : s.graph.SameEdges (s.completed f r).graph := .foldl_addOperands
  have hq : q ∉ r.awaiting := by
    intro hmem
    obtain ⟨-, m', hsite, -, hentry⟩ := (hs.record hr).awaiting q hmem
    -- The return site belongs to one call, and the call leads to one function.
    obtain ⟨n, hn, -, hp⟩ := hsite
    obtain ⟨l, hl, -, hp', -⟩ := hpair.site hs
    rw [Option.mem_unique hn hl, hp', Option.some.injEq] at hp
    rw [← hp, h.entry, List.mem_singleton] at hentry
    exact hgf (hs.entries h.record hr hentry.symm)
  have hr' : (s.completed f r).records.get? g = some r' := (get?_insert_of_ne hgf).trans h.record
  refine h.mono hpair hs hgrows.toKeeps hr' (.refl _ _) (hedges.successors m) (fun n n' hn hn' ↦ ?_) fun hscoped ↦ ?_
  · obtain ⟨l, hl, hops⟩ := Graph.nodes_foldl_addOperands (hs.record hr).nodup hn'
    rw [hops, if_neg hq, List.append_nil, Option.mem_unique hl hn]
  · exact (h.bound hscoped).mono hgrows.toKeeps hscoped hs (by simp [h.record]) ht

/-- Only return sites wait for a function, and exits are no operations. -/
theorem Valid.not_awaiting {a : NodeId} (ha : s.At (fun _ n ↦ n.kind ≠ .callReturn ∧ n.kind ≠ .noop) a) :
    a ∉ r.awaiting ∧ a ≠ r.exit := by
  obtain ⟨n, hn, hsite, hexit⟩ := ha
  refine ⟨fun hmem ↦ ?_, ?_⟩
  · obtain ⟨-, m, ⟨l, hl, hk, -⟩, -⟩ := (hs.record hr).awaiting a hmem
    exact hsite (Option.mem_unique hl hn ▸ hk)
  · rintro rfl
    obtain ⟨l, hl, hk⟩ := (hs.record hr).exit
    exact hexit (Option.mem_unique hl hn ▸ hk)

theorem Finished.completed {g : FuncId} {r' : FunctionRecord} (h : s.Finished prog g r')
    (ht : (s.completed f r).Valid prog) : (s.completed f r).Finished prog g r' :=
  h.mono (.completed hs hr) ht (fun _ ha ↦ hs.not_awaiting hr (ha.imp fun _ hn ↦ by simp [hn.1])) rfl

end

/-- Seen from outside, a function is opened, lowered and completed at once. -/
theorem Opens.serves {r₀ : FunctionRecord} (h : s.Opens prog f r₀ t) (hf : s.records.get? f = none)
    (hbody : t.Evolves prog mine u) (hmine : ∀ v, mine v → prog.home? v = some f) (hr : u.records.get? f = some r)
    (hopen : r.complete = false) (hlead : ∀ id ∈ r.returns, r.exit ∈ u.graph.successors id)
    (hfinished : u.Finished prog f { r with complete := true, awaiting := [] }) : s.Serves prog (u.completed f r) := by
  have hvalid : (u.completed f r).Valid prog := hbody.valid.completed hr hlead
  have hcompleted : u.Grows prog (fun a ↦ a ∉ r.awaiting ∧ a ≠ r.exit) (u.completed f r) := .completed hbody.valid hr
  have hsu : s.Grows prog (· < s.graph.size) u := h.toGrows.trans (hbody.toGrows.mono fun _ hx ↦ hx.trans_le h.size_le)
  have hnew := (hsu.fresh hr hf).2
  have hnotHoused {v : ValueId} (hv : prog.home? v = some f) : ¬s.Housed prog v := fun hhoused ↦ hhoused f hv hf
  have hsize : (u.completed f r).graph.size = u.graph.size := Graph.size_foldl_addOperands
  have hpair {m q : NodeId} {call : ValueId} (hm : s.graph.size ≤ m) (hpair : (u.completed f r).IsPair m q call) :
      u.IsPair m q call ∧ t.graph.size ≤ m := by
    have hpair' := hpair.of_persists hbody.valid hcompleted.graph (hsize ▸ hpair.2.lt_size)
    refine ⟨hpair', Nat.le_of_not_lt fun hlt ↦ ?_⟩
    exact h.not_isPair hm (hpair'.of_persists h.valid hbody.graph hlt)
  refine
    { hsu.trans (hcompleted.mono fun a ha ↦ ⟨fun hmem ↦ ?_, ?_⟩) with
      valid := hvalid
      lowers := fun hscoped {v inst} hv hnone hsome ↦ ?_
      joined := fun {m q call} hm hp ↦ ?_
      passing := fun hscoped {m q call} hm hp ↦ ?_
      unlinked := fun {c ret call} hc hcall ↦ ?_
      finished := fun {g r'} hnone hsome ↦ ?_ }
  · exact absurd (hnew.trans_lt ((hbody.valid.record hr).awaiting a hmem).1) (Nat.lt_asymm ha)
  · rintro rfl
    exact absurd ha (Nat.not_lt.2 hnew)
  · rw [← h.instructions hv] at hnone
    rcases hbody.lowers hscoped hv hnone hsome with hv' | hjudged | hhome
    · exact .inr (.inr (hnotHoused (hmine v hv')))
    · exact .inr (.inl (hjudged.mono hcompleted.toKeeps))
    · exact .inr (.inr fun hhoused ↦ hhome (h.housed hhoused))
  · obtain ⟨hp', hm'⟩ := hpair hm hp
    obtain ⟨g, r', hjoins⟩ := hbody.joined hm' hp'
    by_cases hgf : g = f
    · subst hgf
      obtain rfl := Option.mem_unique hr hjoins.record
      exact ⟨g, _, hjoins.completed hbody.valid hr hopen hvalid⟩
    · exact ⟨g, r', hjoins.other_completed hbody.valid hr hp' hgf hvalid⟩
  · obtain ⟨hp', hm'⟩ := hpair hm hp
    rcases hbody.passing hscoped hm' hp' with hcall | hnothing | hhome
    · exact .inr (.inr (hnotHoused (hmine call hcall)))
    · exact .inr (.inl hnothing)
    · exact .inr (.inr fun hhoused ↦ hhome (h.housed hhoused))
  · have hcall' := hcall.of_persists hbody.valid hcompleted.graph (hsize ▸ hcall.lt_size)
    have hunlinked : u.Unlinked c ret := by
      rcases Nat.lt_or_ge c t.graph.size with hlt | hge
      · have hcall₀ := hcall'.of_persists h.valid hbody.graph hlt
        exact (h.unlinked hc hcall₀).grows hcall₀ h.valid hbody.toGrows hlt (hcall₀.returning h.valid).lt_size
      · exact hbody.unlinked hge hcall'
    exact hunlinked.grows hcall' hbody.valid hcompleted
      (hbody.valid.not_awaiting hr (hcall'.imp fun _ hn ↦ by simp [hn.1]))
      (hbody.valid.not_awaiting hr ((hcall'.returning hbody.valid).imp fun _ hn ↦ by simp [hn.1]))
  · rcases get?_insert_eq_some_iff.1 hsome with ⟨rfl, rfl⟩ | ⟨hgf, hsome⟩
    · exact hfinished.completed hbody.valid hr hvalid
    · rw [← h.others hgf] at hnone
      exact (hbody.finished hnone hsome).completed hbody.valid hr hvalid

/-- A function that has been opened has its record and nothing else. -/
theorem Opens.bare (h : s.Opens prog f r t) (hs : s.Valid prog) (hf : s.records.get? f = none)
    (hopen : r.complete = false) : t.Bare prog f r := by
  refine ⟨h.valid, h.opened, hopen, fun hscoped {v inst} hv hfunction ↦ ?_⟩
  rw [h.instructions hv]
  by_contra hne
  obtain ⟨id, hid⟩ := Option.ne_none_iff_exists'.1 hne
  have hhome : prog.home? v = some f := hfunction ▸ Program.home?_of_kindAt hv
  exact hs.housed hscoped hid f hhome hf

/-- The entry leads to the formals. -/
theorem Opens.enter (h : s.Opens prog f r t) {span : Span} (hspan : r.formals = some span) :
    t.Serves prog { t with graph := t.graph.addSuccessor r.entry span.first } := by
  have hvalid := h.valid.record h.opened
  have hat := hvalid.entry
  refine (Evolves.refl h.valid).step (.successor ?_ ((hvalid.formals hspan).1.accepts (by simp)))
  refine ⟨hat.imp fun n hn ↦ ⟨by simp [hn], by simp [hn], by simp [hn]⟩, h.valid.not_isExit (hat.imp fun n hn ↦ ?_)⟩
  simp [hn]

/-- What is known of the phis and returns of a function once its blocks are visited and its phis
attached. -/
theorem Underway.finishes {fn : Function} {blocks : List BlockId} (hprog : prog.Coherent)
    (h : s.Underway prog (fun v ↦ ∃ b ∈ blocks, v ∈ prog.instsOf f b) t) (hfn : prog.functions[f]? = some fn)
    (hblocks : fn.reachableBlocks = .ok blocks) (hvisited : ∀ b ∈ blocks, t.blocks.get? (f, b) ≠ none)
    (hattached : ∀ b, ∀ v ∈ prog.instsOf f b, Lower.Attached prog t u v) (hu : t.Serves prog u)
    (hcomplete : r.complete = true) : u.Finished prog f r := by
  refine ⟨hcomplete, fun hv ↦ (h.met ⟨_, hv.mem hprog hfn hblocks⟩).mono hu.toKeeps,
    fun hscoped v inst hv hphi haddresses ↦ ?_, fun hscoped v inst w hv hret hw hpointer ↦ ?_⟩
  · obtain ⟨hblock, hmem⟩ := hv.mem hprog hfn hblocks
    have hnamed : t.nodes.get? v ≠ none := by
      rcases haddresses with hpointer | ⟨x, source, w, hx, hcast, hw, hstems⟩
      · exact (h.reflects ⟨_, hblock, hmem⟩ hv.1 (.inr (.inr ⟨hphi, hpointer⟩))).phi hphi
      · obtain ⟨hxblock, hxmem⟩ := hx.mem hprog hfn hblocks
        have hreflects := h.reflects ⟨_, hxblock, hxmem⟩ hx.1 (.inr (.inl hcast))
        obtain ⟨_, hkind⟩ := Program.instruction_of_stems hstems hv.1
        exact h.valid.named_of_stems hscoped hstems hv.1 (hreflects.source hscoped hcast hw hkind)
    obtain ⟨phi, hnode⟩ := Option.ne_none_iff_exists'.1 hnamed
    refine ⟨phi, hu.named_lasting (.inl hscoped) hnode, fun w hw harrives ↦ ?_⟩
    refine hattached _ v hmem inst phi hv.1 hphi (hv.2.1 ▸ hvisited _ hblock) hnode hscoped w hw fun source hsource ↦ ?_
    -- What is incoming is of the same function.
    have hhome := hscoped.operand hv.1 hw
    rw [hv.home, Program.home?_of_kindAt hsource] at hhome
    obtain rfl : source.function = f := by simpa [ValueKind.home?] using hhome
    exact hvisited _ ((harrives source hsource).mem hfn hblocks)
  · obtain ⟨hblock, hmem⟩ := hv.mem hprog hfn hblocks
    have hreturns := (h.reflects ⟨_, hblock, hmem⟩ hv.1 (.inl hret)).returned hscoped hret hw hpointer
    exact hreturns.mono hu.toGrows hscoped fun _ ha ↦ ha.lt_size

end Lowering

namespace Lower

open Stateful

variable {prog : Program} {ask : Provider} {s t : Lowering} {f : FuncId} {r : FunctionRecord}

theorem forM_onGraph_eq_ok {α : Type} {op : α → Graph → Graph} {l : List α} {x : PUnit}
    (h : l.forM (fun a ↦ onGraph (op a)) s = .ok x t) : { s with graph := l.foldl (fun g a ↦ op a g) s.graph } = t := by
  induction l generalizing s with
  | nil => exact (pure_eq_ok_iff.1 h).2
  | cons a l ih =>
    obtain ⟨_, s₁, h₁, h⟩ := bind_eq_ok_iff.1 h
    obtain rfl := onGraph_eq_ok_iff.1 h₁
    exact ih h

/-- The returns lead to the exit before the record says that the function is complete. -/
theorem complete_ensures (hr : s.records.get? f = some r) :
    Ensures (complete f) s fun _ t ↦
      t = ({ s with graph := r.returns.foldl (fun g id ↦ g.addSuccessor id r.exit) s.graph } :
      Lowering).completed f r := by
  refine .seq fun r? _ h ↦ ?_
  obtain ⟨hr', rfl⟩ := record?_eq_ok_iff.1 h
  obtain rfl := hr.symm.trans hr'
  refine .seq fun _ s₁ h₁ ↦ .seq fun _ s₂ h₂ _ t h₃ ↦ ?_
  obtain rfl := alterRecord_eq_ok_iff.1 h₁
  rw [modify_of_get? hr] at h₂
  obtain rfl := forM_onGraph_eq_ok h₂
  exact (forM_onGraph_eq_ok h₃).symm

section

variable (hprog : prog.Coherent) (hask : ask.Sound prog)

include hprog hask

/-- The body of a function that has been opened is lowered and the function completed. -/
theorem lowerBody_ensures {fn : Function} {r₀ : FunctionRecord} {u : Lowering} (hs : s.Valid prog)
    (hf : s.records.get? f = none) (hopens : s.Opens prog f r₀ t) (hopen : r₀.complete = false)
    (hfn : prog.functions[f]? = some fn) (hu : t.Serves prog u) :
    Ensures (do
      lowerBlocks prog ask f r₀.entry r₀.formals (← fn.reachableBlocks)
      attachPhis prog ask f
      placeAll prog ask f
      linkBlocks prog f
      complete f
      return r₀.entry) u fun id w ↦ s.Serves prog w ∧ ∃ r, w.records.get? f = some r ∧ r.entry = id := by
  have hbare := hopens.bare hs hf hopen
  refine .bind_lift fun blocks hblocks ↦ ?_
  refine (lowerBlocks_ensures hprog hask hbare blocks (Function.nodup_reachableBlocks hblocks)
    ((Lowering.Underway.refl hopens.valid).serves hu)).bind fun _ u₁ ⟨hu₁, hvisited⟩ ↦ ?_
  have hmet {v : ValueId} {inst : Instruction} (hv : prog.Visits f v inst) : u₁.Met prog v :=
    hu₁.met ⟨_, hv.mem hprog hfn hblocks⟩
  refine (attachPhis_ensures hprog hask hu₁.valid (hbare.recorded hu₁.toKeeps) hmet).bind fun _ u₂ ⟨hu₂, hattached⟩ ↦ ?_
  refine (placeAll_ensures hprog hask hu₂.valid).bind fun _ u₃ hu₃ ↦ ?_
  refine (linkBlocks_ensures hu₃.valid).bind fun _ u₄ hu₄ ↦ ?_
  have hplaced := hu₃.trans hu₄
  obtain ⟨r, hr, hkeeps⟩ := (hu₁.serves (hu₂.trans hplaced)).record hopens.opened
  have hvalid := hu₄.valid.record hr
  obtain ⟨hu₅, hlead, -⟩ := Lowering.Evolves.lead hu₄.valid (hvalid.exit.accepts (by simp)) r.returns fun id hid ↦ by
    have hret : u₄.At (fun _ n ↦ n.kind = .ret) id := (hvalid.returns id hid).imp fun _ hn ↦ hn.1
    refine ⟨hret.imp fun n hn ↦ ⟨by simp [hn], by simp [hn], by simp [hn]⟩,
      hu₄.valid.not_isExit (hret.imp fun n hn ↦ ?_)⟩
    simp [hn]
  refine (complete_ensures hr).bind fun _ w hw ↦ .pure ?_
  subst hw
  have hafter := hplaced.trans hu₅
  have hbody := hu₁.serves (hu₂.trans hafter)
  have hincomplete : r.complete = false :=
    (hbody.persists hopens.opened hr (hopens.valid.record hopens.opened).exit.lt_size).complete.trans hopen
  refine ⟨hopens.serves hf hbody.toEvolves (fun v ⟨b, _, hv⟩ ↦ ?_) hr hincomplete hlead
    (hu₁.finishes hprog hfn hblocks hvisited (fun b v hv ↦ (hattached b v hv).mono hafter) (hu₂.trans hafter) rfl), _,
    get?_insert_self, hkeeps.entry⟩
  obtain ⟨inst, hkind, rfl, -⟩ := hprog.inst hv
  exact Program.home?_of_kindAt hkind

omit hask in
/-- A function is opened by its entry, its exit and its formals. -/
theorem opens_of_formals {fn : Function} {s₁ s₂ s₃ : Lowering} {entry exit : NodeId} {x : Option Span × Option NodeId}
    {y : Unit} (hs : s.Valid prog) (hglobals : s.globals ≠ none) (hfn : prog.functions[f]? = some fn)
    (hf : s.records.get? f = none) (h₁ : create (·.create { kind := .entry }) s = .ok entry s₁)
    (h₂ : create (·.create { kind := .noop }) s₁ = .ok exit s₂) (h₃ : lowerFormals prog fn s₂ = .ok x s₃)
    (h₄ : (modify fun s ↦ { s with
      records := s.records.insert f { entry, exit, formals := x.1, variadic := x.2 }
      callGraph := s.callGraph.addFunction f } : Lower Unit) s₃ = .ok y t) :
    s.Opens prog f { entry, exit, formals := x.1, variadic := x.2 } t := by
  obtain ⟨rfl, rfl⟩ := create_eq_ok_iff.1 h₁
  obtain ⟨rfl, rfl⟩ := create_eq_ok_iff.1 h₂
  have hprepares₀ : s.Prepares prog fn.params s.graph s.nodes := .refl hs
  obtain ⟨hprepares₁, hnew₁, hentry⟩ := hprepares₀.create (k := .entry) (.inr rfl)
  obtain ⟨hprepares₂, hnew₂, hexit⟩ := hprepares₁.create (k := .noop) (.inl rfl)
  obtain ⟨g, names, rfl, hprepares, hpers, hformals, hvariadic, hrest, hparams⟩ :=
    lowerFormals_ensures hprepares₂ _ _ h₃
  have hpers₁ : (s.graph.create { kind := .entry }).2.Persists g := Graph.Persists.create.trans hpers
  have hentry : ({ s with graph := g } : Lowering).At (fun _ n ↦ n.kind = .entry) s.graph.size :=
    hentry.mono_kind hpers₁
  rw [← modify_eq_ok_iff.1 h₄]
  exact hprepares.opens hprog hfn hf hs hglobals ⟨hnew₁, hentry⟩ ⟨hnew₂, hexit.mono_kind hpers⟩ hformals hvariadic hrest
    hparams

/-- A function is lowered on the first request, and all later ones find its record. -/
theorem lowerFunction_ensures (hs : s.Valid prog) (hglobals : prog.Scoped → s.globals ≠ none) :
    Ensures (lowerFunction prog ask f) s fun id t ↦ s.Serves prog t ∧ ∃ r, t.records.get? f = some r ∧
    r.entry = id := by
  refine (globalChain_ensures hask hprog hs fun hscoped hnone ↦ absurd hnone (hglobals hscoped)).bind
    fun chain s₁ ⟨h₁, hchain, _⟩ ↦ .seq fun r? _ h ↦ ?_
  obtain ⟨hr, rfl⟩ := record?_eq_ok_iff.1 h
  cases r? with
  | some r => exact .pure ⟨h₁, r, hr, rfl⟩
  | none =>
    refine .bind_lift fun fn hfn ↦ .seq fun _ s₂ hnote ↦ .seq fun entry s₃ h₃ ↦ .seq fun exit s₄ h₄ ↦
      .seq fun x s₅ h₅ ↦ .seq fun _ s₆ h₆ ↦ ?_
    have hfn := Query.lookup_eq_ok_iff.1 hfn
    have hremarks := note_eq_ok hnote
    have hs₂ := h₁.step hremarks.step
    have hsame : s₂.records = s₁.records ∧ s₂.globals = s₁.globals := by
      obtain ⟨warnings, journal, rfl⟩ := hremarks
      exact ⟨rfl, rfl⟩
    have hf : s₂.records.get? f = none := hsame.1 ▸ hr
    have hopens := opens_of_formals hprog hs₂.valid (by simp [hsame.2, hchain]) hfn hf h₃ h₄ h₅ h₆
    extract_lets body
    have hbody {u : Lowering} (hu : s₆.Serves prog u) : Ensures (body ⟨⟩) u fun id t ↦
        s.Serves prog t ∧ ∃ r, t.records.get? f = some r ∧ r.entry = id :=
      (lowerBody_ensures hprog hask hs₂.valid hf hopens rfl hfn hu).mono fun _ _ ht ↦ ⟨hs₂.trans ht.1, ht.2⟩
    split
    · rename_i span hspan
      refine .seq fun _ _ h₇ ↦ hbody ?_
      obtain rfl := onGraph_eq_ok_iff.1 h₇
      exact hopens.enter hspan
    · exact .bind_pure (hbody (.refl hopens.valid))

end

/-- Whatever is asked of lowering, the answer is what was asked for. -/
theorem provider_sound (hprog : prog.Coherent) (depth : Nat) : (provider prog depth).Sound prog := by
  induction depth with
  | zero => exact ⟨fun _ _ h ↦ by contradiction, fun _ _ h ↦ by contradiction, fun _ h ↦ by contradiction⟩
  | succ depth ih =>
    exact
      { operand := fun hs hhoused h ↦ operand_supplies hprog ih hs hhoused _ _ h
        entry := fun hs hglobals h ↦ lowerFunction_ensures hprog ih hs hglobals _ _ h
        uses := fun hs h ↦ lowerUses_ensures hprog ih hs _ _ h }

end Lower

end PointsTo
