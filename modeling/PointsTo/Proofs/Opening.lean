import PointsTo.Lowering.Body
import PointsTo.Proofs.Globals

/-!
# Opening a function

The record of a function exists before its body does.  Its entry, its exit and the phis of its formals
are made even before that, so for a moment the formals are named in a function that has no record yet.
Seen from outside, the nodes, the names and the record come at once.
-/

namespace PointsTo

open OrderedMap

namespace Lowering

variable (prog : Program) (s : Lowering)

/-- The graph and the names of values while the formals are made.  Nothing else changes. -/
structure Prepares (params : List ValueId) (g : Graph) (names : OrderedMap ValueId NodeId) : Prop where
  serves : s.Serves prog { s with graph := g }
  calm : s.Calm { s with graph := g }
  kept : ∀ {v id}, s.nodes.get? v = some id → ∃ id', names.get? v = some id' ∧ (v ∉ params → id' = id)
  named : ∀ {v id}, names.get? v = some id → s.nodes.get? v = some id ∨
    (v ∈ params ∧ s.graph.size ≤ id ∧ ({ s with graph := g } : Lowering).At (fun _ n ↦ n.kind = .phi) id)

/-- A chain of phis. -/
def PhiChain (chain : Option Span) : Prop := ∀ span, chain = some span →
  s.At (fun _ n ↦ n.kind = .phi) span.first ∧ s.At (fun _ n ↦ n.kind = .phi) span.last

/-- The state once a function has its record and nothing else. -/
structure Opens (f : FuncId) (r : FunctionRecord) (t : Lowering) : Prop extends s.Grows prog (· < s.graph.size) t where
  valid : t.Valid prog
  opened : t.records.get? f = some r
  others : ∀ {g}, g ≠ f → t.records.get? g = s.records.get? g
  not_isPair : ∀ {m q call}, s.graph.size ≤ m → ¬t.IsPair m q call
  unlinked : ∀ {c ret call}, s.graph.size ≤ c → t.IsIndirect c ret call → t.Unlinked c ret
  instructions : ∀ {v inst}, prog.kindAt v = some (.instruction inst) → t.nodes.get? v = s.nodes.get? v

variable {prog s} {params : List ValueId} {g g' : Graph} {names : OrderedMap ValueId NodeId} {v : ValueId} {id : NodeId}
  {chain : Option Span} {f : FuncId} {fn : Function}

theorem PhiChain.mono {t : Lowering} (h : s.PhiChain chain) (hg : s.graph.Persists t.graph) : t.PhiChain chain :=
  fun span hspan ↦ ⟨(h span hspan).1.mono_kind hg, (h span hspan).2.mono_kind hg⟩

namespace Prepares

theorem refl (hs : s.Valid prog) : s.Prepares prog params s.graph s.nodes where
  serves := .refl hs
  calm := ⟨fun hm hpair ↦ absurd hpair.2.lt_size (Nat.not_lt.2 hm), fun h ↦ h⟩
  kept hv := ⟨_, hv, fun _ ↦ rfl⟩
  named hv := .inl hv

theorem step (h : s.Prepares prog params g names)
    (hstep : ({ s with graph := g } : Lowering).Step prog { s with graph := g' }) :
    s.Prepares prog params g' names where
  serves := h.serves.step hstep
  calm := h.calm.trans hstep.calm h.serves.valid (hstep.keeps h.serves.valid).graph
  kept := h.kept
  named hv := by
    refine (h.named hv).imp_right fun ⟨hmem, hnew, hphi⟩ ↦ ⟨hmem, hnew, ?_⟩
    exact hphi.mono_kind (hstep.keeps h.serves.valid).graph

theorem name (h : s.Prepares prog params g names) (hv : v ∈ params) (hnew : s.graph.size ≤ id)
    (hid : ({ s with graph := g } : Lowering).At (fun _ n ↦ n.kind = .phi) id) :
    s.Prepares prog params g (names.insert v id) where
  serves := h.serves
  calm := h.calm
  kept {w _} hw := by
    by_cases hwv : w = v
    · subst hwv
      exact ⟨id, get?_insert_self, fun hnot ↦ absurd hv hnot⟩
    · rw [get?_insert_of_ne hwv]
      exact h.kept hw
  named hw := by
    rcases get?_insert_eq_some_iff.1 hw with ⟨rfl, rfl⟩ | ⟨-, hw⟩
    · exact .inr ⟨hv, hnew, hid⟩
    · exact h.named hw

/-- One more node. -/
theorem create (h : s.Prepares prog params g names) {k : NodeKind} (hk : k.isPlain = true ∨ k = .entry) :
    s.Prepares prog params (g.create { kind := k }).2 names ∧ s.graph.size ≤ g.size ∧
      ({ s with graph := (g.create { kind := k }).2 } : Lowering).At (fun _ n ↦ n.kind = k) g.size := by
  have hstep : ({ s with graph := g } : Lowering).Step prog { s with graph := (g.create { kind := k }).2 } :=
    .create (n := { kind := k }) [] hk ⟨rfl, rfl, rfl, rfl⟩
  exact ⟨h.step hstep, h.serves.size_le, _, Graph.nodes_create_self, rfl⟩

/-- The state once the function has its record. -/
abbrev opened (s : Lowering) (f : FuncId) (g : Graph) (names : OrderedMap ValueId NodeId) (r : FunctionRecord) :
    Lowering :=
  { s with graph := g, nodes := names, records := s.records.insert f r, callGraph := s.callGraph.addFunction f }

section

variable {r : FunctionRecord} (h : s.Prepares prog fn.params g names) (hprog : prog.Coherent)
  (hfn : prog.functions[f]? = some fn) (hf : s.records.get? f = none)

include h in
theorem get?_of_not_mem (hv : v ∉ fn.params) (hid : s.nodes.get? v = some id) : names.get? v = some id := by
  obtain ⟨id', hid', hsame⟩ := h.kept hid
  rw [hid', hsame hv]

include hprog hfn in
theorem kindAt_of_mem_params (hv : v ∈ fn.params) : ∃ j, prog.kindAt v = some (.argument f j) := by
  obtain ⟨j, hj⟩ := List.mem_iff_getElem?.1 hv
  exact ⟨j, hprog.param (by rw [hfn]; rfl) hj⟩

include hf in
theorem ne_of_record {k : FuncId} {r : FunctionRecord} (hr : s.records.get? k = some r) : k ≠ f := by
  rintro rfl
  rw [hf] at hr
  contradiction

include h hprog hfn

/-- The formals are no instructions. -/
theorem get?_instruction {inst : Instruction} (hv : prog.kindAt v = some (.instruction inst)) :
    names.get? v = s.nodes.get? v := by
  have hnot : v ∉ fn.params := by
    intro hmem
    obtain ⟨j, hj⟩ := kindAt_of_mem_params hprog hfn hmem
    rw [hv] at hj
    simp at hj
  cases hnode : s.nodes.get? v with
  | some id => exact h.get?_of_not_mem hnot hnode
  | none =>
    cases hname : names.get? v with
    | none => rfl
    | some id =>
      rcases h.named hname with hold | ⟨hmem, -⟩
      · rw [hnode] at hold
        contradiction
      · exact absurd hmem hnot

include hf

/-- Names, nodes and records only grow. -/
theorem grows (hs : s.Valid prog) (hentry : s.graph.size ≤ r.entry) (hexit : s.graph.size ≤ r.exit) :
    s.Grows prog (· < s.graph.size) (opened s f g names r) :=
  { h.serves.toGrows with
    record := fun {k r} hr ↦ ⟨r, (get?_insert_of_ne (ne_of_record hf hr)).trans hr, .refl _⟩
    fresh := fun {k r} hr hnone ↦ by
      rcases get?_insert_eq_some_iff.1 hr with ⟨rfl, rfl⟩ | ⟨-, hr⟩
      · exact ⟨hentry, hexit⟩
      · rw [hnone] at hr
        contradiction
    named := fun {v id} hv ↦ by
      obtain ⟨id', hid', hsame⟩ := h.kept hv
      refine ⟨id', hid', fun hlasting ↦ hsame fun hmem ↦ ?_⟩
      obtain ⟨j, hj⟩ := kindAt_of_mem_params hprog hfn hmem
      rcases hlasting with hscoped | ⟨k, hk⟩
      · -- The formals of a function without a record have no nodes.
        exact hs.housed hscoped hv f (Program.home?_of_kindAt hj) hf
      · rw [hj] at hk
        simp at hk
    recent := fun _ {v id} hnone hsome ↦ by
      rcases h.named hsome with hold | ⟨-, hnew, -⟩
      · rw [hnone] at hold
        contradiction
      · exact hnew
    sites := fun hsite ↦ by
      rw [CallGraph.sites_addFunction]
      exact hsite
    persists := fun {k r r'} hr hr' _ ↦ by
      rw [get?_insert_of_ne (ne_of_record hf hr)] at hr'
      exact Option.mem_unique hr hr' ▸ .refl _ _ }

omit hf in
/-- The state is valid if the record is. -/
theorem adds (hgrows : s.Grows prog (· < s.graph.size) (opened s f g names r)) (hglobals : s.globals ≠ none)
    (hr : (opened s f g names r).RecordValid prog f r) : s.Adds prog (opened s f g names r) where
  keeps := hgrows.toKeeps
  twoWay := h.serves.valid.twoWay
  returning hy hxy := .inr (h.serves.valid.returning hy hxy)
  node {a n} _ hn := by
    have hvalid := h.serves.valid.node hn
    refine ⟨fun hk ↦ ?_, fun hk ↦ ?_, hvalid.call⟩
    · obtain ⟨v, k, hv, hkind, hid⟩ := hvalid.function hk
      refine ⟨v, k, hv, hkind, h.get?_of_not_mem (fun hmem ↦ ?_) hid⟩
      obtain ⟨j, hj⟩ := kindAt_of_mem_params hprog hfn hmem
      rw [hj] at hkind
      simp at hkind
    · obtain ⟨call, r, hcall, hr, hindirect, hhoused, hat⟩ := hvalid.indirect hk
      refine ⟨call, r, hcall, hr, hindirect, fun hscoped k hk ↦ ?_, hat⟩
      exact hgrows.recorded (hhoused hscoped k hk)
  named {v id} hv := by
    refine (h.named hv).imp_right fun ⟨hmem, _, hphi⟩ ↦ ?_
    obtain ⟨j, hj⟩ := kindAt_of_mem_params hprog hfn hmem
    refine ⟨⟨_, hj, hphi⟩, fun _ k hk ↦ ?_, .of_kind hj (by simp)⟩
    rw [Program.home?_of_kindAt hj] at hk
    obtain rfl := Option.some.inj hk
    simp
  record {k r} hk := by
    rcases get?_insert_eq_some_iff.1 hk with ⟨rfl, rfl⟩ | ⟨-, hk⟩
    · exact .inr hr
    · exact .inl hk
  recorded {k l} hk hk' hl hl' := by
    have heq {x : FuncId} (hnone : s.records.get? x = none) (hsome : (s.records.insert f r).get? x ≠ none) :
        x = f := by
      by_contra hne
      rw [get?_insert_of_ne hne] at hsome
      exact hsome hnone
    exact (heq hk hk').trans (heq hl hl').symm
  sites hnodup k l := by
    rw [CallGraph.sites_addFunction]
    exact hnodup k l
  started _ _ := hglobals

/-- A function gets its record. -/
theorem opens (hs : s.Valid prog) (hglobals : s.globals ≠ none) {entry exit : NodeId} {formals : Option Span}
    {variadic : Option NodeId}
    (hentry : s.graph.size ≤ entry ∧ ({ s with graph := g } : Lowering).At (fun _ n ↦ n.kind = .entry) entry)
    (hexit : s.graph.size ≤ exit ∧ ({ s with graph := g } : Lowering).At (fun _ n ↦ n.kind = .noop) exit)
    (hformals : ({ s with graph := g } : Lowering).PhiChain formals)
    (hvariadic : ∀ {id}, variadic = some id → ({ s with graph := g } : Lowering).At (fun _ n ↦ n.kind = .phi) id)
    (hrest : fn.variadic = true → variadic ≠ none)
    (hparams : ∀ param ∈ fn.params, prog.isPointer param = .ok true → names.get? param ≠ none) :
    s.Opens prog f { entry, exit, formals, variadic } (opened s f g names { entry, exit, formals, variadic }) := by
  have hgrows := grows (r := { entry, exit, formals, variadic }) h hprog hfn hf hs hentry.1 hexit.1
  refine
    { hgrows with
      valid := hs.adds (h.adds hprog hfn hgrows hglobals
        { entry := hentry.2
          exit := hexit.2
          formals := fun hspan ↦ hformals _ hspan
          variadic := hvariadic
          rest := fun hfn' hv ↦ hrest (Option.mem_unique hfn hfn' ▸ hv)
          formal := fun {fn' param} hfn' hmem hpointer ↦ ?_
          returns := by simp
          awaiting := by simp
          nodup := List.nodup_nil
          unplaced := by simp
          unplacedFormals := by simp
          closed := by simp
          addresses := by simp
          met := by simp })
      opened := get?_insert_self
      others := fun hne ↦ get?_insert_of_ne hne
      not_isPair := fun hm hpair ↦ h.calm.not_isPair hm hpair
      unlinked := fun hc hcall ↦ { h.serves.unlinked hc hcall with }
      instructions := h.get?_instruction hprog hfn }
  obtain rfl := Option.mem_unique hfn hfn'
  exact hparams param hmem hpointer

end

end Prepares

end Lowering

namespace Lower

open Stateful

variable {prog : Program} {s : Lowering} {params : List ValueId} {g : Graph} {names : OrderedMap ValueId NodeId}
  {chain : Option Span} {fn : Function}

/-- A phi is added to the end of the chain of the formals. -/
theorem appendPhi_ensures {id : NodeId} (h : s.Prepares prog params g names)
    (hchain : ({ s with graph := g } : Lowering).PhiChain chain)
    (hid : ({ s with graph := g } : Lowering).At (fun _ n ↦ n.kind = .phi) id) :
    Ensures (append chain id) { s with graph := g, nodes := names } fun chain' t ↦
      ∃ g', t = { s with graph := g', nodes := names } ∧ s.Prepares prog params g' names ∧
        g.Persists g' ∧ ({ s with graph := g' } : Lowering).PhiChain chain' := by
  cases chain with
  | none =>
    refine .pure ⟨g, rfl, h, .refl g, fun span hspan ↦ ?_⟩
    obtain rfl := Option.some.inj hspan
    exact ⟨hid, hid⟩
  | some c =>
    refine .seq fun _ t ht ↦ .pure ?_
    obtain rfl := onGraph_eq_ok_iff.1 ht
    obtain ⟨hfirst, hlast⟩ := hchain c rfl
    have hstep : ({ s with graph := g } : Lowering).Step prog { s with graph := g.addSuccessor c.last id } :=
      .successor (h.serves.valid.extends_phi hlast).1 (hid.accepts (by simp))
    have hpers := (hstep.keeps h.serves.valid).graph
    refine ⟨_, rfl, h.step hstep, hpers, fun span hspan ↦ ?_⟩
    obtain rfl := Option.some.inj hspan
    exact ⟨hfirst.mono_kind hpers, hid.mono_kind hpers⟩

/-- The state while the formals are made. -/
def Preparing (prog : Program) (s : Lowering) (params : List ValueId) (chain : Option Span) (t : Lowering) : Prop :=
  ∃ g names, t = { s with graph := g, nodes := names } ∧ s.Prepares prog params g names ∧
    ({ s with graph := g } : Lowering).PhiChain chain

/-- A formal gets its phi. -/
theorem createFormal_ensures {param : ValueId} (h : s.Prepares prog params g names) (hparam : param ∈ params)
    (hchain : ({ s with graph := g } : Lowering).PhiChain chain) :
    Ensures (do append chain (← createFor param (·.create { kind := .phi }))) { s with graph := g, nodes := names }
      fun chain' t ↦ Preparing prog s params chain' t ∧ g.Persists t.graph ∧
        ∃ id, t.nodes = names.insert param id := by
  refine .seq fun id t ht ↦ ?_
  simp only [createFor, bind_eq_ok_iff, create_eq_ok_iff, assign_eq_ok_iff, pure_eq_ok_iff] at ht
  obtain ⟨_, _, ⟨rfl, rfl⟩, _, _, rfl, rfl, rfl⟩ := ht
  obtain ⟨hcreate, hnew, hphi⟩ := h.create (k := .phi) (.inl rfl)
  have hstep : ({ s with graph := (g.create { kind := .phi }).2 } : Lowering).Step prog { s with
      graph := (g.create { kind := .phi }).2.update g.size fun n ↦
        { n with value := n.value <|> some param } } := .value
  have hpers := (hstep.keeps hcreate.serves.valid).graph
  have hphi := hphi.mono_kind hpers
  have hcreated : g.Persists ((g.create { kind := .phi }).2.update g.size fun n ↦
      { n with value := n.value <|> some param }) := Graph.Persists.create.trans hpers
  refine (appendPhi_ensures ((hcreate.step hstep).name hparam hnew hphi) (hchain.mono hcreated) hphi).mono
    fun chain' t ⟨g', ht, hprepares, hpers', hchain'⟩ ↦ ?_
  subst ht
  exact ⟨⟨g', _, rfl, hprepares, hchain'⟩, hcreated.trans hpers', _, rfl⟩

/-- The formals that are pointers get their phis. -/
theorem lowerFormals_ensures (h : s.Prepares prog fn.params g names) :
    Ensures (lowerFormals prog fn) { s with graph := g, nodes := names } fun x t ↦
      ∃ g' names', t = { s with graph := g', nodes := names' } ∧ s.Prepares prog fn.params g' names' ∧ g.Persists g' ∧
        ({ s with graph := g' } : Lowering).PhiChain x.1 ∧
        (∀ {id}, x.2 = some id → ({ s with graph := g' } : Lowering).At (fun _ n ↦ n.kind = .phi) id) ∧
        (fn.variadic = true → x.2 ≠ none) ∧
        ∀ param ∈ fn.params, prog.isPointer param = .ok true → names'.get? param ≠ none := by
  have hformals : Ensures (fn.params.foldlM (fun chain param ↦ do
      if ← prog.isPointer param then append chain (← createFor param (·.create { kind := .phi }))
      else return chain) none) { s with graph := g, nodes := names } fun chain t ↦
        (Preparing prog s fn.params chain t ∧ g.Persists t.graph) ∧
          ∀ param ∈ fn.params, prog.isPointer param = .ok true → t.nodes.get? param ≠ none := by
    refine .foldlM_marks (fun param hparam chain t ⟨⟨g₁, names₁, ht, hprepares, hchain⟩, hpers⟩ ↦ ?_)
      ⟨⟨g, names, rfl, h, by simp [Lowering.PhiChain]⟩, .refl g⟩
    subst ht
    refine .bind_lift fun pointer hpointer ↦ ?_
    cases pointer with
    | false =>
      refine .pure ⟨⟨⟨g₁, names₁, rfl, hprepares, hchain⟩, hpers⟩, fun htrue ↦ ?_, fun _ h ↦ h⟩
      rw [hpointer] at htrue
      simp at htrue
    | true =>
      refine (createFormal_ensures hprepares hparam hchain).mono fun chain' u ⟨hu, hpers', id, hnodes⟩ ↦
        ⟨⟨hu, hpers.trans hpers'⟩, fun _ ↦ by simp [hnodes], fun x hx htrue ↦ ?_⟩
      rw [hnodes]
      by_cases hxp : x = param
      · subst hxp
        simp
      · rw [get?_insert_of_ne hxp]
        exact hx htrue
  refine hformals.bind fun chain t ⟨⟨⟨g₁, names₁, ht, hprepares, hchain⟩, hpers⟩, hparams⟩ ↦ ?_
  subst ht
  split
  · refine .seq fun id t ht ↦ ?_
    obtain ⟨rfl, rfl⟩ := create_eq_ok_iff.1 ht
    obtain ⟨hcreate, -, hphi⟩ := hprepares.create (k := .phi) (.inl rfl)
    have hcreated : g₁.Persists (g₁.create { kind := .phi }).2 := .create
    refine (appendPhi_ensures hcreate (hchain.mono hcreated) hphi).bind
      fun chain' t ⟨g₂, ht, hprepares₂, hpers₂, hchain₂⟩ ↦ ?_
    subst ht
    refine .pure ⟨g₂, names₁, rfl, hprepares₂, (hpers.trans hcreated).trans hpers₂, hchain₂, fun hid ↦ ?_, by
      simp, hparams⟩
    obtain rfl := Option.some.inj hid
    exact hphi.mono_kind hpers₂
  · rename_i hnot
    exact .pure ⟨g₁, names₁, rfl, hprepares, hpers, hchain, by simp, fun h ↦ absurd h hnot, hparams⟩

end Lower

end PointsTo
