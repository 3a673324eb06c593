import PointsTo.Proofs.Attaching
import PointsTo.Proofs.UnknownCalls

/-!
# Calls through pointers and what is linked to them

What stands between a call through a pointer and its return at any time of solving.  As long as no
function is linked to the call, it leads to its return and nothing else does.  From then on it leads to
the calls that are linked to it, one for each function, and their return sites are all that leads to
its return and, unknown memory apart, all operands that its return has.

Linking one target does the same to each call: what it adds at one call leaves the others alone.
-/

namespace PointsTo

/-- The call can be a call of the function. -/
def Program.Admits (prog : Program) (call : ValueId) (f : FuncId) : Prop :=
  ∃ inst fn, prog.kindAt call = some (.instruction inst) ∧ prog.functions[f]? = some fn ∧ fn.Admits inst

namespace Lowering

variable (prog : Program) (s : Lowering)

/-- The second node is an operand of the first. -/
def Takes (a op : NodeId) : Prop := ∃ n, s.graph.nodes[a]? = some n ∧ op ∈ n.operands

/-- A call of a function stands between a call through a pointer and its return. -/
structure Links (c ret : NodeId) (call : ValueId) (f : FuncId) (m q : NodeId) : Prop where
  pair : s.IsPair m q call
  joined : ∃ r, s.Joins prog m q call f r
  leads : m ∈ s.graph.successors c
  back : s.graph.successors q = [ret]
  result : s.Takes ret q

/-- All that follows from a target of the call is done. -/
structure Answers (c ret : NodeId) (call : ValueId) (target : NodeId) : Prop where
  unknown : target = unknownTarget → s.Takes ret unknownTarget
  function : ∀ {f inst fn}, s.Denotes prog target f → prog.kindAt call = some (.instruction inst) →
    prog.functions[f]? = some fn → fn.Admits inst → ⟨.indirect, c⟩ ∈ s.callGraph.sites inst.function f ∧
      (fn.isDeclaration = true → s.Takes ret unknownTarget) ∧
      (fn.isDeclaration = false → ∃ m q, s.Links prog c ret call f m q)

/-- What is linked to a call of which some targets have been looked at. -/
structure Wired (looked : NodeId → Prop) (c ret : NodeId) (call : ValueId) : Prop where
  free : (∀ f m q, ¬s.Links prog c ret call f m q) →
    s.graph.successors c = [ret] ∧ ∀ x, ret ∈ s.graph.successors x → x = c
  taken : ∀ {f m q}, s.Links prog c ret call f m q →
    (∀ x ∈ s.graph.successors c, ∃ g q', s.Links prog c ret call g x q') ∧
      ∀ x, ret ∈ s.graph.successors x → ∃ g m', s.Links prog c ret call g m' x
  results : ∀ {op}, s.Takes ret op → op = unknownTarget ∨ ∃ f m, s.Links prog c ret call f m op
  unique : ∀ {f m q m' q'}, s.Links prog c ret call f m q → s.Links prog c ret call f m' q' → m' = m
  source : ∀ {f m q}, s.Links prog c ret call f m q →
    ∃ target, looked target ∧ s.Denotes prog target f ∧ prog.Admits call f
  answers : ∀ {target}, looked target → s.Answers prog c ret call target

variable {prog s} {t : Lowering} {c ret m q m' q' target : NodeId} {call : ValueId} {f g : FuncId}
  {looked : NodeId → Prop}

/-! ## Functions and their nodes -/

theorem Denotes.mono (h : s.Denotes prog target f) (hst : s.Keeps prog t) : t.Denotes prog target f := by
  obtain ⟨v, hv, htarget⟩ := h
  exact ⟨v, hv, hst.named_lasting (.inr ⟨f, hv⟩) htarget⟩

theorem Denotes.node (h : s.Denotes prog target f) (hs : s.Valid prog) :
    s.At (fun _ n ↦ n.kind = .function ∧ ∃ v, n.value = some v ∧ prog.kindAt v = some (.function f)) target := by
  obtain ⟨v, hv, htarget⟩ := h
  obtain ⟨k, hk, n, hn, hfits⟩ := hs.named htarget
  obtain rfl := Option.mem_unique hv hk
  exact ⟨n, hn, hfits.1, v, hfits.2, hv⟩

theorem Denotes.of_node (hs : s.Valid prog)
    (h : s.At (fun _ n ↦ n.kind = .function ∧ ∃ v, n.value = some v ∧ prog.kindAt v = some (.function f)) target) :
    s.Denotes prog target f := by
  obtain ⟨n, hn, hk, v, hv, hf⟩ := h
  obtain ⟨w, g, hw, -, htarget⟩ := (hs.node hn).function hk
  rw [hv, Option.some.injEq] at hw
  exact ⟨v, hf, hw ▸ htarget⟩

/-- An old node stands for what it stood for. -/
theorem Denotes.of_keeps (h : t.Denotes prog target f) (hs : s.Valid prog) (ht : t.Valid prog) (hst : s.Keeps prog t)
    (hlt : target < s.graph.size) : s.Denotes prog target f := by
  obtain ⟨m, hm, hk, v, hv, hf⟩ := h.node ht
  obtain ⟨n, hn⟩ := Graph.exists_node hlt
  obtain ⟨l, hl, hnl⟩ := hst.graph.node hn
  obtain rfl := Option.mem_unique hm hl
  rw [hnl.kind] at hk
  obtain ⟨w, g, hw, -⟩ := (hs.node hn).function hk
  rw [hnl.value w hw, Option.some.injEq] at hv
  exact .of_node hs ⟨n, hn, hk, v, hv ▸ hw, hf⟩

theorem Denotes.unique (h : s.Denotes prog target f) (h' : s.Denotes prog m f) (hprog : prog.Coherent) :
    m = target := by
  obtain ⟨v, hv, htarget⟩ := h
  obtain ⟨w, hw, hm⟩ := h'
  rw [hprog.function_unique hv hw] at htarget
  exact Option.mem_unique hm htarget

theorem Denotes.function_eq (h : s.Denotes prog target f) (h' : s.Denotes prog target g)
    (hs : s.Valid prog) : g = f := by
  obtain ⟨n, hn, -, v, hv, hf⟩ := h.node hs
  obtain ⟨l, hl, -, w, hw, hg⟩ := h'.node hs
  rw [Option.mem_unique hl hn, hv, Option.some.injEq] at hw
  rw [hw, hg] at hf
  exact ValueKind.function.inj (Option.some.inj hf)

/-! ## Links -/

theorem Takes.mono {a op : NodeId} (h : s.Takes a op) (hg : s.graph.Persists t.graph) : t.Takes a op := by
  obtain ⟨n, hn, hop⟩ := h
  obtain ⟨l, hl, hnl⟩ := hg.node hn
  exact ⟨l, hl, hnl.operands.subset hop⟩

theorem IsIndirect.not_direct (h : s.IsIndirect c ret call) (hs : s.Valid prog) : ¬prog.Direct call := by
  obtain ⟨n, hn, hk, -, hv⟩ := h
  obtain ⟨call', _, hv', -, hindirect, -⟩ := (hs.node hn).indirect hk
  obtain rfl := Option.mem_unique hv hv'
  rintro ⟨f, hf⟩
  rw [hindirect.2] at hf
  simp at hf

theorem IsIndirect.firm (h : s.IsIndirect c ret call) (hs : s.Valid prog) : s.FirmTarget prog ret :=
  .inl ((h.returning hs).imp fun _ hn ↦ .inr (.inr (.inl ⟨hn.1, by simp [hn.2]⟩)))

/-- The return of a call is no call. -/
theorem IsIndirect.ret_ne (h : s.IsIndirect c ret call) (hs : s.Valid prog) (hm : s.At (fun _ n ↦ n.kind = .call) m) :
    m ≠ ret := by
  rintro rfl
  obtain ⟨n, hn, hk⟩ := hm
  obtain ⟨l, hl, hk', -⟩ := h.returning hs
  rw [Option.mem_unique hl hn, hk] at hk'
  contradiction

namespace Links

theorem isCall (h : s.Links prog c ret call f m q) : s.At (fun _ n ↦ n.kind = .call) m := h.pair.2.imp fun _ hn ↦ hn.1

/-- The call that is linked tells the function and the return site. -/
theorem eq (h : s.Links prog c ret call f m q) (h' : s.Links prog c ret call g m q') (hs : s.Valid prog) :
    g = f ∧ q' = q := by
  obtain ⟨n, hn, -, hp, -⟩ := h.pair.2
  obtain ⟨l, hl, -, hp', -⟩ := h'.pair.2
  obtain ⟨r, hjoins⟩ := h.joined
  obtain ⟨r', hjoins'⟩ := h'.joined
  refine ⟨?_, ?_⟩
  · apply hs.entries hjoins'.record hjoins.record
    exact (List.cons.inj (hjoins'.entry.symm.trans hjoins.entry)).1
  · rw [Option.mem_unique hl hn, hp, Option.some.injEq] at hp'
    exact hp'.symm

/-- Requests leave what is linked alone. -/
theorem grows {old : NodeId → Prop} (h : s.Links prog c ret call f m q) (hs : s.Valid prog)
    (hcall : s.IsIndirect c ret call) (hst : s.Grows prog old t) (ht : t.Valid prog) (hm : old m) (hq : old q)
    (hexit : ∀ a, s.IsExit a → old a) (hleads : t.graph.successors c = s.graph.successors c) :
    t.Links prog c ret call f m q where
  pair := h.pair.mono hst.graph
  joined := by
    obtain ⟨r, hjoins⟩ := h.joined
    exact hjoins.grows h.pair hs hst ht hm hq (hexit _ ⟨f, r, hjoins.record, rfl⟩)
  leads := hleads ▸ h.leads
  back := by
    rw [hst.held hq, h.back]
    · exact (h.pair.site hs).imp fun n hn ↦ .inr (.inr ⟨hn.1, call, hn.2.2, hcall.not_direct hs⟩)
    · intro y hy
      rw [h.back, List.mem_singleton] at hy
      exact hy ▸ hcall.firm hs
  result := h.result.mono hst.graph

end Links

theorem Answers.mono (h : s.Answers prog c ret call target) (hs : s.Valid prog) (ht : t.Valid prog)
    (hst : s.Keeps prog t) (hlt : target < s.graph.size)
    (hlinks : ∀ f m q, s.Links prog c ret call f m q → t.Links prog c ret call f m q) :
    t.Answers prog c ret call target where
  unknown heq := (h.unknown heq).mono hst.graph
  function hf hinst hfn hadmits := by
    obtain ⟨hsite, hdecl, hdef⟩ := h.function (hf.of_keeps hs ht hst hlt) hinst hfn hadmits
    refine ⟨hst.sites hsite, fun h ↦ (hdecl h).mono hst.graph, fun h ↦ ?_⟩
    obtain ⟨m, q, hlink⟩ := hdef h
    exact ⟨m, q, hlinks _ m q hlink⟩

namespace Wired

/-- A call leads somewhere. -/
theorem successors_ne_nil (h : s.Wired prog looked c ret call) : s.graph.successors c ≠ [] := by
  by_cases hlinks : ∃ f m q, s.Links prog c ret call f m q
  · obtain ⟨f, m, q, hlink⟩ := hlinks
    exact List.ne_nil_of_mem hlink.leads
  · rw [(h.free fun f m q hlink ↦ hlinks ⟨f, m, q, hlink⟩).1]
    simp

/-- Whatever a call leads to is its return, if nothing is linked, or is linked to it. -/
theorem link_of_successor (h : s.Wired prog looked c ret call) (hm : m ∈ s.graph.successors c) (hne : m ≠ ret) :
    ∃ f q, s.Links prog c ret call f m q := by
  by_cases hlinks : ∃ f m q, s.Links prog c ret call f m q
  · obtain ⟨f, m', q, hlink⟩ := hlinks
    exact (h.taken hlink).1 m hm
  · rw [(h.free fun f m q hlink ↦ hlinks ⟨f, m, q, hlink⟩).1, List.mem_singleton] at hm
    exact absurd hm hne

/-- A call to which something is linked does not lead straight to its return. -/
theorem ret_not_mem (h : s.Wired prog looked c ret call) (hs : s.Valid prog) (hcall : s.IsIndirect c ret call)
    (hlink : s.Links prog c ret call f m q) : ret ∉ s.graph.successors c := by
  intro hret
  obtain ⟨g, q', hlink'⟩ := (h.taken hlink).1 ret hret
  exact hcall.ret_ne hs hlink'.isCall rfl

theorem firm (h : s.Wired prog looked c ret call) (hs : s.Valid prog) (hcall : s.IsIndirect c ret call) :
    ∀ y ∈ s.graph.successors c, s.FirmTarget prog y := by
  intro y hy
  by_cases hret : y = ret
  · exact hret ▸ hcall.firm hs
  · obtain ⟨f, q, hlink⟩ := h.link_of_successor hy hret
    refine .inl (hlink.pair.2.imp fun n hn ↦ .inr (.inr (.inr ⟨hn.1, ?_, call, hn.2.2, hcall.not_direct hs⟩)))
    simpa [hn.2.1] using hlink.pair.1

/-- A change that keeps what is linked to the call, and where it leads to, links nothing else. -/
theorem links_iff (h : s.Wired prog looked c ret call) (ht : t.Valid prog) (hcall : t.IsIndirect c ret call)
    (hleads : t.graph.successors c = s.graph.successors c)
    (hlinks : ∀ f m q, s.Links prog c ret call f m q → t.Links prog c ret call f m q) :
    t.Links prog c ret call f m q ↔ s.Links prog c ret call f m q := by
  refine ⟨fun hlink ↦ ?_, hlinks f m q⟩
  obtain ⟨g, q', hold⟩ := h.link_of_successor (hleads ▸ hlink.leads) (hcall.ret_ne ht hlink.isCall)
  obtain ⟨rfl, rfl⟩ := hlink.eq (hlinks g m q' hold) ht
  exact hold

/-- Such a change keeps the call wired, if it makes at most unknown memory a new operand of the
return. -/
theorem mono (h : s.Wired prog looked c ret call) (hs : s.Valid prog) (ht : t.Valid prog)
    (hcall : t.IsIndirect c ret call) (hst : s.Keeps prog t) (hlt : ∀ target, looked target → target < s.graph.size)
    (hleads : t.graph.successors c = s.graph.successors c)
    (hlinks : ∀ f m q, s.Links prog c ret call f m q → t.Links prog c ret call f m q)
    (harrivals : ∀ x, ret ∈ t.graph.successors x → ret ∈ s.graph.successors x)
    (hops : ∀ op, t.Takes ret op → op = unknownTarget ∨ s.Takes ret op) :
    t.Wired prog looked c ret call := by
  have hiff {f : FuncId} {m q : NodeId} : t.Links prog c ret call f m q ↔ s.Links prog c ret call f m q :=
    h.links_iff ht hcall hleads hlinks
  refine
    { free := fun hnone ↦ ?_
      taken := fun hlink ↦ ?_
      results := fun hop ↦ ?_
      unique := fun hlink hlink' ↦ h.unique (hiff.1 hlink) (hiff.1 hlink')
      source := fun hlink ↦ ?_
      answers := fun hlooked ↦ (h.answers hlooked).mono hs ht hst (hlt _ hlooked) hlinks }
  · obtain ⟨hleads', halone⟩ := h.free fun f m q hlink ↦ hnone f m q (hiff.2 hlink)
    exact ⟨hleads.trans hleads', fun x hx ↦ halone x (harrivals x hx)⟩
  · obtain ⟨hleads', hback⟩ := h.taken (hiff.1 hlink)
    simp only [hiff]
    exact ⟨fun x hx ↦ hleads' x (hleads ▸ hx), fun x hx ↦ hback x (harrivals x hx)⟩
  · simp only [hiff]
    rcases hops _ hop with hunknown | hop
    · exact .inl hunknown
    · exact h.results hop
  · obtain ⟨target, hlooked, hf, hadmits⟩ := h.source (hiff.1 hlink)
    exact ⟨target, hlooked, hf.mono hst, hadmits⟩

/-- One more target is looked at. -/
theorem look (h : s.Wired prog looked c ret call) (hanswers : s.Answers prog c ret call target) :
    s.Wired prog (fun x ↦ x = target ∨ looked x) c ret call :=
  { h with
    source := fun hlink ↦ by
      obtain ⟨x, hx, hf⟩ := h.source hlink
      exact ⟨x, .inr hx, hf⟩
    answers := fun hx ↦ by
      rcases hx with rfl | hx
      · exact hanswers
      · exact h.answers hx }

/-- A call to which nothing is linked. -/
theorem of_unlinked (h : s.Unlinked c ret) (hs : s.Valid prog) (hcall : s.IsIndirect c ret call)
    (hnone : ∀ target, ¬looked target) : s.Wired prog looked c ret call := by
  have hlinks {f : FuncId} {m q : NodeId} : ¬s.Links prog c ret call f m q := by
    intro hlink
    have hm := hlink.leads
    rw [h.leads, List.mem_singleton] at hm
    exact hcall.ret_ne hs hlink.isCall hm
  refine
    { free := fun _ ↦ ⟨h.leads, fun x hx ↦ h.alone hx⟩
      taken := fun hlink ↦ absurd hlink hlinks
      results := fun ⟨n, hn, hop⟩ ↦ ?_
      unique := fun hlink ↦ absurd hlink hlinks
      source := fun hlink ↦ absurd hlink hlinks
      answers := fun hlooked ↦ absurd hlooked (hnone _) }
  obtain ⟨l, hl, hempty⟩ := h.empty
  simp [Option.mem_unique hn hl, hempty] at hop

/-! ## Requests and other calls -/

theorem evolves {mine : ValueId → Prop} (h : s.Wired prog looked c ret call) (hs : s.Valid prog)
    (hcall : s.IsIndirect c ret call) (hst : s.Evolves prog mine t)
    (hlt : ∀ target, looked target → target < s.graph.size) : t.Wired prog looked c ret call := by
  have hleads : t.graph.successors c = s.graph.successors c :=
    hst.held hcall.lt_size (hcall.imp fun _ hn ↦ .inl hn.1) (h.firm hs hcall)
  have hret := hcall.returning hs
  refine h.mono hs hst.valid (hcall.mono hst.graph) hst.toKeeps hlt hleads (fun f m q hlink ↦ ?_) (fun x hx ↦ ?_)
    fun op ⟨n', hn', hop⟩ ↦ .inr ?_
  · apply hlink.grows hs hcall hst.toGrows hst.valid hlink.pair.2.lt_size (hlink.pair.site hs).lt_size _ hleads
    rintro a ⟨g, r, hr, rfl⟩
    exact (hs.record hr).exit.lt_size
  · exact hst.arrivals hret.lt_size (hret.imp fun _ hn ↦ ⟨hn.1, by simp [hn.2]⟩) hx
  · obtain ⟨n, hn, hk, -⟩ := hret
    rw [hst.operands (Graph.lt_size_of_node hn) hn (by simp [hk]) hn'] at hop
    exact ⟨n, hn, hop⟩

/-- What is linked to one call leaves the others alone. -/
theorem amends {c' ret' : NodeId} {call' : ValueId} (h : s.Wired prog looked c ret call) (hs : s.Valid prog)
    (hcall : s.IsIndirect c ret call) (hcall' : s.IsIndirect c' ret' call') (hne : c ≠ c')
    (hst : s.Amends prog c' ret' t) (hlt : ∀ target, looked target → target < s.graph.size) :
    t.Wired prog looked c ret call := by
  have hret : ret ≠ ret' := by
    rintro rfl
    obtain ⟨n, hn, -, hp⟩ := hcall.returning hs
    obtain ⟨l, hl, -, hp'⟩ := hcall'.returning hs
    rw [Option.mem_unique hl hn, hp, Option.some.injEq] at hp'
    exact hne hp'
  have hleads : t.graph.successors c = s.graph.successors c := by
    rcases hst.others hne with hsame | ⟨hempty, -⟩
    · exact hsame
    · exact absurd hempty h.successors_ne_nil
  refine h.mono hs (hst.valid hs hcall') (hcall.mono hst.graph) hst.keeps hlt hleads (fun f m q hlink ↦ ?_)
    (fun x hx ↦ ?_) fun op ⟨n', hn', hop⟩ ↦ .inr ?_
  · obtain ⟨r, hjoins⟩ := hlink.joined
    refine ⟨hlink.pair.mono hst.graph, ⟨r, hst.joins hs hcall' hlink.pair hjoins⟩, hleads ▸ hlink.leads, ?_, ?_⟩
    · have hq : q ≠ c' := fun heq ↦ hlink.pair.ne_other hs (hcall'.imp fun _ hn ↦ .inr hn.1) (.inr heq.symm)
      rcases hst.others hq with hsame | ⟨hempty, -⟩
      · exact hsame.trans hlink.back
      · simp [hlink.back] at hempty
    · exact hlink.result.mono hst.graph
  · by_cases hx' : x = c'
    · subst hx'
      rcases hst.leads hx with hx | hm
      · exact hx
      · exact absurd rfl (hcall.ret_ne hs hm)
    · rcases hst.others hx' with hsame | ⟨-, hback, -⟩
      · exact hsame ▸ hx
      · rw [hback, List.mem_singleton] at hx
        exact absurd hx hret
  · obtain ⟨n, hn, -⟩ := hcall.returning hs
    rw [hst.operands hret hn hn'] at hop
    exact ⟨n, hn, hop⟩

/-! ## The call itself -/

/-- Unknown memory becomes an operand of the return. -/
theorem addOperand (h : s.Wired prog looked c ret call) (hs : s.Valid prog) (hcall : s.IsIndirect c ret call)
    (hlt : ∀ target, looked target → target < s.graph.size) :
    ({ s with graph := s.graph.addOperand ret unknownTarget } : Lowering).Wired prog looked c ret call := by
  have hst : s.Amends prog c ret { s with graph := s.graph.addOperand ret unknownTarget } := .addOperand hs
  have hedges : s.graph.SameEdges (s.graph.addOperand ret unknownTarget) := .addOperand
  refine h.mono hs (hst.valid hs hcall) (hcall.mono hst.graph) hst.keeps hlt (hedges.successors c)
    (fun f m q hlink ↦ ?_) (fun x hx ↦ hedges.successors x ▸ hx) fun op ⟨n', hn', hop⟩ ↦ ?_
  · obtain ⟨r, hjoins⟩ := hlink.joined
    refine ⟨hlink.pair.mono hst.graph, ⟨r, hst.joins hs hcall hlink.pair hjoins⟩, ?_, ?_, ?_⟩
    · exact hedges.successors c ▸ hlink.leads
    · exact (hedges.successors q).trans hlink.back
    · exact hlink.result.mono hst.graph
  · obtain ⟨n, hn, -, hops⟩ := Graph.nodes_addOperand hn'
    rw [hops, if_pos rfl, List.mem_append, List.mem_singleton] at hop
    exact hop.symm.imp_right fun hop ↦ ⟨n, hn, hop⟩

section

variable (hs : s.Valid prog) (hcall : s.IsIndirect c ret call) (hpair : s.IsPair m q call)
  (hjoins : ∃ r, s.Joins prog m q call f r) (hm : m ∉ s.graph.successors c) (hvacant : s.graph.successors q = [])

include hs hcall hpair hm hvacant

theorem attach_amends : s.Amends prog c ret { s with graph := s.graph.attach c ret m q } :=
  .attach hs hcall (hcall.not_direct hs) hpair hm hvacant

include hjoins

/-- The call that is attached is linked. -/
theorem link_attach : ({ s with graph := s.graph.attach c ret m q } : Lowering).Links prog c ret call f m q := by
  have hst := attach_amends hs hcall hpair hm hvacant
  have hc : c ≠ q := fun heq ↦ hpair.ne_other hs (hcall.imp fun _ hn ↦ .inr hn.1) (.inr heq)
  obtain ⟨r, hjoins⟩ := hjoins
  refine ⟨hpair.mono hst.graph, ⟨r, hst.joins hs hcall hpair hjoins⟩, ?_, ?_, ?_⟩
  · change m ∈ (s.graph.attach c ret m q).successors c
    rw [Graph.successors_attach_call hc hcall.lt_size hm]
    split <;> simp
  · exact Graph.successors_attach_site hc.symm (hpair.site hs).lt_size hvacant
  · obtain ⟨n, hn⟩ := Graph.exists_node (hst.size ▸ (hcall.returning hs).lt_size)
    obtain ⟨n₀, -, hops⟩ := Graph.nodes_attach hn
    exact ⟨n, hn, by simp [hops]⟩

omit hjoins

/-- What was linked before stays linked. -/
theorem links_attach (hlink : s.Links prog c ret call g m' q') :
    ({ s with graph := s.graph.attach c ret m q } : Lowering).Links prog c ret call g m' q' := by
  have hst := attach_amends hs hcall hpair hm hvacant
  have hc : c ≠ q := fun heq ↦ hpair.ne_other hs (hcall.imp fun _ hn ↦ .inr hn.1) (.inr heq)
  have hc' : q' ≠ c := fun heq ↦ hlink.pair.ne_other hs (hcall.imp fun _ hn ↦ .inr hn.1) (.inr heq.symm)
  obtain ⟨r, hjoins⟩ := hlink.joined
  refine ⟨hlink.pair.mono hst.graph, ⟨r, hst.joins hs hcall hlink.pair hjoins⟩, ?_, ?_, hlink.result.mono hst.graph⟩
  · apply hst.call hlink.leads
    exact hlink.isCall.accepts (by simp)
  · refine (Graph.successors_attach_of_ne hc' ?_).trans hlink.back
    rintro rfl
    simp [hlink.back] at hvacant

include hjoins

theorem links_attach_iff (h : s.Wired prog looked c ret call) :
    ({ s with graph := s.graph.attach c ret m q } : Lowering).Links prog c ret call g m' q' ↔
      s.Links prog c ret call g m' q' ∨ (g = f ∧ m' = m ∧ q' = q) := by
  have hst := attach_amends hs hcall hpair hm hvacant
  have ht := hst.valid hs hcall
  have hnew := link_attach hs hcall hpair hjoins hm hvacant
  constructor
  · intro hlink
    have hret : m' ≠ ret := (hcall.mono hst.graph).ret_ne ht hlink.isCall
    by_cases hmm : m' = m
    · subst hmm
      obtain ⟨rfl, rfl⟩ := hnew.eq hlink ht
      exact .inr ⟨rfl, rfl, rfl⟩
    · have hold : m' ∈ s.graph.successors c := by
        have hleads : m' ∈ (s.graph.attach c ret m q).successors c := hlink.leads
        have hc : c ≠ q := fun heq ↦ hpair.ne_other hs (hcall.imp fun _ hn ↦ .inr hn.1) (.inr heq)
        rw [Graph.successors_attach_call hc hcall.lt_size hm] at hleads
        split at hleads
        · exact absurd (List.mem_singleton.1 hleads) hmm
        · exact (List.mem_append.1 hleads).resolve_right fun h ↦ hmm (List.mem_singleton.1 h)
      obtain ⟨g', q'', hlink'⟩ := h.link_of_successor hold hret
      obtain ⟨rfl, rfl⟩ := hlink.eq (links_attach hs hcall hpair hm hvacant hlink') ht
      exact .inl hlink'
  · rintro (hlink | ⟨rfl, rfl, rfl⟩)
    · exact links_attach hs hcall hpair hm hvacant hlink
    · exact hnew

/-- What is linked is all that the call leads to, and all that leads to its return. -/
theorem taken_attach (h : s.Wired prog looked c ret call) :
    (∀ x ∈ (s.graph.attach c ret m q).successors c, ∃ g q',
      ({ s with graph := s.graph.attach c ret m q } : Lowering).Links prog c ret call g x q') ∧
    ∀ x, ret ∈ (s.graph.attach c ret m q).successors x → ∃ g m',
      ({ s with graph := s.graph.attach c ret m q } : Lowering).Links prog c ret call g m' x := by
  have hc : c ≠ q := fun heq ↦ hpair.ne_other hs (hcall.imp fun _ hn ↦ .inr hn.1) (.inr heq)
  have hret : m ≠ ret := hcall.ret_ne hs (hpair.2.imp fun _ hn ↦ hn.1)
  have hnew := link_attach hs hcall hpair hjoins hm hvacant
  have hleads : (s.graph.attach c ret m q).successors c =
      if s.graph.successors c = [ret] then [m] else s.graph.successors c ++ [m] :=
    Graph.successors_attach_call hc hcall.lt_size hm
  by_cases hsome : ∃ g m' q', s.Links prog c ret call g m' q'
  · obtain ⟨g, m', q', hlink⟩ := hsome
    have hnot := h.ret_not_mem hs hcall hlink
    rw [if_neg fun heq ↦ hnot (by simp [heq])] at hleads
    refine ⟨fun x hx ↦ ?_, fun x hx ↦ ?_⟩
    · rcases List.mem_append.1 (hleads ▸ hx) with hx | hx
      · obtain ⟨g', q'', hlink'⟩ := (h.taken hlink).1 x hx
        exact ⟨g', q'', links_attach hs hcall hpair hm hvacant hlink'⟩
      · exact ⟨f, q, List.mem_singleton.1 hx ▸ hnew⟩
    · have hxc : x ≠ c := by
        rintro rfl
        simp [hleads, hnot, hret.symm] at hx
      by_cases hxq : x = q
      · exact ⟨f, m, hxq ▸ hnew⟩
      · rw [Graph.successors_attach_of_ne hxc hxq] at hx
        obtain ⟨g', m'', hlink'⟩ := (h.taken hlink).2 x hx
        exact ⟨g', m'', links_attach hs hcall hpair hm hvacant hlink'⟩
  · obtain ⟨hfree, halone⟩ := h.free fun g m' q' hlink ↦ hsome ⟨g, m', q', hlink⟩
    rw [if_pos hfree] at hleads
    refine ⟨fun x hx ↦ ?_, fun x hx ↦ ?_⟩
    · rw [hleads, List.mem_singleton] at hx
      exact ⟨f, q, hx ▸ hnew⟩
    · have hxc : x ≠ c := by
        rintro rfl
        simp [hleads, hret.symm] at hx
      by_cases hxq : x = q
      · exact ⟨f, m, hxq ▸ hnew⟩
      · rw [Graph.successors_attach_of_ne hxc hxq] at hx
        exact absurd (halone x hx) hxc

/-- A call of a function that was not linked yet is attached. -/
theorem attach (h : s.Wired prog looked c ret call) (hprog : prog.Coherent) (hf : s.Denotes prog target f)
    (hadmits : prog.Admits call f) (hnot : ¬looked target)
    (hsite : ∀ {inst}, prog.kindAt call = some (.instruction inst) → ⟨.indirect, c⟩ ∈ s.callGraph.sites inst.function f)
    (hlt : ∀ target, looked target → target < s.graph.size) (hdef : ∃ fn, prog.functions[f]? = some fn ∧
    fn.isDeclaration = false) (hunknown : target ≠ unknownTarget) :
    ({ s with graph := s.graph.attach c ret m q } : Lowering).Wired prog (fun x ↦ x = target ∨ looked x) c
    ret call := by
  have hst := attach_amends hs hcall hpair hm hvacant
  have ht := hst.valid hs hcall
  have hnew := link_attach hs hcall hpair hjoins hm hvacant
  have hiff {g : FuncId} {m' q' : NodeId} :
      ({ s with graph := s.graph.attach c ret m q } : Lowering).Links prog c ret call g m' q' ↔
        s.Links prog c ret call g m' q' ∨ (g = f ∧ m' = m ∧ q' = q) :=
    links_attach_iff hs hcall hpair hjoins hm hvacant h
  -- The function was not linked before: its node is the one that had not been looked at.
  have hfresh {m' q' : NodeId} : ¬s.Links prog c ret call f m' q' := by
    intro hlink
    obtain ⟨x, hx, hxf, -⟩ := h.source hlink
    exact hnot (hf.unique hxf hprog ▸ hx)
  refine
    { free := fun hnone ↦ absurd hnew (hnone f m q)
      taken := fun _ ↦ taken_attach hs hcall hpair hjoins hm hvacant h
      results := fun ⟨n, hn, hop⟩ ↦ ?_
      unique := fun hlink hlink' ↦ ?_
      source := fun hlink ↦ ?_
      answers := fun hx ↦ ?_ }
  · obtain ⟨n₀, hn₀, hops⟩ := Graph.nodes_attach hn
    rw [hops, if_pos rfl, List.mem_append, List.mem_singleton] at hop
    rcases hop with hop | rfl
    · refine (h.results ⟨n₀, hn₀, hop⟩).imp_right fun ⟨g, m', hlink⟩ ↦ ⟨g, m', hiff.2 (.inl hlink)⟩
    · exact .inr ⟨f, m, hnew⟩
  · rcases hiff.1 hlink with hlink | ⟨rfl, rfl, rfl⟩
    · rcases hiff.1 hlink' with hlink' | ⟨rfl, -⟩
      · exact h.unique hlink hlink'
      · exact absurd hlink hfresh
    · rcases hiff.1 hlink' with hlink' | ⟨-, hm', -⟩
      · exact absurd hlink' hfresh
      · exact hm'
  · rcases hiff.1 hlink with hlink | ⟨rfl, -⟩
    · obtain ⟨x, hx, hxf, hxadmits⟩ := h.source hlink
      exact ⟨x, .inr hx, hxf.mono hst.keeps, hxadmits⟩
    · exact ⟨target, .inl rfl, hf.mono hst.keeps, hadmits⟩
  · rcases hx with rfl | hx
    · refine ⟨fun heq ↦ absurd heq hunknown, fun hg hinst hfn _ ↦ ?_⟩
      obtain rfl := (hf.mono hst.keeps).function_eq hg ht
      obtain ⟨fn', hfn', hdef⟩ := hdef
      obtain rfl := Option.mem_unique hfn hfn'
      exact ⟨hsite hinst, fun hdecl ↦ by simp [hdef] at hdecl, fun _ ↦ ⟨m, q, hnew⟩⟩
    · exact (h.answers hx).mono hs ht hst.keeps (hlt _ hx) fun g m' q' hlink ↦ hiff.2 (.inl hlink)

end

end Wired

end Lowering

end PointsTo
