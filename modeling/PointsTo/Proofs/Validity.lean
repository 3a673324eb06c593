import PointsTo.Lowering.Relevance
import PointsTo.Program.Blocks
import PointsTo.Proofs.CallSites
import PointsTo.Proofs.Roles

/-!
# Valid states of lowering

A state of lowering is valid if its tables and its graph agree: the node of a value is of a kind that
fits the value, calls are paired with their return sites, and the chains that are recorded for
blocks, formals and globals begin and end with nodes of the right roles.  What is valid stays valid
while the state grows, so a step has to account only for what it adds.
-/

namespace PointsTo

/-- Integers that are computed this way keep the address that an operand carries. -/
def Opcode.stems : Opcode → Bool
  | .cast .bitcast | .cast .zext | .cast .sext => true
  | .binary .add | .binary .sub | .binary .mul | .binary .sdiv | .binary .udiv | .binary .srem | .binary .urem => true
  | _ => false

namespace Program

variable (prog : Program)

/-- A call that does not name the function that it calls. -/
def Indirect (call : ValueId) : Prop :=
  (∃ inst, prog.kindAt call = some (.instruction inst)) ∧ prog.calledFunction? call = .ok none

/-- The call fills memory with the same byte.  Such calls are lowered without a name. -/
def Fills (call : ValueId) : Prop :=
  ∃ f fn, prog.calledFunction? call = .ok (some f) ∧ prog.functions[f]? = some fn ∧ fn.isDeclaration = true ∧
    Intrinsic.ofName? fn.name = some .memset

/-- One of the parameters of the function is a pointer. -/
def TakesPointer (f : FuncId) : Prop :=
  ∃ fn, prog.functions[f]? = some fn ∧ ∃ param ∈ fn.params, prog.isPointer param = .ok true

/-- Neither the function nor any that it reaches by direct calls touches pointers. -/
def Quiet (f : FuncId) : Prop :=
  ∃ quiet : FuncId → Prop, quiet f ∧ ∀ g, quiet g → ∃ callees, prog.localCallees g = .ok (some callees) ∧
  ∀ h ∈ callees, quiet h

/-- What is remembered about functions is true. -/
def Truthful (known : OrderedMap FuncId Bool) : Prop := ∀ f b, known.get? f = some b → (b = false ↔ prog.Quiet f)

/-- The first value is computed from the second one alone: by a cast, or with a constant for the other operand. -/
def Stems (v w : ValueId) : Prop :=
  ∃ inst, prog.kindAt v = some (.instruction inst) ∧ inst.opcode.stems = true ∧ (inst.operands = [w] ∨
    ∃ op c n, inst.opcode = .binary op ∧ prog.intConstant? c = .ok (some n) ∧
      (inst.operands = [w, c] ∨ inst.operands = [c, w]))

/-- Control can reach the block. -/
def Reaches (f : FuncId) (b : BlockId) : Prop :=
  ∃ fn blocks, prog.functions[f]? = some fn ∧ fn.reachableBlocks = .ok blocks ∧ b ∈ blocks

/-- The instruction stands in a block of the function that control can reach. -/
def Visits (f : FuncId) (v : ValueId) (inst : Instruction) : Prop :=
  prog.kindAt v = some (.instruction inst) ∧ inst.function = f ∧ prog.Reaches f inst.block

end Program

/-- The node is of a kind that fits a value of this kind.  Constants have nodes only if they are
expressions. -/
def ValueKind.Fits (v : ValueId) (n : Node) : ValueKind → Prop
  | .instruction inst => inst.isPhi = true → n.kind = .phi
  | .argument .. => n.kind = .phi
  | .global _ => n.kind = .alloc
  | .function _ => n.kind = .function ∧ n.value = some v
  | .constant (.expr ..) => True
  | _ => False

theorem ValueKind.Fits.mono {v : ValueId} {n m : Node} {k : ValueKind} (h : k.Fits v n) (hnm : n.Persists m) :
    k.Fits v m := by
  unfold ValueKind.Fits at h ⊢
  split at h
  · exact fun hphi ↦ hnm.kind.trans (h hphi)
  · exact hnm.kind.trans h
  · exact hnm.kind.trans h
  · exact ⟨hnm.kind.trans h.1, hnm.value _ h.2⟩
  · trivial
  · contradiction

namespace Lowering

/-! ## Judgements -/

/-- What is remembered about functions in the first state is remembered in the second. -/
def Recalls (s t : Lowering) : Prop := ∀ {f b}, s.relevance.get? f = some b → t.relevance.get? f = some b

variable (prog : Program) (s : Lowering)

/-- The instruction is judged relevant, or not, in this state and in every later one. -/
def Judged (v : ValueId) (b : Bool) : Prop := ∀ t, s.Recalls t → Lower.isRelevant prog v t = .ok b t

/-- The instruction has its node, or needs none unless it is asked for. -/
def Met (v : ValueId) : Prop := s.nodes.get? v ≠ none ∨ s.Judged prog v false

/-! ## Validity -/

/-- The function that the value belongs to has a record. -/
def Housed (v : ValueId) : Prop := ∀ f, prog.home? v = some f → s.records.get? f ≠ none

/-- The instructions that the value is computed from have nodes. -/
def Sourced (v : ValueId) : Prop :=
  prog.Scoped → ∀ {w source}, prog.Stems v w → prog.kindAt w = some (.instruction source) → s.nodes.get? w ≠ none

/-- The node may be the node of the value. -/
def Fits (v : ValueId) (id : NodeId) : Prop :=
  ∃ k, prog.kindAt v = some k ∧ s.At (fun _ n ↦ k.Fits v n) id

/-- What a node of a kind that comes with a value or a partner has to have. -/
structure NodeValid (a : NodeId) (n : Node) : Prop where
  function : n.kind = .function → ∃ v f, n.value = some v ∧ prog.kindAt v = some (.function f) ∧
    s.nodes.get? v = some a
  indirect : n.kind = .indirectCall → ∃ call r, n.value = some call ∧ n.paired = some r ∧
    prog.Indirect call ∧ (prog.Scoped → s.Housed prog call) ∧ s.At (fun _ m ↦ m.kind = .ret ∧ m.paired = some a) r
  call : n.kind = .call → n.paired ≠ some a → ∃ call q, n.value = some call ∧ n.paired = some q ∧
    s.At (fun _ m ↦ m.kind = .callReturn ∧ m.paired = some a ∧ m.value = some call) q

/-- What is recorded about a function. -/
structure RecordValid (f : FuncId) (r : FunctionRecord) : Prop where
  entry : s.At (fun _ n ↦ n.kind = .entry) r.entry
  exit : s.At (fun _ n ↦ n.kind = .noop) r.exit
  formals : ∀ {span}, r.formals = some span →
    s.At (fun _ n ↦ n.kind = .phi) span.first ∧ s.At (fun _ n ↦ n.kind = .phi) span.last
  variadic : ∀ {id}, r.variadic = some id → s.At (fun _ n ↦ n.kind = .phi) id
  rest : ∀ {fn}, prog.functions[f]? = some fn → fn.variadic = true → r.variadic ≠ none
  formal : ∀ {fn param}, prog.functions[f]? = some fn → param ∈ fn.params → prog.isPointer param = .ok true →
    s.nodes.get? param ≠ none
  returns : ∀ id ∈ r.returns, s.At (fun _ n ↦ n.kind = .ret ∧ n.paired = none ∧ ∃ v, n.value = some v) id
  awaiting : ∀ q ∈ r.awaiting, r.exit < q ∧ ∃ m, s.At (fun _ n ↦ n.kind = .callReturn ∧ n.paired = some m) q ∧
    s.At (Node.Held prog) m ∧ r.entry ∈ s.graph.successors m
  nodup : r.awaiting.Nodup
  unplaced : ∀ x ∈ r.unplaced, s.Starts prog x.2.first ∧ s.Extends prog x.2.last ∧
    ∃ inst, prog.kindAt x.1 = some (.instruction inst) ∧ inst.function = f ∧ inst.opcode ≠ .ret
  unplacedFormals : ∀ id ∈ r.unplacedFormals, s.At (fun _ n ↦ n.kind = .phi) id
  closed : r.complete = true → ∀ id ∈ r.returns, s.At (fun _ n ↦ n.Closing prog) id →
    r.exit ∈ s.graph.successors id
  addresses : ∀ v ∈ r.addresses, ∃ inst, prog.kindAt v = some (.instruction inst) ∧ inst.function = f ∧
    inst.opcode = .cast .ptrToInt
  met : r.phisAttached = true → ∀ {v inst}, prog.Visits f v inst → s.Met prog v

/-- The chain of a block.  It can be opened at its end, unless it ends with the return of the block. -/
structure BlockValid (f : FuncId) (b : BlockId) (span : Span) : Prop where
  first : s.Accepts span.first
  last : s.Ends prog span.last
  closed : s.At (fun _ n ↦ n.Open prog) span.last ∨
    ∃ v, prog.EndsBlock v ∧ (prog.instsOf f b).getLast? = some v ∧ s.placed.get? v ≠ none

/-- The tables and the graph agree. -/
structure Valid : Prop where
  null : s.At (fun _ n ↦ n.kind = .null) nullTarget
  unknown : s.At (fun _ n ↦ n.kind = .unknownMemory) unknownTarget
  twoWay : s.graph.TwoWay
  /-- The call itself and its return sites are all that leads to the return of a call through a pointer. -/
  returning : ∀ {x y}, s.At (fun _ n ↦ n.Returning) y → y ∈ s.graph.successors x → s.At (Node.Held prog) x
  node : ∀ {a : NodeId} {n : Node}, s.graph.nodes[a]? = some n → s.NodeValid prog a n
  named : ∀ {v id}, s.nodes.get? v = some id → s.Fits prog v id
  housed : prog.Scoped → ∀ {v id}, s.nodes.get? v = some id → s.Housed prog v
  sourced : ∀ {v}, s.nodes.get? v ≠ none → s.Sourced prog v
  record : ∀ {f r}, s.records.get? f = some r → s.RecordValid prog f r
  entries : ∀ {f g r r'}, s.records.get? f = some r → s.records.get? g = some r' → r.entry = r'.entry → f = g
  block : ∀ {f b span}, s.blocks.get? (f, b) = some (some span) → s.BlockValid prog f b span
  placed : ∀ {v id}, s.placed.get? v = some id → s.Starts prog id
  globals : ∀ {span}, s.globals = some (some span) → span.first < s.graph.size ∧ s.Ends prog span.last
  relevance : prog.Truthful s.relevance
  sites : ∀ h f, (s.callGraph.sites h f).Nodup
  started : ∀ {f}, s.records.get? f ≠ none → s.globals ≠ none

variable {prog s} {t : Lowering} {a b : NodeId} {n m : Node} {v : ValueId} {f : FuncId} {id : NodeId}

/-! ## What is valid stays valid -/

theorem Judged.mono {b : Bool} (h : s.Judged prog v b) (hst : s.Keeps prog t) : t.Judged prog v b :=
  fun u htu ↦ h u fun hf ↦ htu (hst.relevance hf)

theorem Sourced.mono (h : s.Sourced prog v) (hst : s.Keeps prog t) : t.Sourced prog v :=
  fun hscoped {_ _} hstems hw ↦ hst.isNamed (h hscoped hstems hw)

theorem Sourced.of_kind {k : ValueKind} (hv : prog.kindAt v = some k) (hk : ∀ inst, k = .instruction inst →
    inst.opcode.stems = false) : s.Sourced prog v := by
  intro _ w _ hstems
  obtain ⟨inst, hinst, hopcode, -⟩ := hstems
  simp [hk inst (Option.mem_unique hv hinst)] at hopcode

theorem Met.mono (h : s.Met prog v) (hst : s.Keeps prog t) : t.Met prog v :=
  h.imp hst.isNamed fun hjudged ↦ hjudged.mono hst

namespace Keeps

theorem housed (h : s.Keeps prog t) (hv : s.Housed prog v) : t.Housed prog v := fun f hf ↦ h.recorded (hv f hf)

theorem fits (h : s.Keeps prog t) (hfits : s.Fits prog v id) : t.Fits prog v id := by
  obtain ⟨k, hk, hid⟩ := hfits
  exact ⟨k, hk, hid.mono h.graph fun _ _ hnm hn ↦ hn.mono hnm⟩

theorem nodeValid (h : s.Keeps prog t) (hvalid : s.NodeValid prog a n) (hnm : n.Persists m) :
    t.NodeValid prog a m := by
  refine ⟨fun hk ↦ ?_, fun hk ↦ ?_, fun hk hp ↦ ?_⟩
  · obtain ⟨v, f, hv, hf, ha⟩ := hvalid.function (hnm.kind ▸ hk)
    exact ⟨v, f, hnm.value v hv, hf, h.named_lasting (.inr ⟨f, hf⟩) ha⟩
  · obtain ⟨call, r, hcall, hr, hindirect, hhoused, hat⟩ := hvalid.indirect (hnm.kind ▸ hk)
    refine ⟨call, r, hnm.value call hcall, hnm.paired.trans hr, hindirect, fun hscoped ↦ h.housed (hhoused hscoped), ?_⟩
    exact hat.mono h.graph fun _ _ hkl hkind ↦ ⟨hkl.kind.trans hkind.1, hkl.paired.trans hkind.2⟩
  · obtain ⟨call, q, hcall, hq, hat⟩ := hvalid.call (hnm.kind ▸ hk) (hnm.paired ▸ hp)
    refine ⟨call, q, hnm.value call hcall, hnm.paired.trans hq, ?_⟩
    exact hat.mono h.graph fun _ _ hkl hkind ↦
      ⟨hkl.kind.trans hkind.1, hkl.paired.trans hkind.2.1, hkl.value _ hkind.2.2⟩

theorem recordValid (h : s.Keeps prog t) {r : FunctionRecord} (hr : s.records.get? f = some r)
    (hvalid : s.RecordValid prog f r) : t.RecordValid prog f r where
  entry := hvalid.entry.mono_kind h.graph
  exit := hvalid.exit.mono_kind h.graph
  formals hspan := ⟨(hvalid.formals hspan).1.mono_kind h.graph, (hvalid.formals hspan).2.mono_kind h.graph⟩
  variadic hid := (hvalid.variadic hid).mono_kind h.graph
  rest := hvalid.rest
  formal hfn hparam hpointer := h.isNamed (hvalid.formal hfn hparam hpointer)
  returns id hid := (hvalid.returns id hid).mono h.graph fun _ _ hnm ⟨hk, hp, v, hv⟩ ↦
    ⟨hnm.kind.trans hk, hnm.paired.trans hp, v, hnm.value v hv⟩
  awaiting q hq := by
    obtain ⟨hlt, m, hsite, hheld, hentry⟩ := hvalid.awaiting q hq
    refine ⟨hlt, m, ?_, h.isHeld hheld, ?_⟩
    · exact hsite.mono h.graph fun _ _ hnm hn ↦ ⟨hnm.kind.trans hn.1, hnm.paired.trans hn.2⟩
    · apply h.firm _ _ _ hentry
      · exact .inl (hheld.imp fun _ hn ↦ .inl hn)
      · exact .inl (hvalid.entry.imp fun _ hn ↦ .inl hn)
      · exact hvalid.entry.accepts (by simp)
  nodup := hvalid.nodup
  unplaced x hx := by
    obtain ⟨hfirst, hlast, hinst⟩ := hvalid.unplaced x hx
    exact ⟨h.starts hfirst, h.extending hlast, hinst⟩
  unplacedFormals id hid := (hvalid.unplacedFormals id hid).mono_kind h.graph
  closed hcomplete id hid hclosing := by
    -- The return had its value before, so it was at the end of its block before.
    obtain ⟨n, hn, hk, hp, v, hv⟩ := hvalid.returns id hid
    obtain ⟨m, hm, hnm⟩ := h.graph.node hn
    obtain ⟨l, hl, -, -, w, hw, hends⟩ := hclosing
    obtain rfl := Option.mem_unique hm hl
    rw [hnm.value v hv, Option.some.injEq] at hw
    have hclosing : n.Closing prog := ⟨hk, hp, v, hv, hw ▸ hends⟩
    apply h.firm
    · exact .inl ⟨n, hn, .inr hclosing⟩
    · exact .inr ⟨f, r, hr, rfl⟩
    · exact hvalid.exit.accepts (by simp)
    · exact hvalid.closed hcomplete id hid ⟨n, hn, hclosing⟩
  addresses := hvalid.addresses
  met hattached _ _ hv := (hvalid.met hattached hv).mono h

theorem blockValid (h : s.Keeps prog t) {b : BlockId} {span : Span} (hvalid : s.BlockValid prog f b span) :
    t.BlockValid prog f b span where
  first := h.accepts hvalid.first
  last := h.ends hvalid.last
  closed := by
    refine hvalid.closed.imp h.isOpen ?_
    rintro ⟨v, hends, hlast, hplaced⟩
    exact ⟨v, hends, hlast, h.placed hplaced⟩

end Keeps

/-! ## Steps -/

/-- A step of lowering.  What it adds to the tables and to the graph is valid. -/
structure Adds (prog : Program) (s t : Lowering) : Prop where
  keeps : s.Keeps prog t
  twoWay : t.graph.TwoWay
  returning : ∀ {x y}, t.At (fun _ n ↦ n.Returning) y → y ∈ t.graph.successors x →
    (s.At (fun _ n ↦ n.Returning) y ∧ y ∈ s.graph.successors x) ∨ t.At (Node.Held prog) x := by
      exact fun hy hxy ↦ .inl ⟨hy, hxy⟩
  node : ∀ {a : NodeId} {n : Node}, s.graph.size ≤ a → t.graph.nodes[a]? = some n → t.NodeValid prog a n
  named : ∀ {v id}, t.nodes.get? v = some id →
    s.nodes.get? v = some id ∨ (t.Fits prog v id ∧ (prog.Scoped → t.Housed prog v) ∧ t.Sourced prog v) := by
      exact fun h ↦ .inl h
  record : ∀ {f r}, t.records.get? f = some r →
    s.records.get? f = some r ∨ t.RecordValid prog f r := by exact fun h ↦ .inl h
  recorded : ∀ {f g}, s.records.get? f = none → t.records.get? f ≠ none → s.records.get? g = none →
    t.records.get? g ≠ none → f = g := by exact fun h h' ↦ absurd h h'
  block : ∀ {f b span}, t.blocks.get? (f, b) = some (some span) →
    s.blocks.get? (f, b) = some (some span) ∨ t.BlockValid prog f b span := by exact fun h ↦ .inl h
  placed : ∀ {v id}, t.placed.get? v = some id →
    s.placed.get? v = some id ∨ t.Starts prog id := by exact fun h ↦ .inl h
  globals : ∀ {span}, t.globals = some (some span) → s.globals = some (some span) ∨
    (span.first < t.graph.size ∧ t.Ends prog span.last) := by exact fun h ↦ .inl h
  relevance : prog.Truthful s.relevance → prog.Truthful t.relevance := by exact fun h ↦ h
  sites : (∀ h f, (s.callGraph.sites h f).Nodup) → ∀ h f, (t.callGraph.sites h f).Nodup := by exact fun h ↦ h
  started : ∀ {f}, s.records.get? f = none → t.records.get? f ≠ none → t.globals ≠ none := by
    exact fun h h' ↦ absurd h h'

theorem Valid.adds (hs : s.Valid prog) (h : s.Adds prog t) : t.Valid prog where
  null := hs.null.mono_kind h.keeps.graph
  unknown := hs.unknown.mono_kind h.keeps.graph
  twoWay := h.twoWay
  returning hy hxy := by
    rcases h.returning hy hxy with ⟨hy, hxy⟩ | hheld
    · exact h.keeps.isHeld (hs.returning hy hxy)
    · exact hheld
  node := by
    intro a m hm
    rcases Nat.lt_or_ge a s.graph.size with ha | ha
    · obtain ⟨n, hn⟩ := Graph.exists_node ha
      obtain ⟨l, hl, hnl⟩ := h.keeps.graph.node hn
      obtain rfl := Option.mem_unique hm hl
      exact h.keeps.nodeValid (hs.node hn) hnl
    · exact h.node ha hm
  named hid := by
    rcases h.named hid with hid | ⟨hfits, -⟩
    · exact h.keeps.fits (hs.named hid)
    · exact hfits
  housed hscoped _ _ hid := by
    rcases h.named hid with hid | ⟨-, hhoused, -⟩
    · exact h.keeps.housed (hs.housed hscoped hid)
    · exact hhoused hscoped
  sourced {v} hv := by
    obtain ⟨id, hid⟩ := Option.ne_none_iff_exists'.1 hv
    rcases h.named hid with hid | ⟨-, -, hsourced⟩
    · exact (hs.sourced (by simp [hid])).mono h.keeps
    · exact hsourced
  record hr := by
    rcases h.record hr with hr | hr
    · exact h.keeps.recordValid hr (hs.record hr)
    · exact hr
  entries := by
    -- The entry of a function that was recorded before is an old node.
    have hold {f : FuncId} {r : FunctionRecord} (hf : s.records.get? f ≠ none) (hr : t.records.get? f = some r) :
        ∃ r₀, s.records.get? f = some r₀ ∧ r.entry = r₀.entry ∧ r₀.entry < s.graph.size := by
      obtain ⟨r₀, hr₀⟩ := Option.ne_none_iff_exists'.1 hf
      obtain ⟨r', hr', hpers⟩ := h.keeps.record hr₀
      obtain rfl := Option.mem_unique hr hr'
      exact ⟨r₀, hr₀, hpers.entry, (hs.record hr₀).entry.lt_size⟩
    intro f g r r' hr hr' hentry
    by_cases hf : s.records.get? f = none
    · have hfresh := (h.keeps.fresh hr hf).1
      by_cases hg : s.records.get? g = none
      · exact h.recorded hf (by simp [hr]) hg (by simp [hr'])
      · obtain ⟨r₀, -, hentry', hlt⟩ := hold hg hr'
        rw [hentry, hentry'] at hfresh
        exact absurd hlt (Nat.not_lt.2 hfresh)
    · obtain ⟨r₀, hr₀, hentry₀, hlt⟩ := hold hf hr
      by_cases hg : s.records.get? g = none
      · have hfresh := (h.keeps.fresh hr' hg).1
        rw [← hentry, hentry₀] at hfresh
        exact absurd hlt (Nat.not_lt.2 hfresh)
      · obtain ⟨r₁, hr₁, hentry₁, -⟩ := hold hg hr'
        exact hs.entries hr₀ hr₁ (hentry₀.symm.trans (hentry.trans hentry₁))
  block hspan := by
    rcases h.block hspan with hspan | hspan
    · exact h.keeps.blockValid (hs.block hspan)
    · exact hspan
  placed hid := by
    rcases h.placed hid with hid | hid
    · exact h.keeps.starts (hs.placed hid)
    · exact hid
  globals hspan := by
    rcases h.globals hspan with hspan | hspan
    · obtain ⟨hfirst, hlast⟩ := hs.globals hspan
      exact ⟨hfirst.trans_le h.keeps.size_le, h.keeps.ends hlast⟩
    · exact hspan
  relevance := h.relevance hs.relevance
  sites := h.sites hs.sites
  started := by
    intro f hf
    by_cases hold : s.records.get? f = none
    · exact h.started hold hf
    · exact h.keeps.globals (hs.started hold)

/-- Nothing is lowered yet. -/
theorem Valid.initial (prog : Program) (journal : Journal) : Valid prog { journal } where
  null := ⟨_, rfl, rfl⟩
  unknown := ⟨_, rfl, rfl⟩
  twoWay := .sentinels
  returning := by
    rintro x y ⟨n, hn, hret⟩
    rcases y with _ | _ | y
    all_goals
      simp [Graph.sentinels] at hn
      try (rw [← hn] at hret; exact absurd hret.1 (by simp))
  node := by
    intro a n hn
    refine ⟨fun hk ↦ ?_, fun hk ↦ ?_, fun hk ↦ ?_⟩
    all_goals
      rcases a with _ | _ | a
      all_goals
        simp [Graph.sentinels] at hn
        try (rw [← hn] at hk; contradiction)
  named hid := by simp at hid
  housed _ _ _ hid := by simp at hid
  sourced hv := by simp at hv
  record hr := by simp at hr
  entries hr := by simp at hr
  block hspan := by simp at hspan
  placed hid := by simp at hid
  globals hspan := by simp at hspan
  relevance _ _ hf := by simp at hf
  sites _ _ := List.nodup_nil
  started hf := by simp at hf

end Lowering

end PointsTo
