import PointsTo.Lowering.State
import PointsTo.Proofs.Coherence
import PointsTo.Proofs.Edges

/-!
# Roles of nodes in a graph under construction

Lowering joins nodes to chains, and splices further chains into them.  What a chain may start and end
with, and where it may be opened, depends on the node: a call leads to its callee and to nothing
else, and nothing else leads to the entry of a function.  These roles are read off the kind, the
partner and the value of a node, which never change once they are set, so a node keeps its roles.

`Keeps` and `Grows` are what lowering leaves as it is.  In particular it keeps the edges of calls,
which no splice takes apart.
-/

namespace PointsTo

namespace Program

variable (prog : Program)

/-- The call names the function that it calls. -/
def Direct (call : ValueId) : Prop := ∃ f, prog.calledFunction? call = .ok (some f)

/-- The return that a block ends with. -/
def EndsBlock (v : ValueId) : Prop :=
  ∃ inst, prog.kindAt v = some (.instruction inst) ∧ inst.opcode = .ret ∧
    (prog.instsOf inst.function inst.block).getLast? = some v

end Program

/-! ## Roles -/

namespace Node

variable (prog : Program) (id : NodeId) (n : Node)

/-- Control may leave the node for what comes next. -/
structure Ends : Prop where
  indirect : n.kind ≠ .indirectCall
  call : n.kind = .call → n.paired = some id
  site : n.kind = .callReturn → ∃ v, n.value = some v ∧ prog.Direct v

/-- Control may come to the node from what goes before. -/
structure Starts : Prop where
  entry : n.kind ≠ .entry
  site : n.kind ≠ .callReturn
  ret : n.kind = .ret → n.paired = none
  call : n.kind = .call → n.paired = some id ∨ ∃ v, n.value = some v ∧ prog.Direct v

/-- The node is no return at the end of its block. -/
def Open : Prop := n.kind = .ret → n.paired = none → ∃ v, n.value = some v ∧ ¬prog.EndsBlock v

/-- Control leaves the node for a callee, or for the return of a call through a pointer. -/
def Held : Prop :=
  n.kind = .indirectCall ∨ (n.kind = .call ∧ n.paired ≠ some id) ∨
    (n.kind = .callReturn ∧ ∃ v, n.value = some v ∧ ¬prog.Direct v)

/-- A return at the end of its block. -/
def Closing : Prop := n.kind = .ret ∧ n.paired = none ∧ ∃ v, n.value = some v ∧ prog.EndsBlock v

/-- The return of a call through a pointer. -/
def Returning : Prop := n.kind = .ret ∧ n.paired ≠ none

/-- Control comes to the node from a caller, a callee or a call through a pointer. -/
def Sealed : Prop :=
  n.kind = .entry ∨ n.kind = .callReturn ∨ n.Returning ∨
    (n.kind = .call ∧ n.paired ≠ some id ∧ ∃ v, n.value = some v ∧ ¬prog.Direct v)

variable {prog id n} {m : Node}

theorem returning_iff (hnm : n.Persists m) : m.Returning ↔ n.Returning := by
  unfold Returning
  rw [hnm.kind, hnm.paired]

theorem Ends.mono (h : n.Ends prog id) (hnm : n.Persists m) : m.Ends prog id := by
  refine ⟨hnm.kind ▸ h.indirect, fun hk ↦ ?_, fun hk ↦ ?_⟩
  · rw [hnm.paired]
    exact h.call (hnm.kind ▸ hk)
  · obtain ⟨v, hv, hdirect⟩ := h.site (hnm.kind ▸ hk)
    exact ⟨v, hnm.value v hv, hdirect⟩

theorem Starts.mono (h : n.Starts prog id) (hnm : n.Persists m) : m.Starts prog id := by
  refine ⟨hnm.kind ▸ h.entry, hnm.kind ▸ h.site, fun hk ↦ ?_, fun hk ↦ ?_⟩
  · rw [hnm.paired]
    exact h.ret (hnm.kind ▸ hk)
  · rw [hnm.paired]
    refine (h.call (hnm.kind ▸ hk)).imp_right fun ⟨v, hv, hdirect⟩ ↦ ?_
    exact ⟨v, hnm.value v hv, hdirect⟩

theorem Open.mono (h : n.Open prog) (hnm : n.Persists m) : m.Open prog := by
  intro hk hp
  obtain ⟨v, hv, hends⟩ := h (hnm.kind ▸ hk) (hnm.paired ▸ hp)
  exact ⟨v, hnm.value v hv, hends⟩

theorem Held.mono (h : n.Held prog id) (hnm : n.Persists m) : m.Held prog id := by
  unfold Held at h ⊢
  rw [hnm.kind, hnm.paired]
  refine h.imp_right (Or.imp_right ?_)
  rintro ⟨hk, v, hv, hdirect⟩
  exact ⟨hk, v, hnm.value v hv, hdirect⟩

theorem Closing.mono (h : n.Closing prog) (hnm : n.Persists m) : m.Closing prog := by
  obtain ⟨hk, hp, v, hv, hends⟩ := h
  exact ⟨hnm.kind ▸ hk, hnm.paired ▸ hp, v, hnm.value v hv, hends⟩

theorem Sealed.mono (h : n.Sealed prog id) (hnm : n.Persists m) : m.Sealed prog id := by
  unfold Sealed at h ⊢
  rw [hnm.kind, hnm.paired, returning_iff hnm]
  refine h.imp_right (Or.imp_right (Or.imp_right ?_))
  rintro ⟨hk, hp, v, hv, hdirect⟩
  exact ⟨hk, hp, v, hnm.value v hv, hdirect⟩

theorem Held.not_ends (h : n.Held prog id) : ¬n.Ends prog id := by
  intro hends
  rcases h with hk | ⟨hk, hp⟩ | ⟨hk, v, hv, hdirect⟩
  · exact hends.indirect hk
  · exact hp (hends.call hk)
  · obtain ⟨w, hw, hdirect'⟩ := hends.site hk
    rw [hv, Option.some.injEq] at hw
    exact hdirect (hw ▸ hdirect')

theorem Closing.not_open (h : n.Closing prog) : ¬n.Open prog := by
  obtain ⟨hk, hp, v, hv, hends⟩ := h
  intro hopen
  obtain ⟨w, hw, hends'⟩ := hopen hk hp
  rw [hv, Option.some.injEq] at hw
  exact hends' (hw ▸ hends)

theorem Sealed.not_starts (h : n.Sealed prog id) : ¬n.Starts prog id := by
  intro hstarts
  rcases h with hk | hk | ⟨hk, hp⟩ | ⟨hk, hp, v, hv, hdirect⟩
  · exact hstarts.entry hk
  · exact hstarts.site hk
  · exact hp (hstarts.ret hk)
  · rcases hstarts.call hk with hp' | ⟨w, hw, hdirect'⟩
    · exact hp hp'
    · rw [hv, Option.some.injEq] at hw
      exact hdirect (hw ▸ hdirect')

end Node

namespace Lowering

variable (prog : Program) (s : Lowering)

/-- The node exists and has the role. -/
def At (role : NodeId → Node → Prop) (a : NodeId) : Prop := ∃ n, s.graph.nodes[a]? = some n ∧ role a n

/-- The node to which the returns of a function lead. -/
def IsExit (a : NodeId) : Prop := ∃ f r, s.records.get? f = some r ∧ r.exit = a

/-- A chain may end with the node. -/
def Ends (a : NodeId) : Prop := s.At (Node.Ends prog) a ∧ ¬s.IsExit a

/-- A chain may start with the node. -/
def Starts (a : NodeId) : Prop := s.At (Node.Starts prog) a ∧ ¬s.IsExit a

/-- Nodes may be put behind the node. -/
def Extends (a : NodeId) : Prop := s.Ends prog a ∧ s.At (fun _ n ↦ n.Open prog) a

/-- The node may be led to from anywhere. -/
def Accepts (a : NodeId) : Prop := s.At (fun _ n ↦ ¬n.Returning) a

/-- A node whose edges to firm targets are never removed. -/
def FirmSource (a : NodeId) : Prop := s.At (fun id n ↦ n.Held prog id ∨ n.Closing prog) a ∨ s.IsExit a

/-- A node whose edges from firm sources are never removed. -/
def FirmTarget (a : NodeId) : Prop := s.At (Node.Sealed prog) a ∨ s.IsExit a

variable {prog s} {t u : Lowering} {a b x y : NodeId} {role role' : NodeId → Node → Prop}

theorem At.imp (h : s.At role a) (himp : ∀ n, role a n → role' a n) : s.At role' a := by
  obtain ⟨n, hn, hrole⟩ := h
  exact ⟨n, hn, himp n hrole⟩

theorem At.lt_size (h : s.At role a) : a < s.graph.size := by
  obtain ⟨n, hn, -⟩ := h
  exact Graph.lt_size_of_node hn

theorem Ends.lt_size (h : s.Ends prog a) : a < s.graph.size := h.1.lt_size

theorem Starts.lt_size (h : s.Starts prog a) : a < s.graph.size := h.1.lt_size

/-- A node that may end a chain and be followed by more is no firm source. -/
theorem Extends.not_firmSource (h : s.Extends prog a) : ¬s.FirmSource prog a := by
  obtain ⟨⟨⟨n, hn, hends⟩, hexit⟩, m, hm, hopen⟩ := h
  obtain rfl := Option.mem_unique hn hm
  rintro (⟨k, hk, hheld | hclosing⟩ | h)
  · obtain rfl := Option.mem_unique hn hk
    exact hheld.not_ends hends
  · obtain rfl := Option.mem_unique hn hk
    exact hclosing.not_open hopen
  · exact hexit h

theorem Ends.not_held (h : s.Ends prog a) : ¬s.At (Node.Held prog) a := by
  obtain ⟨⟨n, hn, hends⟩, -⟩ := h
  rintro ⟨m, hm, hheld⟩
  obtain rfl := Option.mem_unique hn hm
  exact hheld.not_ends hends

theorem Starts.accepts (h : s.Starts prog a) : s.Accepts a :=
  h.1.imp fun _ hn hret ↦ hret.2 (hn.ret hret.1)

theorem At.accepts {k : NodeKind} (h : s.At (fun _ n ↦ n.kind = k) a) (hk : k ≠ .ret) : s.Accepts a :=
  h.imp fun _ hn hret ↦ hk (hn.symm.trans hret.1)

theorem Starts.not_firmTarget (h : s.Starts prog a) : ¬s.FirmTarget prog a := by
  obtain ⟨⟨n, hn, hstarts⟩, hexit⟩ := h
  rintro (⟨m, hm, hsealed⟩ | h)
  · obtain rfl := Option.mem_unique hn hm
    exact hsealed.not_starts hstarts
  · exact hexit h

end Lowering

/-! ## Growth -/

/-- What a record always keeps. -/
structure FunctionRecord.Keeps (r r' : FunctionRecord) : Prop where
  entry : r'.entry = r.entry
  exit : r'.exit = r.exit
  variadic : r'.variadic = r.variadic

/-- What a record keeps while other functions are lowered.  Returns are added until the function is
complete, and the return sites that come to wait for them are no old nodes. -/
structure FunctionRecord.Persists (old : NodeId → Prop) (r r' : FunctionRecord) : Prop extends r.Keeps r' where
  complete : r'.complete = r.complete
  returns : r.complete = true → r'.returns = r.returns
  awaiting : ∃ new, r'.awaiting = r.awaiting ++ new ∧ ∀ q ∈ new, ¬old q

namespace FunctionRecord

variable {old old' : NodeId → Prop} {r r' r'' : FunctionRecord}

theorem Keeps.refl (r : FunctionRecord) : r.Keeps r := ⟨rfl, rfl, rfl⟩

theorem Keeps.trans (h : r.Keeps r') (h' : r'.Keeps r'') : r.Keeps r'' :=
  ⟨h'.entry.trans h.entry, h'.exit.trans h.exit, h'.variadic.trans h.variadic⟩

theorem Persists.refl (old : NodeId → Prop) (r : FunctionRecord) : r.Persists old r :=
  { Keeps.refl r with
    complete := rfl
    returns := fun _ ↦ rfl
    awaiting := ⟨[], (List.append_nil _).symm, by simp⟩ }

theorem Persists.trans (h : r.Persists old r') (h' : r'.Persists old r'') : r.Persists old r'' :=
  { h.toKeeps.trans h'.toKeeps with
    complete := h'.complete.trans h.complete
    returns := fun hr ↦ (h'.returns (h.complete.trans hr)).trans (h.returns hr)
    awaiting := by
      obtain ⟨new, hnew, hle⟩ := h.awaiting
      obtain ⟨new', hnew', hle'⟩ := h'.awaiting
      refine ⟨new ++ new', by rw [hnew', hnew, List.append_assoc], fun q hq ↦ ?_⟩
      rcases List.mem_append.1 hq with hq | hq
      · exact hle q hq
      · exact hle' q hq }

theorem Persists.mono (h : r.Persists old r') (hold : ∀ x, old' x → old x) : r.Persists old' r' :=
  { h with
    awaiting := by
      obtain ⟨new, hnew, hle⟩ := h.awaiting
      exact ⟨new, hnew, fun q hq hq' ↦ hle q hq (hold q hq')⟩ }

theorem Persists.not_mem_awaiting (h : r.Persists old r') {q : NodeId} (hq : old q) (hmem : q ∉ r.awaiting) :
    q ∉ r'.awaiting := by
  obtain ⟨new, hnew, hold⟩ := h.awaiting
  rw [hnew, List.mem_append]
  rintro (hq' | hq')
  · exact hmem hq'
  · exact hold q hq' hq

end FunctionRecord

/-- Values that keep the node that they have.  In a scoped program these are all values. -/
def Program.Lasting (prog : Program) (v : ValueId) : Prop :=
  prog.Scoped ∨ ∃ f, prog.kindAt v = some (.function f)

/-- What every part of lowering leaves as it is. -/
structure Lowering.Keeps (prog : Program) (s t : Lowering) : Prop where
  graph : s.graph.Persists t.graph
  record : ∀ {f r}, s.records.get? f = some r → ∃ r', t.records.get? f = some r' ∧ r.Keeps r'
  fresh : ∀ {f r'}, t.records.get? f = some r' → s.records.get? f = none →
    s.graph.size ≤ r'.entry ∧ s.graph.size ≤ r'.exit
  named : ∀ {v id}, s.nodes.get? v = some id →
    ∃ id', t.nodes.get? v = some id' ∧ (prog.Lasting v → id' = id)
  recent : prog.Scoped → ∀ {v id}, s.nodes.get? v = none → t.nodes.get? v = some id → s.graph.size ≤ id
  blocks : ∀ {x}, s.blocks.get? x ≠ none → t.blocks.get? x ≠ none
  placed : ∀ {v}, s.placed.get? v ≠ none → t.placed.get? v ≠ none
  globals : s.globals ≠ none → t.globals ≠ none
  relevance : ∀ {f b}, s.relevance.get? f = some b → t.relevance.get? f = some b
  sites : ∀ {h f site}, site ∈ s.callGraph.sites h f → site ∈ t.callGraph.sites h f
  /-- A call through a pointer no longer leads to its return once it is linked; all else is firm. -/
  firm : ∀ {x y}, s.FirmSource prog x → s.FirmTarget prog y → s.Accepts y → y ∈ s.graph.successors x →
    y ∈ t.graph.successors x

/-- What lowering leaves as it is of old nodes.  The calls among them are joined already, and the
functions among them are completed by nobody but the one who lowers them. -/
structure Lowering.Grows (prog : Program) (old : NodeId → Prop) (s t : Lowering) : Prop extends s.Keeps prog t where
  persists : ∀ {f r r'}, s.records.get? f = some r → t.records.get? f = some r' → old r.exit → r.Persists old r'
  held : ∀ {x : NodeId}, old x → s.At (Node.Held prog) x → (∀ y ∈ s.graph.successors x, s.FirmTarget prog y) →
    t.graph.successors x = s.graph.successors x
  /-- Only phis get operands one after the other. -/
  operands : ∀ {a : NodeId} {n m : Node}, old a → s.graph.nodes[a]? = some n → n.kind ≠ .phi →
    t.graph.nodes[a]? = some m → m.operands = n.operands
  /-- Nothing new leads to the return of a call through a pointer. -/
  arrivals : ∀ {x y : NodeId}, old y → s.At (fun _ n ↦ n.Returning) y → y ∈ t.graph.successors x →
    y ∈ s.graph.successors x

namespace Lowering

variable {prog : Program} {s t u : Lowering} {a b x y : NodeId} {role role' : NodeId → Node → Prop}

theorem At.mono (hg : s.graph.Persists t.graph) (h : s.At role a)
    (hrole : ∀ n m, n.Persists m → role a n → role' a m) : t.At role' a := by
  obtain ⟨n, hn, hrole'⟩ := h
  obtain ⟨m, hm, hnm⟩ := hg.node hn
  exact ⟨m, hm, hrole n m hnm hrole'⟩

/-- What returns from a call through a pointer did so from the start. -/
theorem At.returning_of_lt (hg : s.graph.Persists t.graph) (h : t.At (fun _ n ↦ n.Returning) a)
    (ha : a < s.graph.size) : s.At (fun _ n ↦ n.Returning) a := by
  obtain ⟨n, hn⟩ := Graph.exists_node ha
  obtain ⟨m, hm, hnm⟩ := hg.node hn
  obtain ⟨l, hl, hret⟩ := h
  obtain rfl := Option.mem_unique hm hl
  exact ⟨n, hn, (Node.returning_iff hnm).1 hret⟩

theorem At.mono_kind (hg : s.graph.Persists t.graph) {k : NodeKind} (h : s.At (fun _ n ↦ n.kind = k) a) :
    t.At (fun _ n ↦ n.kind = k) a :=
  h.mono hg fun _ _ hnm hk ↦ hnm.kind.trans hk

namespace Keeps

section

variable (h : s.Keeps prog t)

include h

theorem size_le : s.graph.size ≤ t.graph.size := h.graph.size_le

theorem isExit (ha : s.IsExit a) : t.IsExit a := by
  obtain ⟨f, r, hr, rfl⟩ := ha
  obtain ⟨r', hr', hkeeps⟩ := h.record hr
  exact ⟨f, r', hr', hkeeps.exit⟩

theorem not_isExit (ha : a < s.graph.size) (hexit : ¬s.IsExit a) : ¬t.IsExit a := by
  rintro ⟨f, r', hr', rfl⟩
  cases hr : s.records.get? f with
  | none => exact absurd (h.fresh hr' hr).2 (Nat.not_le.2 ha)
  | some r =>
    obtain ⟨r'', hr'', hkeeps⟩ := h.record hr
    obtain rfl := Option.mem_unique hr' hr''
    exact hexit ⟨f, r, hr, hkeeps.exit.symm⟩

theorem ends (ha : s.Ends prog a) : t.Ends prog a :=
  ⟨ha.1.mono h.graph fun _ _ hnm hn ↦ hn.mono hnm, h.not_isExit ha.lt_size ha.2⟩

theorem starts (ha : s.Starts prog a) : t.Starts prog a :=
  ⟨ha.1.mono h.graph fun _ _ hnm hn ↦ hn.mono hnm, h.not_isExit ha.lt_size ha.2⟩

theorem isOpen (ha : s.At (fun _ n ↦ n.Open prog) a) : t.At (fun _ n ↦ n.Open prog) a :=
  ha.mono h.graph fun _ _ hnm hn ↦ hn.mono hnm

theorem extending (ha : s.Extends prog a) : t.Extends prog a := ⟨h.ends ha.1, h.isOpen ha.2⟩

theorem accepts (ha : s.Accepts a) : t.Accepts a :=
  ha.mono h.graph fun _ _ hnm hn hm ↦ hn ((Node.returning_iff hnm).1 hm)

theorem isHeld (ha : s.At (Node.Held prog) a) : t.At (Node.Held prog) a :=
  ha.mono h.graph fun _ _ hnm hn ↦ hn.mono hnm

theorem firmSource (ha : s.FirmSource prog a) : t.FirmSource prog a := by
  refine ha.imp (fun ha ↦ ha.mono h.graph fun _ _ hnm hn ↦ ?_) h.isExit
  exact hn.imp (fun hheld ↦ hheld.mono hnm) fun hclosing ↦ hclosing.mono hnm

theorem firmTarget (ha : s.FirmTarget prog a) : t.FirmTarget prog a :=
  ha.imp (fun ha ↦ ha.mono h.graph fun _ _ hnm hn ↦ hn.mono hnm) h.isExit

theorem recorded {f : FuncId} (hf : s.records.get? f ≠ none) : t.records.get? f ≠ none := by
  obtain ⟨r, hr⟩ := Option.ne_none_iff_exists'.1 hf
  obtain ⟨r', hr', -⟩ := h.record hr
  simp [hr']

theorem isNamed {v : ValueId} (hv : s.nodes.get? v ≠ none) : t.nodes.get? v ≠ none := by
  obtain ⟨id, hid⟩ := Option.ne_none_iff_exists'.1 hv
  obtain ⟨id', hid', -⟩ := h.named hid
  simp [hid']

theorem named_lasting {v : ValueId} {id : NodeId} (hv : prog.Lasting v)
    (hid : s.nodes.get? v = some id) : t.nodes.get? v = some id := by
  obtain ⟨id', hid', hlasting⟩ := h.named hid
  rw [hid', hlasting hv]

end

theorem refl (prog : Program) (s : Lowering) : s.Keeps prog s where
  graph := .refl _
  record hr := ⟨_, hr, .refl _⟩
  fresh hr' hr := by rw [hr] at hr'; contradiction
  named hid := ⟨_, hid, fun _ ↦ rfl⟩
  recent _ _ _ hnone hsome := by rw [hnone] at hsome; contradiction
  blocks h := h
  placed h := h
  globals h := h
  relevance h := h
  sites h := h
  firm _ _ _ h := h

theorem trans (h : s.Keeps prog t) (h' : t.Keeps prog u) : s.Keeps prog u where
  graph := h.graph.trans h'.graph
  record hr := by
    obtain ⟨r', hr', hkeeps⟩ := h.record hr
    obtain ⟨r'', hr'', hkeeps'⟩ := h'.record hr'
    exact ⟨r'', hr'', hkeeps.trans hkeeps'⟩
  fresh := by
    intro f r'' hr'' hr
    cases hr' : t.records.get? f with
    | none =>
      obtain ⟨hentry, hexit⟩ := h'.fresh hr'' hr'
      exact ⟨h.size_le.trans hentry, h.size_le.trans hexit⟩
    | some r' =>
      obtain ⟨r₂, hr₂, hkeeps⟩ := h'.record hr'
      obtain rfl := Option.mem_unique hr'' hr₂
      rw [hkeeps.entry, hkeeps.exit]
      exact h.fresh hr' hr
  named hid := by
    obtain ⟨id', hid', hlasting⟩ := h.named hid
    obtain ⟨id'', hid'', hlasting'⟩ := h'.named hid'
    exact ⟨id'', hid'', fun hv ↦ (hlasting' hv).trans (hlasting hv)⟩
  recent hscoped {v id} hnone hsome := by
    cases ht : t.nodes.get? v with
    | none => exact h.size_le.trans (h'.recent hscoped ht hsome)
    | some id' =>
      rw [h'.named_lasting (.inl hscoped) ht, Option.some.injEq] at hsome
      exact hsome ▸ h.recent hscoped hnone ht
  blocks hx := h'.blocks (h.blocks hx)
  placed hv := h'.placed (h.placed hv)
  globals hg := h'.globals (h.globals hg)
  relevance hf := h'.relevance (h.relevance hf)
  sites hsite := h'.sites (h.sites hsite)
  firm hx hy hyes hxy := h'.firm (h.firmSource hx) (h.firmTarget hy) (h.accepts hyes) (h.firm hx hy hyes hxy)

end Keeps

namespace Grows

variable {old old' : NodeId → Prop}

theorem refl (prog : Program) (old : NodeId → Prop) (s : Lowering) : s.Grows prog old s :=
  { Keeps.refl prog s with
    persists := fun hr hr' _ ↦ Option.mem_unique hr hr' ▸ .refl _ _
    held := fun _ _ _ ↦ rfl
    operands := fun _ hn _ hm ↦ by rw [Option.mem_unique hn hm]
    arrivals := fun _ _ hxy ↦ hxy }

theorem trans (h : s.Grows prog old t) (h' : t.Grows prog old u) : s.Grows prog old u :=
  { h.toKeeps.trans h'.toKeeps with
    persists := fun hr hr'' hold ↦ by
      obtain ⟨r', hr', hkeeps⟩ := h.record hr
      exact (h.persists hr hr' hold).trans (h'.persists hr' hr'' (hkeeps.exit ▸ hold))
    held := fun hold hx hfirm ↦ by
      have hsame := h.held hold hx hfirm
      rw [← hsame]
      apply h'.held hold (h.isHeld hx)
      intro y hy
      rw [hsame] at hy
      exact h.firmTarget (hfirm y hy)
    operands := fun hold hn hk hl ↦ by
      obtain ⟨m, hm, hnm⟩ := h.graph.node hn
      exact (h'.operands hold hm (hnm.kind ▸ hk) hl).trans (h.operands hold hn hk hm)
    arrivals := fun hold hy hxy ↦ by
      refine h.arrivals hold hy (h'.arrivals hold (hy.mono h.graph fun _ _ hnm hn ↦ ?_) hxy)
      exact (Node.returning_iff hnm).2 hn }

theorem mono (h : s.Grows prog old t) (hold : ∀ x, old' x → old x) : s.Grows prog old' t :=
  { h with
    persists := fun hr hr' hexit ↦ (h.persists hr hr' (hold _ hexit)).mono hold
    held := fun hx ↦ h.held (hold _ hx)
    operands := fun ha ↦ h.operands (hold _ ha)
    arrivals := fun hy ↦ h.arrivals (hold _ hy) }

end Grows

end Lowering

end PointsTo
