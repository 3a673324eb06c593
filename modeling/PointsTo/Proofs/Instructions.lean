import PointsTo.Lowering.Instruction
import PointsTo.Proofs.Requests

/-!
# Lowering of instructions

Lowering an instruction asks for its operands, makes a short chain of nodes, and lets one of them stand
for the instruction.  The chain can be joined to the chain of a block at both ends.
-/

namespace PointsTo

/-- In a scoped program, what an instruction of the function may refer to. -/
def Program.Within (prog : Program) (f : FuncId) (w : ValueId) : Prop :=
  prog.Scoped → prog.home? w = none ∨ prog.home? w = some f

theorem Program.intConstant?_of_instruction {prog : Program} {v : ValueId} {inst : Instruction}
    (hv : prog.kindAt v = some (.instruction inst)) : prog.intConstant? v = .ok none := by
  obtain ⟨x, hx, hk⟩ := Program.value_of_kindAt hv
  have hconstant : prog.constant? v = .ok none := by
    refine Query.bind_eq_ok_iff.2 ⟨x, hx, ?_⟩
    simp only [hk]
    rfl
  exact Query.bind_eq_ok_iff.2 ⟨none, hconstant, rfl⟩

namespace Program

variable {prog : Program} {v w lhs rhs : ValueId} {inst : Instruction}

theorem signedConstant?_of_instruction (hv : prog.kindAt v = some (.instruction inst)) :
    prog.signedConstant? v = .ok none :=
  Query.bind_eq_ok_iff.2 ⟨none, intConstant?_of_instruction hv, rfl⟩

theorem intConstant?_of_signedConstant? (h : prog.signedConstant? v = .ok none) : prog.intConstant? v = .ok none := by
  obtain ⟨n?, hn, h⟩ := Query.bind_eq_ok_iff.1 h
  cases n? with
  | none => exact hn
  | some n =>
    obtain ⟨_, -, h⟩ := Query.bind_eq_ok_iff.1 h
    simp [Query.pure_eq_ok_iff] at h

namespace Stems

variable (h : prog.Stems v w) (hv : prog.kindAt v = some (.instruction inst)) (hlhs : inst.operand? 0 = some lhs)

include h hv hlhs

theorem eq_of_cast {op : CastOp} (hop : inst.opcode = .cast op) : w = lhs := by
  obtain ⟨inst', hv', -, hops | ⟨_, _, _, hop', -⟩⟩ := h
  · obtain rfl := instruction_unique hv hv'
    simpa [Instruction.operand?, hops] using hlhs
  · obtain rfl := instruction_unique hv hv'
    simp [hop] at hop'

/-- The other one of two operands is a constant. -/
theorem eq_or_eq (hrhs : inst.operand? 1 = some rhs) :
    ∃ n, (w = lhs ∧ prog.intConstant? rhs = .ok (some n)) ∨ (w = rhs ∧ prog.intConstant? lhs = .ok (some n)) := by
  obtain ⟨inst', hv', -, hops | ⟨_, c, n, -, hn, hops | hops⟩⟩ := h
  all_goals
    obtain rfl := instruction_unique hv hv'
    simp only [Instruction.operand?, hops, List.getElem?_cons_zero, List.getElem?_cons_succ, List.getElem?_nil,
      Option.some.injEq, reduceCtorEq] at hlhs hrhs
  · exact ⟨n, .inl ⟨hlhs, hrhs ▸ hn⟩⟩
  · exact ⟨n, .inr ⟨hrhs, hlhs ▸ hn⟩⟩

end Stems

end Program

namespace Program.Within

variable {prog : Program} {f : FuncId} {v w : ValueId} {inst : Instruction} {offsets : Bool} {budget : Nat}

theorem operand (hv : prog.kindAt v = some (.instruction inst)) (hw : w ∈ inst.operands) :
    prog.Within inst.function w := by
  intro hscoped
  have hhome := hscoped.operand hv hw
  rwa [home?_of_kindAt hv] at hhome

theorem strip (h : prog.Within f v) (hstrip : prog.stripWithin offsets budget v = .ok w) : prog.Within f w := by
  intro hscoped
  rcases hscoped.strip hstrip with hhome | hhome
  · exact .inl hhome
  · exact hhome ▸ h hscoped

theorem housed {s : Lowering} (h : prog.Within f w) (hscoped : prog.Scoped) (hf : s.records.get? f ≠ none) :
    s.Housed prog w := by
  intro g hg
  rcases h hscoped with hhome | hhome
  · rw [hg] at hhome
    contradiction
  · rwa [← Option.mem_unique hhome hg]

end Program.Within

/-! ## The ends of chains -/

namespace Node

variable {prog : Program} {id : NodeId} {n : Node} {v : ValueId}

theorem starts_of_plain (hk : n.kind.isPlain = true) (hp : n.paired = none) : n.Starts prog id := by
  refine ⟨fun h ↦ ?_, fun h ↦ ?_, fun _ ↦ hp, fun h ↦ ?_⟩
  all_goals
    rw [h] at hk
    contradiction

theorem ends_of_plain (hk : n.kind.isPlain = true) : n.Ends prog id := by
  refine ⟨fun h ↦ ?_, fun h ↦ ?_, fun h ↦ ?_⟩
  all_goals
    rw [h] at hk
    contradiction

theorem open_of_ne_ret (hk : n.kind ≠ .ret) : n.Open prog := fun h ↦ absurd h hk

end Node

namespace Lowering

variable (prog : Program) (s : Lowering)

/-- An instruction that is about to be lowered.  Returns are lowered with the body of their function
only. -/
structure Due (v : ValueId) (inst : Instruction) : Prop where
  valid : s.Valid prog
  instruction : prog.kindAt v = some (.instruction inst)
  unnamed : prog.Scoped → s.nodes.get? v = none
  recorded : prog.Scoped → s.records.get? inst.function ≠ none
  judged : prog.Scoped → ∃ b, s.Judged prog v b
  incomplete : inst.opcode = .ret → ∃ r, s.records.get? inst.function = some r ∧ r.complete = false

/-- The chain of an instruction.  The instruction has a name from now on, unless it fills memory. -/
structure Lowered (v : ValueId) (span : Span) (t : Lowering) : Prop extends s.Evolves prog (· = v) t where
  new : s.graph.size ≤ span.last
  starts : t.Starts prog span.first
  ends : t.Ends prog span.last
  closed : t.At (fun _ n ↦ n.Open prog) span.last ∨ prog.EndsBlock v
  fits : t.Fits prog v span.last
  known : t.nodes.get? v ≠ none ∨ prog.Fills v

variable {prog s} {t u : Lowering} {v w : ValueId} {inst : Instruction} {id : NodeId} {span : Span} {f : FuncId}

theorem Valid.exit_lt (hs : s.Valid prog) (h : s.IsExit id) : id < s.graph.size := by
  obtain ⟨f, r, hr, rfl⟩ := h
  exact (hs.record hr).exit.lt_size

/-- Only the node that is made for it is the exit of a function. -/
theorem Valid.not_isExit (hs : s.Valid prog) (h : s.At (fun _ n ↦ n.kind ≠ .noop) id) : ¬s.IsExit id := by
  rintro ⟨f, r, hr, rfl⟩
  obtain ⟨n, hn, hk⟩ := h
  obtain ⟨m, hm, hk'⟩ := (hs.record hr).exit
  exact hk (Option.mem_unique hm hn ▸ hk')

theorem Starts.of_graph (h : s.Starts prog id) (hg : s.graph.Persists t.graph) (hr : t.records = s.records) :
    t.Starts prog id :=
  ⟨h.1.mono hg fun _ _ hnm hn ↦ hn.mono hnm, fun ⟨f, r, hf, hexit⟩ ↦ h.2 ⟨f, r, hr ▸ hf, hexit⟩⟩

theorem Ends.of_graph (h : s.Ends prog id) (hg : s.graph.Persists t.graph) (hr : t.records = s.records) :
    t.Ends prog id :=
  ⟨h.1.mono hg fun _ _ hnm hn ↦ hn.mono hnm, fun ⟨f, r, hf, hexit⟩ ↦ h.2 ⟨f, r, hr ▸ hf, hexit⟩⟩

/-- A node without a value gets one. -/
theorem Step.setValue (h : s.Vacant id) :
    s.Step prog { s with graph := s.graph.update id fun n ↦ { n with value := some v } } := by
  refine .adjust (fun _ ↦ ⟨rfl, rfl, rfl, rfl, rfl, fun _ hp ↦ hp⟩) fun {n w} hn hw ↦ ?_
  obtain ⟨m, hm, hnone⟩ := h
  rw [Option.mem_unique hn hm, hnone] at hw
  contradiction

namespace Due

theorem housed (h : s.Due prog v inst) (hscoped : prog.Scoped) : s.Housed prog v := by
  intro f hf
  rw [Program.home?_of_kindAt h.instruction] at hf
  exact Option.some.inj hf ▸ h.recorded hscoped

/-- The instruction belongs to no function that is opened later. -/
theorem other (h : s.Due prog v inst) (hscoped : prog.Scoped) {f : FuncId} (hnone : s.records.get? f = none) :
    prog.home? v ≠ none ∧ prog.home? v ≠ some f := by
  rw [Program.home?_of_kindAt h.instruction]
  refine ⟨by simp [ValueKind.home?], fun hf ↦ ?_⟩
  rw [← Option.some.inj hf] at hnone
  exact h.recorded hscoped hnone

/-- Most instructions are not computed from one operand alone. -/
theorem plain (h : s.Due prog v inst) (hstems : inst.opcode.stems = false) : t.Sourced prog v :=
  .of_kind h.instruction fun _ heq ↦ ValueKind.instruction.inj heq ▸ hstems

/-- The node of the instruction is known from now on. -/
theorem name (h : s.Due prog v inst) (hprog : prog.Coherent) (hst : s.Serves prog t) (hnew : s.graph.size ≤ id)
    (hid : id < t.graph.size) (hphi : inst.isPhi = true → t.At (fun _ n ↦ n.kind = .phi) id)
    (hsourced : t.Sourced prog v) :
    s.Evolves prog (· = v) { t with nodes := t.nodes.insert v id } := by
  obtain ⟨n, hn⟩ := Graph.exists_node hid
  have hevolves : s.Evolves prog (· = v) t := hst.mono fun _ h ↦ h.elim
  apply hevolves.name
  · intro f hf
    rw [h.instruction] at hf
    simp at hf
  · exact fun _ _ ↦ rfl
  · exact fun hscoped ↦ ⟨h.unnamed hscoped, hnew⟩
  · refine ⟨_, h.instruction, n, hn, fun hp ↦ ?_⟩
    obtain ⟨m, hm, hk⟩ := hphi hp
    exact Option.mem_unique hm hn ▸ hk
  · exact fun hscoped ↦ hst.housed (h.housed hscoped)
  · exact fun hscoped {m q call} hm hpair ↦ hst.ignores hprog hscoped h.instruction (h.housed hscoped) hm hpair
  · exact fun hscoped {_} hnone _ ↦ h.other hscoped hnone
  · exact hsourced

/-- A node stands for the instruction from now on. -/
theorem assign (h : s.Due prog v inst) (hprog : prog.Coherent) (hst : s.Serves prog t) (hnew : s.graph.size ≤ id)
    (hid : id < t.graph.size) (hphi : inst.isPhi = true → t.At (fun _ n ↦ n.kind = .phi) id)
    (hsourced : t.Sourced prog v) :
    s.Evolves prog (· = v) { t with
      graph := t.graph.update id fun n ↦ { n with value := n.value <|> some v }
      nodes := t.nodes.insert v id } := by
  have hstep : t.Step prog { t with graph := t.graph.update id fun n ↦
    { n with value := n.value <|> some v } } := .value
  have hkeeps := hstep.keeps hst.valid
  exact h.name hprog (hst.step hstep) hnew (hid.trans_le hkeeps.size_le) (fun hp ↦ (hphi hp).mono_kind hkeeps.graph)
    hsourced

end Due

namespace Lowered

/-- What the instruction is computed from has nodes, unless the instruction is a call. -/
theorem sourced (h : s.Lowered prog v span t) : t.Sourced prog v := by
  rcases h.known with hnamed | ⟨f, _, hf, -⟩
  · exact h.valid.sourced hnamed
  · obtain ⟨inst, hv, hcall⟩ := Program.call_of_calledFunction? hf
    refine .of_kind hv fun _ heq ↦ ?_
    rw [← ValueKind.instruction.inj heq, hcall]
    rfl

/-- What follows leaves the chain as it is. -/
theorem step (h : s.Lowered prog v span t) (hstep : t.Step prog u) : s.Lowered prog v span u := by
  have hgrows := hstep.grows h.valid
  exact
    { h.toEvolves.step hstep with
      new := h.new
      starts := hgrows.starts h.starts
      ends := hgrows.ends h.ends
      closed := h.closed.imp_left hgrows.isOpen
      fits := hgrows.fits h.fits
      known := h.known.imp_left hgrows.isNamed }

end Lowered

end Lowering

namespace Lower

open Stateful

variable {prog : Program} {ask : Provider} {s t : Lowering} {v w : ValueId} {inst : Instruction} {f : FuncId}

/-! ## Parts of the lowering of an instruction -/

theorem nthOperand_operand (hv : prog.kindAt v = some (.instruction inst)) {index : Nat} :
    Ensures (nthOperand prog v index) s fun w t ↦ inst.operand? index = some w ∧ s = t := by
  intro w t h
  obtain ⟨inst', hinst, hw, rfl⟩ := nthOperand_eq_ok_iff.1 h
  obtain rfl := Program.instruction_unique hv hinst
  exact ⟨hw, rfl⟩

theorem nthOperand_ensures {β : Type} {next : ValueId → Lower β} {Q : β → Lowering → Prop} {index : Nat}
    (hv : prog.kindAt v = some (.instruction inst)) (hnext : ∀ w, prog.Within inst.function w → Ensures (next w) s Q) :
    Ensures (nthOperand prog v index >>= next) s Q :=
  (nthOperand_operand hv).bind fun w _ h ↦ h.2 ▸ hnext w (.operand hv (List.mem_of_getElem? h.1))

theorem instruction_ensures (hv : prog.kindAt v = some (.instruction inst)) :
    Ensures (instruction prog v) s fun inst' t ↦ inst' = inst ∧ s = t := by
  intro inst' t h
  obtain ⟨hinst, rfl⟩ := instruction_eq_ok_iff.1 h
  exact ⟨Program.instruction_unique hinst hv, rfl⟩

/-- Operands are asked for in the state that the ones before leave. -/
theorem supply_ensures (hask : ask.Sound prog) (hhome : prog.Scoped → s.records.get? f ≠ none)
    (hst : s.Serves prog t) (hw : prog.Within f w) : Ensures (ask.operand w) t fun op u ↦ t.Supplies prog w op u :=
  fun _ _ h ↦ hask.operand hst.valid (fun hscoped ↦ hw.housed hscoped (hst.recorded (hhome hscoped))) h

theorem operand_ensures (hask : ask.Sound prog) (hhome : prog.Scoped → s.records.get? f ≠ none)
    (hst : s.Serves prog t) (hw : prog.Within f w) :
    Ensures (ask.operand w) t fun op u ↦ s.Serves prog u ∧ op < u.graph.size :=
  (supply_ensures hask hhome hst hw).mono fun _ _ h ↦ ⟨hst.trans h.toEvolves, h.lt_size⟩

/-- A node stands for the instruction from now on. -/
structure Assigns (prog : Program) (v : ValueId) (s t : Lowering) (id : NodeId) (u : Lowering) : Prop where
  evolves : s.Evolves prog (· = v) u
  graph : t.graph.Persists u.graph
  records : u.records = t.records
  named : u.nodes.get? v = some id
  others : ∀ {w}, w ≠ v → u.nodes.get? w = t.nodes.get? w
  value : t.Vacant id → u.At (fun _ n ↦ n.value = some v) id
  operands : ∀ {ops}, t.At (fun _ n ↦ n.operands = ops) id → u.At (fun _ n ↦ n.operands = ops) id

theorem assign_ensures (hprog : prog.Coherent) (hdue : s.Due prog v inst) (hst : s.Serves prog t) {id : NodeId}
    (hnew : s.graph.size ≤ id) (hid : id < t.graph.size)
    (hphi : inst.isPhi = true → t.At (fun _ n ↦ n.kind = .phi) id) (hsourced : t.Sourced prog v) :
    Ensures (assign v id) t fun _ u ↦ Assigns prog v s t id u := by
  intro _ u h
  obtain rfl := assign_eq_ok_iff.1 h
  have hstep : t.Step prog { t with graph := t.graph.update id fun n ↦
    { n with value := n.value <|> some v } } := .value
  refine ⟨hdue.assign hprog hst hnew hid hphi hsourced, (hstep.grows hst.valid).graph, rfl, OrderedMap.get?_insert_self,
    fun hw ↦ OrderedMap.get?_insert_of_ne hw, fun ⟨n, hn, hvalue⟩ ↦ ?_, fun ⟨n, hn, hops⟩ ↦ ?_⟩
  · exact ⟨_, Graph.nodes_update_self hn, by simp [hvalue]⟩
  · exact ⟨_, Graph.nodes_update_self hn, hops⟩

/-- The chain of an instruction is made before one of its nodes stands for the instruction. -/
theorem Assigns.lowered {id : NodeId} {span : Span} {u : Lowering} (h : Assigns prog v s t id u)
    (hv : prog.kindAt v = some (.instruction inst)) (hnew : s.graph.size ≤ span.last)
    (hfirst : t.Starts prog span.first) (hlast : t.Ends prog span.last)
    (hopen : t.At (fun _ n ↦ n.kind ≠ .ret) span.last ∨ (span.last = id ∧ t.Vacant id))
    (hphi : inst.isPhi = true → t.At (fun _ n ↦ n.kind = .phi) span.last) : s.Lowered prog v span u := by
  refine
    { h.evolves with
      new := hnew
      starts := hfirst.of_graph h.graph h.records
      ends := hlast.of_graph h.graph h.records
      closed := ?_
      fits := ?_
      known := .inl (by simp [h.named]) }
  · by_cases hends : prog.EndsBlock v
    · exact .inr hends
    · rcases hopen with hopen | ⟨rfl, hopen⟩
      · exact .inl (hopen.mono h.graph fun _ _ hnm hn ↦ Node.open_of_ne_ret (hnm.kind ▸ hn))
      · exact .inl ((h.value hopen).imp fun n hn _ _ ↦ ⟨v, hn, hends⟩)
  · obtain ⟨n, hn, -⟩ := hlast.1
    obtain ⟨m, hm, hnm⟩ := h.graph.node hn
    refine ⟨_, hv, m, hm, fun h ↦ ?_⟩
    obtain ⟨l, hl, hk⟩ := hphi h
    exact hnm.kind.trans (Option.mem_unique hl hn ▸ hk)

theorem addSuccessor_ensures {a b : NodeId} (ha : t.Ends prog a) (hb : t.Accepts b) :
    Ensures (onGraph (·.addSuccessor a b)) t fun _ u ↦ t.Step prog u ∧ ∀ c, t.Vacant c → u.Vacant c := by
  intro _ u h
  obtain rfl := onGraph_eq_ok_iff.1 h
  exact ⟨.successor ha hb, fun c hc ↦ hc.rewired .addSuccessor⟩

theorem setValue_ensures (prog : Program) {id : NodeId} (hid : t.Vacant id) :
    Ensures (setValue id v) t fun _ u ↦ t.Step prog u ∧ ∀ c, c ≠ id → t.Vacant c → u.Vacant c := by
  intro _ u h
  obtain rfl := setValue_eq_ok_iff.1 h
  exact ⟨.setValue hid, fun c hne hc ↦ hc.update_of_ne hne⟩

/-- A node that is made can be joined to others at both sides. -/
theorem Creates.ends {n : Node} {ops : List NodeId} {id : NodeId} (h : Creates prog n ops s id t) (hs : s.Valid prog)
    (hplain : n.kind.isPlain = true) : t.Starts prog id ∧ t.Ends prog id := by
  obtain ⟨m, hm, hk, hp, -⟩ := h.isNode
  have hexit : ¬t.IsExit id := by
    rintro ⟨f, r, hr, hexit⟩
    have hlt := hs.exit_lt ⟨f, r, h.records ▸ hr, hexit⟩
    exact absurd h.id_eq (Nat.ne_of_lt hlt)
  exact ⟨⟨⟨m, hm, m.starts_of_plain (hk ▸ hplain) hp⟩, hexit⟩, ⟨⟨m, hm, m.ends_of_plain (hk ▸ hplain)⟩, hexit⟩⟩

/-- A node is made for an instruction. -/
structure MadeFor (prog : Program) (v : ValueId) (n : Node) (ops : List NodeId) (s t : Lowering) (id : NodeId)
    (u : Lowering) : Prop where
  lowered : s.Lowered prog v (.only id) u
  id_eq : id = t.graph.size
  isNode : u.At (fun _ m ↦ m.kind = n.kind ∧ m.paired = none ∧ m.value = some v ∧ m.operands = n.operands ++ ops) id
  graph : t.graph.Persists u.graph
  named : u.nodes.get? v = some id
  others : ∀ {w}, w ≠ v → u.nodes.get? w = t.nodes.get? w

/-- The node of an instruction is made last. -/
theorem createFor_ensures {make : Graph → NodeId × Graph} (hprog : prog.Coherent) (hdue : s.Due prog v inst)
    (hst : s.Serves prog t) (n : Node) (ops : List NodeId) (hmake : make t.graph = t.graph.createWith n ops)
    (hplain : n.kind.isPlain = true) (hblank : n.Blank) (hphi : inst.isPhi = true → n.kind = .phi)
    (hsourced : t.Sourced prog v) :
    Ensures (createFor v make) t fun id u ↦ MadeFor prog v n ops s t id u := by
  refine (create_ensures prog n ops hmake hplain hblank).bind fun id u hu ↦ ?_
  have hnode : u.At (fun _ m ↦ m.kind = n.kind) id := hu.isNode.imp fun _ hm ↦ hm.1
  have hnew : s.graph.size ≤ id := hu.id_eq ▸ hst.size_le
  refine (assign_ensures hprog hdue (hst.step hu.step) hnew hnode.lt_size (fun h ↦ ?_) ?_).bind
    fun _ w hw ↦ .pure ?_
  · exact hnode.imp fun _ hm ↦ hm.trans (hphi h)
  · exact hsourced.mono (hu.step.keeps hst.valid)
  obtain ⟨hstarts, hends⟩ := hu.ends hst.valid hplain
  have hnone : u.Vacant id := hu.isNode.imp fun _ hm ↦ hm.2.2
  have hgraph := (hu.step.grows hst.valid).graph.trans hw.graph
  refine ⟨hw.lowered hdue.instruction hnew hstarts hends (.inr ⟨rfl, hnone⟩) fun h ↦ ?_, hu.id_eq, ?_, hgraph, hw.named,
    fun hne ↦ (hw.others hne).trans (by rw [hu.nodes])⟩
  · exact hnode.imp fun _ hm ↦ hm.trans (hphi h)
  · obtain ⟨l, hl, hk, hp, -⟩ := hu.isNode
    obtain ⟨m, hm, hlm⟩ := hw.graph.node hl
    obtain ⟨m', hm', hvalue⟩ := hw.value hnone
    obtain ⟨m'', hm'', hops⟩ := hw.operands hu.operands
    rw [Option.mem_unique hm' hm] at hvalue
    rw [Option.mem_unique hm'' hm] at hops
    exact ⟨m, hm, hlm.kind.trans hk, hlm.paired.trans hp, hvalue, hops⟩

theorem makeFor_ensures {make : Graph → NodeId × Graph} (hprog : prog.Coherent) (hdue : s.Due prog v inst)
    (hst : s.Serves prog t) (n : Node) (ops : List NodeId) (hmake : make t.graph = t.graph.createWith n ops)
    (hplain : n.kind.isPlain = true) (hblank : n.Blank) (hphi : inst.isPhi = true → n.kind = .phi)
    (hsourced : t.Sourced prog v) :
    Ensures (createFor v make) t fun id u ↦ s.Lowered prog v (.only id) u :=
  (createFor_ensures hprog hdue hst n ops hmake hplain hblank hphi hsourced).mono fun _ _ h ↦ h.lowered

/-! ## Instructions -/

section

variable {lhs rhs : ValueId} {u : Lowering} {op : NodeId} (hv : prog.kindAt v = some (.instruction inst))
  (hlhs : inst.operand? 0 = some lhs) (hrhs : inst.operand? 1 = some rhs)

include hv hlhs hrhs

/-- If the left operand is no instruction, the value can be computed only from the right one. -/
theorem sourced_of_left (hleft : ∀ i, prog.kindAt lhs ≠ some (.instruction i)) (h : s.Supplies prog rhs op u) :
    u.Sourced prog v := by
  intro hscoped w source hstems hw
  obtain ⟨_, ⟨rfl, -⟩ | ⟨rfl, -⟩⟩ := hstems.eq_or_eq hv hlhs hrhs
  · exact absurd hw (hleft source)
  · exact (h.resolves (.inl hscoped)).named hw

theorem sourced_of_right (hright : ∀ i, prog.kindAt rhs ≠ some (.instruction i)) (h : s.Supplies prog lhs op u) :
    u.Sourced prog v := by
  intro hscoped w source hstems hw
  obtain ⟨_, ⟨rfl, -⟩ | ⟨rfl, -⟩⟩ := hstems.eq_or_eq hv hlhs hrhs
  · exact (h.resolves (.inl hscoped)).named hw
  · exact absurd hw (hright source)

theorem sourced_of_variables (hleft : prog.intConstant? lhs = .ok none) (hright : prog.intConstant? rhs = .ok none) :
    s.Sourced prog v := by
  intro _ w _ hstems
  obtain ⟨_, ⟨-, hn⟩ | ⟨-, hn⟩⟩ := hstems.eq_or_eq hv hlhs hrhs <;> simp [hleft, hright] at hn

end

section

variable (hprog : prog.Coherent) (hask : ask.Sound prog) (hdue : s.Due prog v inst)

include hprog hdue

theorem lowerAlloc_ensures (hphi : inst.isPhi = false) (hstems : inst.opcode.stems = false) {size : Nat} :
    Ensures (lowerAlloc v size) s fun id t ↦ s.Lowered prog v (.only id) t := by
  refine (create_ensures prog { kind := .alloc, pointsTo := .singleton ⟨s.graph.size, .zero⟩ } [] rfl rfl
    ⟨rfl, rfl, rfl, rfl⟩).bind fun id t ht ↦ .seq fun _ u hu ↦ ?_
  obtain rfl := onGraph_eq_ok_iff.1 hu
  have hstep : t.Step prog { t with graph := t.graph.update id fun n ↦ { n with size } } :=
    .adjust (fun _ ↦ ⟨rfl, rfl, rfl, rfl, rfl, fun _ hp ↦ hp⟩) fun _ hv ↦ hv
  have hserves : s.Serves prog t := (Lowering.Evolves.refl hdue.valid).step ht.step
  have hgrows := hstep.grows hserves.valid
  obtain ⟨hstarts, hends⟩ := ht.ends hdue.valid rfl
  have hnode := (ht.isNode.imp fun _ hn ↦ hn.1).mono_kind hgrows.graph
  refine (assign_ensures hprog hdue (hserves.step hstep) ht.id_eq.ge hnode.lt_size (by simp [hphi])
    (hdue.plain hstems)).bind fun _ w hw ↦ .pure ?_
  refine hw.lowered hdue.instruction ht.id_eq.ge (hgrows.starts hstarts) (hgrows.ends hends) (.inl ?_) (by simp [hphi])
  exact hnode.imp fun n hn ↦ by simp [hn]

theorem lowerUnknown_ensures (hst : s.Serves prog t) (hphi : inst.isPhi = false) (hsourced : t.Sourced prog v) :
    Ensures (lowerUnknown v) t fun id u ↦ s.Lowered prog v (.only id) u :=
  makeFor_ensures hprog hdue hst { kind := .constant, pointsTo := .singleton .unknown } [] rfl rfl
    ⟨rfl, rfl, rfl, rfl⟩ (by simp [hphi]) hsourced

theorem lowerPhi_ensures (hstems : inst.opcode.stems = false) :
    Ensures (createFor v (·.create { kind := .phi })) s fun id u ↦ s.Lowered prog v (.only id) u ∧
      u.nodes.get? v = some id :=
  (createFor_ensures hprog hdue (.refl hdue.valid) { kind := .phi } [] rfl rfl
    ⟨rfl, rfl, rfl, rfl⟩ (fun _ ↦ rfl) (hdue.plain hstems)).mono fun _ _ h ↦ ⟨h.lowered, h.named⟩

include hask

theorem lowerStore_ensures (hphi : inst.isPhi = false) (hstems : inst.opcode.stems = false) :
    Ensures (lowerStore prog ask v) s fun id t ↦ s.Lowered prog v (.only id) t := by
  refine nthOperand_ensures hdue.instruction fun stored hstored ↦ ?_
  refine nthOperand_ensures hdue.instruction fun pointer hpointer ↦ ?_
  refine (operand_ensures hask hdue.recorded (.refl hdue.valid) hstored).bind fun op t ht ↦ ?_
  refine (operand_ensures hask hdue.recorded ht.1 hpointer).bind fun op' u hu ↦ ?_
  exact makeFor_ensures hprog hdue hu.1 { kind := .store } [op, op'] rfl rfl ⟨rfl, rfl, rfl, rfl⟩ (by simp [hphi])
    (hdue.plain hstems)

theorem lowerLoad_ensures (hphi : inst.isPhi = false) (hstems : inst.opcode.stems = false)
    (hw : prog.Within inst.function w) :
    Ensures (lowerLoad ask v w) s fun id t ↦ s.Lowered prog v (.only id) t := by
  refine (operand_ensures hask hdue.recorded (.refl hdue.valid) hw).bind fun op t ht ↦ ?_
  exact makeFor_ensures hprog hdue ht.1 { kind := .load } [op] rfl rfl ⟨rfl, rfl, rfl, rfl⟩ (by simp [hphi])
    (hdue.plain hstems)

theorem lowerGep_ensures (hphi : inst.isPhi = false) (hstems : inst.opcode.stems = false) {source : Ty}
    {indices : List ValueId} :
    Ensures (lowerGep prog ask v source indices) s fun id t ↦ s.Lowered prog v (.only id) t := by
  refine nthOperand_ensures hdue.instruction fun base hbase ↦ ?_
  refine (operand_ensures hask hdue.recorded (.refl hdue.valid) hbase).bind fun op t ht ↦ ?_
  refine elementOffset_ensures.bind fun offset u hu ↦ ?_
  exact makeFor_ensures hprog hdue (ht.1.step hu.step) { kind := .gep, offset } [op] rfl rfl
    ⟨rfl, rfl, rfl, rfl⟩ (by simp [hphi]) (hdue.plain hstems)

theorem lowerSelect_ensures (hstems : inst.opcode.stems = false) :
    Ensures (lowerSelect prog ask v) s fun id t ↦ s.Lowered prog v (.only id) t := by
  refine nthOperand_ensures hdue.instruction fun onTrue hTrue ↦ ?_
  refine nthOperand_ensures hdue.instruction fun onFalse hFalse ↦ ?_
  refine (operand_ensures hask hdue.recorded (.refl hdue.valid) hTrue).bind fun op t ht ↦ ?_
  refine (operand_ensures hask hdue.recorded ht.1 hFalse).bind fun op' u hu ↦ ?_
  exact makeFor_ensures hprog hdue hu.1 { kind := .phi } [op, op'] rfl rfl ⟨rfl, rfl, rfl, rfl⟩ (fun _ ↦ rfl)
    (hdue.plain hstems)

theorem lowerCast_ensures (hphi : inst.isPhi = false) {op : CastOp} (hcast : inst.opcode = .cast op) :
    Ensures (lowerCast prog ask v) s fun id t ↦ s.Lowered prog v (.only id) t := by
  refine (nthOperand_operand hdue.instruction).bind fun source _ ⟨hsource, hst⟩ ↦ hst ▸ ?_
  have hwithin : prog.Within inst.function source := .operand hdue.instruction (List.mem_of_getElem? hsource)
  refine (supply_ensures hask hdue.recorded (.refl hdue.valid) hwithin).bind fun op t ht ↦ ?_
  refine makeFor_ensures hprog hdue ht.toEvolves { kind := .cast } [op] rfl rfl ⟨rfl, rfl, rfl, rfl⟩ (by simp [hphi])
    fun hscoped w _ hstems hw ↦ ?_
  obtain rfl := hstems.eq_of_cast hdue.instruction hsource hcast
  exact (ht.resolves (.inl hscoped)).named hw

theorem lowerPtrToInt_ensures (hphi : inst.isPhi = false) (hcast : inst.opcode = .cast .ptrToInt) :
    Ensures (lowerPtrToInt prog ask v) s fun id t ↦ s.Lowered prog v (.only id) t := by
  refine nthOperand_ensures hdue.instruction fun source hsource ↦ ?_
  refine (operand_ensures hask hdue.recorded (.refl hdue.valid) hsource).bind fun op t ht ↦ ?_
  refine (makeFor_ensures hprog hdue ht.1 { kind := .gep, offset := .zero } [op] rfl rfl
    ⟨rfl, rfl, rfl, rfl⟩ (by simp [hphi]) (hdue.plain (congrArg _ hcast))).bind fun id u hu ↦ ?_
  refine (instruction_ensures hdue.instruction).bind fun _ _ ⟨hinst, hst⟩ ↦ hst ▸ ?_
  subst hinst
  refine .seq fun _ _ hupdate ↦ .pure ?_
  obtain ⟨r, hr, rfl⟩ := updateRecord_eq_ok_iff.1 hupdate
  refine hu.step (.alter hr { FunctionRecord.Persists.refl _ r with } { hu.valid.record hr with addresses :=
    fun w hw ↦ ?_ })
  rcases List.mem_append.1 hw with hw | hw
  · exact (hu.valid.record hr).addresses w hw
  · obtain rfl := List.mem_singleton.1 hw
    exact ⟨_, hdue.instruction, rfl, hcast⟩

/-- An instruction whose value is taken for an address is lowered. -/
theorem lowerIntToPtr_ensures (hphi : inst.isPhi = false) (hcast : inst.opcode = .cast .intToPtr) :
    Ensures (lowerIntToPtr prog ask v) s fun id t ↦ s.Lowered prog v (.only id) t ∧ t.Reflects prog v inst := by
  have hreflects {id : NodeId} {t : Lowering} (h : s.Lowered prog v (.only id) t)
      (hnamed : prog.Scoped → ∀ w i, inst.operand? 0 = some w → prog.kindAt w = some (.instruction i) →
        t.nodes.get? w ≠ none) : s.Lowered prog v (.only id) t ∧ t.Reflects prog v inst := by
    refine ⟨h, fun hp ↦ ?_, fun hscoped _ {_ _} hw hi ↦ hnamed hscoped _ _ hw hi, fun _ hret ↦ ?_⟩
    · simp [hphi] at hp
    · simp [hcast] at hret
  refine (nthOperand_operand hdue.instruction).bind fun source _ ⟨hsource, hst⟩ ↦ hst ▸ .bind_lift fun n hn ↦ ?_
  have hw : prog.Within inst.function source := .operand hdue.instruction (List.mem_of_getElem? hsource)
  split
  · rename_i hsome
    refine .bind_lift fun _ _ ↦ .seq fun _ t hwarn ↦ ?_
    have ht : s.Serves prog t := (Lowering.Evolves.refl hdue.valid).step (warn_eq_ok hwarn).step
    refine .bind_pure ((makeFor_ensures hprog hdue ht { kind := .cast } [unknownTarget] rfl rfl
      ⟨rfl, rfl, rfl, rfl⟩ (by simp [hphi]) (hdue.plain (congrArg _ hcast))).mono
      fun _ _ h ↦ hreflects h fun _ w i hw hi ↦ ?_)
    -- Constants are no instructions.
    obtain rfl := Option.mem_unique hsource hw
    rw [Program.intConstant?_of_instruction hi] at hn
    simp [← Except.ok.inj hn] at hsome
  · refine (supply_ensures hask hdue.recorded (.refl hdue.valid) hw).bind fun op t ht ↦ ?_
    refine (createFor_ensures hprog hdue ht.toEvolves { kind := .cast } [op] rfl rfl
      ⟨rfl, rfl, rfl, rfl⟩ (by simp [hphi]) (hdue.plain (congrArg _ hcast))).mono
      fun _ _ h ↦ hreflects h.lowered fun hscoped w i hw hi ↦ ?_
    obtain rfl := Option.mem_unique hsource hw
    by_cases hwv : source = v
    · simp [hwv, h.named]
    · rw [h.others hwv]
      exact (ht.resolves (.inl hscoped)).named hi

theorem lowerAdd_ensures (hphi : inst.isPhi = false) :
    Ensures (lowerAdd prog ask v) s fun id t ↦ s.Lowered prog v (.only id) t := by
  refine (nthOperand_operand hdue.instruction).bind fun lhs _ ⟨hlhs, hst⟩ ↦ hst ▸ ?_
  refine (nthOperand_operand hdue.instruction).bind fun rhs _ ⟨hrhs, hst⟩ ↦ hst ▸ .bind_lift fun left hleft ↦ ?_
  have hwithin {w : ValueId} {i : Nat} (hw : inst.operand? i = some w) : prog.Within inst.function w :=
    .operand hdue.instruction (List.mem_of_getElem? hw)
  cases left with
  | some amount =>
    refine (supply_ensures hask hdue.recorded (.refl hdue.valid) (hwithin hrhs)).bind fun op t ht ↦ ?_
    refine makeFor_ensures hprog hdue ht.toEvolves { kind := .gep, offset := signedOffset amount } [op] rfl rfl
      ⟨rfl, rfl, rfl, rfl⟩ (by simp [hphi]) (sourced_of_left hdue.instruction hlhs hrhs (fun _ hi ↦ ?_) ht)
    simp [Program.signedConstant?_of_instruction hi] at hleft
  | none =>
    refine .bind_lift fun right hright ↦ ?_
    cases right with
    | some amount =>
      refine (supply_ensures hask hdue.recorded (.refl hdue.valid) (hwithin hlhs)).bind fun op t ht ↦ ?_
      refine makeFor_ensures hprog hdue ht.toEvolves { kind := .gep, offset := signedOffset amount } [op] rfl rfl
        ⟨rfl, rfl, rfl, rfl⟩ (by simp [hphi]) (sourced_of_right hdue.instruction hlhs hrhs (fun _ hi ↦ ?_) ht)
      simp [Program.signedConstant?_of_instruction hi] at hright
    | none =>
      have hsourced {t : Lowering} : t.Sourced prog v :=
        sourced_of_variables hdue.instruction hlhs hrhs (Program.intConstant?_of_signedConstant? hleft)
          (Program.intConstant?_of_signedConstant? hright)
      refine (eitherOperand?_ensures hask hdue.valid).bind fun op? t ht ↦ ?_
      cases op? with
      | some op =>
        exact makeFor_ensures hprog hdue ht { kind := .gep, offset := .unknown } [op] rfl rfl
          ⟨rfl, rfl, rfl, rfl⟩ (by simp [hphi]) hsourced
      | none => exact lowerUnknown_ensures hprog hdue ht hphi hsourced

theorem lowerArithmetic_ensures (hphi : inst.isPhi = false) :
    Ensures (lowerArithmetic prog ask v) s fun id t ↦ s.Lowered prog v (.only id) t := by
  refine (nthOperand_operand hdue.instruction).bind fun lhs _ ⟨hlhs, hst⟩ ↦ hst ▸ ?_
  refine (nthOperand_operand hdue.instruction).bind fun rhs _ ⟨hrhs, hst⟩ ↦ hst ▸ .bind_lift fun left hleft ↦ ?_
  have hwithin {w : ValueId} {i : Nat} (hw : inst.operand? i = some w) : prog.Within inst.function w :=
    .operand hdue.instruction (List.mem_of_getElem? hw)
  have hmake (op : NodeId) {t : Lowering} (ht : s.Serves prog t) (hsourced : t.Sourced prog v) :
      Ensures (createFor v (·.createGep op .unknown)) t fun id u ↦ s.Lowered prog v (.only id) u :=
    makeFor_ensures hprog hdue ht { kind := .gep, offset := .unknown } [op] rfl rfl
      ⟨rfl, rfl, rfl, rfl⟩ (by simp [hphi]) hsourced
  split
  · rename_i hsome
    refine .bind_lift fun _ _ ↦ ?_
    refine (supply_ensures hask hdue.recorded (.refl hdue.valid) (hwithin hrhs)).bind fun op t ht ↦
      .bind_pure (hmake op ht.toEvolves (sourced_of_left hdue.instruction hlhs hrhs (fun _ hi ↦ ?_) ht))
    rw [Program.intConstant?_of_instruction hi] at hleft
    simp [← Except.ok.inj hleft] at hsome
  · rename_i hleft'
    refine .bind_lift fun right hright ↦ ?_
    split
    · rename_i hsome
      refine (supply_ensures hask hdue.recorded (.refl hdue.valid) (hwithin hlhs)).bind fun op t ht ↦
        .bind_pure (hmake op ht.toEvolves (sourced_of_right hdue.instruction hlhs hrhs (fun _ hi ↦ ?_) ht))
      rw [Program.intConstant?_of_instruction hi] at hright
      simp [← Except.ok.inj hright] at hsome
    · rename_i hright'
      rw [Bool.not_eq_true, Option.isSome_eq_false_iff, Option.isNone_iff_eq_none] at hleft' hright'
      have hsourced {t : Lowering} : t.Sourced prog v :=
        sourced_of_variables hdue.instruction hlhs hrhs (hleft' ▸ hleft) (hright' ▸ hright)
      refine (eitherOperand?_ensures hask hdue.valid).bind fun op? t ht ↦ ?_
      cases op? with
      | some op => exact hmake op ht hsourced
      | none => exact lowerUnknown_ensures hprog hdue ht hphi hsourced

/-- An integer is returned if it has a node. -/
theorem lowerReturn_ensures (hphi : inst.isPhi = false) (hret : inst.opcode = .ret) :
    Ensures (lowerReturn prog ask v) s fun id t ↦ s.Lowered prog v (.only id) t ∧ t.Reflects prog v inst := by
  obtain ⟨r₀, hr₀, hopen⟩ := hdue.incomplete hret
  have hreflects {t : Lowering} (h : prog.Scoped → ∀ w, inst.operand? 0 = some w → prog.isPointer w = .ok false →
      t.Returns v w) : t.Reflects prog v inst :=
    ⟨by simp [hphi], by simp [hret], fun hscoped _ {w} hw hpointer ↦ h hscoped w hw hpointer⟩
  have hmake (ops : List NodeId) (t : Lowering) (ht : s.Serves prog t)
      (hops : prog.Scoped → ∀ w, inst.operand? 0 = some w → prog.isPointer w = .ok false →
        (w ≠ v ∧ ∃ a op, t.nodes.get? w = some a ∧ t.Site a op ∧ ops = [op]) ∨ (t.nodes.get? w = none ∧ ops = [])) :
      Ensures (do
        let id ← createFor v (·.createWith { kind := .ret } ops)
        updateRecord prog inst.function v fun r ↦ { r with returns := r.returns ++ [id] }
        return id) t fun id u ↦ s.Lowered prog v (.only id) u ∧ u.Reflects prog v inst := by
    refine (createFor_ensures hprog hdue ht { kind := .ret } ops rfl rfl
      ⟨rfl, rfl, rfl, rfl⟩ (by simp [hphi]) (hdue.plain (congrArg _ hret))).bind fun id u hmade ↦ ?_
    have hu := hmade.lowered
    refine .seq fun _ _ hupdate ↦ .pure ?_
    obtain ⟨r, hr, rfl⟩ := updateRecord_eq_ok_iff.1 hupdate
    have hopen' : r.complete = false :=
      (hu.persists hr₀ hr (hdue.valid.record hr₀).exit.lt_size).complete.trans hopen
    have hvalid := hu.valid.record hr
    have hstep : u.Step prog { u with
        records := u.records.insert inst.function { r with returns := r.returns ++ [id] } } := by
      refine .alter hr { FunctionRecord.Persists.refl _ r with returns := ?_ }
        { hvalid with returns := ?_, closed := ?_ }
      · simp [hopen']
      · intro a ha
        rcases List.mem_append.1 ha with ha | ha
        · exact hvalid.returns a ha
        · rw [List.mem_singleton.1 ha]
          exact hmade.isNode.imp fun n hn ↦ ⟨hn.1, hn.2.1, v, hn.2.2.1⟩
      · simp [hopen']
    refine ⟨hu.step hstep, hreflects fun hscoped w hw hpointer ↦ ?_⟩
    have hreturns : u.Returns v w := by
      refine ⟨id, hmade.named, hmade.isNode.imp fun n hn ↦ ⟨hn.1, hn.2.1, ?_⟩⟩
      rcases hops hscoped w hw hpointer with ⟨hwv, a, op, ha, hop, rfl⟩ | ⟨hnone, rfl⟩
      · refine .inl ⟨a, op, (hmade.others hwv).trans ha, hop.mono hmade.graph, ?_, hn.2.2.2⟩
        rw [hmade.id_eq]
        obtain ⟨n, hn, -⟩ := hop
        exact Graph.lt_size_of_node hn
      · refine .inr ⟨fun a ha ↦ ?_, hn.2.2.2⟩
        by_cases hwv : w = v
        · subst hwv
          exact (Option.mem_unique hmade.named ha).le
        · rw [hmade.others hwv, hnone] at ha
          contradiction
    exact hreturns.mono (hstep.grows hu.valid) hscoped fun a ha ↦ ha.lt_size
  refine (instruction_ensures hdue.instruction).bind fun inst' _ ⟨hinst, hst⟩ ↦ hst ▸ ?_
  subst hinst
  cases hop : inst'.operand? 0 with
  | none => exact .bind_pure (hmake [] s (.refl hdue.valid) (by simp [hop]))
  | some returned =>
    refine .bind_lift fun pointer hpointer ↦ .bind_get ?_
    split
    · rename_i hreturned
      have hw : prog.Within inst'.function returned := .operand hdue.instruction (List.mem_of_getElem? hop)
      refine (supply_ensures hask hdue.recorded (.refl hdue.valid) hw).bind fun op t ht ↦ .bind_pure ?_
      refine hmake [op] t ht.toEvolves fun hscoped w hw hnot ↦ .inl ?_
      obtain rfl := Option.mem_unique hop hw
      rw [hpointer, Except.ok.injEq] at hnot
      obtain ⟨a, ha⟩ := Option.ne_none_iff_exists'.1 (OrderedMap.contains_iff.1 (by simpa [hnot] using hreturned))
      refine ⟨?_, a, op, ht.named_lasting (.inl hscoped) ha, ?_, rfl⟩
      · rintro rfl
        rw [hdue.unnamed hscoped] at ha
        contradiction
      · obtain ⟨b, hb, hsite⟩ | ⟨hnone, -⟩ := ht.resolves (.inl hscoped)
        · rwa [← Option.mem_unique hb (ht.named_lasting (.inl hscoped) ha)]
        · rw [ht.named_lasting (.inl hscoped) ha] at hnone
          contradiction
    · rename_i hreturned
      refine .bind_pure (hmake [] s (.refl hdue.valid) fun _ w hw _ ↦ .inr ⟨?_, rfl⟩)
      obtain rfl := Option.mem_unique hop hw
      by_contra hne
      exact hreturned (by simp [OrderedMap.contains_iff.2 hne])

theorem lowerExtract_ensures (hphi : inst.isPhi = false) (hstems : inst.opcode.stems = false) :
    Ensures (lowerExtract prog ask v) s fun span t ↦ s.Lowered prog v span t := by
  refine nthOperand_ensures hdue.instruction fun aggregate hagg ↦ ?_
  refine (operand_ensures hask hdue.recorded (.refl hdue.valid) hagg).bind fun op t ht ↦ ?_
  refine (create_ensures prog { kind := .gep, offset := .unknown } [op] rfl rfl ⟨rfl, rfl, rfl, rfl⟩).bind
    fun gep t₁ h₁ ↦ ?_
  refine (create_ensures prog { kind := .load } [gep] rfl rfl ⟨rfl, rfl, rfl, rfl⟩).bind fun load t₂ h₂ ↦ ?_
  have hs₁ := ht.1.step h₁.step
  have hs₂ := hs₁.step h₂.step
  have hk₂ := h₂.step.keeps hs₁.valid
  obtain ⟨hfirst, hends⟩ := h₁.ends ht.1.valid rfl
  obtain ⟨haccepts, hlast⟩ := h₂.ends hs₁.valid rfl
  have hload : t₂.At (fun _ n ↦ n.kind ≠ .ret) load := h₂.isNode.imp fun _ hn ↦ by simp [hn.1]
  refine (addSuccessor_ensures (hk₂.ends hends) haccepts.accepts).bind fun _ t₃ ⟨h₃, hvacant⟩ ↦ ?_
  have hgep : t₃.Vacant gep := hvacant _ (h₂.vacant (h₁.isNode.imp fun _ hn ↦ hn.2.2))
  refine (setValue_ensures prog hgep).bind fun _ t₄ ⟨h₄, _⟩ ↦ ?_
  have hk := (h₃.keeps hs₂.valid).trans (h₄.keeps (hs₂.step h₃).valid)
  have hload : t₄.At (fun _ n ↦ n.kind ≠ .ret) load := hload.mono hk.graph fun _ _ hnm hn ↦ hnm.kind ▸ hn
  have hnew : s.graph.size ≤ load := h₂.id_eq ▸ hs₁.size_le
  refine (assign_ensures hprog hdue ((hs₂.step h₃).step h₄) hnew hload.lt_size (by simp [hphi])
    (hdue.plain hstems)).bind fun _ t₅ h₅ ↦ .pure ?_
  exact h₅.lowered hdue.instruction hnew (hk.starts (hk₂.starts hfirst)) (hk.ends hlast) (.inl hload) (by simp [hphi])

end

end Lower

end PointsTo
