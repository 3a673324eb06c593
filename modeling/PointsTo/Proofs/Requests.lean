import PointsTo.Lowering.Constant
import PointsTo.Proofs.Evolution

/-!
# Requests

Lowering asks itself for the nodes of operands, for the entries of functions and for the uses of
values.  A provider is sound if the state evolves with each request and the answer is what was asked
for.  Constants are computed from constants: in a scoped program a request for one creates no calls.
-/

namespace PointsTo

/-- What a constant expression is folded from, if it can be folded at all.  Some expressions are folded
to an unknown pointer without a look at their operands. -/
def Program.foldedFrom (prog : Program) (opcode : Opcode) (operands : List ValueId) : Query
    (Option (Option ValueId)) := do
  match opcode with
  | .getElementPtr _ | .cast .bitcast | .cast .zext | .cast .sext | .cast .ptrToInt => return operands[0]?.map some
  | .cast .intToPtr =>
    match operands[0]? with
    | none => return none
    | some source => return some (if (← prog.intConstant? source).isSome then none else some source)
  | .binary .add =>
    match operands[0]?, operands[1]? with
    | some lhs, some rhs => return some (some (if (← prog.signedConstant? lhs).isSome then rhs else lhs))
    | _, _ => return none
  | .binary .sub | .binary .mul | .binary .sdiv =>
    match operands[0]?, operands[1]? with
    | some lhs, some rhs => return some (some (if (← prog.intConstant? lhs).isSome then rhs else lhs))
    | _, _ => return none
  | .cast .trunc | .binary .and | .binary .or | .binary .xor
  | .binary .shl | .binary .lshr | .binary .ashr => return some none
  | _ => return none

namespace Lowering

variable (prog : Program) (s : Lowering)

/-- What a request does to the state. -/
abbrev Serves (t : Lowering) : Prop := s.Evolves prog (fun _ ↦ False) t

/-- No calls are created, and no functions opened. -/
structure Calm (t : Lowering) : Prop where
  not_isPair : ∀ {m q call}, s.graph.size ≤ m → ¬t.IsPair m q call
  not_opened : ∀ {f}, s.records.get? f = none → t.records.get? f = none

/-- The node that is supplied for a value. -/
structure Supplies (v : ValueId) (op : NodeId) (t : Lowering) : Prop extends s.Evolves prog (fun _ ↦ False) t where
  lt_size : op < t.graph.size
  resolves : (prog.Scoped ∨ ∀ inst, prog.kindAt v ≠ some (.instruction inst)) → t.Resolves prog v op
  calm : prog.Scoped → prog.home? v = none → s.Calm t

/-- What a computation of constants does to the state. -/
structure Computes (t : Lowering) : Prop extends s.Evolves prog (fun _ ↦ False) t where
  calm : prog.Scoped → s.Calm t

end Lowering

/-- The answers of the provider are what was asked for. -/
structure Provider.Sound (prog : Program) (ask : Provider) : Prop where
  operand : ∀ {v s op t}, s.Valid prog → (prog.Scoped → s.Housed prog v) → ask.operand v s = .ok op t →
    s.Supplies prog v op t
  entry : ∀ {f s id t}, s.Valid prog → (prog.Scoped → s.globals ≠ none) → ask.entry f s = .ok id t →
    s.Serves prog t ∧ ∃ r, t.records.get? f = some r ∧ r.entry = id
  uses : ∀ {v s t}, s.Valid prog → ask.uses v s = .ok ⟨⟩ t → s.Serves prog t

namespace Lowering

variable {prog : Program} {s t u : Lowering} {m q id op : NodeId} {call v : ValueId} {n : Node}

theorem Remarks.step (h : s.Remarks t) : s.Step prog t := by
  obtain ⟨warnings, journal, rfl⟩ := h
  exact .quiet warnings journal

theorem Remarks.refl (s : Lowering) : s.Remarks s := ⟨s.warnings, s.journal, rfl⟩

theorem Calm.trans (h : s.Calm t) (h' : t.Calm u) (ht : t.Valid prog) (hg : t.graph.Persists u.graph) : s.Calm u where
  not_isPair {m q call} hm hpair := by
    rcases Nat.lt_or_ge m t.graph.size with hlt | hge
    · exact h.not_isPair hm (hpair.of_persists ht hg hlt)
    · exact h'.not_isPair hge hpair
  not_opened hf := h'.not_opened (h.not_opened hf)

theorem Step.calm (h : s.Step prog t) : s.Calm t := ⟨h.not_isPair, h.not_opened⟩

namespace Computes

theorem refl (hs : s.Valid prog) : s.Computes prog s where
  toEvolves := .refl hs
  calm _ := ⟨fun hm hpair ↦ absurd hpair.2.lt_size (Nat.not_lt.2 hm), id⟩

theorem trans (h : s.Computes prog t) (h' : t.Computes prog u) : s.Computes prog u where
  toEvolves := h.toEvolves.trans h'.toEvolves
  calm hscoped := (h.calm hscoped).trans (h'.calm hscoped) h.valid h'.graph

theorem step (h : s.Computes prog t) (hstep : t.Step prog u) : s.Computes prog u :=
  h.trans ⟨hstep.evolves h.valid, fun _ ↦ hstep.calm⟩

/-- A node stands for a constant from now on. -/
theorem assign (h : s.Computes prog t) {k : ValueKind} (hk : prog.kindAt v = some k) (hkind : ∀ f, k ≠ .function f)
    (hhome : k.home? = none) (hnew : s.nodes.get? v = none ∧ s.graph.size ≤ id) (hid : t.At (fun _ n ↦ k.Fits v n) id) :
    s.Computes prog { t with
      graph := t.graph.update id fun n ↦ { n with value := n.value <|> some v }
      nodes := t.nodes.insert v id } where
  toEvolves := by
    apply h.toEvolves.assign
    · intro f hf
      exact hkind f (Option.mem_unique hk hf)
    · intro inst hinst
      rw [Option.mem_unique hk hinst] at hhome
      contradiction
    · exact fun _ ↦ hnew
    · exact ⟨k, hk, hid⟩
    · intro _ f hf
      rw [Program.home?_of_kindAt hk, hhome] at hf
      contradiction
    · exact fun hscoped {_ _ _} hm hpair ↦ absurd hpair ((h.calm hscoped).not_isPair hm)
    · exact fun hscoped {_} hnone hsome ↦ absurd ((h.calm hscoped).not_opened hnone) hsome
    · refine .of_kind hk fun inst hinst ↦ ?_
      rw [hinst] at hhome
      contradiction
  calm hscoped := by
    have hstep : t.Step prog { t with graph := t.graph.update id fun n ↦
      { n with value := n.value <|> some v } } := .value
    have hcalm := (h.step hstep).calm hscoped
    exact ⟨hcalm.not_isPair, hcalm.not_opened⟩

end Computes

/-- The node that stands for the result of a node exists. -/
theorem Valid.site_lt (hs : s.Valid prog) (h : s.Site id op) : op < s.graph.size := by
  obtain ⟨n, hn, hop⟩ := h
  have hid := Graph.lt_size_of_node hn
  split at hop
  · rename_i hcall
    cases hp : n.paired with
    | none => simpa [← hop, hp] using hid
    | some q =>
      rw [hp, Option.getD_some] at hop
      subst hop
      by_cases hself : q = id
      · exact hself ▸ hid
      · unfold NodeKind.isCall at hcall
        split at hcall
        · rename_i hk
          obtain ⟨_, q', -, hq', hat⟩ := (hs.node hn).call hk (by simpa [hp] using hself)
          rw [hp, Option.some.injEq] at hq'
          exact hq' ▸ hat.lt_size
        · rename_i hk
          obtain ⟨_, r, -, hr, -, -, hat⟩ := (hs.node hn).indirect hk
          rw [hp, Option.some.injEq] at hr
          exact hr ▸ hat.lt_size
        · contradiction
  · exact hop ▸ hid

/-- The node stands for no value. -/
def Vacant (s : Lowering) (a : NodeId) : Prop := s.At (fun _ n ↦ n.value = none) a

theorem vacant_iff : s.Vacant id ↔ (s.graph.nodes[id]?).map (·.value) = some none := by
  simp only [Vacant, At, Option.map_eq_some_iff]

theorem Vacant.lt_size (h : s.Vacant id) : id < s.graph.size := At.lt_size h

theorem Vacant.rewired (h : s.Vacant id) (hg : s.graph.Rewired t.graph) : t.Vacant id := by
  obtain ⟨n, hn, hvalue⟩ := h
  obtain ⟨m, hm, hcore⟩ := hg.node hn
  exact ⟨m, hm, (congrArg (·.value) hcore).trans hvalue⟩

theorem Vacant.update_of_ne {a : NodeId} {change : Node → Node} (h : s.Vacant id) (ha : id ≠ a) :
    ({ s with graph := s.graph.update a change } : Lowering).Vacant id := by
  obtain ⟨n, hn, hvalue⟩ := h
  exact ⟨n, (Graph.nodes_update_of_ne ha).trans hn, hvalue⟩

/-- The node of a value that has one is supplied. -/
theorem Supplies.of_named (h : s.Serves prog t) (hv : t.nodes.get? v = some id) (hsite : t.Site id op)
    (hcalm : prog.Scoped → prog.home? v = none → s.Calm t) : s.Supplies prog v op t where
  toEvolves := h
  lt_size := h.valid.site_lt hsite
  resolves _ := .inl ⟨id, hv, hsite⟩
  calm := hcalm

end Lowering

namespace Lower

open Stateful

variable {prog : Program} {ask : Provider} {s t : Lowering} {v : ValueId}

theorem elementOffset_ensures {source : Ty} {indices : List ValueId} :
    Ensures (elementOffset prog v source indices) s fun _ t ↦ s.Remarks t := by
  refine .bind_lift fun offset? _ ↦ ?_
  cases offset? with
  | none => exact .pure (.refl s)
  | some offset =>
    dsimp only
    split
    · exact .pure (.refl s)
    · split
      · refine .bind_lift fun _ _ ↦ .seq fun _ t hwarn ↦ .pure ?_
        exact warn_eq_ok hwarn
      · exact .pure (.refl s)

theorem constantOperand_ensures {operands : List ValueId} {index : Nat} :
    Ensures (constantOperand prog v operands index) s fun w t ↦ operands[index]? = some w ∧ s = t := by
  unfold constantOperand
  split
  · rename_i hw
    exact .pure ⟨hw, rfl⟩
  · exact fun _ _ h ↦ absurd h missing_ne_ok

/-- A constant expression is folded to an unknown pointer, or from the pointer of one of its operands. -/
inductive Folding (prog : Program) (ask : Provider) (opcode : Opcode) (operands : List ValueId) (s t : Lowering) : Prop
  | unknown (hfrom : prog.foldedFrom opcode operands = .ok (some none)) (ht : s.Remarks t)
  | operand {base : ValueId} {op : NodeId} {u : Lowering} (hbase : base ∈ operands)
      (hfrom : prog.foldedFrom opcode operands = .ok (some (some base))) (hop : ask.operand base s = .ok op u)
      (ht : u.Remarks t)

section

variable {opcode : Opcode} {operands : List ValueId}

theorem Folding.remark {u : Lowering} (h : Folding prog ask opcode operands s u) (hut : u.Remarks t) :
    Folding prog ask opcode operands s t := by
  obtain ⟨warnings, journal, rfl⟩ := hut
  obtain ⟨hfrom, _, _, rfl⟩ | ⟨hbase, hfrom, hop, _, _, rfl⟩ := h
  · exact .unknown hfrom ⟨warnings, journal, rfl⟩
  · exact .operand hbase hfrom hop ⟨warnings, journal, rfl⟩

theorem constantPointer_folding {base : ValueId} {index : Nat} (hbase : operands[index]? = some base)
    (hfrom : prog.foldedFrom opcode operands = .ok (some (some base))) :
    Ensures (constantPointer ask base) s fun _ t ↦ Folding prog ask opcode operands s t := by
  refine .seq fun op t hop ↦ .seq fun n _ hn ↦ ?_
  obtain ⟨-, rfl⟩ := node_eq_ok_iff.1 hn
  have hfold : Folding prog ask opcode operands s t := .operand (List.mem_of_getElem? hbase) hfrom hop (.refl t)
  split
  · exact .pure hfold
  · exact .pure hfold

theorem foldConstant_folding :
    Ensures (foldConstant prog ask v opcode operands) s fun _ t ↦ Folding prog ask opcode operands s t := by
  unfold foldConstant
  split
  case h_1 =>
    refine constantOperand_ensures.bind fun base _ hbase ↦ hbase.2 ▸ (constantPointer_folding hbase.1 ?_).bind
      fun _ u hu ↦ elementOffset_ensures.bind fun _ t ht ↦ .pure (hu.remark ht)
    simp only [Program.foldedFrom, hbase.1]
    rfl
  case h_2 | h_3 | h_4 | h_5 =>
    refine constantOperand_ensures.bind fun base _ hbase ↦ hbase.2 ▸ constantPointer_folding hbase.1 ?_
    simp only [Program.foldedFrom, hbase.1]
    rfl
  case h_6 =>
    refine constantOperand_ensures.bind fun base _ hbase ↦ hbase.2 ▸ .bind_lift fun n? hn ↦ ?_
    have hfrom : prog.foldedFrom (.cast .intToPtr) operands = .ok (some (if n?.isSome then none else some base)) := by
      simp only [Program.foldedFrom, hbase.1, hn]
      rfl
    split
    · rename_i hsome
      rw [if_pos hsome] at hfrom
      exact .bind_lift fun _ _ ↦ .seq fun _ t ht ↦ .pure (.unknown hfrom (warn_eq_ok ht))
    · rename_i hsome
      rw [if_neg hsome] at hfrom
      exact constantPointer_folding hbase.1 hfrom
  case h_7 =>
    refine constantOperand_ensures.bind fun lhs _ hlhs ↦ hlhs.2 ▸
      constantOperand_ensures.bind fun rhs _ hrhs ↦ hrhs.2 ▸ .bind_lift fun n? hn ↦ ?_
    have hfrom : prog.foldedFrom (.binary .add) operands = .ok (some (some (if n?.isSome then rhs else lhs))) := by
      simp only [Program.foldedFrom, hlhs.1, hrhs.1, hn]
      rfl
    cases n? with
    | some n => exact (constantPointer_folding hrhs.1 hfrom).bind fun _ _ ht ↦ .pure ht
    | none =>
      refine .bind_lift fun m? _ ↦ ?_
      cases m? with
      | some m => exact (constantPointer_folding hlhs.1 hfrom).bind fun _ _ ht ↦ .pure ht
      | none => exact (constantPointer_folding hlhs.1 hfrom).bind fun _ _ ht ↦ .pure ht
  case h_8 | h_9 | h_10 =>
    refine constantOperand_ensures.bind fun lhs _ hlhs ↦ hlhs.2 ▸
      constantOperand_ensures.bind fun rhs _ hrhs ↦ hrhs.2 ▸ .bind_lift fun n? hn ↦ ?_
    have hbase : operands[if n?.isSome then 1 else 0]? = some (if n?.isSome then rhs else lhs) := by
      split
      · exact hrhs.1
      · exact hlhs.1
    refine (constantPointer_folding hbase ?_).bind fun _ _ ht ↦ .pure ht
    simp only [Program.foldedFrom, hlhs.1, hrhs.1, hn]
    rfl
  case h_18 => exact .bind_lift fun _ _ _ _ h ↦ absurd h reject_ne_ok
  all_goals exact .pure (.unknown rfl (.refl s))

/-- Folding a constant looks up other constants. -/
theorem foldConstant_ensures (hask : ask.Sound prog) (hs : s.Valid prog)
    (hops : prog.Scoped → ∀ w ∈ operands, prog.home? w = none) :
    Ensures (foldConstant prog ask v opcode operands) s fun _ t ↦ s.Computes prog t := by
  intro p t h
  obtain ⟨-, ht⟩ | ⟨hbase, -, hop, ht⟩ := foldConstant_folding p t h
  · exact (Lowering.Computes.refl hs).step ht.step
  · have hhome (hscoped : prog.Scoped) := hops hscoped _ hbase
    have hsupplies := hask.operand hs (fun hscoped f hf ↦ by simp [hhome hscoped] at hf) hop
    exact Lowering.Computes.step ⟨hsupplies.toEvolves, fun hscoped ↦ hsupplies.calm hscoped (hhome hscoped)⟩ ht.step

end

/-- A node is made, and nothing else changes. -/
structure Creates (prog : Program) (n : Node) (ops : List NodeId) (s : Lowering) (id : NodeId)
    (t : Lowering) : Prop where
  step : s.Step prog t
  id_eq : id = s.graph.size
  isNode : t.At (fun _ m ↦ m.kind = n.kind ∧ m.paired = none ∧ m.value = none) id
  operands : t.At (fun _ m ↦ m.operands = n.operands ++ ops) id
  vacant : ∀ {a}, s.Vacant a → t.Vacant a
  nodes : t.nodes = s.nodes
  records : t.records = s.records

theorem create_ensures (prog : Program) {make : Graph → NodeId × Graph} (n : Node) (ops : List NodeId)
    (hmake : make s.graph = s.graph.createWith n ops) (hplain : n.kind.isPlain = true) (hblank : n.Blank) :
    Ensures (create make) s fun id t ↦ Creates prog n ops s id t := by
  intro id t h
  obtain ⟨rfl, rfl⟩ := create_eq_ok_iff.1 h
  rw [hmake]
  refine ⟨.create ops (.inl hplain) hblank, rfl, ?_, ?_, fun {a} ha ↦ ?_, rfl, rfl⟩
  · exact Lowering.At.created.imp fun m hm ↦ ⟨hm.1, hm.2.1.trans hblank.paired, hm.2.2.1.trans hblank.value⟩
  · exact Lowering.At.created.imp fun m hm ↦ hm.2.2.2
  · rw [Lowering.vacant_iff, Graph.createWith, Graph.value_addOperands]
    rwa [Graph.nodes_create_of_lt ha.lt_size, ← Lowering.vacant_iff]

/-- What the node of a constant may be. -/
structure Represents (prog : Program) (v : ValueId) (s : Lowering) (id : NodeId) (t : Lowering) : Prop
    extends s.Computes prog t where
  isNode : t.At (fun _ n ↦ n.kind.isCall = false) id
  node : t.nodes.get? v = some id ∨ (t.nodes.get? v = none ∧ prog.sentinel? v = some id)

theorem constantNode?_ensures (hask : ask.Sound prog) (hs : s.Valid prog) (hv : s.nodes.get? v = none) :
    Ensures (constantNode? prog ask v) s fun id? t ↦
      (∀ id, id? = some id → Represents prog v s id t) ∧ (id? = none → s = t) := by
  have hnull (hsentinel : prog.sentinel? v = some nullTarget) : Represents prog v s nullTarget s :=
    ⟨.refl hs, hs.null.imp fun n hn ↦ by rw [hn]; rfl, .inr ⟨hv, hsentinel⟩⟩
  have hunknown (hsentinel : prog.sentinel? v = some unknownTarget) : Represents prog v s unknownTarget s :=
    ⟨.refl hs, hs.unknown.imp fun n hn ↦ by rw [hn]; rfl, .inr ⟨hv, hsentinel⟩⟩
  refine .bind_lift fun x hx ↦ ?_
  have hkind := Program.kindAt_of_value hx
  split
  case h_1 | h_2 =>
    rename_i hx
    rw [hx] at hkind
    refine .pure ⟨fun id hid ↦ ?_, by simp⟩
    obtain rfl := Option.some.inj hid
    exact hnull (by simp [Program.sentinel?, hkind])
  case h_3 =>
    rename_i n hx
    rw [hx] at hkind
    refine .pure ⟨fun id hid ↦ ?_, by simp⟩
    obtain rfl := Option.some.inj hid
    split
    · exact hnull (by simp [Program.sentinel?, *])
    · exact hunknown (by simp [Program.sentinel?, *])
  case h_4 | h_5 =>
    rename_i hx
    rw [hx] at hkind
    refine .pure ⟨fun id hid ↦ ?_, by simp⟩
    obtain rfl := Option.some.inj hid
    exact hunknown (by simp [Program.sentinel?, hkind])
  case h_6 =>
    rename_i opcode operands hx
    rw [hx] at hkind
    have hhome : prog.home? v = none := Program.home?_of_kindAt hkind
    have hops (hscoped : prog.Scoped) (w : ValueId) (hw : w ∈ operands) : prog.home? w = none := by
      rcases hscoped.operand hkind hw with hnone | hsame
      · exact hnone
      · rw [hsame, hhome]
    refine (foldConstant_ensures hask hs hops).bind fun p t ht ↦ ?_
    refine (create_ensures prog { kind := .constant, pointsTo := .singleton p } [] rfl rfl ⟨rfl, rfl, rfl, rfl⟩).bind
      fun id u hu ↦ .seq fun _ _ hassign ↦ .pure ⟨fun id' hid ↦ ?_, by simp⟩
    obtain rfl := Option.some.inj hid
    rw [← assign_eq_ok_iff.1 hassign]
    have hcomputes := ht.step hu.step
    have hstep : u.Step prog { u with graph := u.graph.update id fun n ↦
      { n with value := n.value <|> some v } } := .value
    have hnew : s.graph.size ≤ id := hu.id_eq ▸ ht.size_le
    refine ⟨hcomputes.assign hkind (by simp) rfl ⟨hv, hnew⟩ (hu.isNode.imp fun _ _ ↦ trivial), ?_,
      .inl OrderedMap.get?_insert_self⟩
    refine hu.isNode.mono (hstep.grows hcomputes.valid).graph fun n m hnm hn ↦ ?_
    rw [hnm.kind, hn.1]
    rfl
  case h_7 =>
    rename_i f hx
    rw [hx] at hkind
    refine .seq fun id _ hid ↦ .seq fun _ _ hassign ↦ .pure ⟨fun id' hid' ↦ ?_, by simp⟩
    obtain ⟨rfl, rfl⟩ := create_eq_ok_iff.1 hid
    obtain rfl := Option.some.inj hid'
    have hstep : s.Step prog { s with graph := s.graph.functionNode v, nodes := s.nodes.insert v s.graph.size } :=
      .function hkind hv
    obtain rfl : { s with graph := s.graph.functionNode v, nodes := s.nodes.insert v s.graph.size } = _ :=
      Graph.functionNode_eq ▸ assign_eq_ok_iff.1 hassign
    refine ⟨(Lowering.Computes.refl hs).step hstep, ⟨_, Graph.nodes_append_size, rfl⟩, .inl OrderedMap.get?_insert_self⟩
  case h_8 => exact .pure ⟨by simp, fun _ ↦ rfl⟩

theorem Represents.supplies {id : NodeId} (h : Represents prog v s id t) {op : NodeId} (hop : t.Site id op) :
    s.Supplies prog v op t := by
  obtain ⟨n, hn, hcall⟩ := h.isNode
  obtain rfl : id = op := by
    obtain ⟨m, hm, hop⟩ := hop
    rw [Option.mem_unique hm hn, hcall] at hop
    exact hop
  refine ⟨h.toEvolves, Graph.lt_size_of_node hn, fun _ ↦ ?_, fun hscoped _ ↦ h.calm hscoped⟩
  rcases h.node with hid | hsentinel
  · exact .inl ⟨id, hid, hop⟩
  · exact .inr hsentinel

theorem returnSite_ensures {id : NodeId} : Ensures (returnSite id) s fun op t ↦ s.Site id op ∧ s = t := by
  intro op t h
  obtain ⟨n, hn, hop, rfl⟩ := returnSite_eq_ok_iff.1 h
  exact ⟨⟨n, hn, hop⟩, rfl⟩

/-- A value that has a node or is constant is available. -/
theorem availableOperand?_ensures (hask : ask.Sound prog) (hs : s.Valid prog) :
    Ensures (availableOperand? prog ask v) s fun op? t ↦
      (∀ op, op? = some op → s.Supplies prog v op t) ∧ (op? = none → s.nodes.get? v = none ∧ s = t) := by
  refine .seq fun id? _ h ↦ ?_
  obtain ⟨hid, rfl⟩ := nodeOf?_eq_ok_iff.1 h
  cases id? with
  | some id =>
    refine returnSite_ensures.bind fun op _ ⟨hop, hst⟩ ↦ hst ▸ .pure ⟨fun op' hop' ↦ ?_, by simp⟩
    obtain rfl := Option.some.inj hop'
    exact .of_named (.refl hs) hid hop fun hscoped _ ↦ (Lowering.Computes.refl hs).calm hscoped
  | none =>
    refine (constantNode?_ensures hask hs hid).bind fun id? t ⟨hsome, hnone⟩ ↦ ?_
    cases id? with
    | some id =>
      refine returnSite_ensures.bind fun op _ ⟨hop, hst⟩ ↦ hst ▸ .pure ⟨fun op' hop' ↦ ?_, by simp⟩
      obtain rfl := Option.some.inj hop'
      exact (hsome id rfl).supplies hop
    | none => exact .pure ⟨by simp, fun _ ↦ ⟨hid, hnone rfl⟩⟩

theorem eitherOperand?_ensures (hask : ask.Sound prog) (hs : s.Valid prog) {lhs rhs : ValueId} :
    Ensures (eitherOperand? prog ask lhs rhs) s fun _ t ↦ s.Serves prog t := by
  refine (availableOperand?_ensures hask hs).bind fun left t ⟨hsome, hnone⟩ ↦ ?_
  cases left with
  | some id => exact .pure (hsome id rfl).toEvolves
  | none =>
    obtain ⟨-, rfl⟩ := hnone rfl
    refine (availableOperand?_ensures hask hs).mono fun right t ⟨hsome, hnone⟩ ↦ ?_
    cases right with
    | some id => exact (hsome id rfl).toEvolves
    | none => exact (hnone rfl).2 ▸ .refl hs

end Lower

end PointsTo
