import PointsTo.Lowering.Build
import PointsTo.Proofs.Retention

/-!
# What every part of lowering has in common

Every part of lowering is made of the same few primitive steps.  A relation between states that is
reflexive and transitive and holds across each of these steps holds across every part of lowering, and
across the requests that lowering makes of itself, to whatever depth they are nested.  This is so in all
states and for all programs, also when lowering fails.
-/

namespace PointsTo

open Stateful

/-- The change leaves alone how a function is entered and left, and what it returns. -/
class FunctionRecord.Minor (change : FunctionRecord → FunctionRecord) : Prop where
  same : ∀ r, (change r).entry = r.entry ∧ (change r).exit = r.exit ∧ (change r).returns = r.returns

instance (formals : FunctionRecord → Option Span) (variadic : FunctionRecord → Option NodeId)
    (awaiting unplacedFormals : FunctionRecord → List NodeId) (unplaced : FunctionRecord → List (ValueId × Span))
    (addresses : FunctionRecord → List ValueId) (phisAttached complete : FunctionRecord → Bool) :
    FunctionRecord.Minor fun r ↦
      { entry := r.entry, exit := r.exit, returns := r.returns, formals := formals r, variadic := variadic r,
        awaiting := awaiting r, unplaced := unplaced r, unplacedFormals := unplacedFormals r, addresses := addresses r,
        phisAttached := phisAttached r, complete := complete r } :=
  ⟨fun _ ↦ ⟨rfl, rfl, rfl⟩⟩

namespace Lowering

/-- The relation holds across the primitive steps of lowering and solving.  Nodes that are fresh may be
completed. -/
class Frame (R : Lowering → Lowering → Prop) (fresh : outParam (NodeId → Prop)) :
    Prop extends IsPreorder Lowering R where
  aside : ∀ {s t : Lowering}, t.graph = s.graph → t.records = s.records → t.globals = s.globals → R s t
  grow : ∀ {s : Lowering} {g : Graph}, s.graph.Extends g → R s { s with graph := g }
  edit : ∀ {s : Lowering} {id : NodeId} {change : Node → Node}, fresh id → (∀ n : Node, n.Edits (change n)) →
    R s { s with graph := s.graph.update id change }
  /-- The solver adds to a set that is not fixed. -/
  gain : ∀ {s : Lowering} {id : NodeId} {n : Node} {set : PointerSet}, s.graph.nodes[id]? = some n →
    n.kind.isFixed = false → n.pointsTo ⊆ set → R s { s with graph := s.graph.update id fun m ↦
    { m with pointsTo := set } }
  alter : ∀ {s : Lowering} {f : FuncId} {change : FunctionRecord → FunctionRecord}, FunctionRecord.Minor change →
    R s { s with records := s.records.modify f change }
  returned : ∀ {s : Lowering} {f : FuncId} {id : NodeId} {n : Node}, s.graph.nodes[id]? = some n → n.kind = .ret →
    R s { s with records := s.records.modify f fun r ↦ { r with returns := r.returns ++ [id] } }
  bind_fresh : ∀ {α β : Type} {x : Lower α} {next : α → Lower β} (ids : α → List NodeId), Follows R x →
    (∀ s, Ensures x s fun a _ ↦ ∀ id ∈ ids a, s.graph.size ≤ id) →
      (∀ a, (∀ id ∈ ids a, fresh id) → Follows R (next a)) → Follows R (x >>= next)

end Lowering

namespace Lower

/-- Makes the record of a function, with its entry, its exit and the phis of its formals. -/
def openRecord (prog : Program) (f : FuncId) (fn : Function) : Lower (NodeId × Option Span × Option NodeId) := do
  let entry ← create (·.create { kind := .entry })
  let exit ← create (·.create { kind := .noop })
  let formals ← lowerFormals prog fn
  modify fun s ↦
    { s with
      records := s.records.insert f { entry, exit, formals := formals.1, variadic := formals.2 }
      callGraph := s.callGraph.addFunction f }
  return (entry, formals)

end Lower

/-- The relation holds across the steps that finish the globals and begin a function. -/
class Lowering.Begins (prog : Program) (R : Lowering → Lowering → Prop) : Prop where
  chained : ∀ {s : Lowering} {chain : Option Span}, R s { s with globals := some chain }
  begins : ∀ {f : FuncId} {fn : Function} {s t : Lowering}, prog.function f = .ok fn → s.records.get? f = none →
    Leaves (Lower.openRecord prog f fn) s t → R s t

/-- The requests move along the relation. -/
class Provider.Moves (R : Lowering → Lowering → Prop) (ask : Provider) : Prop where
  operand : ∀ v, Follows R (ask.operand v)
  entry : ∀ f, Follows R (ask.entry f)
  uses : ∀ v, Follows R (ask.uses v)

namespace Lower

open Lowering

variable {α β : Type} {prog : Program} {ask : Provider} {s t : Lowering} {v w call : ValueId} {f : FuncId} {id : NodeId}
  {R : Lowering → Lowering → Prop} {fresh : NodeId → Prop} [hR : Frame R fresh]

include hR

namespace Moves

/-! ## Primitive steps -/

/-- A state that differs in other respects only. -/
theorem modify_aside {change : Lowering → Lowering} (h : ∀ s, (change s).graph = s.graph ∧
    (change s).records = s.records ∧ (change s).globals = s.globals) : Follows R (modify change : Lower PUnit) :=
  .modify fun s ↦ hR.aside (h s).1 (h s).2.1 (h s).2.2

theorem onGraph {change : Graph → Graph} (h : ∀ g : Graph, g.Extends (change g)) : Follows R (onGraph change) :=
  .modify fun s ↦ hR.grow (h s.graph)

theorem edit {change : Node → Node} (hid : fresh id) (h : ∀ n : Node, n.Edits (change n)) :
    Follows R (Lower.onGraph fun g ↦ g.update id change) :=
  .modify fun _ ↦ hR.edit hid h

instance create (make : Graph → NodeId × Graph) [hmake : Graph.Makes make] : Follows R (create make) where
  leaves {s t} h := by
    rcases h with ⟨id, h⟩ | ⟨e, h⟩
    · obtain ⟨-, rfl⟩ := create_eq_ok_iff.1 h
      exact hR.grow (hmake.retains s.graph)
    · contradiction

/-- What comes next may complete the nodes that are new. -/
theorem grow_bind {x : Lower β} (ids : β → List NodeId) {next : β → Lower α}
    (hx : ∀ s, ∃ b g, x s = .ok b { s with graph := g } ∧ s.graph.Extends g ∧ ∀ id ∈ ids b, s.graph.size ≤ id)
    (hnext : ∀ b, (∀ id ∈ ids b, fresh id) → Follows R (next b)) : Follows R (x >>= next) := by
  refine hR.bind_fresh ids ⟨fun {s t} h ↦ ?_⟩ (fun s b t h ↦ ?_) hnext
  · obtain ⟨b, g, hx, hgrow, -⟩ := hx s
    rcases h with ⟨b', h⟩ | ⟨e, h⟩
    · obtain ⟨-, rfl⟩ := EStateM.Result.ok.inj (hx.symm.trans h)
      exact hR.grow hgrow
    · exact absurd (hx.symm.trans h) (by simp)
  · obtain ⟨b', g, hx, -, hfresh⟩ := hx s
    obtain ⟨rfl, -⟩ := EStateM.Result.ok.inj (hx.symm.trans h)
    exact hfresh

theorem create_bind {make : Graph → NodeId × Graph} [hmake : Graph.Makes make] {next : NodeId → Lower α}
    (hnext : ∀ id, fresh id → Follows R (next id)) : Follows R (Lower.create make >>= next) := by
  refine grow_bind (fun id ↦ [id]) (fun s ↦ ⟨_, _, rfl, hmake.retains s.graph, ?_⟩) fun id hid ↦
    hnext id (hid id (by simp))
  simpa using (hmake.id s.graph).ge

/-- A node that is its own partner. -/
theorem createPaired_bind {make : Graph → NodeId × Graph} {n : Node} (hmake : ∀ g, make g = g.create n)
    (hkind : n.kind = .call ∨ n.kind = .constant) {next : NodeId → Lower α}
    (hnext : ∀ id, fresh id → Follows R (next id)) : Follows R (do
      let id ← Lower.create make
      Lower.onGraph (·.pair id id)
      next id) := by
  have hpair : Follows R ((do
      let id ← Lower.create make
      Lower.onGraph (·.pair id id)
      return id) >>= next) := by
    refine grow_bind (fun id ↦ [id]) (fun s ↦ ⟨_, _, rfl, ?_, ?_⟩) fun id hid ↦ hnext id (hid id (by simp))
    · rw [hmake]
      exact .createPaired hkind
    · simp [hmake, Graph.create]
  simpa only [bind_assoc, pure_bind] using hpair

/-- A return site and its call. -/
theorem createCall_bind {next : NodeId → NodeId → Lower α}
    (hnext : ∀ site id, fresh site → fresh id → Follows R (next site id)) : Follows R (do
      let site ← Lower.create (·.create { kind := .callReturn })
      let id ← Lower.create (·.create { kind := .call })
      Lower.onGraph (·.pair id site)
      next site id) := by
  have hpair : Follows R ((do
      let site ← Lower.create (·.create { kind := .callReturn })
      let id ← Lower.create (·.create { kind := .call })
      Lower.onGraph (·.pair id site)
      return (site, id)) >>= fun p ↦ next p.1 p.2) := by
    refine grow_bind (fun p ↦ [p.1, p.2]) (fun s ↦ ⟨(s.graph.size, s.graph.size + 1), _, ?_, .callPair, by simp⟩)
      fun p hp ↦ hnext _ _ (hp _ (by simp)) (hp _ (by simp))
    have hsize : ((s.graph.create { kind := .callReturn }).2.create { kind := .call }).1 = s.graph.size + 1 :=
      Graph.size_create
    rw [← hsize]
    rfl
  simpa only [bind_assoc, pure_bind] using hpair

/-- A call through a pointer and its return. -/
theorem createIndirect_bind {op : NodeId} {next : NodeId → NodeId → Lower α}
    (hnext : ∀ id site, fresh id → fresh site → Follows R (next id site)) : Follows R (do
      let id ← Lower.create (·.createWith { kind := .indirectCall } [op])
      let site ← Lower.create (·.create { kind := .ret })
      Lower.onGraph (·.pair id site)
      next id site) := by
  have hpair : Follows R ((do
      let id ← Lower.create (·.createWith { kind := .indirectCall } [op])
      let site ← Lower.create (·.create { kind := .ret })
      Lower.onGraph (·.pair id site)
      return (id, site)) >>= fun p ↦ next p.1 p.2) := by
    refine grow_bind (fun p ↦ [p.1, p.2])
      (fun s ↦ ⟨(s.graph.size, s.graph.size + 1), _, ?_, .indirectPair op, by simp⟩)
      fun p hp ↦ hnext _ _ (hp _ (by simp)) (hp _ (by simp))
    have hsize : ((s.graph.createWith { kind := .indirectCall } [op]).2.create { kind := .ret }).1 = s.graph.size + 1 :=
      Graph.size_createWith
    rw [← hsize]
    rfl
  simpa only [bind_assoc, pure_bind] using hpair

instance addOperand (a b : NodeId) : Follows R (Lower.onGraph (·.addOperand a b)) := onGraph fun _ ↦ .addOperand

instance addOperands (a : NodeId) (ops : List NodeId) : Follows R (Lower.onGraph (·.addOperands a ops)) :=
  onGraph fun _ ↦ .addOperands

instance addSuccessor (a b : NodeId) : Follows R (Lower.onGraph (·.addSuccessor a b)) := onGraph fun _ ↦ .addSuccessor

instance redirect (a b : NodeId) : Follows R (Lower.onGraph (·.redirect a b)) := onGraph fun _ ↦ .redirect

instance spliceAfter (a first last : NodeId) : Follows R (Lower.onGraph (·.spliceAfter a first last)) :=
  onGraph fun _ ↦ .spliceAfter

instance spliceBefore (a first last : NodeId) : Follows R (Lower.onGraph (·.spliceBefore a first last)) :=
  onGraph fun _ ↦ .spliceBefore

instance insertAfter (a b : NodeId) : Follows R (Lower.onGraph (·.insertAfter a b)) := onGraph fun _ ↦ .spliceAfter

instance setRoot (a : NodeId) : Follows R (Lower.onGraph (·.setRoot a)) := onGraph fun _ ↦ .setRoot

instance zero (a : NodeId) : Follows R (Lower.onGraph fun g ↦ g.update a fun n ↦ { n with zeroed := true }) :=
  onGraph fun _ ↦ .update (fun n ↦ { Node.Retains.refl n with }) fun _ _ ↦ rfl

theorem setValue (hid : fresh id) : Follows R (setValue id v) := edit hid fun _ ↦ ⟨rfl, rfl, rfl⟩

instance setNodeOf : Follows R (setNodeOf v id) := modify_aside fun _ ↦ ⟨rfl, rfl, rfl⟩

theorem assign (hid : fresh id) : Follows R (assign v id) := by
  have hvalue : Follows R (Lower.onGraph fun g ↦ g.update id fun n ↦ { n with value := n.value <|> some v }) :=
    edit hid fun _ ↦ ⟨rfl, rfl, rfl⟩
  exact .bind fun _ ↦ hvalue

instance alterRecord (change : FunctionRecord → FunctionRecord) [h : FunctionRecord.Minor change] :
    Follows R (alterRecord f change) := .modify fun _ ↦ hR.alter h

instance setBlockSpan (b : BlockId) (span : Option Span) : Follows R (setBlockSpan f b span) :=
  modify_aside fun _ ↦ ⟨rfl, rfl, rfl⟩

instance setPlaced : Follows R (setPlaced v id) := modify_aside fun _ ↦ ⟨rfl, rfl, rfl⟩

instance warn (w : Warning) : Follows R (warn w) := modify_aside fun _ ↦ ⟨rfl, rfl, rfl⟩

instance reject (cause : Rejection) : Follows R (reject cause : Lower α) := .throw _

instance nodeOf? : Follows R (nodeOf? v) := .bind fun _ ↦ .pure _

instance record? : Follows R (record? f) := .bind fun _ ↦ .pure _

instance blockSpan? (b : BlockId) : Follows R (blockSpan? f b) := .bind fun _ ↦ .pure _

instance node : Follows R (node id) := .bind fun _ ↦ .lift _

instance returnSite : Follows R (returnSite id) := .bind fun _ ↦ .pure _

instance note (severity : Severity) (text : Unit → Query String) : Follows R (note severity text) := by
  refine .bind fun _ ↦ ?_
  split
  · exact .bind fun _ ↦ modify_aside fun _ ↦ ⟨rfl, rfl, rfl⟩
  · exact .pure _

instance append (chain : Option Span) : Follows R (append chain id) := by
  unfold Lower.append
  split
  · exact .pure _
  · exact .bind fun _ ↦ .pure _

instance missing : Follows R (missing prog v : Lower α) := .bind fun _ ↦ .throw _

instance instruction : Follows R (instruction prog v) := by
  refine .bind fun inst? ↦ ?_
  cases inst? with
  | some inst => exact .pure _
  | none => exact missing

instance nthOperand (index : Nat) : Follows R (nthOperand prog v index) := by
  refine .bind fun inst? ↦ ?_
  cases inst? with
  | none => exact missing
  | some inst =>
    dsimp only
    split
    · exact .pure _
    · exact missing

instance record : Follows R (record prog f v) := by
  refine .bind fun r? ↦ ?_
  cases r? with
  | some r => exact .pure _
  | none => exact missing

instance updateRecord (change : FunctionRecord → FunctionRecord) [FunctionRecord.Minor change] :
    Follows R (updateRecord prog f v change) := .bind fun _ ↦ alterRecord change

/-! ## Requests -/

instance operandOf [h : ask.Moves R] : Follows R (ask.operand v) := h.operand v

instance entryOf [h : ask.Moves R] : Follows R (ask.entry f) := h.entry f

instance usesOf [h : ask.Moves R] : Follows R (ask.uses v) := h.uses v

theorem createFor {make : Graph → NodeId × Graph} [Graph.Makes make] : Follows R (createFor v make) :=
  create_bind fun _ hid ↦ (assign hid).andThen fun _ ↦ .pure _

omit hR in
/-- The node that is created for a value is of the kind that was asked for. -/
theorem createFor_node {n : Node} {ops : List NodeId} (h : Lower.createFor v (·.createWith n ops) s = .ok id t) :
    ∃ m, t.graph.nodes[id]? = some m ∧ m.kind = n.kind := by
  obtain ⟨_, u, hcreate, h⟩ := bind_eq_ok_iff.1 h
  obtain ⟨rfl, rfl⟩ := create_eq_ok_iff.1 hcreate
  obtain ⟨_, w, hassign, h⟩ := bind_eq_ok_iff.1 h
  obtain rfl := assign_eq_ok_iff.1 hassign
  obtain ⟨rfl, rfl⟩ := pure_eq_ok_iff.1 h
  have hnew : (s.graph.append [n]).nodes[s.graph.size]? = some n := Graph.nodes_append_size
  obtain ⟨m, hm, hretains⟩ := Graph.Extends.addOperands.node hnew
  exact ⟨_, Graph.nodes_update_self hm, hretains.kind⟩

/-- Nodes that stand for no object. -/
theorem createPlain {n : Node} (hkind : n.kind.isOrdinary = true) (hpaired : n.paired = none) :
    Follows R (Lower.createFor v (·.create n)) :=
  @createFor _ _ _ _ _ (.create hkind hpaired)

theorem createPlainWith {n : Node} {ops : List NodeId} (hkind : n.kind.isOrdinary = true) (hpaired : n.paired = none) :
    Follows R (Lower.createFor v (·.createWith n ops)) :=
  @createFor _ _ _ _ _ (.createWith hkind hpaired)

/-! ## Relevance -/

instance touchesPointers : Follows R (touchesPointers prog f) := by
  refine .bind fun _ ↦ ?_
  dsimp only
  split
  · exact .pure _
  · refine .bind fun _ ↦ ?_
    have hknown (b : Bool) : Follows R (modify fun s : Lowering ↦ { s with relevance := s.relevance.insert f b }) :=
      modify_aside fun _ ↦ ⟨rfl, rfl, rfl⟩
    exact .bind fun _ ↦ .pure _

instance isRelevantCall : Follows R (isRelevantCall prog v) := by
  refine .bind fun asm ↦ ?_
  split
  · exact .pure _
  · refine .bind fun f? ↦ ?_
    cases f? with
    | none => exact .pure _
    | some f => exact inferInstance

instance isRelevant : Follows R (isRelevant prog v) := by
  refine .bind fun inst? ↦ ?_
  cases inst? with
  | none => exact .pure _
  | some inst =>
    dsimp only
    split
    case h_1 =>
      split
      · exact .lift _
      · exact .pure _
    case h_2 | h_3 | h_4 | h_5 => exact .lift _
    case h_6 => exact isRelevantCall
    all_goals exact inferInstance

/-! ## Constants -/

instance elementOffset (source : Ty) (indices : List ValueId) : Follows R (elementOffset prog v source indices) := by
  refine .bind fun offset? ↦ ?_
  cases offset? with
  | none => exact .pure _
  | some offset => exact inferInstance

variable [ask.Moves R]

instance constantPointer : Follows R (constantPointer ask v) := by
  refine .bind fun id ↦ .bind fun n ↦ ?_
  split <;> exact .pure _

omit [ask.Moves R] in
instance constantOperand (operands : List ValueId) (index : Nat) : Follows R
    (constantOperand prog v operands index) := by
  unfold Lower.constantOperand
  split
  · exact .pure _
  · exact missing

instance foldConstant (opcode : Opcode) (operands : List ValueId) : Follows R
    (foldConstant prog ask v opcode operands) := by
  unfold Lower.foldConstant
  split
  case h_7 =>
    refine .bind fun lhs ↦ .bind fun rhs ↦ .bind fun amount? ↦ ?_
    cases amount? with
    | some amount => exact inferInstance
    | none =>
      refine .bind fun amount? ↦ ?_
      cases amount? with
      | some amount => exact inferInstance
      | none => exact inferInstance
  all_goals exact inferInstance

instance constantNode? : Follows R (constantNode? prog ask v) := by
  refine .bind fun value ↦ ?_
  split
  case h_6 =>
    refine .bind fun p ↦ create_bind fun id hid ↦ ?_
    exact (assign hid).andThen fun _ ↦ .pure _
  case h_7 =>
    refine create_bind fun id hid ↦ ?_
    exact (assign hid).andThen fun _ ↦ .pure _
  all_goals exact .pure _

instance availableOperand? : Follows R (availableOperand? prog ask v) := by
  refine .bind fun id? ↦ ?_
  cases id? with
  | some id => exact inferInstance
  | none =>
    refine .bind fun id? ↦ ?_
    cases id? with
    | some id => exact inferInstance
    | none => exact .pure _

instance eitherOperand? : Follows R (eitherOperand? prog ask v w) := by
  refine .bind fun id? ↦ ?_
  cases id? with
  | some id => exact .pure _
  | none => exact availableOperand?

/-! ## Instructions -/

omit [ask.Moves R] in
instance lowerUnknown : Follows R (lowerUnknown v) := createFor

omit [ask.Moves R] in
instance lowerAlloc (size : Nat) : Follows R (lowerAlloc v size) := by
  refine create_bind fun id hid ↦ ?_
  have hsize : Follows R (Lower.onGraph fun g ↦ g.update id fun n ↦ { n with size }) :=
    edit hid fun _ ↦ ⟨rfl, rfl, rfl⟩
  exact .bind fun _ ↦ (assign hid).andThen fun _ ↦ .pure _

instance lowerStore : Follows R (lowerStore prog ask v) :=
  .bind fun _ ↦ .bind fun _ ↦ .bind fun _ ↦ .bind fun _ ↦ createPlainWith rfl rfl

instance lowerLoad : Follows R (lowerLoad ask v w) := .bind fun _ ↦ createPlainWith rfl rfl

instance lowerGep (source : Ty) (indices : List ValueId) : Follows R (lowerGep prog ask v source indices) :=
  .bind fun _ ↦ .bind fun _ ↦ .bind fun _ ↦ createFor

instance lowerExtract : Follows R (lowerExtract prog ask v) := by
  refine .bind fun _ ↦ .bind fun op ↦ create_bind fun gep hgep ↦ ?_
  have hload : Graph.Makes (·.createWith { kind := .load } [gep]) := .createWith rfl rfl
  exact create_bind fun load hload ↦ .bind fun _ ↦ (setValue hgep).andThen fun _ ↦ (assign hload).andThen
    fun _ ↦ .pure _

instance lowerSelect : Follows R (lowerSelect prog ask v) :=
  .bind fun _ ↦ .bind fun _ ↦ .bind fun _ ↦ .bind fun _ ↦ createPlainWith rfl rfl

instance lowerCast : Follows R (lowerCast prog ask v) := .bind fun _ ↦ .bind fun _ ↦ createPlainWith rfl rfl

instance lowerPtrToInt : Follows R (lowerPtrToInt prog ask v) :=
  .bind fun _ ↦ .bind fun _ ↦ createFor.andThen fun _ ↦ .bind fun _ ↦ .bind fun _ ↦ .pure _

instance lowerIntToPtr : Follows R (lowerIntToPtr prog ask v) := by
  refine .bind fun source ↦ .bind fun n? ↦ ?_
  split
  · exact .bind fun _ ↦ .bind fun _ ↦ .bind fun _ ↦ createPlainWith rfl rfl
  · exact .bind fun _ ↦ createPlainWith rfl rfl

instance lowerAdd : Follows R (lowerAdd prog ask v) := by
  refine .bind fun lhs ↦ .bind fun rhs ↦ .bind fun amount? ↦ ?_
  cases amount? with
  | some amount => exact .bind fun _ ↦ createFor
  | none =>
    refine .bind fun amount? ↦ ?_
    cases amount? with
    | some amount => exact .bind fun _ ↦ createFor
    | none =>
      refine .bind fun op? ↦ ?_
      cases op? with
      | some op => exact createFor
      | none => exact lowerUnknown

instance lowerArithmetic : Follows R (lowerArithmetic prog ask v) := by
  refine .bind fun lhs ↦ .bind fun rhs ↦ .bind fun n? ↦ ?_
  split
  · refine .bind fun _ ↦ .bind fun op ↦ .bind fun op? ↦ ?_
    cases op? with
    | some op => exact createFor
    | none => exact lowerUnknown
  · refine .bind fun n? ↦ ?_
    split
    · refine .bind fun op ↦ .bind fun op? ↦ ?_
      cases op? with
      | some op => exact createFor
      | none => exact lowerUnknown
    · refine .bind fun op? ↦ ?_
      cases op? with
      | some op => exact createFor
      | none => exact lowerUnknown

omit [ask.Moves R] in
/-- A return is a node by the time that it is listed. -/
theorem listReturn (ops : List NodeId) : Follows R (do
    let id ← Lower.createFor v (·.createWith { kind := .ret } ops)
    Lower.updateRecord prog f v fun r ↦ { r with returns := r.returns ++ [id] }
    return id) where
  leaves {s t} h := by
    have hcreate : Follows R (Lower.createFor v (·.createWith { kind := .ret } ops)) := createPlainWith rfl rfl
    rcases Follows.leaves_bind R h with hst | ⟨id, u, hid, hsu, h⟩
    · exact hst
    obtain ⟨n, hn, hkind⟩ := createFor_node hid
    refine trans_of R hsu ?_
    unfold Lower.updateRecord at h
    rw [bind_assoc] at h
    rcases Follows.leaves_bind R h with hut | ⟨r, u', hr, -, h⟩
    · exact hut
    obtain ⟨-, rfl⟩ := record_eq_ok_iff.1 hr
    rcases leaves_bind_iff.1 h with ⟨e, he⟩ | ⟨_, w, hw, h⟩
    · contradiction
    obtain rfl := alterRecord_eq_ok_iff.1 hw
    exact trans_of R (hR.returned hn hkind) (Follows.leaves h)

instance lowerReturn : Follows R (lowerReturn prog ask v) := by
  have hfinish (inst : Instruction) (ops : List NodeId) : Follows R (do
      let id ← Lower.createFor v (·.createWith { kind := .ret } ops)
      Lower.updateRecord prog inst.function v fun r ↦ { r with returns := r.returns ++ [id] }
      return id) := listReturn ops
  refine .bind fun inst ↦ ?_
  cases inst.operand? 0 with
  | none => exact .bind fun _ ↦ hfinish inst _
  | some returned =>
    refine .bind fun pointer ↦ .bind fun _ ↦ ?_
    split
    · exact .bind fun _ ↦ .bind fun _ ↦ hfinish inst _
    · exact .bind fun _ ↦ hfinish inst _

/-! ## Calls -/

instance bindArguments (params arguments : List ValueId) : Follows R (bindArguments prog ask params arguments) := by
  refine .forM (fun pair ↦ .bind fun pointer ↦ ?_) _
  split
  · refine .bind fun formal? ↦ ?_
    cases formal? with
    | none => exact .pure _
    | some formal => exact inferInstance
  · exact .pure _

instance bindVariadic (arguments : List ValueId) : Follows R (bindVariadic prog ask id arguments) :=
  .forM (fun _ ↦ inferInstance) _

instance callFunction : Follows R (callFunction prog ask call f) := by
  refine .bind fun inst ↦ createCall_bind fun site id hsite hid ↦ ?_
  refine (setValue hid).andThen fun _ ↦ (setValue hsite).andThen fun _ ↦ ?_
  refine .bind fun entry ↦ .bind fun r ↦ .bind fun _ ↦ .bind fun _ ↦ .bind fun callee ↦ .bind fun _ ↦ ?_
  cases r.variadic with
  | some variadic => exact inferInstance
  | none => exact inferInstance

omit hR [ask.Moves R] in
/-- The call node is new. -/
theorem callFunction_fresh {s : Lowering} :
    Ensures (Lower.callFunction prog ask call f) s fun span _ ↦ s.graph.size ≤ span.first := by
  refine .seq fun inst _ hinst ↦ .seq fun site _ hsite ↦ .seq fun id _ hid ↦ ?_
  have hfresh : s.graph.size ≤ id := by
    obtain ⟨-, rfl⟩ := instruction_eq_ok_iff.1 hinst
    obtain ⟨-, rfl⟩ := create_eq_ok_iff.1 hsite
    obtain ⟨rfl, -⟩ := create_eq_ok_iff.1 hid
    simp [Graph.create, Graph.size]
  refine .seq fun _ _ _ ↦ .seq fun _ _ _ ↦ .seq fun _ _ _ ↦ .seq fun entry _ _ ↦ .seq fun r _ _ ↦ .seq fun _ _ _ ↦
    .seq fun _ _ _ ↦ .seq fun callee _ _ ↦ .seq fun _ _ _ ↦ ?_
  cases r.variadic with
  | some variadic =>
    refine .seq fun _ _ _ ↦ ?_
    dsimp only
    split
    · exact .seq fun _ _ _ ↦ .seq fun _ _ _ ↦ .pure hfresh
    · exact .seq fun _ _ _ ↦ .seq fun _ _ _ ↦ .pure hfresh
  | none =>
    dsimp only
    split
    · exact .seq fun _ _ _ ↦ .seq fun _ _ _ ↦ .pure hfresh
    · exact .seq fun _ _ _ ↦ .seq fun _ _ _ ↦ .pure hfresh

instance lowerIndirectCall (inst : Instruction) : Follows R (lowerIndirectCall prog ask call inst) := by
  unfold Lower.lowerIndirectCall
  split
  · exact missing
  · refine .bind fun callee ↦ .bind fun op ↦ ?_
    refine createIndirect_bind fun id site hid hsite ↦ .bind fun _ ↦ ?_
    exact (setValue hsite).andThen fun _ ↦ (assign hid).andThen fun _ ↦ .pure _

omit [ask.Moves R] in
instance lowerExternalCall : Follows R (lowerExternalCall call) := by
  exact createPaired_bind (fun _ ↦ rfl) (.inl rfl) fun _ hid ↦ (assign hid).andThen fun _ ↦ .pure _

omit [ask.Moves R] in
instance lowerAsm : Follows R (lowerAsm call) :=
  .bind fun _ ↦ createPaired_bind (fun _ ↦ rfl) (.inr rfl) fun _ hid ↦ (assign hid).andThen fun _ ↦ .pure _

omit [ask.Moves R] in
instance constantSize (v? : Option ValueId) : Follows R (constantSize prog v?) := by
  unfold Lower.constantSize
  split
  · exact .pure _
  · refine .bind fun n? ↦ ?_
    split <;> exact .pure _

instance lowerRealloc (arguments : List ValueId) : Follows R (lowerRealloc prog ask call arguments) := by
  unfold Lower.lowerRealloc
  split
  · exact missing
  · refine .bind fun _ ↦ .bind fun old ↦ create_bind fun id hid ↦ .bind fun size ↦ .bind fun n ↦ ?_
    have hheap : Follows R
        (Lower.onGraph fun g ↦ g.update id fun m ↦ { m with heap := true, size := size, zeroed := n.zeroed }) :=
      edit hid fun _ ↦ ⟨rfl, rfl, rfl⟩
    refine .bind fun _ ↦ create_bind fun copy hcopy ↦ .bind fun _ ↦ ?_
    exact (setValue hcopy).andThen fun _ ↦ (assign hid).andThen fun _ ↦ .pure _

omit [ask.Moves R] in
theorem allocate {n : Node} (hkind : n.kind.isObject = true) (hpaired : n.paired = none) :
    Follows R (lowerAllocation.allocate call n) := by
  have hmake := Graph.Makes.allocate hkind hpaired
  exact createFor.andThen fun _ ↦ .pure _

instance lowerAllocation (arguments : List ValueId) (allocator : Allocator) :
    Follows R (lowerAllocation prog ask call arguments allocator) := by
  unfold Lower.lowerAllocation
  cases allocator with
  | realloc => exact lowerRealloc _
  | malloc => exact .bind fun _ ↦ allocate rfl rfl
  | calloc => exact .bind fun _ ↦ .bind fun _ ↦ allocate rfl rfl
  | alloca => exact .bind fun _ ↦ allocate rfl rfl

instance lowerTransfer (arguments : List ValueId) : Follows R (lowerTransfer prog ask call arguments) := by
  have hfinish (src dest : ValueId) (length : Offset) : Follows R (do
      let src ← ask.operand src
      let dest ← ask.operand dest
      Lower.createFor call (·.createMemcpy src dest .zero length)) := .bind fun _ ↦ .bind fun _ ↦ createFor
  unfold Lower.lowerTransfer
  split
  · rename_i dest src rest
    cases rest with
    | nil => exact .bind fun _ ↦ hfinish ..
    | cons length rest =>
      refine .bind fun n? ↦ ?_
      cases n? with
      | some n => exact .bind fun _ ↦ hfinish ..
      | none => exact .bind fun _ ↦ hfinish ..
  · exact missing

omit [ask.Moves R] in
instance isMemset : Follows R (isMemset prog v) := by
  refine .bind fun f? ↦ ?_
  cases f? with
  | none => exact .pure _
  | some f => exact inferInstance

omit [ask.Moves R] in
instance slotType? : Follows R (slotType? prog v) := by
  refine .bind fun inst? ↦ ?_
  split <;> exact .pure _

instance fillMemory : Follows R (fillMemory ask call v id) := by
  refine .bind fun op ↦ create_bind fun gep hgep ↦ ?_
  have hstore : Graph.Makes (·.createWith { kind := .store } [id, gep]) := .createWith rfl rfl
  refine create_bind fun store hstore ↦ .bind fun _ ↦ ?_
  exact (setValue hgep).andThen fun _ ↦ (setValue hstore).andThen fun _ ↦ .pure _

instance lowerMemset : Follows R (lowerMemset prog ask call) := by
  refine .bind fun dest ↦ .bind fun fill ↦ .bind fun dest ↦ .bind fun n? ↦ ?_
  split
  · refine .bind fun ty? ↦ ?_
    cases ty? with
    | some ty => exact inferInstance
    | none => exact inferInstance
  · exact inferInstance

instance lowerVaStart (inst : Instruction) : Follows R (lowerVaStart prog ask call inst) := by
  refine .bind fun r? ↦ ?_
  split
  · exact inferInstance
  · rename_i variadic _
    refine .bind fun list ↦ .bind fun _ ↦ .bind fun list ↦ createFor.andThen fun object ↦ .bind fun n ↦ ?_
    have hfinish (slot : NodeId) : Follows R (do
        let init ← Lower.create (·.createWith { kind := .store } [object, slot])
        let memory ← Lower.create (·.createConstant ⟨object, .unknown⟩)
        let fill ← Lower.create (·.createWith { kind := .store } [variadic, memory])
        Lower.onGraph (·.addSuccessor object init)
        Lower.onGraph (·.addSuccessor init fill)
        Lower.note .debug fun _ ↦ return s!"va_start in @{(← prog.function inst.function).name}"
        return (⟨object, fill⟩ : Span)) := by
      have hinit : Graph.Makes (·.createWith { kind := .store } [object, slot]) := .createWith rfl rfl
      have hfill (memory : NodeId) : Graph.Makes (·.createWith { kind := .store } [variadic, memory]) :=
        .createWith rfl rfl
      exact .bind fun _ ↦ .bind fun _ ↦ .bind fun _ ↦ inferInstance
    split
    · exact .bind hfinish
    · exact .bind hfinish

instance lowerIntrinsic (inst : Instruction) (name : String) : Follows R (lowerIntrinsic prog ask call inst name) := by
  unfold Lower.lowerIntrinsic
  split
  case h_3 =>
    refine .bind fun span? ↦ ?_
    cases span? with
    | some span => exact .pure _
    | none =>
      have hnoop : Graph.Makes (·.create { kind := .noop }) := .create rfl rfl
      exact inferInstance
  all_goals exact inferInstance

instance lowerCall : Follows R (lowerCall prog ask call) := by
  refine .bind fun asm ↦ ?_
  split
  · exact inferInstance
  · refine .bind fun inst ↦ .bind fun f? ↦ ?_
    cases f? with
    | none => exact inferInstance
    | some f =>
      refine .bind fun callee ↦ ?_
      split
      · split
        · exact inferInstance
        · exact inferInstance
      · refine hR.bind_fresh (fun span ↦ [span.first]) inferInstance (fun s ↦ ?_) fun span hspan ↦ ?_
        · exact callFunction_fresh.mono fun _ _ hnew ↦ by simpa using hnew
        have hcalls : Follows R (modify fun s : Lowering ↦
            { s with callGraph := s.callGraph.addCall inst.function f ⟨.direct, span.first⟩ }) :=
          modify_aside fun _ ↦ ⟨rfl, rfl, rfl⟩
        exact .bind fun _ ↦ (assign (hspan _ (by simp))).andThen fun _ ↦ .pure _

instance lowerInstruction : Follows R (lowerInstruction prog ask v) := by
  refine .bind fun inst ↦ .bind fun _ ↦ ?_
  have hphi : Follows R (Lower.createFor v (·.create { kind := .phi })) := createPlain rfl rfl
  split
  all_goals exact inferInstance

/-! ## Values lowered on request -/

omit [ask.Moves R] in
instance isUnvisited : Follows R (isUnvisited prog v) := by
  refine .bind fun inst? ↦ ?_
  cases inst? with
  | none => exact .pure _
  | some inst => exact .bind fun _ ↦ .pure _

instance attachIncoming : Follows R (attachIncoming prog ask v id) := by
  refine .bind fun inst? ↦ ?_
  cases inst? with
  | none => exact .pure _
  | some inst => exact .forM (fun _ ↦ inferInstance) _

omit [ask.Moves R] in
instance placeFormal : Follows R (placeFormal f id) := by
  refine .bind fun r? ↦ ?_
  cases r? with
  | none => exact .pure _
  | some r =>
    refine .bind fun _ ↦ .bind fun _ ↦ .bind fun span? ↦ ?_
    repeat' split
    all_goals exact inferInstance

omit [ask.Moves R] in
instance placeSequence (span : Span) : Follows R (placeSequence prog f v span) := by
  refine .bind fun inst? ↦ ?_
  cases inst? with
  | none => exact .pure _
  | some inst =>
    refine .bind fun block? ↦ ?_
    split
    · exact inferInstance
    · refine .bind fun _ ↦ .bind fun _ ↦ .bind fun _ ↦ ?_
      dsimp only
      split
      · exact inferInstance
      · exact inferInstance
    · refine .bind fun r? ↦ ?_
      cases r? with
      | none => exact inferInstance
      | some r => exact inferInstance

instance lowerDeferred (followUses : Bool) : Follows R (lowerDeferred prog ask v followUses) := by
  refine .bind fun inst ↦ .bind fun span ↦ .bind fun _ ↦ .bind fun _ ↦ .bind fun _ ↦ .bind fun r ↦ ?_
  dsimp only
  exact inferInstance

omit [ask.Moves R] in
instance lowerFormal : Follows R (lowerFormal prog v) := by
  refine .bind fun value ↦ ?_
  split
  · have hphi : Graph.Makes (·.create { kind := .phi }) := .create rfl rfl
    exact create_bind fun id hid ↦ (assign hid).andThen fun _ ↦ inferInstance
  · exact missing

instance operand : Follows R (operand prog ask v) := by
  refine .bind fun id? ↦ ?_
  cases id? with
  | some id => exact .pure _
  | none =>
    refine .bind fun value ↦ ?_
    split
    · exact inferInstance
    · exact lowerFormal
    · exact missing

instance placeAll : Follows R (placeAll prog ask f) := by
  have hplace (r : FunctionRecord) : Follows R (do
      Lower.alterRecord f fun r ↦ { r with unplacedFormals := [], unplaced := [] }
      r.unplacedFormals.forM (Lower.placeFormal f)
      r.unplaced.forM fun e ↦ Lower.placeSequence prog f e.1 e.2) :=
    .bind fun _ ↦ .andThen (.forM (fun _ ↦ placeFormal) _) fun _ ↦ .forM (fun _ ↦ placeSequence _) _
  refine .bind fun r? ↦ ?_
  cases r? with
  | none =>
    refine .bind fun r? ↦ ?_
    cases r? with
    | none => exact .pure _
    | some r => exact hplace r
  | some r =>
    refine .bind fun _ ↦ .andThen (.forM (fun _ ↦ usesOf) _) fun _ ↦ .bind fun r? ↦ ?_
    cases r? with
    | none => exact .pure _
    | some r => exact hplace r

instance bindFormal : Follows R (bindFormal prog ask call v) := by
  refine .bind fun f? ↦ ?_
  cases f? with
  | none => exact .pure _
  | some f =>
    refine .bind fun callee ↦ ?_
    split
    · exact .pure _
    · refine .bind fun arguments ↦ ?_
      dsimp only
      split
      · exact .pure _
      · rename_i param _
        refine .bind fun _ ↦ .bind fun formal? ↦ ?_
        cases formal? with
        | some formal =>
          refine .bind fun _ ↦ .bind fun op ↦ .bind fun _ ↦ .bind fun _ ↦ .bind fun r? ↦ ?_
          cases r? with
          | some r => exact inferInstance
          | none => exact .pure _
        | none =>
          refine .bind fun _ ↦ .bind fun op ↦ .bind fun _ ↦ .bind fun _ ↦ .bind fun r? ↦ ?_
          cases r? with
          | some r => exact inferInstance
          | none => exact .pure _

instance lowerUse : Follows R (lowerUse prog ask v w) := by
  refine .bind fun _ ↦ ?_
  split
  · exact .pure _
  · refine .bind fun inst? ↦ ?_
    cases inst? with
    | none => exact .pure _
    | some inst =>
      refine .bind fun _ ↦ ?_
      split
      · exact .pure _
      · refine .bind fun relevant ↦ ?_
        dsimp only
        split
        · refine .bind fun _ ↦ ?_
          cases inst.operand? 1 with
          | some pointer => exact inferInstance
          | none => exact inferInstance
        · exact inferInstance

instance lowerUses : Follows R (lowerUses prog ask v) := .forM (fun _ ↦ lowerUse) _

/-! ## Globals -/

instance storeInitial (offset : Nat) (last : NodeId) : Follows R (storeInitial ask v id offset last) := by
  have hstore (op target : NodeId) : Graph.Makes (·.createWith { kind := .store } [op, target]) := .createWith rfl rfl
  refine .bind fun op ↦ ?_
  split
  · exact inferInstance
  · exact inferInstance

omit [ask.Moves R] in
instance unhandledInitializer {α : Type} (global : Global) : Follows R (unhandledInitializer prog global v : Lower α) :=
  .bind fun _ ↦ .throw _

instance lowerInitializer (global : Global) (budget : Nat) (ty : Ty) (offset : Nat) (last : NodeId) :
    Follows R (lowerInitializer prog ask global id budget v ty offset last) := by
  induction budget generalizing v ty offset last with
  | zero => exact .throw _
  | succ budget ih =>
    refine .bind fun constant? ↦ ?_
    split
    · refine .foldlM (fun last elem ↦ ?_) _ _
      dsimp only
      split
      · exact inferInstance
      · exact inferInstance
    all_goals exact inferInstance

instance lowerContent (global : Global) : Follows R (lowerContent prog ask global id) := by
  have hstore : Graph.Makes (·.createWith { kind := .store } [unknownTarget, id]) := .createWith rfl rfl
  unfold Lower.lowerContent
  split
  · exact inferInstance
  · exact inferInstance

instance lowerGlobals : Follows R (lowerGlobals prog ask) := by
  refine .andThen (.foldlM (fun chain global ↦ ?_) _ _) fun chain ↦ ?_
  · have hmemory : Graph.Makes fun g ↦ g.create
        { kind := .alloc, pointsTo := .singleton ⟨g.size, .zero⟩, size := prog.layout.allocSize global.ty } :=
      .allocate (n := { kind := .alloc, size := prog.layout.allocSize global.ty }) rfl rfl
    exact create_bind fun id hid ↦ (assign hid).andThen fun _ ↦ inferInstance
  · cases chain with
    | none => exact .pure _
    | some span => exact .andThen (.foldlM (fun _ _ ↦ inferInstance) _ _) fun _ ↦ inferInstance

instance globalChain [hbegins : Begins prog R] : Follows R (globalChain prog ask) := by
  refine .bind fun s ↦ ?_
  cases s.globals with
  | some chain => exact .pure _
  | none =>
    refine .bind fun chain ↦ ?_
    have hset : Follows R (modify fun s : Lowering ↦ { s with globals := some chain }) :=
      .modify fun _ ↦ hbegins.chained
    exact inferInstance

/-! ## Functions -/

omit [ask.Moves R] in
instance lowerFormals (fn : Function) : Follows R (lowerFormals prog fn) := by
  have hformal (param : ValueId) : Follows R (Lower.createFor param (·.create { kind := .phi })) := createPlain rfl rfl
  have hphi : Graph.Makes (·.create { kind := .phi }) := .create rfl rfl
  exact .andThen (.foldlM (fun _ _ ↦ inferInstance) _ _) fun _ ↦ inferInstance

instance lowerInBlock : Follows R (lowerInBlock prog ask v) := by
  unfold Lower.lowerInBlock
  exact inferInstance

instance lowerBlock (b : BlockId) : Follows R (lowerBlock prog ask f b) := by
  refine .bind fun _ ↦ .bind fun block ↦ .andThen (.foldlM (fun nodes v ↦ .bind fun span? ↦ ?_) _ _) fun _ ↦
    inferInstance
  cases span? with
  | none => exact .pure _
  | some span =>
    refine .bind fun _ ↦ ?_
    cases nodes with
    | none => exact .pure _
    | some chain => exact inferInstance

instance lowerBlocks (formals : Option Span) (blocks : List BlockId) :
    Follows R (lowerBlocks prog ask f id formals blocks) := by
  unfold Lower.lowerBlocks
  split
  · exact .pure _
  · refine .bind fun span? ↦ ?_
    cases span? with
    | some span => exact .bind fun _ ↦ .forM (fun _ ↦ inferInstance) _
    | none => exact .bind fun _ ↦ .forM (fun _ ↦ inferInstance) _

instance attachPhis : Follows R (attachPhis prog ask f) := by
  refine .bind fun fn ↦ .andThen (.forM (fun e ↦ .bind fun _ ↦ ?_) _) fun _ ↦ inferInstance
  split
  · refine .forM (fun v ↦ .bind fun inst? ↦ ?_) _
    cases inst? with
    | none => exact .pure _
    | some inst =>
      dsimp only
      split
      · refine .bind fun phi? ↦ ?_
        cases phi? with
        | some phi => exact attachIncoming
        | none => exact .pure _
      · exact .pure _
  · exact .pure _

omit [ask.Moves R] in
instance linkBlocks : Follows R (linkBlocks prog f) := by
  refine .bind fun fn ↦ .bind fun _ ↦ .forM (fun b ↦ ?_) _
  split
  · exact .pure _
  · exact .forM (fun _ ↦ inferInstance) _

omit [ask.Moves R] in
instance complete : Follows R (complete f) := by
  refine .bind fun r? ↦ ?_
  cases r? with
  | none => exact .pure _
  | some r => exact .bind fun _ ↦ .andThen (.forM (fun _ ↦ inferInstance) _) fun _ ↦ .forM (fun _ ↦ inferInstance) _

/-- What is left to do for a function once it is recorded. -/
instance body (fn : Function) (entry : NodeId) (formals : Option Span) : Follows R (do
    Lower.lowerBlocks prog ask f entry formals (← fn.reachableBlocks)
    Lower.attachPhis prog ask f
    Lower.placeAll prog ask f
    Lower.linkBlocks prog f
    Lower.complete f
    return entry) :=
  .bind fun _ ↦ .bind fun _ ↦ .bind fun _ ↦ .bind fun _ ↦ .bind fun _ ↦ .bind fun _ ↦ .pure _

omit [ask.Moves R] in
theorem openRecord_bind [hbegins : Begins prog R] {fn : Function}
    {next : NodeId → Option Span × Option NodeId → Lower α}
    (hfn : prog.function f = .ok fn) (hnew : s.records.get? f = none)
    (hnext : ∀ entry formals, Follows R (next entry formals)) (h : Leaves (do
      let entry ← Lower.create (·.create { kind := .entry })
      let exit ← Lower.create (·.create { kind := .noop })
      let formals ← Lower.lowerFormals prog fn
      modify fun s ↦
        { s with
          records := s.records.insert f { entry, exit, formals := formals.1, variadic := formals.2 }
          callGraph := s.callGraph.addFunction f }
      next entry formals) s t) : R s t := by
  have hopen : Leaves (openRecord prog f fn >>= fun p ↦ next p.1 p.2) s t := by
    simpa only [openRecord, bind_assoc, pure_bind] using h
  rcases leaves_bind_iff.1 hopen with ⟨e, he⟩ | ⟨p, u, hp, hut⟩
  · exact hbegins.begins hfn hnew (.inr ⟨e, he⟩)
  · exact trans_of R (hbegins.begins hfn hnew (.inl ⟨p, hp⟩)) ((hnext p.1 p.2).leaves hut)

instance lowerFunction [Begins prog R] : Follows R (lowerFunction prog ask f) where
  leaves {s t} h := by
    rcases Follows.leaves_bind R h with hst | ⟨_, u, -, hsu, h⟩
    · exact hst
    rcases Follows.leaves_bind R h with hut | ⟨r?, _, hr, -, h⟩
    · exact trans_of R hsu hut
    obtain ⟨hnew, rfl⟩ := record?_eq_ok_iff.1 hr
    refine trans_of R hsu ?_
    cases r? with
    | some r => exact (Follows.pure r.entry).leaves h
    | none =>
      rcases Follows.leaves_bind R h with hut | ⟨fn, _, hlookup, -, h⟩
      · exact hut
      obtain ⟨hfn, rfl⟩ := lift_eq_ok_iff.1 hlookup
      rcases Follows.leaves_bind R h with hut | ⟨_, w, hnote, huw, h⟩
      · exact hut
      obtain ⟨_, _, rfl⟩ := note_eq_ok hnote
      refine trans_of R huw (openRecord_bind hfn hnew (fun entry formals ↦ ?_) h)
      dsimp only
      split
      · exact .bind fun _ ↦ body ..
      · exact body ..

end Moves

/-- Requests move along the relation, however deep they are nested. -/
instance provider_moves [Begins prog R] (depth : Nat) : (provider prog depth).Moves R := by
  induction depth with
  | zero => exact ⟨fun _ ↦ .throw _, fun _ ↦ .throw _, fun _ ↦ .throw _⟩
  | succ depth ih => exact ⟨fun _ ↦ Moves.operand, fun _ ↦ Moves.lowerFunction, fun _ ↦ Moves.lowerUses⟩

instance ask_moves [Begins prog R] : (Lower.ask prog).Moves R := provider_moves _

namespace Moves

variable [Begins prog R]

instance build (entry : String) : Follows R (build prog entry) := by
  unfold Lower.build
  split
  · exact inferInstance
  · refine .bind fun fn ↦ ?_
    extract_lets finish rest
    have hfinish (root : NodeId) : Follows R (finish root) := .bind fun _ ↦ .bind fun _ ↦ inferInstance
    have hrest : Follows R (rest ⟨⟩) := by
      refine .bind fun globals ↦ .bind fun entryNode ↦ ?_
      cases globals with
      | none => exact .bind hfinish
      | some span => exact .bind fun _ ↦ .bind hfinish
    split
    · exact .bind fun _ ↦ hrest
    · exact hrest

instance functionOf? : Follows R (functionOf? prog id) := by
  refine .bind fun n ↦ ?_
  cases n.value with
  | none => exact .pure _
  | some v =>
    refine .bind fun value ↦ ?_
    split <;> exact .pure _

instance linkCall {callSite : NodeId} : Follows R (linkCall prog callSite id) := by
  refine .bind fun f? ↦ ?_
  cases f? with
  | none => exact .pure _
  | some f =>
    refine .bind fun site ↦ ?_
    dsimp only
    split
    · refine .bind fun inst? ↦ ?_
      cases inst? with
      | none => exact .pure _
      | some inst =>
        refine .bind fun callee ↦ ?_
        have hcalls : Follows R (modify fun s : Lowering ↦
            { s with callGraph := s.callGraph.addCall inst.function f ⟨.indirect, callSite⟩ }) :=
          modify_aside fun _ ↦ ⟨rfl, rfl, rfl⟩
        split
        · exact inferInstance
        · refine .bind fun _ ↦ ?_
          split
          · exact inferInstance
          · exact .bind fun span ↦ .bind fun _ ↦ .bind fun n ↦ inferInstance
    · exact .pure _

end Moves

end Lower

end PointsTo
