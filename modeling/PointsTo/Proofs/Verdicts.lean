import PointsTo.Proofs.Readiness

/-!
# Whether the globals can be lowered

Initializers refer to globals, to functions and to constants.  Whether a constant expression can be
folded is a matter of the program alone: it does not matter which constants have nodes already.  So the
globals of a scoped program are rejected whenever they are lowered, or never.
-/

namespace PointsTo

/-- Kinds of values that are operands without further ado. -/
def ValueKind.isPlain : ValueKind → Bool
  | .constant .null | .constant .zero | .constant (.int _) | .constant .undef | .asm | .function _ => true
  | _ => false

namespace Program

/-- A constant expression can be folded if what it is folded from can be. -/
inductive Foldable (prog : Program) : ValueId → Prop
  | global {g : Global} : g ∈ prog.globals → Foldable prog g.value
  | plain {v : ValueId} {k : ValueKind} : prog.kindAt v = some k → k.isPlain = true → Foldable prog v
  | expr {v : ValueId} {opcode : Opcode} {operands : List ValueId} {base? : Option ValueId} :
    prog.kindAt v = some (.constant (.expr opcode operands)) → prog.foldedFrom opcode operands = .ok (some base?) →
      (∀ base, base? = some base → Foldable prog base) → Foldable prog v

/-- The expression is folded from something that can be folded. -/
def Folds (prog : Program) (opcode : Opcode) (operands : List ValueId) : Prop :=
  ∃ base?, prog.foldedFrom opcode operands = .ok (some base?) ∧ ∀ base, base? = some base → prog.Foldable base

variable {prog : Program} {v : ValueId} {opcode : Opcode} {operands : List ValueId}

theorem not_folds (h : prog.foldedFrom opcode operands = .ok none) : ¬prog.Folds opcode operands := by
  rintro ⟨base?, hbase, -⟩
  simp [h] at hbase

theorem folds_iff (base : ValueId) (h : prog.foldedFrom opcode operands = .ok (some (some base))) :
    prog.Folds opcode operands ↔ prog.Foldable base := by
  constructor
  · rintro ⟨base?, hbase, hfold⟩
    obtain rfl := Option.some.inj (Except.ok.inj (h.symm.trans hbase))
    exact hfold base rfl
  · intro hbase
    refine ⟨_, h, fun base' hbase' ↦ ?_⟩
    rwa [← Option.some.inj hbase']

theorem folds_of_unknown (h : prog.foldedFrom opcode operands = .ok (some none)) : prog.Folds opcode operands :=
  ⟨none, h, fun _ hbase ↦ by contradiction⟩

theorem foldable_expr_iff (hv : prog.kindAt v = some (.constant (.expr opcode operands)))
    (hglobal : ∀ g ∈ prog.globals, g.value ≠ v) : prog.Foldable v ↔ prog.Folds opcode operands := by
  constructor
  · intro h
    cases h with
    | global hg => exact absurd rfl (hglobal _ hg)
    | plain hk hplain =>
      obtain rfl := Option.mem_unique hk hv
      contradiction
    | expr hk hfrom hbase =>
      obtain ⟨rfl, rfl⟩ : _ = opcode ∧ _ = operands := by simpa [hv] using hk.symm
      exact ⟨_, hfrom, hbase⟩
  · rintro ⟨base?, hfrom, hbase⟩
    exact .expr hv hfrom hbase

/-- Constants of a scoped program are made of what belongs to no function. -/
theorem Scoped.home?_of_constant (h : prog.Scoped) {c : Constant} {w : ValueId}
    (hv : prog.kindAt v = some (.constant c)) (hw : w ∈ (ValueKind.constant c).operands) : prog.home? w = none := by
  rcases h.operand hv hw with hhome | hhome
  · exact hhome
  · rw [hhome, home?_of_kindAt hv]
    rfl

end Program

/-! ## States before the globals are built -/

namespace Lowering

variable {prog : Program} {s t u : Lowering} {v : ValueId}

/-- Only what can be folded has a node. -/
def Folded (prog : Program) (s : Lowering) : Prop := ∀ v, s.nodes.get? v ≠ none → prog.Foldable v

/-- Nodes are added for what can be folded; functions and the root are left alone. -/
structure Spares (prog : Program) (s t : Lowering) : Prop where
  root : t.graph.root = s.graph.root
  records : t.records = s.records
  globals : t.globals = s.globals
  nodes : ∀ v, s.nodes.get? v ≠ none → t.nodes.get? v ≠ none
  folded : s.Folded prog → t.Folded prog

theorem Spares.of_nodes_eq (hroot : t.graph.root = s.graph.root) (hrecords : t.records = s.records)
    (hglobals : t.globals = s.globals) (hnodes : t.nodes = s.nodes) : s.Spares prog t :=
  ⟨hroot, hrecords, hglobals, fun _ h ↦ hnodes ▸ h, fun h v hv ↦ h v (hnodes ▸ hv)⟩

theorem Spares.refl (s : Lowering) : s.Spares prog s := .of_nodes_eq rfl rfl rfl rfl

theorem Spares.trans (hst : s.Spares prog t) (htu : t.Spares prog u) : s.Spares prog u where
  root := htu.root.trans hst.root
  records := htu.records.trans hst.records
  globals := htu.globals.trans hst.globals
  nodes v hv := htu.nodes v (hst.nodes v hv)
  folded hs := htu.folded (hst.folded hs)

theorem Furnished.spares (h : s.Furnished prog) (hst : s.Spares prog t) : t.Furnished prog :=
  fun g hg ↦ hst.nodes g.value (h g hg)

end Lowering

namespace Graph

variable {g : Graph} {a b first last : NodeId} {ops : List NodeId}

theorem root_addOperands : (g.addOperands a ops).root = g.root :=
  List.foldlRecOn (motive := fun h : Graph ↦ h.root = g.root) ops _ rfl fun _ h _ _ ↦ h

theorem root_addSuccessor : (g.addSuccessor a b).root = g.root := by
  unfold addSuccessor
  split <;> rfl

theorem root_insertAfter : (g.insertAfter a b).root = g.root := by
  unfold insertAfter spliceAfter
  rw [root_addSuccessor]
  exact List.foldlRecOn (motive := fun h : Graph ↦ h.root = g.root) _ _ rfl fun _ h _ _ ↦ root_addSuccessor.trans h

end Graph

namespace Lower

open Stateful

variable {α β ι : Type} {prog : Program} {ask : Provider} {s : Lowering} {v : ValueId} {id : NodeId} {P Q : Prop}

theorem onGraph_spares (prog : Program) {change : Graph → Graph} (h : ∀ g : Graph, (change g).root = g.root) :
    Ensures (onGraph change) s fun _ t ↦ s.Spares prog t := by
  intro _ t ht
  obtain rfl := onGraph_eq_ok_iff.1 ht
  exact .of_nodes_eq (h s.graph) rfl rfl rfl

theorem create_spares (prog : Program) {make : Graph → NodeId × Graph} (h : ∀ g, (make g).2.root = g.root) :
    Ensures (create make) s fun _ t ↦ s.Spares prog t := by
  intro _ t ht
  obtain ⟨-, rfl⟩ := create_eq_ok_iff.1 ht
  exact .of_nodes_eq (h s.graph) rfl rfl rfl

theorem append_spares (prog : Program) {chain : Option Span} : Ensures (append chain id) s fun _ t ↦
    s.Spares prog t := by
  cases chain with
  | none => exact .pure (.refl s)
  | some span => exact (onGraph_spares prog fun _ ↦ Graph.root_addSuccessor).bind fun _ _ ht ↦ .pure ht

theorem assign_spares (hv : prog.Foldable v) :
    Ensures (assign v id) s fun _ t ↦ s.Spares prog t ∧ t.nodes.get? v ≠ none := by
  intro _ t ht
  obtain rfl := assign_eq_ok_iff.1 ht
  refine ⟨⟨rfl, rfl, rfl, fun w hw ↦ ?_, fun hs w hw ↦ ?_⟩, by simp [OrderedMap.get?_insert_self]⟩
  · by_cases hwv : w = v
    · simp [hwv, OrderedMap.get?_insert_self]
    · rwa [OrderedMap.get?_insert_of_ne hwv]
  · by_cases hwv : w = v
    · exact hwv ▸ hv
    · rw [OrderedMap.get?_insert_of_ne hwv] at hw
      exact hs w hw

/-- Whether the computation is rejected is up to the program: `P` holds if it is not, and fails if it is. -/
def Decides (prog : Program) (P : Prop) (x : Lower α) : Prop := ∀ s : Lowering, s.Folded prog → s.Furnished prog →
  Ensures x s (fun _ t ↦ P ∧ s.Spares prog t) ∧
    Throws x s fun e t ↦ ∀ cause, e = .rejected cause → ¬P ∧ s.Spares prog t

namespace Decides

variable {x : Lower α} {next : α → Lower β}

theorem congr (h : Decides prog P x) (hPQ : P ↔ Q) : Decides prog Q x := propext hPQ ▸ h

theorem pure {a : α} (h : P) : Decides prog P (pure a) := fun _ _ _ ↦ ⟨.pure ⟨h, .refl _⟩, .pure⟩

theorem reject {cause : Rejection} (h : ¬P) : Decides prog P (reject cause : Lower α) :=
  fun _ _ _ ↦ ⟨fun _ _ h ↦ absurd h reject_ne_ok, .throw fun _ _ ↦ ⟨h, .refl _⟩⟩

theorem exhausted : Decides prog P (throw .exhausted : Lower α) :=
  fun _ _ _ ↦ ⟨fun _ _ h ↦ by contradiction, .throw fun _ he ↦ by contradiction⟩

theorem bind (hx : Decides prog P x) (hnext : P → ∀ a, Decides prog Q (next a)) : Decides prog (P ∧ Q)
    (x >>= next) := by
  intro s hs hfurnished
  obtain ⟨hok, hfail⟩ := hx s hs hfurnished
  refine ⟨hok.bind fun a t ⟨hP, hst⟩ ↦ ?_, Throws.bind ?_ fun a t ha ↦ ?_⟩
  · exact (hnext hP a t (hst.folded hs) (hfurnished.spares hst)).1.mono fun _ _ ⟨hQ, htu⟩ ↦ ⟨⟨hP, hQ⟩, hst.trans htu⟩
  · exact hfail.mono fun e t he cause hcause ↦ ⟨fun hPQ ↦ (he cause hcause).1 hPQ.1, (he cause hcause).2⟩
  · obtain ⟨hP, hst⟩ := hok a t ha
    refine (hnext hP a t (hst.folded hs) (hfurnished.spares hst)).2.mono fun e u he cause hcause ↦ ?_
    exact ⟨fun hPQ ↦ (he cause hcause).1 hPQ.2, hst.trans (he cause hcause).2⟩

/-- A first part that is never rejected decides nothing. -/
theorem skip (hx : Decides prog True x) (hnext : ∀ a, Decides prog P (next a)) : Decides prog P (x >>= next) :=
  (hx.bind fun _ ↦ hnext).congr (iff_of_eq (true_and P))

/-- A first part that decides everything. -/
theorem andThen (hx : Decides prog P x) (hnext : P → ∀ a, Decides prog True (next a)) : Decides prog P (x >>= next) :=
  (hx.bind hnext).congr (iff_of_eq (and_true P))

theorem bind_lift {q : Query α} [hq : q.NeverRejects] (h : ∀ a, q = .ok a → Decides prog P (next a)) :
    Decides prog P ((liftM q : Lower α) >>= next) := by
  refine fun s hs hfurnished ↦ ⟨.bind_lift fun a ha ↦ (h a ha s hs hfurnished).1,
    .bind_lift (fun e he cause hcause ↦ ?_) fun a ha ↦ (h a ha s hs hfurnished).2⟩
  exact absurd (he.trans (congrArg Except.error hcause)) (hq.ne_rejected cause)

theorem missing (h : ¬P) : Decides prog P (missing prog v : Lower α) := .bind_lift fun _ _ ↦ .reject h

/-- Nothing comes after a rejection. -/
theorem bind_missing (h : ¬P) : Decides prog P (Lower.missing prog v >>= next) :=
  fun s hs hfurnished ↦ ⟨.seq fun _ _ ha ↦ absurd ha missing_ne_ok,
    (missing h s hs hfurnished).2.bind fun _ _ ha ↦ absurd ha missing_ne_ok⟩

/-- A step that does not touch what matters here. -/
theorem aside [hx : NeverRejects x] (h : ∀ s, Ensures x s fun _ t ↦ s.Spares prog t) : Decides prog True x :=
  fun s _ _ ↦ ⟨(h s).mono fun _ _ ht ↦ ⟨trivial, ht⟩, (hx.throws s).mono fun _ _ he cause hcause ↦
  absurd hcause (he cause)⟩

theorem onGraph {change : Graph → Graph} (h : ∀ g : Graph, (change g).root = g.root) :
    Decides prog True (onGraph change) := aside fun _ ↦ onGraph_spares prog h

theorem create {make : Graph → NodeId × Graph} (h : ∀ g, (make g).2.root = g.root) : Decides prog True (create make) :=
  aside fun _ ↦ create_spares prog h

theorem remark [NeverRejects x] (h : ∀ s, Ensures x s fun _ t ↦ s.Remarks t) : Decides prog True x := by
  refine aside fun s a t ht ↦ ?_
  obtain ⟨_, _, rfl⟩ := h s a t ht
  exact .of_nodes_eq rfl rfl rfl rfl

theorem warn (w : Warning) : Decides prog True (warn w) := remark fun _ _ _ ↦ warn_eq_ok

theorem note {severity : Severity} {text : Unit → Query String} [(text ()).NeverRejects] :
    Decides prog True (note severity text) := remark fun _ _ _ ↦ note_eq_ok

theorem read [NeverRejects x] (h : ∀ s, Ensures x s fun _ t ↦ s = t) : Decides prog True x :=
  aside fun s a t ht ↦ h s a t ht ▸ .refl s

theorem node : Decides prog True (node id) := read fun _ _ _ h ↦ (node_eq_ok_iff.1 h).2

theorem returnSite : Decides prog True (returnSite id) := by
  refine read fun s op t h ↦ ?_
  obtain ⟨-, -, -, ht⟩ := returnSite_eq_ok_iff.1 h
  exact ht

theorem assign (hv : prog.Foldable v) : Decides prog True (assign v id) :=
  aside fun _ ↦ (assign_spares hv).mono fun _ _ ht ↦ ht.1

/-- A value that has a node can be folded, and one without is no global. -/
theorem bind_nodeOf? {next : Option NodeId → Lower β} (hknown : ∀ id, prog.Foldable v → Decides prog P (next (some id)))
    (hnew : (∀ g ∈ prog.globals, g.value ≠ v) → Decides prog P (next none)) : Decides prog P (nodeOf? v >>= next) := by
  intro s hs hfurnished
  have hnext : Decides prog P (next (s.nodes.get? v)) := by
    cases hnode : s.nodes.get? v with
    | some id => exact hknown id (hs v (by simp [hnode]))
    | none => exact hnew fun g hg hgv ↦ hfurnished g hg (hgv ▸ hnode)
  have hread {id? : Option NodeId} {t : Lowering} (h : nodeOf? v s = .ok id? t) : s.nodes.get? v = id? ∧ s = t :=
    nodeOf?_eq_ok_iff.1 h
  refine ⟨.seq fun id? t h ↦ ?_, Throws.bind (fun _ _ h ↦ by contradiction) fun id? t h ↦ ?_⟩
  all_goals obtain ⟨rfl, rfl⟩ := hread h
  · exact (hnext s hs hfurnished).1
  · exact (hnext s hs hfurnished).2

/-- A query has one answer. -/
theorem exists_bind_lift {κ : Type} {q : Query α} [q.NeverRejects] {next : ι → κ → α → Lower β}
    (h : ∀ a, q = .ok a → ∃ P, ∀ i j, Decides prog P (next i j a)) :
    ∃ P, ∀ i j, Decides prog P ((liftM q : Lower α) >>= next i j) := by
  cases hq : q with
  | error e => exact ⟨True, fun _ _ ↦ hq ▸ .bind_lift fun _ ha ↦ absurd (hq.symm.trans ha) (by simp)⟩
  | ok a =>
    obtain ⟨P, hP⟩ := h a hq
    exact ⟨P, hP⟩

/-- A fold is decided by its elements, one by one. -/
theorem exists_foldlM {step : ι → β → α → Lower β} {l : List α} (h : ∀ a ∈ l, ∃ P, ∀ i b, Decides prog P (step i b a)) :
    ∃ P, ∀ i b, Decides prog P (l.foldlM (step i) b) := by
  induction l with
  | nil => exact ⟨True, fun _ _ ↦ .pure trivial⟩
  | cons a rest ih =>
    obtain ⟨P, hP⟩ := h a List.mem_cons_self
    obtain ⟨Q, hQ⟩ := ih fun x hx ↦ h x (List.mem_cons_of_mem _ hx)
    refine ⟨P ∧ Q, fun i b ↦ ?_⟩
    rw [List.foldlM_cons]
    exact (hP i b).bind fun _ ↦ hQ i

end Decides

end Lower

/-- Requests for constants and globals are decided by the program. -/
def Provider.Deciding (prog : Program) (ask : Provider) : Prop :=
  ∀ v, ((∀ g ∈ prog.globals, g.value ≠ v) → prog.home? v = none) → Lower.Decides prog (prog.Foldable v) (ask.operand v)

namespace Lower

open Stateful Program

variable {α : Type} {prog : Program} {ask : Provider} {s : Lowering} {v : ValueId} {id : NodeId} {P : Prop}
  {operands : List ValueId}

/-! ## Constants -/

theorem elementOffset_decides {source : Ty} {indices : List ValueId} :
    Decides prog True (elementOffset prog v source indices) := by
  refine .bind_lift fun offset? _ ↦ ?_
  cases offset? with
  | none => exact .pure trivial
  | some offset =>
    dsimp only
    split
    · exact .pure trivial
    · split
      · exact .bind_lift fun _ _ ↦ .skip (.warn _) fun _ ↦ .pure trivial
      · exact .pure trivial

section

variable (hask : ask.Deciding prog)

include hask

theorem constantPointer_decides (hv : prog.home? v = none) : Decides prog (prog.Foldable v)
    (constantPointer ask v) := by
  refine (hask v fun _ ↦ hv).andThen fun _ id ↦ .skip .node fun n ↦ ?_
  split <;> exact .pure trivial

omit hask in
theorem Decides.bind_constantOperand {index : Nat} {next : ValueId → Lower α} (hnone : operands[index]? = none → ¬P)
    (hsome : ∀ o, operands[index]? = some o → Decides prog P (next o)) :
    Decides prog P (constantOperand prog v operands index >>= next) := by
  unfold constantOperand
  cases hop : operands[index]? with
  | none => exact .bind_missing (hnone hop)
  | some o => exact hsome o hop

theorem foldConstant_decides {opcode : Opcode} (hops : ∀ o ∈ operands, prog.home? o = none) :
    Decides prog (prog.Folds opcode operands) (foldConstant prog ask v opcode operands) := by
  have hpointer {o : ValueId} {index : Nat} (ho : operands[index]? = some o) :
      Decides prog (prog.Foldable o) (constantPointer ask o) :=
    constantPointer_decides hask (hops o (List.mem_of_getElem? ho))
  unfold foldConstant
  split
  case h_1 =>
    refine .bind_constantOperand (fun h ↦ not_folds ?_) fun o ho ↦ ?_
    · simp only [foldedFrom, h]; rfl
    · refine ((hpointer ho).congr (folds_iff _ ?_).symm).andThen fun _ p ↦ .skip elementOffset_decides fun _ ↦
        .pure trivial
      simp only [foldedFrom, ho]; rfl
  case h_2 | h_3 | h_4 | h_5 =>
    refine .bind_constantOperand (fun h ↦ not_folds ?_) fun o ho ↦ (hpointer ho).congr (folds_iff _ ?_).symm
    · simp only [foldedFrom, h]; rfl
    · simp only [foldedFrom, ho]; rfl
  case h_6 =>
    refine .bind_constantOperand (fun h ↦ not_folds ?_) fun o ho ↦ .bind_lift fun n? hn ↦ ?_
    · simp only [foldedFrom, h]; rfl
    · have hfrom : prog.foldedFrom (.cast .intToPtr) operands = .ok (some (if n?.isSome then none else some o)) := by
        simp only [foldedFrom, ho, hn]; rfl
      split
      · rename_i hsome
        rw [if_pos hsome] at hfrom
        exact .bind_lift fun _ _ ↦ .skip (.warn _) fun _ ↦ .pure (folds_of_unknown hfrom)
      · rename_i hsome
        rw [if_neg hsome] at hfrom
        exact (hpointer ho).congr (folds_iff _ hfrom).symm
  case h_7 =>
    refine .bind_constantOperand (fun h ↦ not_folds ?_) fun lhs hlhs ↦
      .bind_constantOperand (fun h ↦ not_folds ?_) fun rhs hrhs ↦ .bind_lift fun n? hn ↦ ?_
    · simp only [foldedFrom, h]; rfl
    · simp only [foldedFrom, hlhs, h]; rfl
    · have hfrom : prog.foldedFrom (.binary .add) operands = .ok (some (some (if n?.isSome then rhs else lhs))) := by
        simp only [foldedFrom, hlhs, hrhs, hn]; rfl
      cases n? with
      | some n => exact ((hpointer hrhs).congr (folds_iff _ hfrom).symm).andThen fun _ _ ↦ .pure trivial
      | none =>
        refine .bind_lift fun m? _ ↦ ?_
        cases m? with
        | some m => exact ((hpointer hlhs).congr (folds_iff _ hfrom).symm).andThen fun _ _ ↦ .pure trivial
        | none => exact ((hpointer hlhs).congr (folds_iff _ hfrom).symm).andThen fun _ _ ↦ .pure trivial
  case h_8 | h_9 | h_10 =>
    refine .bind_constantOperand (fun h ↦ not_folds ?_) fun lhs hlhs ↦
      .bind_constantOperand (fun h ↦ not_folds ?_) fun rhs hrhs ↦ .bind_lift fun n? hn ↦ ?_
    · simp only [foldedFrom, h]; rfl
    · simp only [foldedFrom, hlhs, h]; rfl
    · refine Decides.andThen (.congr ?_ (folds_iff (if n?.isSome then rhs else lhs) ?_).symm) fun _ _ ↦ .pure trivial
      · split
        · exact hpointer hrhs
        · exact hpointer hlhs
      · simp only [foldedFrom, hlhs, hrhs, hn]; rfl
  case h_18 =>
    refine .bind_lift fun _ _ ↦ .reject (not_folds ?_)
    unfold foldedFrom
    split <;> simp_all
    rfl
  all_goals exact .pure (folds_of_unknown rfl)

variable (hprog : prog.Scoped)

include hprog

/-- What is neither a global nor a constant that can be folded has no node. -/
theorem Decides.bind_constantNode? {next : Option NodeId → Lower α} (hnew : ∀ g ∈ prog.globals, g.value ≠ v)
    (hfound : ∀ id, Decides prog True (next (some id)))
    (hnone : ¬prog.Foldable v → Decides prog (prog.Foldable v) (next none)) :
    Decides prog (prog.Foldable v) (constantNode? prog ask v >>= next) := by
  unfold constantNode?
  simp only [bind_assoc]
  refine .bind_lift fun x hx ↦ ?_
  have hkind := kindAt_of_value hx
  have hother (hplain : x.kind.isPlain = false)
      (hexpr : ∀ opcode operands, x.kind ≠ .constant (.expr opcode operands)) :
      Decides prog (prog.Foldable v) (next none) := by
    refine hnone fun hfold ↦ ?_
    cases hfold with
    | global hg => exact hnew _ hg rfl
    | plain hk hplain' =>
      obtain rfl := Option.mem_unique hkind hk
      simp [hplain] at hplain'
    | expr hk => exact hexpr _ _ (Option.mem_unique hkind hk)
  split
  case h_6 opcode operands hk =>
    rw [hk] at hkind
    simp only [bind_assoc, pure_bind]
    have hfold : Decides prog (prog.Foldable v) (foldConstant prog ask v opcode operands) := by
      exact (foldConstant_decides hask fun o ho ↦ hprog.home?_of_constant hkind ho).congr
        (foldable_expr_iff hkind hnew).symm
    exact hfold.andThen fun hv p ↦ .skip (.create fun _ ↦ rfl) fun id ↦ .skip (.assign hv) fun _ ↦ hfound id
  case h_7 f hk =>
    simp only [bind_assoc, pure_bind]
    refine .skip (.create fun _ ↦ rfl) fun id ↦ .skip (.assign (.plain hkind (by rw [hk]; rfl))) fun _ ↦ ?_
    exact (hfound id).congr (by simpa using Program.Foldable.plain hkind (by rw [hk]; rfl))
  case h_8 hnull hzero hint hundef hasm hexpr hfunction =>
    simp only [pure_bind]
    refine hother ?_ hexpr
    unfold ValueKind.isPlain
    split <;> simp_all
  all_goals
    rename_i hk
    exact (hfound _).congr (by simpa using Program.Foldable.plain hkind (by rw [hk]; rfl))

/-- A constant gets its node if and only if it can be folded. -/
theorem operand_decides (hv : (∀ g ∈ prog.globals, g.value ≠ v) → prog.home? v = none) :
    Decides prog (prog.Foldable v) (operand prog ask v) := by
  unfold operand availableOperand?
  simp only [bind_assoc]
  refine .bind_nodeOf? (fun id hfold ↦ ?_) fun hnew ↦ ?_
  · simp only [bind_assoc, pure_bind]
    exact .skip .returnSite fun _ ↦ .pure hfold
  simp only [bind_assoc]
  refine .bind_constantNode? hask hprog hnew (fun id ↦ ?_) fun hmissing ↦ ?_
  · simp only [bind_assoc, pure_bind]
    exact .skip .returnSite fun _ ↦ .pure trivial
  · simp only [pure_bind]
    refine .bind_lift fun x hx ↦ ?_
    have hhome := hv hnew
    rw [home?_of_kindAt (kindAt_of_value hx)] at hhome
    split
    · simp_all [ValueKind.home?]
    · simp_all [ValueKind.home?]
    · exact .missing hmissing

omit hask in
theorem provider_deciding (depth : Nat) : (provider prog depth).Deciding prog := by
  induction depth with
  | zero => exact fun _ _ ↦ .exhausted
  | succ depth ih => exact fun v hv ↦ operand_decides ih hprog hv

/-! ## Globals -/

omit hprog in
theorem storeInitial_decides (hv : prog.home? v = none) {offset : Nat} {last : NodeId} :
    Decides prog (prog.Foldable v) (storeInitial ask v id offset last) := by
  refine (hask v fun _ ↦ hv).andThen fun _ op ↦ ?_
  have hstore (target : NodeId) : Decides prog True (do
      let store ← create (·.createWith { kind := .store } [op, target])
      onGraph (·.insertAfter last store)
      return store) :=
    .skip (.create fun _ ↦ Graph.root_addOperands) fun _ ↦ .skip (.onGraph fun _ ↦ Graph.root_insertAfter) fun _ ↦
      .pure trivial
  dsimp only
  split
  · exact hstore id
  · exact .skip (.create fun _ ↦ rfl) hstore

omit hask hprog in
theorem unhandledInitializer_decides {global : Global} :
    Decides prog False (unhandledInitializer prog global v : Lower α) := .bind_lift fun _ _ ↦ .reject id

/-- Whether an initializer is understood does not depend on where it is stored. -/
theorem lowerInitializer_decides {global : Global} {budget : Nat} {ty : Ty} {offset : Nat} (hv : prog.home? v = none) :
    ∃ P, ∀ id last, Decides prog P (lowerInitializer prog ask global id budget v ty offset last) := by
  induction budget generalizing v ty offset with
  | zero => exact ⟨True, fun _ _ ↦ .exhausted⟩
  | succ budget ih =>
    unfold lowerInitializer
    refine Decides.exists_bind_lift fun c? hc ↦ ?_
    have hstored {w : ValueId} {place : Nat} (hw : prog.home? w = none) :
        ∃ P, ∀ id last, Decides prog P (storeInitial ask w id place last) :=
      ⟨_, fun _ _ ↦ storeInitial_decides hask hw⟩
    have hunhandled : ∃ P, ∀ _ _ : NodeId, Decides prog P (unhandledInitializer prog global v : Lower NodeId) :=
      ⟨False, fun _ _ ↦ unhandledInitializer_decides⟩
    have hskipped : ∃ P, ∀ _ last : NodeId, Decides prog P (pure last : Lower NodeId) := ⟨True, fun _ _ ↦ .pure trivial⟩
    split
    case h_1 elems =>
      refine Decides.exists_foldlM fun x hx ↦ ?_
      obtain ⟨elem, index⟩ := x
      have helem : prog.home? elem = none :=
        hprog.home?_of_constant (constant?_eq_ok_iff.1 hc) (List.mem_of_getElem? (List.mem_zipIdx_iff_getElem?.1 hx))
      dsimp only
      split
      · exact hunhandled
      · split
        · exact hstored helem
        · refine Decides.exists_bind_lift fun zero _ ↦ ?_
          split
          · exact ih helem
          · exact hskipped
    case h_2 =>
      split
      · exact hunhandled
      · exact hskipped
    case h_3 =>
      split
      · exact hstored hv
      · exact hskipped
    case h_4 =>
      split
      · exact hstored hv
      · exact hunhandled

theorem lowerContent_decides {global : Global} (hglobal : global ∈ prog.globals) :
    ∃ P, ∀ id, Decides prog P (lowerContent prog ask global id) := by
  unfold lowerContent
  split
  · rename_i init hinit hexternal
    obtain ⟨P, hP⟩ := lowerInitializer_decides hask hprog (hprog.initializer hglobal hinit)
    refine ⟨prog.isZero init = .ok false → P, fun id ↦ .bind_lift fun zero hzero ↦ ?_⟩
    split
    · rename_i h
      exact .skip (.onGraph fun _ ↦ rfl) fun _ ↦ .pure (by simp [hzero, h])
    · rename_i h
      exact (hP id id).congr (by simp [hzero, h])
  · refine ⟨True, fun id ↦ .skip (.warn _) fun _ ↦ .skip (.create fun _ ↦ Graph.root_addOperands) fun _ ↦ ?_⟩
    exact .skip (.onGraph fun _ ↦ Graph.root_insertAfter) fun _ ↦ .pure trivial

omit hask hprog in
/-- Every global gets its memory before any of them gets its content. -/
theorem allocate_spares {make : Global → Graph → NodeId × Graph} (hmake : ∀ g h, (make g h).2.root = h.root) :
    Ensures (prog.globals.foldlM (fun chain global ↦ do
      let id ← create (make global)
      assign global.value id
      append chain id) none) s fun _ t ↦ s.Spares prog t ∧ t.Furnished prog := by
  refine .foldlM_marks (P := fun _ t ↦ s.Spares prog t) (R := fun (g : Global) t ↦ t.nodes.get? g.value ≠ none)
    (fun global hglobal chain t ht ↦ ?_) (.refl s)
  refine (create_spares prog (hmake global)).bind fun id t₁ h₁ ↦ (assign_spares (.global hglobal)).bind
    fun _ t₂ ⟨h₂, hnode⟩ ↦ (append_spares prog).mono fun _ u hu ↦ ?_
  have hst := (h₁.trans h₂).trans hu
  exact ⟨ht.trans hst, hu.nodes _ hnode, fun g ↦ hst.nodes g.value⟩

omit hask hprog in
/-- There is a chain of globals if there are globals. -/
theorem allocate_chain {globals : List Global} {make : Global → Graph → NodeId × Graph} :
    Ensures (globals.foldlM (fun chain global ↦ do
      let id ← create (make global)
      assign global.value id
      append chain id) none) s fun chain _ ↦ chain = none → globals = [] := by
  have hstep {global : Global} {chain : Option Span} {t : Lowering} : Ensures (do
      let id ← create (make global)
      assign global.value id
      append chain id) t fun chain _ ↦ chain ≠ none := by
    refine .seq fun id _ _ ↦ .seq fun _ _ _ ↦ ?_
    cases chain with
    | none => exact .pure (by simp)
    | some span => exact .seq fun _ _ _ ↦ .pure (by simp)
  cases globals with
  | nil => exact fun _ _ _ _ ↦ rfl
  | cons global rest =>
    rw [List.foldlM_cons]
    refine (hstep.bind fun chain t hchain ↦ ?_).mono fun chain _ hchain hnone ↦ absurd hnone hchain
    exact .foldlM (fun chain _ ↦ chain ≠ none) (fun _ _ _ _ _ ↦ hstep) hchain

omit hask hprog in
theorem allocate_throws {make : Global → Graph → NodeId × Graph} {E : Failure → Lowering → Prop} :
    Throws (prog.globals.foldlM (fun chain global ↦ do
      let id ← create (make global)
      assign global.value id
      append chain id) none) s E := by
  refine .foldlM (fun _ _ ↦ True) (fun global _ chain t _ ↦ ?_) (fun _ _ _ _ _ _ _ _ ↦ trivial) trivial
  refine Throws.bind (fun _ _ h ↦ by contradiction) fun id _ _ ↦ Throws.bind (fun _ _ h ↦ by contradiction)
    fun _ _ _ ↦ ?_
  cases chain with
  | none => exact .pure
  | some span => exact Throws.modify.bind fun _ _ _ ↦ .pure

/-- The globals of a scoped program are rejected from every state in which nothing but what can be folded
has a node, or from none. -/
theorem lowerGlobals_decides : ∃ P, ∀ s : Lowering, s.Folded prog →
    Ensures (lowerGlobals prog ask) s (fun _ t ↦ P ∧ s.Spares prog t) ∧
      Throws (lowerGlobals prog ask) s fun e t ↦ ∀ cause, e = .rejected cause → ¬P ∧ s.Spares prog t := by
  obtain ⟨P, hP⟩ : ∃ P, ∀ (_ : Unit) (tail : NodeId), Decides prog P (prog.globals.foldlM (fun tail global ↦ do
      let id ← ask.operand global.value
      let last ← lowerContent prog ask global id
      return if id = tail then last else tail) tail) := by
    refine Decides.exists_foldlM fun global hglobal ↦ ?_
    obtain ⟨P, hP⟩ := lowerContent_decides hask hprog hglobal
    have hmemory : Decides prog True (ask.operand global.value) :=
      (hask global.value fun hnew ↦ absurd rfl (hnew global hglobal)).congr (iff_of_true (.global hglobal) trivial)
    exact ⟨P, fun _ tail ↦ .skip hmemory fun id ↦ (hP id).andThen fun _ _ ↦ .pure trivial⟩
  have hcontents (span : Span) : Decides prog P (do
      let last ← prog.globals.foldlM (fun tail global ↦ do
        let id ← ask.operand global.value
        let last ← lowerContent prog ask global id
        return if id = tail then last else tail) span.last
      note .debug fun _ ↦ return s!"built {prog.globals.length} globals"
      return some (⟨span.first, last⟩ : Span)) :=
    (hP ⟨⟩ span.last).andThen fun _ last ↦ .skip .note fun _ ↦ .pure trivial
  refine ⟨P, fun s hs ↦ ?_⟩
  unfold lowerGlobals
  refine ⟨.seq fun chain t h ↦ ?_, allocate_throws.bind fun chain t h ↦ ?_⟩
  all_goals
    obtain ⟨hst, hfurnished⟩ := allocate_spares (fun _ _ ↦ rfl) chain t h
    have ht := hst.folded hs
  · cases chain with
    | none =>
      have hnone := allocate_chain none t h rfl
      exact .pure ⟨((hP ⟨⟩ 0) t ht hfurnished).1 0 t (by rw [hnone]; rfl) |>.1, hst⟩
    | some span =>
      exact (hcontents span t ht hfurnished).1.mono fun _ _ ⟨hP, htu⟩ ↦ ⟨hP, hst.trans htu⟩
  · cases chain with
    | none => exact .pure
    | some span =>
      exact (hcontents span t ht hfurnished).2.mono fun _ _ he cause hcause ↦
        ⟨(he cause hcause).1, hst.trans (he cause hcause).2⟩

end

end Lower

end PointsTo
