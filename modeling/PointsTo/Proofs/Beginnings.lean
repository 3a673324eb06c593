import PointsTo.Proofs.FieldOffsets
import PointsTo.Proofs.Frames
import PointsTo.Proofs.Verdicts

/-!
# Globals are lowered before any function is begun

The globals come before every function.  While they are lowered an initializer may ask for a value of a
function, and such a value may call a function.  But the globals would have to be lowered for that one
too, and ask for the same value again.  So the globals can be lowered only if all that is stored in them
can be folded, and then a request for it adds nodes without control edges.
-/

namespace PointsTo

open Stateful

namespace Program

theorem Foldable.base {prog : Program} {v w : ValueId} {opcode : Opcode} {operands : List ValueId}
    (hprog : prog.Coherent) (h : prog.Foldable v) (hv : prog.kindAt v = some (.constant (.expr opcode operands)))
    (hw : prog.foldedFrom opcode operands = .ok (some (some w))) : prog.Foldable w := by
  have hnew (g : Global) (hg : g ∈ prog.globals) : g.value ≠ v := by
    rintro rfl
    obtain ⟨index, hindex⟩ := hprog.kindAt_global hg
    simp [hindex] at hv
  exact (folds_iff w hw).1 ((foldable_expr_iff hv hnew).1 h)

/-- The leaf is stored in a global to begin with. -/
def Stored (prog : Program) (g : Global) (leaf : ValueId) : Prop := ∃ init path, g.initializer = some init ∧
  g.external = false ∧ prog.Nonzero init ∧ prog.Leaf prog.Nonzero init g.ty path leaf

end Program

/-! ## States without functions -/

/-- The node points there and nowhere else, for good. -/
def Graph.Pins (g : Graph) (id : NodeId) (p : Pointer) : Prop :=
  ∃ n, g.nodes[id]? = some n ∧ n.kind.isFixed = true ∧ n.pointsTo = .singleton p

namespace Lowering

variable {prog : Program} {s t u : Lowering} {v : ValueId} {id op : NodeId}

/-- No function is begun, and the globals are not finished. -/
structure Unbegun (s : Lowering) : Prop where
  records : s.records = ∅
  globals : s.globals = none

/-- No function is begun and no globals are finished in the meantime. -/
def Defers (s t : Lowering) : Prop := s.Unbegun → t.Unbegun

instance : IsPreorder Lowering Defers where
  refl _ h := h
  trans _ _ _ hst htu h := htu (hst h)

instance : Frame Defers fun _ ↦ True where
  aside _ hrecords hglobals h := ⟨hrecords.trans h.records, hglobals.trans h.globals⟩
  grow _ h := ⟨h.records, h.globals⟩
  edit _ _ h := ⟨h.records, h.globals⟩
  gain _ _ _ h := ⟨h.records, h.globals⟩
  alter _ h := ⟨by simp [h.records, OrderedMap.modify], h.globals⟩
  returned _ _ h := ⟨by simp [h.records, OrderedMap.modify], h.globals⟩
  bind_fresh _ hx _ hnext := hx.andThen fun a ↦ hnext a fun _ _ ↦ trivial

/-- Besides, only what can be folded has a node. -/
structure Early (prog : Program) (s : Lowering) : Prop extends Unbegun s where
  folded : s.Folded prog

theorem Early.same (hs : s.Early prog) (hrecords : t.records = s.records) (hglobals : t.globals = s.globals)
    (hnodes : t.nodes = s.nodes) : t.Early prog :=
  ⟨⟨hrecords.trans hs.records, hglobals.trans hs.globals⟩, fun v hv ↦ hs.folded v (hnodes ▸ hv)⟩

theorem Early.remark (hs : s.Early prog) (h : s.Remarks t) : t.Early prog := by
  obtain ⟨warnings, journal, rfl⟩ := h
  exact hs.same rfl rfl rfl

theorem Early.name (hs : s.Early prog) (hv : prog.Foldable v) (hrecords : t.records = s.records)
    (hglobals : t.globals = s.globals) (hnodes : t.nodes = s.nodes.insert v id) : t.Early prog := by
  refine ⟨⟨hrecords.trans hs.records, hglobals.trans hs.globals⟩, fun w hw ↦ ?_⟩
  rw [hnodes] at hw
  by_cases hwv : w = v
  · exact hwv ▸ hv
  · exact hs.folded w (by rwa [OrderedMap.get?_insert_of_ne hwv] at hw)

theorem Early.initial (prog : Program) (journal : Journal) : Early prog { journal } :=
  ⟨⟨rfl, rfl⟩, fun v hv ↦ by simp at hv⟩

/-- Whatever has a node points to one place. -/
def Pinned (s : Lowering) : Prop := ∀ v id, s.nodes.get? v = some id → ∃ p, s.graph.Pins id p

theorem Pinned.mono (hs : s.Pinned) (hnode : ∀ {id : NodeId} {n : Node}, s.graph.nodes[id]? = some n →
      ∃ m, t.graph.nodes[id]? = some m ∧ n.Retains m)
    (hnew : ∀ {v id}, t.nodes.get? v = some id → s.nodes.get? v = some id ∨ ∃ p, t.graph.Pins id p) : t.Pinned := by
  intro v id hv
  rcases hnew hv with hold | hpins
  · obtain ⟨p, n, hn, hfixed, hset⟩ := hs v id hold
    obtain ⟨m, hm, hnm⟩ := hnode hn
    exact ⟨p, m, hm, hnm.kind ▸ hfixed, (hnm.fixed hfixed).trans hset⟩
  · exact hpins

/-- The node is the one that an operand of the value refers to. -/
def Stands (prog : Program) (s : Lowering) (v : ValueId) (op : NodeId) : Prop :=
  ∃ id, (s.nodes.get? v = some id ∨ prog.sentinel? v = some id) ∧ s.Site id op

/-- A request is granted without functions: nodes are added for what can be folded, and they have no
control edges. -/
structure Grants (prog : Program) (s : Lowering) (v : ValueId) (op : NodeId) (t : Lowering) : Prop where
  foldable : prog.Foldable v
  early : t.Early prog
  named : ∀ {w id}, s.nodes.get? w = some id → t.nodes.get? w = some id
  edges : s.graph.SameEdges t.graph
  stands : t.Stands prog v op
  pinned : s.Pinned → t.Pinned

end Lowering

/-- Requests for such values are granted, if at all, without functions. -/
def Provider.Grants (prog : Program) (P : ValueId → Prop) (ask : Provider) : Prop :=
  ∀ {v s op t}, P v → s.Early prog → ask.operand v s = .ok op t → s.Grants prog v op t

namespace Lower

open Lowering

variable {α β : Type} {prog : Program} {ask : Provider} {P : ValueId → Prop} {s t u : Lowering} {v w call : ValueId}
  {f : FuncId} {id : NodeId}

/-! ## Constants -/

/-- A node is made for a value. -/
theorem eq_of_create_assign {make : Graph → NodeId × Graph} {n : Node} {x : PUnit}
    (hmake : make s.graph = s.graph.create n)
    (hid : create make s = .ok id u) (hassign : assign v id u = .ok x t) : id = s.graph.size ∧
      t = { s with
        graph := s.graph.append [{ n with value := n.value <|> some v }]
        nodes := s.nodes.insert v s.graph.size } := by
  obtain ⟨rfl, rfl⟩ := create_eq_ok_iff.1 hid
  obtain rfl := assign_eq_ok_iff.1 hassign
  have hgraph : (s.graph.create n).2.update s.graph.size (fun m ↦ { m with value := m.value <|> some v }) =
      s.graph.append [{ n with value := n.value <|> some v }] := Graph.update_append_size
  rw [hmake, ← hgraph]
  exact ⟨rfl, rfl⟩

/-- The node points to one place. -/
theorem pinned_append {n : Node} {p : Pointer} (hfixed : n.kind.isFixed = true) (hset : n.pointsTo = .singleton p)
    (ht : t = { s with graph := s.graph.append [n], nodes := s.nodes.insert v s.graph.size }) (hs : s.Pinned) :
    t.Pinned := by
  subst ht
  refine hs.mono (fun {_ m} hm ↦ ⟨m, (Graph.nodes_append_of_lt (Graph.lt_size_of_node hm)).trans hm, .refl m⟩)
    fun hw ↦ ?_
  rcases OrderedMap.get?_insert_eq_some_iff.1 hw with ⟨rfl, rfl⟩ | ⟨-, hold⟩
  · exact .inr ⟨p, n, Graph.nodes_append_size, hfixed, hset⟩
  · exact .inl hold

/-- What remains to be done once the node of a constant is known. -/
theorem grants_of_site (hfold : prog.Foldable v) (ht : t.Early prog) (hedges : s.graph.SameEdges t.graph)
    (hnamed : ∀ {w id}, s.nodes.get? w = some id → t.nodes.get? w = some id)
    (hpinned : s.Pinned → t.Pinned) (hid : t.nodes.get? v = some id ∨ prog.sentinel? v = some id) :
    Ensures (do return some (← returnSite id)) t fun op? u ↦ u.Early prog ∧ ∀ op, op? = some op →
    s.Grants prog v op u := by
  refine returnSite_ensures.bind fun op _ ⟨hop, hsame⟩ ↦ .pure (hsame ▸ ⟨ht, fun op' hop' ↦ ?_⟩)
  obtain rfl := Option.some.inj hop'
  exact ⟨hfold, ht, hnamed, hedges, ⟨id, hid, hop⟩, hpinned⟩

/-- Formals belong to functions that are begun. -/
theorem lowerFormal_fails (hs : s.Unbegun) : Ensures (lowerFormal prog v) s fun _ _ ↦ False := by
  refine .bind_lift fun x _ ↦ ?_
  split
  · refine .seq fun id t hid ↦ .seq fun _ u hu ↦ .seq fun _ _ hrecord ↦ ?_
    obtain ⟨rfl, rfl⟩ := create_eq_ok_iff.1 hid
    obtain rfl := assign_eq_ok_iff.1 hu
    obtain ⟨r, hr, -⟩ := updateRecord_eq_ok_iff.1 hrecord
    simp [hs.records] at hr
  · exact fun _ _ h ↦ absurd h missing_ne_ok

section

variable (hask : ask.Grants prog P) (hs : s.Early prog) (hbase : ∀ {opcode operands base},
  prog.kindAt v = some (.constant (.expr opcode operands)) →
    prog.foldedFrom opcode operands = .ok (some (some base)) → P base)

include hask hs hbase

theorem availableOperand?_grants : Ensures (availableOperand? prog ask v) s fun op? t ↦
    t.Early prog ∧ ∀ op, op? = some op → s.Grants prog v op t := by
  refine .seq fun id? _ hlookup ↦ ?_
  obtain ⟨hid, rfl⟩ := nodeOf?_eq_ok_iff.1 hlookup
  cases id? with
  | some id => exact grants_of_site (hs.folded v (by simp [hid])) hs (.refl _) (fun h ↦ h) (fun h ↦ h) (.inl hid)
  | none =>
    unfold constantNode?
    simp only [bind_assoc]
    refine .bind_lift fun x hx ↦ ?_
    have hkind := Program.kindAt_of_value hx
    -- A node is made for the value, once what it is folded from has one.
    have hnew {u : Lowering} {n : Node} (hfold : prog.Foldable v) (hu : u.Early prog)
        (hedges : s.graph.SameEdges u.graph)
        (hnamed : ∀ {w id}, s.nodes.get? w = some id → u.nodes.get? w = some id) (hpinned : s.Pinned → u.Pinned)
        {make : Graph → NodeId × Graph} {p : Pointer} (hmake : make u.graph = u.graph.create n)
        (hn : n.successors = [] ∧ n.predecessors = []) (hfixed : n.kind.isFixed = true)
        (hset : n.pointsTo = .singleton p) : Ensures (do
          let id ← create make
          assign v id
          return some (← returnSite id)) u fun op? t ↦ t.Early prog ∧ ∀ op, op? = some op → s.Grants prog v op t := by
      refine .seq fun id u₁ hid₁ ↦ .seq fun _ u₂ hassign ↦ ?_
      obtain ⟨rfl, rfl⟩ := eq_of_create_assign hmake hid₁ hassign
      refine grants_of_site hfold (hu.name hfold rfl rfl rfl) ?_ (fun {w id} hw ↦ ?_)
        (fun hs ↦ pinned_append (n := { n with value := n.value <|> some v }) hfixed hset rfl (hpinned hs))
        (.inl OrderedMap.get?_insert_self)
      · exact hedges.trans (.append (by simpa using hn))
      · have hwv : w ≠ v := by
          rintro rfl
          simp [hid] at hw
        exact (OrderedMap.get?_insert_of_ne hwv).trans (hnamed hw)
    split
    case h_6 opcode operands hk =>
      rw [hk] at hkind
      simp only [bind_assoc, pure_bind]
      refine .seq fun p u hp ↦ ?_
      obtain ⟨hfrom, hu⟩ | ⟨-, hfrom, hop, hu⟩ := foldConstant_folding p u hp
      · have hu' := hs.remark hu
        obtain ⟨warnings, journal, rfl⟩ := hu
        exact hnew (.expr hkind hfrom (by simp)) hu' (.refl _) (fun h ↦ h) (fun h ↦ h) rfl ⟨rfl, rfl⟩ rfl rfl
      · have hgrants := hask (hbase hkind hfrom) hs hop
        have hu' := hgrants.early.remark hu
        obtain ⟨warnings, journal, rfl⟩ := hu
        refine hnew (.expr hkind hfrom fun b hb ↦ ?_) hu' hgrants.edges hgrants.named hgrants.pinned rfl
          ⟨rfl, rfl⟩ rfl rfl
        exact Option.some.inj hb ▸ hgrants.foldable
    case h_7 f hk =>
      simp only [bind_assoc, pure_bind]
      exact hnew (.plain hkind (by rw [hk]; rfl)) hs (.refl _) (fun h ↦ h) (fun h ↦ h) rfl ⟨rfl, rfl⟩ rfl rfl
    case h_8 => exact .pure ⟨hs, by simp⟩
    all_goals
      rename_i hk
      exact grants_of_site (.plain hkind (by rw [hk]; rfl)) hs (.refl _) (fun h ↦ h) (fun h ↦ h)
        (.inr (by simp [Program.sentinel?, hkind, hk]))

theorem operand_grants (hdeferred : ∀ inst, prog.kindAt v = some (.instruction inst) → ∀ s, s.Early prog →
    Ensures (lowerDeferred prog ask v false) s fun _ _ ↦ False) :
    Ensures (operand prog ask v) s fun op t ↦ s.Grants prog v op t := by
  refine (availableOperand?_grants hask hs hbase).bind fun op? t ⟨ht, hop⟩ ↦ ?_
  cases op? with
  | some op => exact .pure (hop op rfl)
  | none =>
    refine .bind_lift fun x hx ↦ ?_
    split
    · rename_i inst hk
      refine .seq fun relevant u hrelevant ↦ ?_
      have hu : u.Early prog := by
        rw [← (isRelevant_eq_ok hrelevant).1.same]
        exact ht.same rfl rfl rfl
      split
      · exact fun _ _ h ↦ absurd h missing_ne_ok
      · exact (hdeferred inst (hk ▸ Program.kindAt_of_value hx) u hu).mono fun _ _ ↦ False.elim
    · exact (lowerFormal_fails ht.toUnbegun).mono fun _ _ ↦ False.elim
    · exact fun _ _ h ↦ absurd h missing_ne_ok

end

/-- What can be folded is folded without functions. -/
theorem provider_grants (hprog : prog.Coherent) (depth : Nat) : (provider prog depth).Grants prog prog.Foldable := by
  induction depth with
  | zero => exact fun _ _ h ↦ by contradiction
  | succ depth ih =>
    intro v s op t hv hs h
    refine operand_grants ih hs (fun hk ↦ hv.base hprog hk) (fun inst hinst ↦ ?_) op t h
    cases hv with
    | global hg =>
      obtain ⟨index, hindex⟩ := hprog.kindAt_global hg
      simp [hindex] at hinst
    | plain hk hplain =>
      obtain rfl := Option.mem_unique hk hinst
      contradiction
    | expr hk => simp [hk] at hinst

end Lower

/-- Requests for values are answered without functions, and functions cannot be asked for. -/
class Provider.Early (prog : Program) (ask : Provider) : Prop where
  operand : ask.Grants prog fun _ ↦ True
  entry : ∀ {f s entry t}, ask.entry f s = .ok entry t → ¬s.Early prog

namespace Lower

open Lowering

variable {α β : Type} {prog : Program} {ask : Provider} {s t : Lowering} {v w call : ValueId} {f : FuncId} {id : NodeId}

/-! ## Instructions -/

/-- If it succeeds, the computation begins no function and lowers constants only. -/
class Early (prog : Program) (x : Lower α) : Prop where
  ok : ∀ {s a t}, x s = .ok a t → s.Early prog → t.Early prog

/-- If it succeeds, the computation begins no function. -/
class Idle (prog : Program) (x : Lower α) : Prop where
  ok : ∀ {s a t}, x s = .ok a t → s.Early prog → t.Unbegun

namespace Early

variable {x : Lower α} {next : α → Lower β}

instance pure (a : α) : Early prog (pure a : Lower α) := ⟨fun h hs ↦ (pure_eq_ok_iff.1 h).2 ▸ hs⟩

instance lift (q : Query α) : Early prog (liftM q : Lower α) := ⟨fun h hs ↦ (lift_eq_ok_iff.1 h).2 ▸ hs⟩

instance get : Early prog (get : Lower Lowering) := ⟨fun h hs ↦ (get_eq_ok_iff.1 h).2 ▸ hs⟩

theorem bind [hx : Early prog x] (hnext : ∀ a, Early prog (next a)) : Early prog (x >>= next) where
  ok h hs := by
    obtain ⟨a, t, ha, h⟩ := bind_eq_ok_iff.1 h
    exact (hnext a).ok h (hx.ok ha hs)

instance sequence (x : Lower α) (next : α → Lower β) [Early prog x] [hnext : ∀ a, Early prog (next a)] :
    Early prog (x >>= next) := bind hnext

instance ite (c : Prop) [Decidable c] (x y : Lower α) [hx : Early prog x] [hy : Early prog y] :
    Early prog (if c then x else y) := by
  split
  · exact hx
  · exact hy

instance create (make : Graph → NodeId × Graph) : Early prog (create make) where
  ok h hs := by
    obtain ⟨-, rfl⟩ := create_eq_ok_iff.1 h
    exact hs.same rfl rfl rfl

instance onGraph (change : Graph → Graph) : Early prog (onGraph change) where
  ok h hs := onGraph_eq_ok_iff.1 h ▸ hs.same rfl rfl rfl

instance setValue : Early prog (setValue id v) := onGraph _

instance warn (w : Warning) : Early prog (warn w) := ⟨fun h hs ↦ hs.remark (warn_eq_ok h)⟩

instance note (severity : Severity) (text : Unit → Query String) : Early prog (note severity text) :=
  ⟨fun h hs ↦ hs.remark (note_eq_ok h)⟩

instance node : Early prog (node id) := bind fun _ ↦ lift _

instance instruction : Early prog (instruction prog v) := ⟨fun h hs ↦ (instruction_eq_ok_iff.1 h).2 ▸ hs⟩

instance nthOperand (index : Nat) : Early prog (nthOperand prog v index) where
  ok h hs := by
    obtain ⟨_, _, _, rfl⟩ := nthOperand_eq_ok_iff.1 h
    exact hs

instance elementOffset (source : Ty) (indices : List ValueId) : Early prog (elementOffset prog v source indices) :=
  ⟨fun h hs ↦ hs.remark (elementOffset_ensures _ _ h)⟩

instance constantSize (v? : Option ValueId) : Early prog (constantSize prog v?) := by
  unfold Lower.constantSize
  split
  · exact pure _
  · refine bind fun n? ↦ ?_
    split <;> exact pure _

instance slotType? : Early prog (slotType? prog v) := by
  refine bind fun inst? ↦ ?_
  split <;> exact pure _

variable [hask : ask.Early prog]

instance operand : Early prog (ask.operand v) := ⟨fun h hs ↦ (hask.operand trivial hs h).early⟩

instance availableOperand? : Early prog (availableOperand? prog ask v) :=
  ⟨fun h hs ↦ (availableOperand?_grants hask.operand hs (fun _ _ ↦ trivial) _ _ h).1⟩

instance eitherOperand? : Early prog (eitherOperand? prog ask v w) := by
  refine bind fun id? ↦ ?_
  cases id? with
  | some id => exact pure _
  | none => exact availableOperand?

instance fillMemory : Early prog (fillMemory ask call v id) := inferInstanceAs (Early prog (_ >>= _))

instance lowerMemset : Early prog (lowerMemset prog ask call) := by
  refine .bind fun dest ↦ .bind fun fill ↦ .bind fun dest ↦ .bind fun n? ↦ ?_
  split
  · refine .bind fun ty? ↦ ?_
    cases ty? with
    | some ty => exact inferInstance
    | none => exact inferInstance
  · exact inferInstance

end Early

namespace Idle

theorem bind {x : Lower α} {next : α → Lower β} [hx : Early prog x] (hnext : ∀ a, Idle prog (next a)) :
    Idle prog (x >>= next) where
  ok h hs := by
    obtain ⟨a, t, ha, h⟩ := bind_eq_ok_iff.1 h
    exact (hnext a).ok h (hx.ok ha hs)

theorem of_follows {x : Lower α} (hx : Follows Defers x) : Idle prog x :=
  ⟨fun h hs ↦ hx.leaves (.inl ⟨_, h⟩) hs.toUnbegun⟩

instance (priority := low) ofFollows {x : Lower α} [hx : Follows Defers x] : Idle prog x := of_follows hx

instance sequence (x : Lower α) (next : α → Lower β) [Early prog x] [hnext : ∀ a, Idle prog (next a)] :
    Idle prog (x >>= next) := bind hnext

/-- What a request is made for comes after it. -/
instance (priority := low) last (x : Lower α) (next : α → Lower β) [hx : Idle prog x]
    [hnext : ∀ a, Follows Defers (next a)] : Idle prog (x >>= next) where
  ok h hs := by
    obtain ⟨a, t, ha, h⟩ := bind_eq_ok_iff.1 h
    exact (hnext a).leaves (.inl ⟨_, h⟩) (hx.ok ha hs)

instance ite (c : Prop) [Decidable c] (x y : Lower α) [hx : Idle prog x] [hy : Idle prog y] :
    Idle prog (if c then x else y) := by
  split
  · exact hx
  · exact hy

instance createFor (make : Graph → NodeId × Graph) [Graph.Makes make] : Idle prog (createFor v make) :=
  of_follows Moves.createFor

instance assign : Follows Defers (assign v id) := Moves.assign trivial

variable [hask : ask.Early prog]

instance lowerStore : Idle prog (lowerStore prog ask v) := inferInstanceAs (Idle prog (_ >>= _))

instance lowerLoad : Idle prog (lowerLoad ask v w) := inferInstanceAs (Idle prog (_ >>= _))

instance lowerGep (source : Ty) (indices : List ValueId) : Idle prog (lowerGep prog ask v source indices) :=
  inferInstanceAs (Idle prog (_ >>= _))

instance lowerExtract : Idle prog (lowerExtract prog ask v) := bind fun _ ↦ bind fun _ ↦ bind fun _ ↦ inferInstance

instance lowerSelect : Idle prog (lowerSelect prog ask v) := inferInstanceAs (Idle prog (_ >>= _))

instance lowerCast : Idle prog (lowerCast prog ask v) := inferInstanceAs (Idle prog (_ >>= _))

instance lowerPtrToInt : Idle prog (lowerPtrToInt prog ask v) := inferInstanceAs (Idle prog (_ >>= _))

instance lowerIntToPtr : Idle prog (lowerIntToPtr prog ask v) := inferInstanceAs (Idle prog (_ >>= _))

/-- The operand of a shift is there, or nothing is known. -/
theorem shift (offset : Offset) (op? : Option NodeId) : Idle prog (match op? with
    | some op => Lower.createFor v (·.createGep op offset)
    | none => lowerUnknown v) := by
  cases op? with
  | some op => exact inferInstance
  | none => exact inferInstance

instance lowerAdd : Idle prog (lowerAdd prog ask v) := by
  refine bind fun lhs ↦ bind fun rhs ↦ bind fun amount? ↦ ?_
  cases amount? with
  | some amount => exact inferInstance
  | none =>
    refine bind fun amount? ↦ ?_
    cases amount? with
    | some amount => exact inferInstance
    | none => exact bind (shift _)

instance lowerArithmetic : Idle prog (lowerArithmetic prog ask v) := by
  refine bind fun lhs ↦ bind fun rhs ↦ bind fun n? ↦ ?_
  split
  · exact bind fun _ ↦ bind fun _ ↦ bind (shift _)
  · refine bind fun n? ↦ ?_
    split
    · exact bind fun _ ↦ bind (shift _)
    · exact bind (shift _)

instance lowerReturn : Idle prog (lowerReturn prog ask v) := by
  refine bind fun inst ↦ ?_
  cases inst.operand? 0 with
  | none => exact bind fun _ ↦ of_follows (Moves.listReturn _)
  | some returned =>
    refine bind fun pointer ↦ bind fun _ ↦ ?_
    split
    · exact bind fun _ ↦ bind fun _ ↦ of_follows (Moves.listReturn _)
    · exact bind fun _ ↦ of_follows (Moves.listReturn _)

/-! ## Calls -/

/-- A function would have to be begun for the call. -/
instance callFunction : Idle prog (callFunction prog ask call f) := by
  refine bind fun inst ↦ bind fun site ↦ bind fun id ↦ bind fun _ ↦ bind fun _ ↦ bind fun _ ↦ ⟨fun h hs ↦ ?_⟩
  obtain ⟨entry, t, hentry, -⟩ := bind_eq_ok_iff.1 h
  exact absurd hs (hask.entry hentry)

instance lowerIndirectCall (inst : Instruction) : Idle prog (lowerIndirectCall prog ask call inst) := by
  unfold Lower.lowerIndirectCall
  split
  · exact inferInstance
  · exact bind fun _ ↦ bind fun _ ↦ bind fun _ ↦ inferInstance

instance lowerRealloc (arguments : List ValueId) : Idle prog (lowerRealloc prog ask call arguments) := by
  unfold Lower.lowerRealloc
  split
  · exact inferInstance
  · exact bind fun _ ↦ bind fun _ ↦ bind fun _ ↦ bind fun _ ↦ bind fun _ ↦ inferInstance

instance lowerAllocation (arguments : List ValueId) (allocator : Allocator) :
    Idle prog (lowerAllocation prog ask call arguments allocator) := by
  unfold Lower.lowerAllocation
  cases allocator with
  | realloc => exact lowerRealloc _
  | malloc => exact bind fun _ ↦ of_follows (Moves.allocate rfl rfl)
  | calloc => exact bind fun _ ↦ bind fun _ ↦ of_follows (Moves.allocate rfl rfl)
  | alloca => exact bind fun _ ↦ of_follows (Moves.allocate rfl rfl)

instance lowerTransfer (arguments : List ValueId) : Idle prog (lowerTransfer prog ask call arguments) := by
  unfold Lower.lowerTransfer
  split
  · rename_i dest src rest
    cases rest with
    | nil => exact inferInstance
    | cons length rest =>
      refine bind fun n? ↦ ?_
      cases n? with
      | some n => exact inferInstance
      | none => exact inferInstance
  · exact inferInstance

omit hask in
/-- There is no function that could have a list of arguments. -/
instance lowerVaStart (inst : Instruction) : Idle prog (lowerVaStart prog ask call inst) where
  ok {s _ _} h hs := by
    obtain ⟨r?, _, hlookup, h⟩ := bind_eq_ok_iff.1 h
    obtain ⟨hr, rfl⟩ := record?_eq_ok_iff.1 hlookup
    obtain rfl : r? = none := by simpa [hs.records] using hr.symm
    have hunknown : Idle prog (do
        warn (.unresolvedVarArg (← prog.describe call))
        return Span.only (← lowerUnknown call)) := inferInstance
    exact hunknown.ok h hs

instance lowerIntrinsic (inst : Instruction) (name : String) : Idle prog (lowerIntrinsic prog ask call inst name) := by
  unfold Lower.lowerIntrinsic
  split
  case h_3 =>
    refine bind fun span? ↦ ?_
    cases span? with
    | some span => exact inferInstance
    | none => exact inferInstance
  all_goals exact inferInstance

instance lowerCall : Idle prog (lowerCall prog ask call) := by
  refine bind fun asm ↦ ?_
  split
  · exact inferInstance
  · refine bind fun inst ↦ bind fun f? ↦ ?_
    cases f? with
    | none => exact inferInstance
    | some f =>
      refine bind fun callee ↦ ?_
      split
      · split
        · exact inferInstance
        · exact inferInstance
      · have hcalls (span : Span) : Follows Defers (modify fun s : Lowering ↦
            { s with callGraph := s.callGraph.addCall inst.function f ⟨.direct, span.first⟩ }) :=
          Moves.modify_aside fun _ ↦ ⟨rfl, rfl, rfl⟩
        exact inferInstance

instance lowerInstruction : Idle prog (lowerInstruction prog ask v) := by
  refine bind fun inst ↦ bind fun _ ↦ ?_
  split
  all_goals exact inferInstance

end Idle

/-- Instructions belong to functions that are begun. -/
theorem lowerDeferred_fails [ask.Early prog] {followUses : Bool} (hs : s.Early prog) :
    Ensures (lowerDeferred prog ask v followUses) s fun _ _ ↦ False := by
  refine .seq fun inst t hinst ↦ .seq fun span u hspan ↦ .seq fun _ w hnote ↦ .seq fun _ _ hrecord ↦ ?_
  obtain ⟨warnings, journal, rfl⟩ := note_eq_ok hnote
  obtain ⟨r, hr, -⟩ := updateRecord_eq_ok_iff.1 hrecord
  have hu := Idle.lowerInstruction.ok hspan (Early.instruction.ok hinst hs)
  simp [hu.records] at hr

/-- If globals cannot be lowered at lower depths, no function can be asked for. -/
theorem provider_early {depth : Nat} (hglobals : ∀ d < depth, ∀ s : Lowering, s.Early prog →
    Ensures (lowerGlobals prog (provider prog d)) s fun _ _ ↦ False) : (provider prog depth).Early prog := by
  induction depth with
  | zero => exact ⟨fun _ _ h ↦ by contradiction, fun h ↦ by contradiction⟩
  | succ depth ih =>
    have hask := ih fun d hd ↦ hglobals d (Nat.lt_succ_of_lt hd)
    refine ⟨fun {v s op t} _ hs h ↦ ?_, fun {f s entry t} h hs ↦ ?_⟩
    · exact operand_grants hask.operand hs (fun _ _ ↦ trivial) (fun _ _ _ ↦ lowerDeferred_fails) op t h
    · -- A function is begun after the globals.
      unfold provider lowerFunction globalChain at h
      simp only [bind_assoc, bind_eq_ok_iff, get_eq_ok_iff] at h
      obtain ⟨_, _, ⟨rfl, rfl⟩, h⟩ := h
      rw [hs.globals] at h
      obtain ⟨_, _, h, -⟩ := h
      obtain ⟨chain, u, hchain, -⟩ := bind_eq_ok_iff.1 h
      exact hglobals depth (Nat.lt_succ_self depth) s hs chain u hchain

end Lower

end PointsTo
