import PointsTo.Proofs.Judgements

/-!
# Completed functions

What is known of a function once it is lowered.  Phis that had their nodes when the blocks were
visited have all their incoming values.  A return has its value for an operand if the value had a node
before the return had one, and not otherwise.
-/

namespace PointsTo

namespace Program

variable (prog : Program)

/-- The value is no instruction of a block that control cannot reach. -/
def Arrives (v : ValueId) : Prop :=
  ∀ inst, prog.kindAt v = some (.instruction inst) → prog.Reaches inst.function inst.block

/-- The value is a pointer, or a pointer is made in the function of the value or of what is computed from it. -/
def Addresses (f : FuncId) (v : ValueId) : Prop :=
  prog.isPointer v = .ok true ∨ ∃ x inst w, prog.Visits f x inst ∧ inst.opcode = .cast .intToPtr ∧
    inst.operand? 0 = some w ∧ Relation.ReflTransGen prog.Stems w v

variable {prog} {v w x : ValueId} {f : FuncId} {inst : Instruction}

theorem Reaches.mem {fn : Function} {blocks : List BlockId} {b : BlockId} (h : prog.Reaches f b)
    (hfn : prog.functions[f]? = some fn) (hblocks : fn.reachableBlocks = .ok blocks) : b ∈ blocks := by
  obtain ⟨fn', blocks', hfn', hblocks', hb⟩ := h
  obtain rfl := Option.mem_unique hfn hfn'
  rwa [Except.ok.inj (hblocks.symm.trans hblocks')]

/-- The instructions that control can reach are those of the visited blocks. -/
theorem Visits.mem {fn : Function} {blocks : List BlockId} (h : prog.Visits f v inst) (hprog : prog.Coherent)
    (hfn : prog.functions[f]? = some fn) (hblocks : fn.reachableBlocks = .ok blocks) :
    inst.block ∈ blocks ∧ v ∈ prog.instsOf f inst.block := by
  obtain ⟨hkind, rfl, hb⟩ := h
  exact ⟨hb.mem hfn hblocks, hprog.placed hkind⟩

/-- Only instructions are computed from others. -/
theorem instruction_of_stems (h : Relation.ReflTransGen prog.Stems w v)
    (hv : prog.kindAt v = some (.instruction inst)) : ∃ source, prog.kindAt w = some (.instruction source) := by
  rcases Relation.ReflTransGen.cases_head h with rfl | ⟨_, hstems, -⟩
  · exact ⟨inst, hv⟩
  · exact hstems.imp fun _ ↦ And.left

theorem Visits.home (h : prog.Visits f v inst) : prog.home? v = some f := by
  rw [home?_of_kindAt h.1, ← h.2.1]
  rfl

/-- What an instruction of a function refers to belongs to no other function. -/
theorem Visits.ne_of_operand (h : prog.Visits f v inst) (hscoped : prog.Scoped) (hw : w ∈ inst.operands)
    (hx : prog.home? x ≠ none) (hxf : prog.home? x ≠ some f) : w ≠ x := by
  rintro rfl
  rcases hscoped.operand h.1 hw with hnone | hsame
  · exact hx hnone
  · exact hxf (hsame.trans h.home)

end Program

namespace Lowering

variable (prog : Program) (s : Lowering)

/-- The return has the value for an operand, or the value had no node yet when the return got one. -/
def Returns (v w : ValueId) : Prop :=
  ∃ id, s.nodes.get? v = some id ∧ s.At (fun _ n ↦ n.kind = .ret ∧ n.paired = none ∧
    ((∃ a op, s.nodes.get? w = some a ∧ s.Site a op ∧ a < id ∧ n.operands = [op]) ∨
      ((∀ a, s.nodes.get? w = some a → id ≤ a) ∧ n.operands = []))) id

/-- What is known of the values that an instruction refers to once the instruction is lowered. -/
structure Reflects (v : ValueId) (inst : Instruction) : Prop where
  phi : inst.isPhi = true → s.nodes.get? v ≠ none
  source : prog.Scoped → inst.opcode = .cast .intToPtr → ∀ {w source}, inst.operand? 0 = some w →
    prog.kindAt w = some (.instruction source) → s.nodes.get? w ≠ none
  returned : prog.Scoped → inst.opcode = .ret → ∀ {w}, inst.operand? 0 = some w → prog.isPointer w = .ok false →
    s.Returns v w

/-- What is known of a function whose lowering is complete. -/
structure Finished (f : FuncId) (r : FunctionRecord) : Prop where
  complete : r.complete = true
  met : ∀ {v inst}, prog.Visits f v inst → s.Met prog v
  phis : prog.Scoped → ∀ {v inst}, prog.Visits f v inst → inst.isPhi = true → prog.Addresses f v →
    ∃ phi, s.nodes.get? v = some phi ∧ ∀ w ∈ inst.operands, prog.Arrives w → s.Gets prog w phi
  returns : prog.Scoped → ∀ {v inst w}, prog.Visits f v inst → inst.opcode = .ret → inst.operand? 0 = some w →
    prog.isPointer w = .ok false → s.Returns v w

variable {prog s} {t : Lowering} {v w : ValueId} {f : FuncId} {r r' : FunctionRecord} {id phi : NodeId}
  {old : NodeId → Prop} {inst : Instruction}

/-- What a value with a node is computed from has a node. -/
theorem Valid.named_of_stems (hs : s.Valid prog) (hscoped : prog.Scoped) (h : Relation.ReflTransGen prog.Stems w v)
    (hv : prog.kindAt v = some (.instruction inst)) (hw : s.nodes.get? w ≠ none) : s.nodes.get? v ≠ none := by
  induction h using Relation.ReflTransGen.head_induction_on with
  | refl => exact hw
  | head hstems hrest ih =>
    obtain ⟨_, hsource⟩ := Program.instruction_of_stems hrest hv
    exact ih (hs.sourced hw hscoped hstems hsource)

/-! ## Later states -/

theorem Returns.mono (h : s.Returns v w) (hst : s.Grows prog old t) (hscoped : prog.Scoped)
    (hold : ∀ a, s.At (fun _ n ↦ n.kind = .ret ∧ n.paired = none) a → old a) : t.Returns v w := by
  obtain ⟨id, hid, n, hn, hk, hp, hreturned⟩ := h
  obtain ⟨m, hm, hnm⟩ := hst.graph.node hn
  have hops : m.operands = n.operands := hst.operands (hold id ⟨n, hn, hk, hp⟩) hn (by simp [hk]) hm
  refine ⟨id, hst.named_lasting (.inl hscoped) hid, m, hm, hnm.kind.trans hk, hnm.paired.trans hp, ?_⟩
  rw [hops]
  rcases hreturned with ⟨a, op, ha, hop, hlt, hops⟩ | ⟨hlater, hops⟩
  · exact .inl ⟨a, op, hst.named_lasting (.inl hscoped) ha, hop.mono hst.graph, hlt, hops⟩
  · refine .inr ⟨fun a ha ↦ ?_, hops⟩
    cases hw : s.nodes.get? w with
    | none => exact (Graph.lt_size_of_node hn).le.trans (hst.recent hscoped hw ha)
    | some b =>
      rw [hst.named_lasting (.inl hscoped) hw, Option.some.injEq] at ha
      exact hlater a (ha ▸ hw)

theorem Reflects.mono (h : s.Reflects prog v inst) (hst : s.Grows prog old t)
    (hold : ∀ a, s.At (fun _ n ↦ n.kind = .ret ∧ n.paired = none) a → old a) : t.Reflects prog v inst where
  phi hphi := hst.isNamed (h.phi hphi)
  source hscoped hcast _ _ hw hkind := hst.isNamed (h.source hscoped hcast hw hkind)
  returned hscoped hret _ hw hpointer := (h.returned hscoped hret hw hpointer).mono hst hscoped hold

/-- Most instructions say nothing about the values that they refer to. -/
theorem Reflects.of_opcode (hphi : inst.isPhi = false) (hcast : inst.opcode ≠ .cast .intToPtr)
    (hret : inst.opcode ≠ .ret) : s.Reflects prog v inst where
  phi h := by simp [hphi] at h
  source _ h := absurd h hcast
  returned _ h := absurd h hret

theorem Finished.mono (h : s.Finished prog f r) (hst : s.Grows prog old t) (ht : t.Valid prog)
    (hold : ∀ a, s.At (fun _ n ↦ n.kind = .ret ∧ n.paired = none) a → old a) (hr : r'.complete = r.complete) :
    t.Finished prog f r' where
  complete := hr.trans h.complete
  met hv := (h.met hv).mono hst.toKeeps
  phis hscoped _ _ hv hphi haddresses := by
    obtain ⟨phi, hphi, hgets⟩ := h.phis hscoped hv hphi haddresses
    exact ⟨phi, hst.named_lasting (.inl hscoped) hphi, fun w hw harrives ↦
      (hgets w hw harrives).mono hst.toKeeps hscoped ht⟩
  returns hscoped _ _ _ hv hret hw hpointer := (h.returns hscoped hv hret hw hpointer).mono hst hscoped hold

/-! ## Naming another value -/

theorem Gets.name (h : s.Gets prog w phi) (hne : w ≠ v) :
    ({ s with nodes := s.nodes.insert v id } : Lowering).Gets prog w phi := by
  obtain ⟨n, hn, op, hop, hresolves⟩ := h
  refine ⟨n, hn, op, hop, ?_⟩
  unfold Resolves at hresolves ⊢
  simp only [OrderedMap.get?_insert_of_ne hne]
  exact hresolves

/-- What is known of a function has nothing to do with the values of other functions. -/
theorem Finished.name (h : s.Finished prog f r)
    (hv : prog.Scoped → prog.home? v ≠ none ∧ prog.home? v ≠ some f) :
    ({ s with nodes := s.nodes.insert v id } : Lowering).Finished prog f r where
  complete := h.complete
  met {x _} hx := by
    refine (h.met hx).imp (fun hnode ↦ ?_) fun hjudged ↦ hjudged
    by_cases hxv : x = v
    · simp [hxv]
    · rwa [OrderedMap.get?_insert_of_ne hxv]
  phis hscoped x _ hx hphi haddresses := by
    obtain ⟨hnone, hhome⟩ := hv hscoped
    obtain ⟨phi, hnode, hgets⟩ := h.phis hscoped hx hphi haddresses
    refine ⟨phi, (OrderedMap.get?_insert_of_ne ?_).trans hnode, fun w hw harrives ↦ (hgets w hw harrives).name ?_⟩
    · rintro rfl
      exact hhome hx.home
    · exact hx.ne_of_operand hscoped hw hnone hhome
  returns hscoped x _ w hx hret hw hpointer := by
    obtain ⟨hnone, hhome⟩ := hv hscoped
    obtain ⟨a, ha, n, hn, hk, hp, hreturned⟩ := h.returns hscoped hx hret hw hpointer
    have hwv : w ≠ v := hx.ne_of_operand hscoped (List.mem_of_getElem? hw) hnone hhome
    refine ⟨a, (OrderedMap.get?_insert_of_ne ?_).trans ha, n, hn, hk, hp, ?_⟩
    · rintro rfl
      exact hhome hx.home
    · simp only [OrderedMap.get?_insert_of_ne hwv]
      exact hreturned

end Lowering

end PointsTo
