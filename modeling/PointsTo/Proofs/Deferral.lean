import PointsTo.Lowering.Deferred
import PointsTo.Proofs.Placing

/-!
# Lowering on request

Values that no block lowers are lowered when they are asked for.  Such an instruction is irrelevant,
so it may be lowered before its block is, or after it, or in between; whenever that is, it gets its
node once.
-/

namespace PointsTo

/-- The call hands the value to a parameter of the function that it names, the one at the first place
where the value is passed. -/
def Program.Hands (prog : Program) (call v : ValueId) (f : FuncId) (param : ValueId) : Prop :=
  prog.calledFunction? call = .ok (some f) ∧ ∃ inst fn j, prog.kindAt call = some (.instruction inst) ∧
    prog.functions[f]? = some fn ∧ fn.isDeclaration = false ∧ inst.arguments.findIdx? (· == v) = some j ∧
    fn.params[j]? = some param

theorem Program.operand_of_mem_users {prog : Program} {v user : ValueId} (h : user ∈ prog.users v) :
    ∃ inst, prog.kindAt user = some (.instruction inst) ∧ v ∈ inst.operands := by
  have huses := (List.mem_filter.1 h).2
  unfold uses at huses
  split at huses
  · rename_i inst _ _ hvalue
    exact ⟨inst, by simp [kindAt, hvalue], List.contains_iff_mem.1 huses⟩
  · contradiction

/-- The instruction is lowered with its block, and says something about the values that it refers to. -/
def Program.Tells (prog : Program) (v : ValueId) (inst : Instruction) : Prop :=
  inst.opcode = .ret ∨ inst.opcode = .cast .intToPtr ∨ (inst.isPhi = true ∧ prog.isPointer v = .ok true)

namespace Lowering

variable {prog : Program} {s t : Lowering} {v : ValueId} {inst : Instruction}

theorem Settles.nodes (h : s.Settles prog t) : t.nodes = s.nodes := by rw [← h.same]

theorem Supplies.after {u : Lowering} {op : NodeId} (h : t.Supplies prog v op u) (hst : s.Computes prog t) :
    s.Supplies prog v op u where
  toEvolves := hst.toEvolves.trans h.toEvolves
  lt_size := h.lt_size
  resolves := h.resolves
  calm hscoped hhome := (hst.calm hscoped).trans (h.calm hscoped hhome) hst.valid h.graph

/-- Instructions that say something about the values that they refer to are never irrelevant. -/
theorem Judged.of_tells {b : Bool} (h : s.Judged prog v b) (hv : prog.kindAt v = some (.instruction inst))
    (htells : prog.Tells v inst) : b = true := by
  have hrel := h s id
  simp only [Lower.isRelevant, Stateful.bind_eq_ok_iff, Stateful.lift_eq_ok_iff,
    Program.instruction?_eq_ok_iff.2 hv, Except.ok.injEq] at hrel
  obtain ⟨_, _, ⟨rfl, rfl⟩, hrel⟩ := hrel
  rcases htells with hret | hcast | ⟨hphi, hpointer⟩
  · simpa [hret, Stateful.pure_eq_ok_iff] using hrel
  · simpa [hcast, Stateful.pure_eq_ok_iff] using hrel
  · have hop : inst.opcode = .phi := by
      unfold Instruction.isPhi at hphi
      split at hphi
      · assumption
      · contradiction
    simp only [hop, Stateful.lift_eq_ok_iff, hpointer, Except.ok.injEq] at hrel
    exact hrel.1.symm

/-- Returns are never irrelevant. -/
theorem Judged.ne_ret (h : s.Judged prog v false) (hv : prog.kindAt v = some (.instruction inst)) :
    inst.opcode ≠ .ret :=
  fun hret ↦ Bool.false_ne_true (h.of_tells hv (.inl hret))

/-- An irrelevant instruction may be lowered at any time. -/
theorem Judged.due (h : s.Judged prog v false) (hs : s.Valid prog) (hv : prog.kindAt v = some (.instruction inst))
    (hnew : s.nodes.get? v = none) (hhome : prog.Scoped → s.records.get? inst.function ≠ none) : s.Due prog v inst where
  valid := hs
  instruction := hv
  unnamed _ := hnew
  recorded := hhome
  judged _ := ⟨false, h⟩
  incomplete hret := absurd hret (h.ne_ret hv)

end Lowering

namespace Lower

open Stateful

variable {prog : Program} {ask : Provider} {s t : Lowering} {v w call user : ValueId} {f : FuncId} {inst : Instruction}

/-- An irrelevant instruction gets its node, and waits for its place. -/
theorem serves_of_deferred {s₁ s₂ s₃ s₄ : Lowering} {span : Span} {x y z : Unit} {severity : Severity}
    {text : Unit → Query String} (hprog : prog.Coherent) (hask : ask.Sound prog) (hjudged : s.Judged prog v false)
    (hs : s.Valid prog) (hv : prog.kindAt v = some (.instruction inst)) (hnew : s.nodes.get? v = none)
    (hhome : prog.Scoped → s.records.get? inst.function ≠ none) (h₁ : lowerInstruction prog ask v s = .ok span s₁)
    (h₂ : note severity text s₁ = .ok x s₂)
    (h₃ : updateRecord prog inst.function v (fun r ↦ { r with unplaced := r.unplaced ++ [(v, span)] }) s₂ = .ok y s₃)
    (h₄ : setNodeOf v span.last s₃ = .ok z s₄) : s.Serves prog s₄ ∧ s₄.nodes.get? v = some span.last := by
  have hdue := hjudged.due hs hv hnew hhome
  have hret := hjudged.ne_ret hv
  obtain ⟨hlowered, -⟩ := lowerInstruction_ensures hprog hask hdue _ _ h₁
  have hs₂ := hlowered.step (note_eq_ok h₂).step
  have hs₃ : s.Lowered prog v span s₃ := by
    obtain ⟨r, hr, rfl⟩ := updateRecord_eq_ok_iff.1 h₃
    have hvalid := hs₂.valid.record hr
    refine hs₂.step (.alter hr { FunctionRecord.Persists.refl _ r with } { hvalid with unplaced := fun x hx ↦ ?_ })
    rcases List.mem_append.1 hx with hx | hx
    · exact hvalid.unplaced x hx
    · rw [List.mem_singleton.1 hx]
      refine ⟨hs₂.starts, ⟨hs₂.ends, hs₂.closed.resolve_right ?_⟩, inst, hv, rfl, hret⟩
      rintro ⟨inst', hinst, hret', -⟩
      obtain rfl := Program.instruction_unique hv hinst
      exact hret hret'
  obtain rfl := setNodeOf_eq_ok_iff.1 h₄
  refine ⟨?_, OrderedMap.get?_insert_self⟩
  -- The instruction may have got another node while its operands were lowered.
  have hserves := hs₃.toEvolves.ofIrrelevant (hjudged.mono hs₃.toKeeps)
  have hnamed : s.Evolves prog (· = v) { s₃ with nodes := s₃.nodes.insert v span.last } := by
    refine hs₃.toEvolves.name (fun g hg ↦ ?_) (fun _ _ ↦ rfl) (fun _ ↦ ⟨hnew, hs₃.new⟩) hs₃.fits
      (fun hscoped ↦ hs₃.housed (hdue.housed hscoped)) (fun hscoped {m q call} hm hpair ↦ ?_)
      (fun hscoped {_} hnone _ ↦ hdue.other hscoped hnone) hs₃.sourced
    · rw [hv] at hg
      simp at hg
    · exact hserves.ignores hprog hscoped hv (hdue.housed hscoped) hm hpair
  exact hnamed.ofIrrelevant (hjudged.mono hnamed.toKeeps)

/-- The node of a value that is a phi. -/
theorem isPhi_of_nodes {id : NodeId} (hs : s.Valid prog) (hv : prog.kindAt v = some (.instruction inst))
    (hphi : inst.isPhi = true) (hnode : s.nodes.get? v = some id) : s.At (fun _ n ↦ n.kind = .phi) id := by
  obtain ⟨k, hk, n, hn, hfits⟩ := hs.named hnode
  rw [Option.mem_unique hk hv] at hfits
  exact ⟨n, hn, hfits hphi⟩

/-- An irrelevant instruction is lowered on request. -/
theorem lowerDeferred_ensures (hprog : prog.Coherent) (hask : ask.Sound prog) (hjudged : s.Judged prog v false)
    (hs : s.Valid prog) (hv : prog.kindAt v = some (.instruction inst)) (hnew : s.nodes.get? v = none)
    (hhome : prog.Scoped → s.records.get? inst.function ≠ none) {followUses : Bool} :
    Ensures (lowerDeferred prog ask v followUses) s fun op t ↦ s.Supplies prog v op t := by
  refine (instruction_ensures hv).bind fun inst' _ ⟨hinst, hst⟩ ↦ hst ▸ ?_
  subst hinst
  refine .seq fun span s₁ h₁ ↦ .seq fun _ s₂ h₂ ↦ .seq fun _ s₃ h₃ ↦ .seq fun _ s₄ h₄ ↦ ?_
  obtain ⟨hs₄, hnode⟩ := serves_of_deferred hprog hask hjudged hs hv hnew hhome h₁ h₂ h₃ h₄
  have hreturn {u : Lowering} (hu : s₄.Serves prog u) :
      Ensures (returnSite span.last) u fun op t ↦ s.Supplies prog v op t := by
    refine returnSite_ensures.mono fun op _ ⟨hop, hst⟩ ↦ hst ▸ ?_
    refine ⟨hs₄.trans hu, hu.valid.site_lt hop, fun hresolves ↦ ?_, fun _ hhome ↦ ?_⟩
    · rcases hresolves with hscoped | hkind
      · exact .inl ⟨span.last, hu.named_lasting (.inl hscoped) hnode, hop⟩
      · exact absurd hv (hkind inst')
    · rw [Program.home?_of_kindAt hv] at hhome
      contradiction
  have huses {u : Lowering} (hu : s₄.Serves prog u) : Ensures (ask.uses v >>= fun _ ↦ returnSite span.last) u
      fun op t ↦ s.Supplies prog v op t :=
    .seq fun _ _ hw ↦ hreturn (hu.trans (hask.uses hu.valid hw))
  refine .seq fun r _ hr ↦ ?_
  obtain ⟨-, rfl⟩ := record_eq_ok_iff.1 hr
  have hrefl : s₄.Serves prog s₄ := .refl hs₄.valid
  dsimp only
  split
  · rename_i hphi
    have hphi' := isPhi_of_nodes hs₄.valid hv (Bool.and_eq_true_iff.1 hphi).2 hnode
    refine (attachIncoming_ensures hask hs₄.valid hv (fun hscoped ↦ hs₄.recorded (hhome hscoped)) hphi').bind
      fun _ u ⟨hu, _⟩ ↦ ?_
    split
    · exact huses hu
    · exact hreturn hu
  · split
    · exact huses hrefl
    · exact hreturn hrefl

/-- A formal that is no pointer gets a phi. -/
theorem lowerFormal_ensures (hs : s.Valid prog) (hnew : s.nodes.get? v = none)
    (hhoused : prog.Scoped → s.Housed prog v) :
    Ensures (lowerFormal prog v) s fun id t ↦ s.Supplies prog v id t ∧ t.nodes.get? v = some id := by
  refine .bind_lift fun x hx ↦ ?_
  have hkind := Program.kindAt_of_value hx
  split
  · rename_i f j hx'
    rw [hx'] at hkind
    have hrefl : s.Serves prog s := .refl hs
    refine (create_ensures prog { kind := .phi } [] rfl rfl ⟨rfl, rfl, rfl, rfl⟩).bind fun id s₁ h₁ ↦
      .seq fun _ s₂ h₂ ↦ ?_
    have hs₁ := hrefl.step h₁.step
    have hphi₁ : s₁.At (fun _ n ↦ n.kind = .phi) id := h₁.isNode.imp fun _ hn ↦ hn.1
    have hs₂ : s.Serves prog s₂ := by
      rw [← assign_eq_ok_iff.1 h₂]
      refine hs₁.assign (fun g hg ↦ ?_) (fun inst hinst ↦ ?_) (fun _ ↦ ⟨hnew, h₁.id_eq.ge⟩) ⟨_, hkind, hphi₁⟩
        (fun hscoped ↦ hs₁.housed (hhoused hscoped)) (fun _ {m q call} hm hpair ↦ ?_) (fun _ {_} hnone hsome ↦ ?_)
        (.of_kind hkind (by simp))
      · rw [hkind] at hg
        simp at hg
      · rw [hkind] at hinst
        simp at hinst
      · exact absurd hpair (h₁.step.not_isPair hm)
      · exact absurd (h₁.step.not_opened hnone) hsome
    have hnode : s₂.nodes.get? v = some id ∧ s₂.At (fun _ n ↦ n.kind = .phi) id := by
      have hnode : s₂.nodes.get? v = some id := by
        rw [← assign_eq_ok_iff.1 h₂]
        exact OrderedMap.get?_insert_self
      obtain ⟨k, hk, hfits⟩ := hs₂.valid.named hnode
      rw [Option.mem_unique hk hkind] at hfits
      exact ⟨hnode, hfits⟩
    refine .seq fun _ s₃ h₃ ↦ .bind_lift fun text _ ↦ .bind_lift fun fn _ ↦ .seq fun _ t hwarn ↦ .pure ?_
    obtain ⟨r, hr, rfl⟩ := updateRecord_eq_ok_iff.1 h₃
    have hvalid := hs₂.valid.record hr
    have hstep : s₂.Step prog { s₂ with
        records := s₂.records.insert f { r with unplacedFormals := r.unplacedFormals ++ [id] } } := by
      refine .alter hr { FunctionRecord.Persists.refl _ r with } { hvalid with unplacedFormals := fun a ha ↦ ?_ }
      rcases List.mem_append.1 ha with ha | ha
      · exact hvalid.unplacedFormals a ha
      · exact List.mem_singleton.1 ha ▸ hnode.2
    have hs₃ := hs₂.step hstep
    obtain ⟨warnings, journal, rfl⟩ := warn_eq_ok hwarn
    refine ⟨.of_named (hs₃.step (.quiet warnings journal)) hnode.1 ?_ fun _ hhome ↦ ?_, hnode.1⟩
    · obtain ⟨n, hn, hk⟩ := hnode.2
      exact ⟨n, hn, by simp [hk, NodeKind.isCall]⟩
    · rw [Program.home?_of_kindAt hkind] at hhome
      contradiction
  · exact fun _ _ h ↦ absurd h missing_ne_ok

/-- Whatever is asked for is lowered, unless it is relevant and not lowered yet. -/
theorem operand_supplies (hprog : prog.Coherent) (hask : ask.Sound prog) (hs : s.Valid prog)
    (hhoused : prog.Scoped → s.Housed prog v) :
    Ensures (operand prog ask v) s fun op t ↦ s.Supplies prog v op t := by
  refine (availableOperand?_ensures hask hs).bind fun op? t ⟨hsome, hnone⟩ ↦ ?_
  cases op? with
  | some op => exact .pure (hsome op rfl)
  | none =>
    obtain ⟨hnew, rfl⟩ := hnone rfl
    refine .bind_lift fun x hx ↦ ?_
    have hkind := Program.kindAt_of_value hx
    split
    · rename_i inst hx'
      rw [hx'] at hkind
      refine .seq fun relevant t h ↦ ?_
      obtain ⟨hsettles, hjudged⟩ := isRelevant_eq_ok h
      have ht : s.Computes prog t := (Lowering.Computes.refl hs).step hsettles.step
      cases relevant with
      | true => exact fun _ _ h ↦ absurd h missing_ne_ok
      | false =>
        refine (lowerDeferred_ensures hprog hask hjudged ht.valid hkind (hsettles.nodes ▸ hnew) fun hscoped ↦ ?_).mono
          fun op u hu ↦ hu.after ht
        exact ht.recorded (hhoused hscoped _ (Program.home?_of_kindAt hkind))
    · exact (lowerFormal_ensures hs hnew hhoused).mono fun _ _ h ↦ h.1
    · exact fun _ _ h ↦ absurd h missing_ne_ok

/-- A part of the record that others do not rely on is changed. -/
theorem alterRecord_ensures (prog : Program) {change : FunctionRecord → FunctionRecord} (hs : s.Valid prog)
    (hpers : ∀ r : FunctionRecord, r.Persists (· < s.graph.size) (change r))
    (hvalid : ∀ r, s.records.get? f = some r → s.RecordValid prog f (change r)) :
    Ensures (alterRecord f change) s fun _ t ↦ s.Serves prog t := by
  intro _ t ht
  obtain rfl := alterRecord_eq_ok_iff.1 ht
  have hrefl : s.Serves prog s := .refl hs
  cases hr : s.records.get? f with
  | none =>
    rw [OrderedMap.modify_of_get?_none hr]
    exact hrefl
  | some r =>
    rw [OrderedMap.modify_of_get? hr]
    exact hrefl.step (.alter hr (hpers r) (hvalid r hr))

/-- What was lowered on request for a function gets its place. -/
theorem placeAll_ensures (hprog : prog.Coherent) (hask : ask.Sound prog) (hs : s.Valid prog) :
    Ensures (placeAll prog ask f) s fun _ t ↦ s.Serves prog t := by
  refine .seq fun r? _ h ↦ ?_
  obtain ⟨hr, rfl⟩ := record?_eq_ok_iff.1 h
  extract_lets place
  have hplace {t : Lowering} (ht : s.Serves prog t) : Ensures (place ⟨⟩) t fun _ u ↦ s.Serves prog u := by
    refine .seq fun r? _ h ↦ ?_
    obtain ⟨hr, rfl⟩ := record?_eq_ok_iff.1 h
    split
    · exact .pure ht
    · rename_i r
      have hvalid := ht.valid.record hr
      refine .bind (alterRecord_ensures prog ht.valid (fun r ↦ ?_) fun r' hr' ↦ ?_) fun _ t₁ h₁ ↦ ?_
      · exact { FunctionRecord.Persists.refl _ r with }
      · exact { ht.valid.record hr' with unplaced := by simp, unplacedFormals := by simp }
      have hformals : Ensures (r.unplacedFormals.forM (placeFormal f)) t₁ fun _ u ↦ t.Serves prog u :=
        .forM (fun u ↦ t.Serves prog u) (fun id hid u hu ↦
          (placeFormal_ensures hu.valid ((hvalid.unplacedFormals id hid).mono_kind hu.graph)).mono
            fun _ _ hw ↦ hu.trans hw) h₁
      refine hformals.bind fun _ t₂ h₂ ↦ ?_
      refine .mono (.forM (fun u ↦ t.Serves prog u) (fun x hx u hu ↦ ?_) h₂) fun _ _ hu ↦ ht.trans hu
      have hloose : u.Loose prog f x := Lowering.Loose.mono (hvalid.unplaced x hx) hu.toKeeps
      exact (placeSequence_ensures hprog hu.valid hloose).mono fun _ _ hw ↦ hu.trans hw
  split
  · exact hplace (.refl hs)
  · rename_i r
    refine .bind (alterRecord_ensures prog hs (fun r ↦ ?_) fun r' hr' ↦ ?_) fun _ t ht ↦ ?_
    · exact { FunctionRecord.Persists.refl _ r with }
    · exact { hs.record hr' with addresses := by simp }
    refine .bind (.forM (fun u ↦ s.Serves prog u) (fun v _ u hu _ w hw ↦ ?_) ht) fun _ u hu ↦ hplace hu
    exact hu.trans (hask.uses hu.valid hw)

/-- The phi of every parameter that gets the value from the call has the value for an operand. -/
def Delivers (prog : Program) (call v : ValueId) (t : Lowering) : Prop :=
  prog.Scoped → ∀ f param, prog.Hands call v f param → ∃ phi, t.nodes.get? param = some phi ∧ t.Gets prog v phi

theorem Delivers.mono (h : Delivers prog call v s) (hst : s.Keeps prog t) (ht : t.Valid prog) :
    Delivers prog call v t := by
  intro hscoped f param hhands
  obtain ⟨phi, hphi, hgets⟩ := h hscoped f param hhands
  exact ⟨phi, hst.named_lasting (.inl hscoped) hphi, hgets.mono hst hscoped ht⟩

/-- An argument is bound to the formal that it is passed to. -/
theorem bindFormal_ensures (hprog : prog.Coherent) (hask : ask.Sound prog) (hs : s.Valid prog)
    (hcall : prog.kindAt call = some (.instruction inst)) (hhome : s.records.get? inst.function ≠ none) :
    Ensures (bindFormal prog ask call v) s fun _ t ↦ s.Serves prog t ∧ Delivers prog call v t := by
  have hrefl : s.Serves prog s := .refl hs
  refine .bind_lift fun f? hf ↦ ?_
  cases f? with
  | none =>
    refine .pure ⟨hrefl, fun _ g _ hhands ↦ ?_⟩
    have hg := hf.symm.trans hhands.1
    simp at hg
  | some f =>
    refine .bind_lift fun fn hfn ↦ ?_
    have hfn := Query.lookup_eq_ok_iff.1 hfn
    have hpassed {g : FuncId} {param : ValueId} (hhands : prog.Hands call v g param) :
        fn.isDeclaration = false ∧ (inst.arguments.findIdx? (· == v)).bind (fn.params[·]?) = some param := by
      obtain ⟨hg, inst', fn', j, hinst', hfn', hdef, hj, hparam⟩ := hhands
      obtain rfl : f = g := by simpa [hf] using hg
      obtain rfl := Option.mem_unique hfn hfn'
      obtain rfl := Program.instruction_unique hcall hinst'
      exact ⟨hdef, by simp [hj, hparam]⟩
    split
    · rename_i hdecl
      refine .pure ⟨hrefl, fun _ g _ hhands ↦ ?_⟩
      rw [(hpassed hhands).1] at hdecl
      contradiction
    · refine .bind_lift fun arguments harguments ↦ ?_
      obtain rfl := Program.arguments_unique hcall harguments
      split
      · rename_i hnone
        refine .pure ⟨hrefl, fun _ g _ hhands ↦ ?_⟩
        rw [(hpassed hhands).2] at hnone
        contradiction
      · rename_i param hparam
        obtain ⟨j, hj, hparam'⟩ := Option.bind_eq_some_iff.1 hparam
        obtain ⟨hlt, heq, -⟩ := List.findIdx?_eq_some_iff_getElem.1 hj
        have hv : v ∈ inst.arguments := beq_iff_eq.1 heq ▸ List.getElem_mem hlt
        have hkind := hprog.param (by rw [hfn]; rfl) hparam'
        refine .seq fun entry s₁ hentry ↦ ?_
        obtain ⟨hs₁, r, hr, -⟩ := hask.entry hs (fun _ ↦ hs.started hhome) hentry
        extract_lets bindTo
        have hbind {formal : NodeId} {t : Lowering} (ht : s.Serves prog t)
            (hformal : t.nodes.get? param = some formal) :
            Ensures (bindTo formal) t fun _ u ↦ s.Serves prog u ∧ Delivers prog call v u := by
          have hphi : t.At (fun _ n ↦ n.kind = .phi) formal := by
            obtain ⟨k, hk, hfits⟩ := ht.valid.named hformal
            rwa [Option.mem_unique hk hkind] at hfits
          refine .seq fun op t₁ hop ↦ .seq fun _ t₂ h₂ ↦ .seq fun _ t₃ h₃ ↦ .seq fun r? _ h ↦ ?_
          obtain ⟨hst, hgets⟩ := passOperand_ensures hask ht.valid
            (fun hscoped ↦ (Program.Within.operand hcall (inst.mem_operands_of_argument hv)).housed hscoped
              (ht.recorded hhome)) hphi ⟨⟩ t₂ (bind_eq_ok_iff.2 ⟨op, t₁, hop, h₂⟩)
          have hdelivers : Delivers prog call v t₂ := by
            intro hscoped g param' hhands
            obtain rfl := Option.some.inj (hparam.symm.trans (hpassed hhands).2)
            exact ⟨formal, hst.named_lasting (.inl hscoped) hformal, hgets hscoped⟩
          have huses := hask.uses hst.valid h₃
          have hs₃ := (ht.trans hst).trans huses
          have hdelivers := hdelivers.mono huses.toKeeps huses.valid
          obtain ⟨-, rfl⟩ := record?_eq_ok_iff.1 h
          split
          · split
            · refine (placeAll_ensures hprog hask hs₃.valid).mono fun _ _ hu ↦ ⟨hs₃.trans hu, ?_⟩
              exact hdelivers.mono hu.toKeeps hu.valid
            · exact .pure ⟨hs₃, hdelivers⟩
          · exact .pure ⟨hs₃, hdelivers⟩
        refine .seq fun formal? _ h ↦ ?_
        obtain ⟨hformal, rfl⟩ := nodeOf?_eq_ok_iff.1 h
        cases formal? with
        | some formal => exact .bind_pure (hbind hs₁ hformal)
        | none =>
          refine (lowerFormal_ensures hs₁.valid hformal fun hscoped g hg ↦ ?_).bind fun formal t ht ↦
            hbind (hs₁.trans ht.1.toEvolves) ht.2
          rw [Program.home?_of_kindAt hkind] at hg
          obtain rfl := Option.some.inj hg
          simp [hr]

/-- A use of a value is lowered, and the value handed on if the use is a call. -/
theorem lowerUse_ensures (hprog : prog.Coherent) (hask : ask.Sound prog) (hs : s.Valid prog) :
    Ensures (lowerUse prog ask v user) s fun _ t ↦ s.Serves prog t ∧
      (s.nodes.get? user = none → s.Housed prog user → Delivers prog user v t) := by
  have hrefl : s.Serves prog s := .refl hs
  refine .bind_get ?_
  split
  · rename_i hnamed
    exact .pure ⟨hrefl, fun hnone ↦ absurd hnone (OrderedMap.contains_iff.1 hnamed)⟩
  · rename_i hunnamed
    have hnew : s.nodes.get? user = none := by
      by_contra hne
      exact hunnamed (OrderedMap.contains_iff.2 hne)
    refine .bind_lift fun inst? hinst ↦ ?_
    cases inst? with
    | none =>
      refine .pure ⟨hrefl, fun _ _ _ f param ⟨_, inst, _, _, hinst', _⟩ ↦ ?_⟩
      simp [Program.instruction?_eq_ok_iff.2 hinst'] at hinst
    | some inst =>
      have hkind := Program.instruction?_eq_ok_iff.1 hinst
      -- A call is followed if its function has a record.
      have hcall {f : FuncId} {param : ValueId} (hhands : prog.Hands user v f param) : inst.opcode = .call := by
        obtain ⟨-, inst', _, j, hinst', -, -, hj, -⟩ := hhands
        obtain rfl := Program.instruction_unique hkind hinst'
        obtain ⟨hlt, -⟩ := List.findIdx?_eq_some_iff_getElem.1 hj
        exact Instruction.call_of_argument (List.getElem?_eq_getElem hlt)
      refine .bind_get ?_
      split
      · rename_i hskipped
        refine .pure ⟨hrefl, fun _ hhoused _ f param hhands ↦ ?_⟩
        have hrecorded := hhoused inst.function (Program.home?_of_kindAt hkind)
        simp [hcall hhands, Opcode.isLowerable, OrderedMap.contains_iff.2 hrecorded] at hskipped
      · rename_i hfollowed
        have hrecorded : s.records.get? inst.function ≠ none := by
          apply OrderedMap.contains_iff.1
          simp only [Bool.or_eq_true, not_or, Bool.not_eq_true, Bool.not_eq_false'] at hfollowed
          exact hfollowed.2
        refine .seq fun relevant s₁ h ↦ ?_
        obtain ⟨hsettles, hjudged⟩ := isRelevant_eq_ok h
        have hs₁ := hrefl.step hsettles.step
        extract_lets follow
        have hfollow {t : Lowering} (ht : s.Serves prog t) : Ensures (follow ⟨⟩) t fun _ u ↦ s.Serves prog u ∧
            (s.nodes.get? user = none → s.Housed prog user → Delivers prog user v u) := by
          change Ensures (if inst.isCall = true then bindFormal prog ask user v else pure ()) t _
          split
          · refine (bindFormal_ensures hprog hask ht.valid hkind (ht.recorded hrecorded)).mono fun _ _
              ⟨hu, hdelivers⟩ ↦ ?_
            exact ⟨ht.trans hu, fun _ _ ↦ hdelivers⟩
          · rename_i hnot
            refine .pure ⟨ht, fun _ _ _ f param hhands ↦ absurd ?_ hnot⟩
            simp [Instruction.isCall, hcall hhands]
        cases relevant with
        | true => exact hfollow hs₁
        | false =>
          refine (lowerDeferred_ensures hprog hask hjudged hs₁.valid hkind (hsettles.nodes ▸ hnew)
            fun _ ↦ hs₁.recorded hrecorded).bind fun _ s₂ hsupplies ↦ ?_
          have hs₂ := hs₁.trans hsupplies.toEvolves
          split
          · split
            · exact .seq fun _ s₃ h₃ ↦ hfollow (hs₂.trans (hask.uses hs₂.valid h₃))
            · exact hfollow hs₂
          · exact hfollow hs₂

/-- Following the uses of a value lowers nothing but what is irrelevant. -/
theorem lowerUses_ensures (hprog : prog.Coherent) (hask : ask.Sound prog) (hs : s.Valid prog) :
    Ensures (lowerUses prog ask v) s fun _ t ↦ s.Serves prog t :=
  .forM (fun t ↦ s.Serves prog t) (fun _ _ _ ht ↦ (lowerUse_ensures hprog hask ht.valid).mono fun _ _ hu ↦
    ht.trans hu.1) (.refl hs)

end Lower

end PointsTo
