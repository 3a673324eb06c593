import PointsTo.Proofs.Blocks
import PointsTo.Proofs.Opening

/-!
# Lowering of function bodies

The blocks of a function are visited one after the other, and their relevant instructions lowered in
order.  An instruction gets its node there and nowhere else: before, only irrelevant instructions of
the function were lowered, on request.  When all blocks are visited the incoming values of phis are
attached, whatever was lowered on request gets its place, and the blocks are linked.
-/

namespace PointsTo

/-- Calls are no phis. -/
theorem Program.isPhi_eq_false_of_calledFunction? {prog : Program} {v : ValueId} {inst : Instruction} {f : FuncId}
    (hv : prog.kindAt v = some (.instruction inst)) (h : prog.calledFunction? v = .ok (some f)) :
    inst.isPhi = false := by
  simp only [calledFunction?, callee?, instruction?_eq_ok_iff.2 hv, Query.bind_eq_ok_iff, Except.ok.injEq,
    exists_eq_left', Query.pure_eq_ok_iff] at h
  unfold Instruction.callee? Instruction.isCall at h
  unfold Instruction.isPhi
  cases hop : inst.opcode with
  | phi => simp [hop, Query.pure_eq_ok_iff] at h
  | _ => rfl

/-- Control arrives at first nodes of blocks. -/
theorem exists_of_mem_bridge {succs : BlockId → List BlockId} {first? : BlockId → Option NodeId} {budget : Nat}
    {pending : List BlockId} {found : OrderedSet BlockId} {id : NodeId}
    (h : id ∈ bridge succs first? budget pending found) : ∃ b, first? b = some id := by
  induction budget generalizing pending found with
  | zero => simp [bridge] at h
  | succ budget ih =>
    cases pending with
    | nil => simp [bridge] at h
    | cons b pending =>
      rw [bridge] at h
      split at h
      · exact ih h
      · split at h
        · rename_i first hfirst
          rcases List.mem_cons.1 h with rfl | h
          · exact ⟨b, hfirst⟩
          · exact ih h
        · exact ih h

namespace Lowering

variable (prog : Program) (s : Lowering)

/-- A function that has its record and nothing else. -/
structure Bare (f : FuncId) (r : FunctionRecord) : Prop where
  valid : s.Valid prog
  record : s.records.get? f = some r
  incomplete : r.complete = false
  unnamed : prog.Scoped → ∀ {v inst}, prog.kindAt v = some (.instruction inst) → inst.function = f →
    s.nodes.get? v = none

/-- The state while the instructions of a function are lowered. -/
structure Underway (done : ValueId → Prop) (t : Lowering) : Prop extends s.Evolves prog done t where
  met : ∀ {v}, done v → t.Met prog v
  reflects : ∀ {v inst}, done v → prog.kindAt v = some (.instruction inst) → prog.Tells v inst → t.Reflects prog v inst

/-- The chain of a block as far as it is lowered. -/
structure ChainValid (insts : List ValueId) (span : Span) : Prop where
  first : s.Accepts span.first
  last : s.Ends prog span.last
  closed : s.At (fun _ n ↦ n.Open prog) span.last ∨ ∃ v ∈ insts, prog.EndsBlock v ∧ s.placed.get? v ≠ none

variable {prog s} {t u : Lowering} {f : FuncId} {r : FunctionRecord} {v : ValueId} {inst : Instruction}
  {done : ValueId → Prop} {insts : List ValueId} {span : Span}

theorem ChainValid.mono (h : s.ChainValid prog insts span) (hst : s.Keeps prog t) : t.ChainValid prog insts span where
  first := hst.accepts h.first
  last := hst.ends h.last
  closed := by
    refine h.closed.imp hst.isOpen ?_
    rintro ⟨v, hv, hends, hplaced⟩
    exact ⟨v, hv, hends, hst.placed hplaced⟩

namespace Underway

theorem refl (hs : s.Valid prog) : s.Underway prog (fun _ ↦ False) s where
  toEvolves := .refl hs
  met h := h.elim
  reflects h := h.elim

/-- One instruction after the other. -/
theorem next (h : s.Underway prog done t) (hu : t.Evolves prog (· = v) u) (hmet : u.Met prog v)
    (hv : ∀ inst, prog.kindAt v = some (.instruction inst) → prog.Tells v inst → u.Reflects prog v inst) :
    s.Underway prog (fun w ↦ done w ∨ w = v) u where
  toEvolves := (h.toEvolves.mono fun _ ↦ .inl).trans (hu.mono fun _ ↦ .inr)
  met hw := by
    rcases hw with hw | rfl
    · exact (h.met hw).mono hu.toKeeps
    · exact hmet
  reflects hw hinst htells := by
    rcases hw with hw | rfl
    · exact (h.reflects hw hinst htells).mono hu.toGrows fun _ ha ↦ ha.lt_size
    · exact hv _ hinst htells

theorem serves (h : s.Underway prog done t) (hu : t.Serves prog u) : s.Underway prog done u where
  toEvolves := h.toEvolves.trans (hu.mono fun _ h ↦ h.elim)
  met hw := (h.met hw).mono hu.toKeeps
  reflects hw hinst htells := (h.reflects hw hinst htells).mono hu.toGrows fun _ ha ↦ ha.lt_size

theorem step (h : s.Underway prog done t) (hstep : t.Step prog u) : s.Underway prog done u :=
  h.serves (hstep.evolves h.valid)

theorem congr {done' : ValueId → Prop} (h : s.Underway prog done t) (hdone : ∀ v, done v ↔ done' v) :
    s.Underway prog done' t where
  toEvolves := h.toEvolves.mono fun v ↦ (hdone v).1
  met hv := h.met ((hdone _).2 hv)
  reflects hv := h.reflects ((hdone _).2 hv)

end Underway

namespace Bare

variable (h : s.Bare prog f r)

include h

theorem recorded (hst : s.Keeps prog t) : t.records.get? f ≠ none := by
  apply hst.recorded
  simp [h.record]

/-- An instruction that is relevant has no node before its turn. -/
theorem due (hst : s.Evolves prog done t) (hv : prog.kindAt v = some (.instruction inst)) (hf : inst.function = f)
    (hdone : ¬done v) (hjudged : t.Judged prog v true) : t.Due prog v inst where
  valid := hst.valid
  instruction := hv
  unnamed hscoped := by
    by_contra hne
    rcases hst.lowers hscoped hv (h.unnamed hscoped hv hf) hne with hmine | hfalse | hhome
    · exact hdone hmine
    · exact Bool.false_ne_true (hfalse.unique hjudged)
    · apply hhome
      intro g hg
      rw [Program.home?_of_kindAt hv] at hg
      rw [← Option.some.inj hg, hf, h.record]
      simp
  recorded _ := hf ▸ h.recorded hst.toKeeps
  judged _ := ⟨true, hjudged⟩
  incomplete _ := by
    obtain ⟨r', hr', -⟩ := hst.record h.record
    have hpers := hst.persists h.record hr' (h.valid.record h.record).exit.lt_size
    exact ⟨r', hf ▸ hr', hpers.complete.trans h.incomplete⟩

/-- The first block that has nodes is behind the formals. -/
theorem leads (hst : s.Evolves prog done t) {a : NodeId} (ha : t.Accepts a) :
    t.Serves prog { t with graph := t.graph.addSuccessor ((r.formals.map (·.last)).getD r.entry) a } :=
  (Evolves.refl hst.valid).step (.successor (hst.ends (h.valid.extends_formals h.record).1) ha)

/-- The formals stand for a first block without nodes. -/
theorem represents (hst : s.Evolves prog done t) (b : BlockId) :
    t.Serves prog { t with blocks := t.blocks.insert (f, b) (some (r.formals.getD (.only r.entry))) } := by
  have hextends := h.valid.extends_formals h.record
  have hvalid := h.valid.record h.record
  refine (Evolves.refl hst.valid).step (.block fun span hspan ↦ ?_)
  obtain rfl := Option.some.inj hspan
  cases hformals : r.formals with
  | some chain =>
    rw [hformals] at hextends
    have hchain := hst.extending hextends
    exact ⟨hst.accepts ((hvalid.formals hformals).1.accepts (by simp)), hchain.1, .inl hchain.2⟩
  | none =>
    rw [hformals] at hextends
    have hchain := hst.extending hextends
    exact ⟨hst.accepts (hvalid.entry.accepts (by simp)), hchain.1, .inl hchain.2⟩

end Bare

end Lowering

namespace Lower

open Stateful

variable {prog : Program} {ask : Provider} {s t : Lowering} {f : FuncId} {r : FunctionRecord} {v : ValueId}
  {inst : Instruction} {done : ValueId → Prop} {b : BlockId} {chain : Option Span}

theorem isMemset_ensures (hv : prog.kindAt v = some (.instruction inst)) :
    Ensures (isMemset prog v) s fun memset t ↦ (memset = true → inst.isPhi = false ∧ prog.Fills v) ∧ s = t := by
  refine .bind_lift fun f? hf ↦ ?_
  cases f? with
  | none => exact .pure ⟨by simp, rfl⟩
  | some f =>
    refine .bind_lift fun callee hcallee ↦ .pure ⟨fun hmemset ↦ ?_, rfl⟩
    simp only [Bool.and_eq_true, beq_iff_eq] at hmemset
    exact ⟨Program.isPhi_eq_false_of_calledFunction? hv hf, f, callee, hf, Query.lookup_eq_ok_iff.1 hcallee, hmemset⟩

/-! ## Blocks -/

section

variable (hprog : prog.Coherent) (hask : ask.Sound prog) (hbare : s.Bare prog f r)

include hprog hask hbare

theorem lowerInBlock_ensures (hst : s.Evolves prog done t) (hv : prog.kindAt v = some (.instruction inst))
    (hf : inst.function = f) (hdone : ¬done v) :
    Ensures (lowerInBlock prog ask v) t fun span? u ↦ (∀ span, span? = some span → t.Lowered prog v span u) ∧
      (span? = none → t.Serves prog u) ∧ (prog.Tells v inst → u.Reflects prog v inst) ∧ u.Met prog v := by
  refine .seq fun relevant t₁ h ↦ ?_
  obtain ⟨hsettles, hjudged⟩ := isRelevant_eq_ok h
  have hstep : t.Step prog t₁ := hsettles.step
  have ht₁ := hst.step hstep
  cases relevant with
  | true =>
    refine (lowerInstruction_ensures hprog hask (hbare.due ht₁ hv hf hdone hjudged)).bind
      fun span u ⟨hlowered, hreflects⟩ ↦ .pure ⟨fun span' hspan ↦ ?_, by simp, fun _ ↦ hreflects, .inl ?_⟩
    · obtain rfl := Option.some.inj hspan
      exact hlowered.after hst.valid hstep
    · exact hlowered.known.resolve_right hjudged.not_fills
  | false =>
    have htells (h : prog.Tells v inst) : False := Bool.false_ne_true (hjudged.of_tells hv h)
    have hserves : t.Serves prog t₁ := hstep.evolves hst.valid
    refine (isMemset_ensures hv).bind fun memset _ ⟨hmemset, hsame⟩ ↦ hsame ▸ ?_
    cases memset with
    | true =>
      obtain ⟨hphi, hfills⟩ := hmemset rfl
      refine .mono (lowerMemset_ensures hask ht₁.valid hv (fun _ ↦ hf ▸ hbare.recorded ht₁.toKeeps) hphi hfills)
        fun span? u ⟨hsome, hnone⟩ ↦ ⟨fun span hspan ↦ ?_, fun hspan ↦ ?_, fun h ↦ (htells h).elim, .inr ?_⟩
      · exact (hsome span hspan).after hst.valid hstep
      · exact hserves.trans (hnone hspan)
      · cases span? with
        | some span => exact hjudged.mono (hsome span rfl).toKeeps
        | none => exact hjudged.mono (hnone rfl).toKeeps
    | false => exact .pure ⟨by simp, fun _ ↦ hserves, fun h ↦ (htells h).elim, .inr hjudged⟩

/-- The chain of a block is continued with the nodes of one more instruction. -/
theorem lowerNext_ensures {insts : List ValueId} (hst : s.Underway prog done t)
    (hv : prog.kindAt v = some (.instruction inst)) (hf : inst.function = f) (hdone : ¬done v) (hmem : v ∈ insts)
    (hchain : ∀ span, chain = some span → t.ChainValid prog insts span) :
    Ensures (do
      match ← lowerInBlock prog ask v with
      | none => return chain
      | some span =>
        setPlaced v span.first
        match chain with
        | none => return some span
        | some (chain : Span) =>
          onGraph (·.addSuccessor chain.last span.first)
          return some ⟨chain.first, span.last⟩) t fun chain' u ↦
      s.Underway prog (fun w ↦ done w ∨ w = v) u ∧ t.Keeps prog u ∧
        ∀ span, chain' = some span → u.ChainValid prog insts span := by
  refine (lowerInBlock_ensures hprog hask hbare hst.toEvolves hv hf hdone).bind fun span? u
    ⟨hsome, hnone, hreflects, hmet⟩ ↦ ?_
  have htells (inst' : Instruction) (hinst : prog.kindAt v = some (.instruction inst')) (h : prog.Tells v inst') :
      u.Reflects prog v inst' := by
    obtain rfl := Program.instruction_unique hv hinst
    exact hreflects h
  cases span? with
  | none =>
    have hserves := hnone rfl
    refine .pure ⟨hst.next (hserves.mono fun _ h ↦ h.elim) hmet htells, hserves.toKeeps, fun span hspan ↦ ?_⟩
    exact (hchain span hspan).mono hserves.toKeeps
  | some span =>
    have hlowered := hsome span rfl
    refine .seq fun _ u₁ hplace ↦ ?_
    obtain rfl := setPlaced_eq_ok_iff.1 hplace
    have hstep : u.Step prog { u with placed := u.placed.insert v span.first } := .place v hlowered.starts
    have hkeeps := hstep.keeps hlowered.valid
    have hu₁ := (hst.next hlowered.toEvolves hmet htells).step hstep
    have hnew : ({ u with placed := u.placed.insert v span.first } : Lowering).ChainValid prog insts span := by
      refine ⟨(hkeeps.starts hlowered.starts).accepts, hkeeps.ends hlowered.ends, ?_⟩
      refine hlowered.closed.imp hkeeps.isOpen fun hends ↦ ⟨v, hmem, hends, by simp⟩
    have hkeeps₁ := hlowered.toKeeps.trans hkeeps
    cases chain with
    | none =>
      refine .pure ⟨hu₁, hkeeps₁, fun span' hspan ↦ ?_⟩
      obtain rfl := Option.some.inj hspan
      exact hnew
    | some c =>
      have hold := (hchain c rfl).mono hkeeps₁
      refine .seq fun _ u₂ hu₂ ↦ .pure ?_
      obtain rfl := onGraph_eq_ok_iff.1 hu₂
      have hstep₂ : ({ u with placed := u.placed.insert v span.first } : Lowering).Step prog { u with
          placed := u.placed.insert v span.first
          graph := u.graph.addSuccessor c.last span.first } := .successor hold.last hnew.first
      have hkeeps₂ := hstep₂.keeps hu₁.valid
      refine ⟨hu₁.step hstep₂, hkeeps₁.trans hkeeps₂, fun span' hspan ↦ ?_⟩
      obtain rfl := Option.some.inj hspan
      have hnew₂ := hnew.mono hkeeps₂
      exact ⟨hkeeps₂.accepts hold.first, hnew₂.last, hnew₂.closed⟩

/-- The instructions of a block are lowered in order. -/
theorem lowerInsts_ensures {insts : List ValueId} (rest : List ValueId) (hnodup : rest.Nodup)
    (hmem : ∀ v ∈ rest, v ∈ insts)
    (hrest : ∀ v ∈ rest, ∃ inst, prog.kindAt v = some (.instruction inst) ∧ inst.function = f)
    (hdone : ∀ v ∈ rest, ¬done v) (hst : s.Underway prog done t)
    (hchain : ∀ span, chain = some span → t.ChainValid prog insts span) :
    Ensures (rest.foldlM (fun nodes v ↦ do
      match ← lowerInBlock prog ask v with
      | none => return nodes
      | some span =>
        setPlaced v span.first
        match nodes with
        | none => return some span
        | some (chain : Span) =>
          onGraph (·.addSuccessor chain.last span.first)
          return some ⟨chain.first, span.last⟩) chain) t fun chain' u ↦
      s.Underway prog (fun w ↦ done w ∨ w ∈ rest) u ∧ t.Keeps prog u ∧
        ∀ span, chain' = some span → u.ChainValid prog insts span := by
  induction rest generalizing t chain done with
  | nil => exact .pure ⟨hst.congr (by simp), .refl prog t, hchain⟩
  | cons v rest ih =>
    obtain ⟨hv, hnodup⟩ := List.nodup_cons.1 hnodup
    obtain ⟨inst, hinst, hf⟩ := hrest v (by simp)
    refine (lowerNext_ensures hprog hask hbare hst hinst hf (hdone v (by simp)) (hmem v (by simp)) hchain).bind
      fun chain' u ⟨hu, hkeeps, hchain'⟩ ↦ ?_
    refine (ih hnodup (fun w hw ↦ hmem w (by simp [hw])) (fun w hw ↦ hrest w (by simp [hw])) (fun w hw ↦ ?_) hu
      hchain').mono fun chain₂ u₂ ⟨hu₂, hkeeps₂, hchain₂⟩ ↦ ⟨hu₂.congr fun w ↦ ?_, hkeeps.trans hkeeps₂, hchain₂⟩
    · rintro (h | rfl)
      · exact hdone w (by simp [hw]) h
      · exact hv hw
    · simp only [List.mem_cons]
      tauto

theorem lowerBlock_ensures (hdone : ∀ v ∈ prog.instsOf f b, ¬done v) (hst : s.Underway prog done t) :
    Ensures (lowerBlock prog ask f b) t fun span? u ↦
      s.Underway prog (fun v ↦ done v ∨ v ∈ prog.instsOf f b) u ∧ t.Keeps prog u ∧ u.blocks.get? (f, b) ≠ none ∧
        ∀ span, span? = some span → u.Accepts span.first := by
  refine .bind_lift fun fn hfn ↦ .bind_lift fun block hblock ↦ ?_
  have hinsts := Program.instsOf_of_block hfn hblock
  have hinst (v : ValueId) (hv : v ∈ block.insts) :
      ∃ inst, prog.kindAt v = some (.instruction inst) ∧ inst.function = f ∧ inst.block = b := hprog.inst (hinsts ▸ hv)
  rw [hinsts] at hdone
  refine (lowerInsts_ensures hprog hask hbare block.insts (hinsts ▸ hprog.nodup f b) (fun _ h ↦ h)
    (fun v hv ↦ (hinst v hv).imp fun _ h ↦ ⟨h.1, h.2.1⟩) hdone hst (by simp)).bind fun span? u ⟨hu, hkeeps, hchain⟩ ↦ ?_
  refine .seq fun _ u₁ hu₁ ↦ .pure ?_
  obtain rfl := setBlockSpan_eq_ok_iff.1 hu₁
  have hstep : u.Step prog { u with blocks := u.blocks.insert (f, b) span? } := by
    refine .block fun span hspan ↦ ⟨(hchain span hspan).first, (hchain span hspan).last, ?_⟩
    refine (hchain span hspan).closed.imp_right fun ⟨v, hv, hends, hplaced⟩ ↦ ⟨v, hends, ?_, hplaced⟩
    obtain ⟨inst, hkind, rfl, rfl⟩ := hinst v hv
    obtain ⟨inst', hkind', -, hlast⟩ := hends
    obtain rfl := Program.instruction_unique hkind hkind'
    exact hlast
  have hkeeps₁ := hstep.keeps hu.valid
  rw [hinsts]
  exact ⟨hu.step hstep, hkeeps.trans hkeeps₁, by simp, fun span hspan ↦ hkeeps₁.accepts (hchain span hspan).first⟩

/-- The blocks behind the entry block are visited in order. -/
theorem lowerRest_ensures (rest : List BlockId) (hnodup : rest.Nodup)
    (hdone : ∀ b ∈ rest, ∀ v ∈ prog.instsOf f b, ¬done v) (hst : s.Underway prog done t) :
    Ensures (rest.forM fun b ↦ do let _ ← lowerBlock prog ask f b) t fun _ u ↦
      s.Underway prog (fun v ↦ done v ∨ ∃ b ∈ rest, v ∈ prog.instsOf f b) u ∧ t.Keeps prog u ∧
        ∀ b ∈ rest, u.blocks.get? (f, b) ≠ none := by
  induction rest generalizing t done with
  | nil => exact .pure ⟨hst.congr (by simp), .refl prog t, by simp⟩
  | cons b rest ih =>
    obtain ⟨hb, hnodup⟩ := List.nodup_cons.1 hnodup
    refine .bind (Q := fun _ u ↦ s.Underway prog (fun v ↦ done v ∨ v ∈ prog.instsOf f b) u ∧ t.Keeps prog u ∧
      u.blocks.get? (f, b) ≠ none) ?_ fun _ u ⟨hu, hkeeps, hblock⟩ ↦ ?_
    · exact (lowerBlock_ensures hprog hask hbare (hdone b (by simp)) hst).bind
        fun _ u ⟨hu, hkeeps, hblock, _⟩ ↦ .pure ⟨hu, hkeeps, hblock⟩
    refine (ih hnodup (fun c hc v hv ↦ ?_) hu).mono fun _ u₂ ⟨hu₂, hkeeps₂, hblocks⟩ ↦
      ⟨hu₂.congr fun v ↦ ?_, hkeeps.trans hkeeps₂, fun c hc ↦ ?_⟩
    · rintro (h | h)
      · exact hdone c (by simp [hc]) v hv h
      · exact hb ((hprog.block_unique h hv).2 ▸ hc)
    · simp only [List.mem_cons, exists_eq_or_imp]
      tauto
    · rcases List.mem_cons.1 hc with rfl | hc
      · exact hkeeps₂.blocks hblock
      · exact hblocks c hc

/-- The blocks of a function are visited, and the first one joined to the formals. -/
theorem lowerBlocks_ensures (blocks : List BlockId) (hnodup : blocks.Nodup)
    (hst : s.Underway prog (fun _ ↦ False) t) :
    Ensures (lowerBlocks prog ask f r.entry r.formals blocks) t fun _ u ↦
      s.Underway prog (fun v ↦ ∃ b ∈ blocks, v ∈ prog.instsOf f b) u ∧ ∀ b ∈ blocks, u.blocks.get? (f, b) ≠ none := by
  cases blocks with
  | nil => exact .pure ⟨hst.congr (by simp), by simp⟩
  | cons first rest =>
    obtain ⟨hfirst, hnodup⟩ := List.nodup_cons.1 hnodup
    refine (lowerBlock_ensures hprog hask hbare (by simp) hst).bind fun span? u ⟨hu, _, hblock, haccepts⟩ ↦ ?_
    -- What follows does not depend on how the first block is joined.
    have hrest {w : Lowering} (hw : u.Serves prog w) : Ensures (rest.forM fun b ↦ do let _ ← lowerBlock prog ask f b) w
        fun _ x ↦ s.Underway prog (fun v ↦ ∃ b ∈ first :: rest, v ∈ prog.instsOf f b) x ∧
          ∀ b ∈ first :: rest, x.blocks.get? (f, b) ≠ none := by
      refine (lowerRest_ensures hprog hask hbare rest hnodup (fun c hc v hv ↦ ?_) (hu.serves hw)).mono
        fun _ x ⟨hx, hkeeps, hblocks⟩ ↦ ⟨hx.congr fun v ↦ ?_, fun c hc ↦ ?_⟩
      · rintro (h | h)
        · exact h
        · exact hfirst ((hprog.block_unique h hv).2 ▸ hc)
      · simp
      · rcases List.mem_cons.1 hc with rfl | hc
        · exact hkeeps.blocks (hw.blocks hblock)
        · exact hblocks c hc
    cases span? with
    | some span =>
      refine .seq fun _ w hw ↦ hrest ?_
      obtain rfl := onGraph_eq_ok_iff.1 hw
      exact hbare.leads hu.toEvolves (haccepts span rfl)
    | none =>
      refine .seq fun _ w hw ↦ hrest ?_
      obtain rfl := setBlockSpan_eq_ok_iff.1 hw
      exact hbare.represents hu.toEvolves first

end

/-! ## Phis -/

/-- The incoming values of a phi are its operands, as far as their blocks were visited. -/
def Attached (prog : Program) (s t : Lowering) (v : ValueId) : Prop :=
  ∀ inst phi, prog.kindAt v = some (.instruction inst) → inst.isPhi = true →
    s.blocks.get? (inst.function, inst.block) ≠ none → s.nodes.get? v = some phi → prog.Scoped →
      ∀ w ∈ inst.operands, s.Visited prog w → t.Gets prog w phi

theorem Attached.mono {u : Lowering} (h : Attached prog s t v) (hu : t.Serves prog u) : Attached prog s u v :=
  fun inst phi hv hphi hblock hnode hscoped w hw hvisited ↦
    (h inst phi hv hphi hblock hnode hscoped w hw hvisited).mono hu.toKeeps hscoped hu.valid

theorem attachPhi_ensures (hask : ask.Sound prog) (hst : s.Serves prog t)
    (hv : prog.kindAt v = some (.instruction inst)) (hf : s.records.get? inst.function ≠ none) :
    Ensures (do
      match ← prog.instruction? v with
      | none => pure ()
      | some inst =>
        if inst.isPhi then
          match ← nodeOf? v with
          | some phi => attachIncoming prog ask v phi
          | none => pure ()) t fun _ u ↦ t.Serves prog u ∧ Attached prog s u v := by
  have hrefl : t.Serves prog t := .refl hst.valid
  refine .bind_lift fun inst? hinst ↦ ?_
  cases inst? with
  | none => exact absurd hv (Program.kindAt_ne_of_instruction? hinst inst)
  | some inst' =>
    obtain rfl := Program.instruction_unique hv (Program.instruction?_eq_ok_iff.1 hinst)
    have hattached {u : Lowering} (h : ∀ phi, inst.isPhi = true → s.nodes.get? v = some phi → prog.Scoped →
        ∀ w ∈ inst.operands, s.Visited prog w → u.Gets prog w phi) : Attached prog s u v := by
      intro inst' phi hinst' hphi _ hnode hscoped
      obtain rfl := Program.instruction_unique hv hinst'
      exact h phi hphi hnode hscoped
    dsimp only
    split
    · rename_i hphi
      refine .seq fun phi? _ h ↦ ?_
      obtain ⟨hnode, rfl⟩ := nodeOf?_eq_ok_iff.1 h
      cases phi? with
      | none =>
        refine .pure ⟨hrefl, hattached fun phi _ hnamed hscoped ↦ ?_⟩
        rw [hst.named_lasting (.inl hscoped) hnamed] at hnode
        contradiction
      | some phi =>
        refine (attachIncoming_ensures hask hst.valid hv (fun _ ↦ hst.recorded hf)
          (isPhi_of_nodes hst.valid hv hphi hnode)).mono fun _ u ⟨hu, hgets⟩ ↦
          ⟨hu, hattached fun phi' _ hnamed hscoped w hw hvisited ↦ ?_⟩
        obtain rfl := Option.mem_unique hnode (hst.named_lasting (.inl hscoped) hnamed)
        exact hgets w hw hscoped (hvisited.mono hst.toKeeps)
    · rename_i hnot
      exact .pure ⟨hrefl, hattached fun _ hphi ↦ absurd hphi hnot⟩

/-- All phis of the blocks that were visited are attached. -/
theorem attachPhis_ensures (hprog : prog.Coherent) (hask : ask.Sound prog) (hs : s.Valid prog)
    (hf : s.records.get? f ≠ none) (hmet : ∀ {v inst}, prog.Visits f v inst → s.Met prog v) :
    Ensures (attachPhis prog ask f) s fun _ t ↦ s.Serves prog t ∧ ∀ b, ∀ v ∈ prog.instsOf f b, Attached prog s t v := by
  refine .bind_lift fun fn hfn ↦ ?_
  have hfn := Query.lookup_eq_ok_iff.1 hfn
  refine .bind (Q := fun _ t ↦ s.Serves prog t ∧ ∀ x ∈ fn.blocks.zipIdx, ∀ v ∈ x.1.insts, Attached prog s t v)
    (.forM_marks (fun x hx t ht ↦ ?_) (.refl hs)) fun _ t h ↦ ?_
  · have hinsts : prog.instsOf f x.2 = x.1.insts := by
      simp [Program.instsOf, Function.instsAt, hfn, List.mem_zipIdx_iff_getElem?.1 hx]
    have hinst (v : ValueId) (hv : v ∈ x.1.insts) :
        ∃ inst, prog.kindAt v = some (.instruction inst) ∧ inst.function = f ∧ inst.block = x.2 :=
      hprog.inst (hinsts ▸ hv)
    refine .bind_get ?_
    split
    · refine .mono (.forM_marks (P := fun u ↦ t.Serves prog u) (R := fun v u ↦ Attached prog s u v)
        (fun v hv u hu ↦ ?_) (.refl ht.valid)) fun _ u hu ↦ ⟨ht.trans hu.1, hu.2, fun y _ hy v hv ↦ (hy v hv).mono hu.1⟩
      obtain ⟨inst, hkind, rfl, -⟩ := hinst v hv
      refine (attachPhi_ensures hask (ht.trans hu) hkind hf).mono fun _ w hw ↦
        ⟨hu.trans hw.1, hw.2, fun y _ hy ↦ hy.mono hw.1⟩
    · rename_i hunvisited
      refine .pure ⟨ht, fun v hv inst phi hkind _ hblock ↦ ?_, fun _ _ h ↦ h⟩
      obtain ⟨inst', hkind', rfl, hb⟩ := hinst v hv
      obtain rfl := Program.instruction_unique hkind hkind'
      rw [hb] at hblock
      exact absurd (OrderedMap.contains_iff.2 (ht.blocks hblock)) hunvisited
  · obtain ⟨ht, hattached⟩ := h
    refine (alterRecord_ensures prog ht.valid (fun r ↦ ?_) fun r hr ↦ ?_).mono fun _ u hu ↦
      ⟨ht.trans hu, fun b v hv ↦ ?_⟩
    · exact { FunctionRecord.Persists.refl _ r with }
    · exact { ht.valid.record hr with met := fun _ {_ _} hv ↦ (hmet hv).mono ht.toKeeps }
    · have hblock : ∃ block, fn.blocks[b]? = some block ∧ v ∈ block.insts := by
        simp only [Program.instsOf, Function.instsAt, hfn, Option.map_some, Option.getD_some] at hv
        cases hb : fn.blocks[b]? with
        | none => simp [hb] at hv
        | some block => exact ⟨block, rfl, by simpa [hb] using hv⟩
      obtain ⟨block, hb, hv⟩ := hblock
      exact (hattached (block, b) (List.mem_zipIdx_iff_getElem?.2 hb) v hv).mono hu

/-! ## Links between blocks -/

theorem linkBlocks_ensures (hs : s.Valid prog) : Ensures (linkBlocks prog f) s fun _ t ↦ s.Serves prog t := by
  refine .bind_lift fun fn _ ↦ .bind_get ?_
  refine .forM (fun t ↦ s.Serves prog t) (fun b _ t ht ↦ ?_) (.refl hs)
  split
  · exact .pure ht
  · rename_i span hspan
    have hblock := hs.block (Option.join_eq_some_iff.1 hspan)
    refine .forM (fun u ↦ s.Serves prog u) (fun id hid u hu _ w hw ↦ ?_) ht
    obtain ⟨c, hc⟩ := exists_of_mem_bridge hid
    obtain ⟨span', hspan', rfl⟩ := Option.map_eq_some_iff.1 hc
    have hblock' := hs.block (Option.join_eq_some_iff.1 hspan')
    obtain rfl := onGraph_eq_ok_iff.1 hw
    exact hu.step (.successor (hu.ends hblock.last) (hu.accepts hblock'.first))

end Lower

end PointsTo
