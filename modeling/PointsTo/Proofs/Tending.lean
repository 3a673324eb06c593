import PointsTo.Proofs.Building
import PointsTo.Proofs.Heeding

/-!
# Values that are lowered on request

What is lowered on request fails only as allowed if this holds of what it asks for in turn: incoming
values of phis, functions that are called, and uses that are followed.
-/

namespace PointsTo.Lower

open Stateful Program

variable {prog : Program} {ask : Provider} {E : Failure → Prop} {P : Lowering → Prop} {s t : Lowering} {f : FuncId}
  {v w call user : ValueId} {inst : Instruction}

section

variable (hprog : prog.Coherent) (hask : ask.Sound prog) (hE : prog.Lenient E)

include hE

include hprog in
/-- A formal gets its node once its function has a record. -/
theorem lowerFormal_obeys {index : Nat} (hv : prog.kindAt v = some (.argument f index)) (hf : s.records.get? f ≠ none) :
    Obeys E (lowerFormal prog v) s := by
  refine hE.bind_lift (fun _ ↦ value_answers (lt_of_kindAt hv)) fun x hx ↦ ?_
  rw [Option.some.inj ((kindAt_of_value hx).symm.trans hv)]
  refine .next fun id t ht ↦ .next fun _ u hu ↦ (Obeys.updateRecord ?_).bind fun _ _ _ ↦ ?_
  · obtain ⟨-, rfl⟩ := create_eq_ok_iff.1 ht
    rwa [← assign_eq_ok_iff.1 hu]
  · exact hE.bind_lift (fun h ↦ describe_answers h.inRange hprog (lt_of_kindAt hv)) fun _ _ ↦
      hE.bind_lift (fun h ↦ function_answers (h.inRange.argument hv)) fun _ _ ↦ Tame.throws _

include hask

/-- A phi asks for its incoming values. -/
theorem attachIncoming_obeys (hs : s.Valid prog) (hv : prog.kindAt v = some (.instruction inst)) {phi : NodeId}
    (hphi : s.At (fun _ n ↦ n.kind = .phi) phi)
    (hoperand : ∀ {w t}, w ∈ inst.operands → s.Serves prog t → t.Housed prog w ∧ Obeys E (ask.operand w) t) :
    Obeys E (attachIncoming prog ask v phi) s := by
  refine hE.bind_lift (fun _ ↦ instruction?_answers (lt_of_kindAt hv)) fun inst? hinst ↦ ?_
  obtain rfl := Except.ok.inj ((instruction?_eq_ok_iff.2 hv).symm.trans hinst)
  refine .forM (fun t ↦ s.Serves prog t) (fun w hw t ht ↦ ?_) (fun w hw t ht ↦ ?_) (.refl hs)
  all_goals obtain ⟨hhoused, hw'⟩ := hoperand hw ht
  · have : Tame E (isUnvisited prog w) := hE.isUnvisited fun h ↦ h.inRange.operand hv hw
    refine .next fun unvisited _ hunvisited ↦ ?_
    obtain ⟨-, rfl⟩ := isUnvisited_ensures _ _ hunvisited
    cases unvisited with
    | true => exact .pure
    | false => exact hw'.bind fun _ _ _ ↦ Tame.throws _
  · refine isUnvisited_ensures.bind fun unvisited _ ⟨_, hst⟩ ↦ hst ▸ ?_
    cases unvisited with
    | true => exact .pure ht
    | false =>
      exact (passOperand_ensures hask ht.valid (fun _ ↦ hhoused) (hphi.mono_kind ht.graph)).mono fun _ _ hu ↦
        ht.trans hu.1

omit hE hask in
/-- An irrelevant instruction asks for what it is computed from, gets its node, and only then its uses are
followed. -/
theorem lowerDeferred_obeys (hh : ask.Heeds prog E v inst P) (hs : P s) (hjudged : s.Judged prog v false)
    (hnew : s.nodes.get? v = none) {followUses : Bool}
    (hincoming : ∀ {r t u w}, s.Serves prog t → t.nodes.get? v ≠ none → t.records.get? inst.function = some r →
      r.phisAttached = true → t.Serves prog u → w ∈ inst.operands → u.Housed prog w ∧ Obeys E (ask.operand w) u)
    (huses : ∀ {t}, followUses = true → s.Serves prog t → t.nodes.get? v ≠ none → Obeys E (ask.uses v) t) :
    Obeys E (lowerDeferred prog ask v followUses) s := by
  have hnote : Tame E (note .trace fun _ ↦ return s!"lazily built {← prog.describe v}") :=
    hh.lenient.note fun h ↦ .bind (describe_answers h.inRange hh.coherent hh.lt) fun _ _ ↦ .pure _
  have hhome : prog.Scoped → s.records.get? inst.function ≠ none := fun _ ↦ hh.recorded hs
  refine Obeys.instruction hh.instruction ((lowerInstruction_obeys hh hs).bind fun span s₁ h₁ ↦ .next fun _ s₂ h₂ ↦ ?_)
  have hrecorded : s₂.records.get? inst.function ≠ none := by
    obtain ⟨hlowered, -⟩ := lowerInstruction_ensures hh.coherent hh.sound
      (hjudged.due (hh.valid hs) hh.instruction hnew hhome) _ _ h₁
    exact (hlowered.step (note_eq_ok h₂).step).recorded (hh.recorded hs)
  refine (Obeys.updateRecord hrecorded).bind fun _ s₃ h₃ ↦ .next fun _ s₄ h₄ ↦ ?_
  obtain ⟨hs₄, hnode⟩ := serves_of_deferred hh.coherent hh.sound hjudged (hh.valid hs) hh.instruction hnew
    hhome h₁ h₂ h₃ h₄
  have hreturn {u : Lowering} (hu : s₄.Serves prog u) :
      Obeys E (if followUses = true then ask.uses v >>= fun _ ↦ returnSite span.last else returnSite span.last) u := by
    have hsite {w : Lowering} (hw : s₄.Serves prog w) : Obeys E (returnSite span.last) w := by
      obtain ⟨_, -, hat⟩ := hs₄.valid.named hnode
      exact Obeys.node (Nat.lt_of_lt_of_le hat.lt_size hw.size_le) fun _ ↦ .pure
    split
    · rename_i hfollow
      refine (huses hfollow (hs₄.trans hu) (hu.toKeeps.isNamed (by simp [hnode]))).bind fun _ w hw ↦ hsite (hu.trans ?_)
      exact hh.sound.uses hu.valid hw
    · exact hsite hu
  refine Obeys.record (hs₄.recorded (hh.recorded hs)) fun r hr ↦ ?_
  dsimp only
  split
  · rename_i hphi
    obtain ⟨hattached, hphi⟩ := Bool.and_eq_true_iff.1 hphi
    have hat := isPhi_of_nodes hs₄.valid hh.instruction hphi hnode
    refine (attachIncoming_obeys hh.sound hh.lenient hs₄.valid hh.instruction hat fun hw hu ↦
      hincoming hs₄ (by simp [hnode]) hr hattached hu hw).bind fun _ u hu ↦ hreturn ?_
    exact (attachIncoming_ensures hh.sound hs₄.valid hh.instruction (fun _ ↦ hs₄.recorded (hh.recorded hs))
      hat _ _ hu).1
  · exact hreturn (.refl hs₄.valid)

include hprog

/-- What was lowered on request gets its place, and the addresses that were taken are followed. -/
theorem placeAll_obeys (hs : s.Valid prog) (huses : ∀ {v inst t}, prog.kindAt v = some (.instruction inst) →
      inst.function = f → inst.opcode = .cast .ptrToInt → s.Serves prog t → Obeys E (ask.uses v) t) :
    Obeys E (placeAll prog ask f) s := by
  refine .next fun r? _ hrecord ↦ ?_
  obtain ⟨hr, rfl⟩ := record?_eq_ok_iff.1 hrecord
  extract_lets place
  have hplace {t : Lowering} (ht : s.Serves prog t) : Obeys E (place ⟨⟩) t := by
    refine .next fun r? _ hrecord ↦ ?_
    obtain ⟨hr, rfl⟩ := record?_eq_ok_iff.1 hrecord
    cases r? with
    | none => exact .pure
    | some r =>
      have hformals : Tame E (r.unplacedFormals.forM (placeFormal f)) := .forM fun _ _ ↦ inferInstance
      have hsequences : Tame E (r.unplaced.forM fun x ↦ placeSequence prog f x.1 x.2) := by
        refine .forM fun x hx ↦ ?_
        obtain ⟨-, -, inst, hkind, rfl, -⟩ := (ht.valid.record hr).unplaced x hx
        refine hE.placeSequence hprog (lt_of_kindAt hkind) (fun inst' hkind' ↦ ?_) x.2
        rw [instruction_unique hkind hkind']
      exact .next fun _ _ _ ↦ .next fun _ _ _ ↦ Tame.throws _
  cases r? with
  | none => exact hplace (.refl hs)
  | some r =>
    refine .next fun _ t ht ↦ ?_
    have hserves : s.Serves prog t := by
      refine alterRecord_ensures prog hs (fun r ↦ ?_) (fun r' hr' ↦ ?_) _ _ ht
      · exact { FunctionRecord.Persists.refl _ r with }
      · exact { hs.record hr' with addresses := by simp }
    have hfollow (v : ValueId) (u : Lowering) (hu : s.Serves prog u) : Ensures (ask.uses v) u fun _ w ↦
      s.Serves prog w :=
      fun _ _ hw ↦ hu.trans (hask.uses hu.valid hw)
    refine .bind (.forM (fun u ↦ s.Serves prog u) (fun v hv u hu ↦ ?_) (fun v _ ↦ hfollow v) hserves)
      fun _ u hu ↦ hplace ?_
    · obtain ⟨inst, hkind, hf, hop⟩ := (hs.record hr).addresses v hv
      exact huses hkind hf hop hu
    · exact Ensures.forM (fun u ↦ s.Serves prog u) (fun v _ ↦ hfollow v) hserves _ _ hu

/-- A value is bound to the formal that it is passed to, and followed there. -/
theorem bindFormal_obeys (hs : s.Valid prog) (hcall : prog.kindAt call = some (.instruction inst))
    (hrecorded : s.records.get? inst.function ≠ none)
    (hentry : ∀ {f param}, prog.Hands call v f param → Obeys E (ask.entry f) s)
    (hoperand : ∀ {t}, s.Serves prog t → t.Housed prog v ∧ Obeys E (ask.operand v) t)
    (huses : ∀ {f param t}, prog.Hands call v f param → s.Serves prog t → t.records.get? f ≠ none →
    Obeys E (ask.uses param) t)
    (hplace : ∀ {f param r t}, prog.Hands call v f param → s.Serves prog t → t.records.get? f = some r →
      r.complete = true → Obeys E (placeAll prog ask f) t) : Obeys E (bindFormal prog ask call v) s := by
  have hcall_lt := lt_of_kindAt hcall
  refine hE.bind_lift (fun h ↦ calledFunction?_answers (h.founded hprog) hcall_lt) fun f? hf ↦ ?_
  cases f? with
  | none => exact .pure
  | some f =>
    refine hE.bind_lift (fun _ ↦ function_answers (lt_of_calledFunction? hprog hf)) fun fn hlookup ↦ ?_
    have hfn := Query.lookup_eq_ok_iff.1 hlookup
    split
    · exact .pure
    · rename_i hdef
      refine hE.bind_lift (fun _ ↦ callArguments_answers hcall_lt) fun arguments harguments ↦ ?_
      obtain rfl := arguments_unique hcall harguments
      split
      · exact .pure
      · rename_i param hparam
        obtain ⟨j, hj, hparam⟩ := Option.bind_eq_some_iff.1 hparam
        have hkind := hprog.param (by rw [hfn]; rfl) hparam
        have hhands : prog.Hands call v f param := ⟨hf, inst, fn, j, hcall, hfn, Bool.not_eq_true _ ▸ hdef, hj, hparam⟩
        refine (hentry hhands).bind fun entry s₁ h₁ ↦ ?_
        obtain ⟨hs₁, r, hr, -⟩ := hask.entry hs (fun _ ↦ hs.started hrecorded) h₁
        extract_lets bindTo
        have hbind {formal : NodeId} {t : Lowering} (ht : s.Serves prog t) (htf : t.records.get? f ≠ none)
            (hphi : t.At (fun _ n ↦ n.kind = .phi) formal) : Obeys E (bindTo formal) t := by
          obtain ⟨hhoused, hop⟩ := hoperand ht
          refine hop.bind fun op t₁ h₁ ↦ .next fun _ t₂ h₂ ↦ ?_
          obtain ⟨ht₂, -⟩ := passOperand_ensures hask ht.valid (fun _ ↦ hhoused) hphi
            ⟨⟩ t₂ (bind_eq_ok_iff.2 ⟨op, t₁, h₁, h₂⟩)
          have hs₂ := ht.trans ht₂
          refine (huses hhands hs₂ (ht₂.recorded htf)).bind fun _ t₃ h₃ ↦ .next fun r? _ hrecord ↦ ?_
          have hs₃ := hs₂.trans (hask.uses ht₂.valid h₃)
          obtain ⟨hr, rfl⟩ := record?_eq_ok_iff.1 hrecord
          split
          · split
            · exact hplace hhands hs₃ hr ‹_›
            · exact .pure
          · exact .pure
        have hf₁ : s₁.records.get? f ≠ none := by simp [hr]
        have hparams := List.mem_of_getElem? hparam
        refine .next fun formal? _ hnode ↦ ?_
        obtain ⟨hformal, rfl⟩ := nodeOf?_eq_ok_iff.1 hnode
        cases formal? with
        | some formal => exact .bind_pure (hbind hs₁ hf₁ (hs₁.valid.formal_isPhi hprog hfn hparams hformal))
        | none =>
          refine (lowerFormal_obeys hprog hE hkind hf₁).bind fun formal t hlowered ↦ ?_
          obtain ⟨ht, hformal⟩ := lowerFormal_ensures hs₁.valid hformal
            (fun _ g hg ↦ by
              rw [home?_of_kindAt hkind] at hg
              rwa [← Option.some.inj hg]) _ _ hlowered
          exact hbind (hs₁.trans ht.toEvolves) (ht.recorded hf₁) (ht.valid.formal_isPhi hprog hfn hparams hformal)

/-- A use gets its node unless it matters, and what it computes, stores or passes is followed. -/
theorem lowerUse_obeys (hs : s.Valid prog) (huser : prog.kindAt user = some (.instruction inst))
    (hdeferred : ∀ {t}, s.Serves prog t → t.records.get? inst.function ≠ none → t.nodes.get? user = none →
      t.Judged prog user false → Obeys E (lowerDeferred prog ask user true) t)
    (hstored : ∀ {t pointer}, s.nodes.get? user = none → s.Serves prog t → (prog.Scoped → t.nodes.get? user ≠ none) →
      prog.Idle user inst → inst.opcode = .store → inst.operand? 1 = some pointer → Obeys E (ask.uses pointer) t)
    (hbind : ∀ {t}, s.Serves prog t → t.records.get? inst.function ≠ none → inst.opcode = .call →
      (prog.Idle user inst ∧ s.nodes.get? user = none ∧ (prog.Scoped → t.nodes.get? user ≠ none)) ∨
        (¬prog.Idle user inst ∧ t.nodes.get? user = none) → Obeys E (bindFormal prog ask user v) t) :
    Obeys E (lowerUse prog ask v user) s := by
  have hlt := lt_of_kindAt huser
  refine .bind_get ?_
  split
  · exact .pure
  · rename_i hunnamed
    have hnew : s.nodes.get? user = none := by
      by_contra hne
      exact hunnamed (OrderedMap.contains_iff.2 hne)
    refine hE.bind_lift (fun _ ↦ instruction?_answers hlt) fun inst? hinst ↦ ?_
    obtain rfl := Except.ok.inj ((instruction?_eq_ok_iff.2 huser).symm.trans hinst)
    refine .bind_get ?_
    split
    · exact .pure
    · rename_i hfollow
      have hrecorded : s.records.get? inst.function ≠ none := by
        apply OrderedMap.contains_iff.1
        simp only [Bool.or_eq_true, not_or, Bool.not_eq_true, Bool.not_eq_false'] at hfollow
        exact hfollow.2
      have : Tame E (isRelevant prog user) := hE.isRelevant hprog hlt
      refine .next fun relevant s₁ hrelevant ↦ ?_
      obtain ⟨hsettles, hjudged⟩ := isRelevant_eq_ok hrelevant
      have hs₁ : s.Serves prog s₁ := (Lowering.Evolves.refl hs).step hsettles.step
      have hnew₁ : s₁.nodes.get? user = none := hsettles.nodes ▸ hnew
      have hidle := hjudged.idle_iff hs₁.valid.relevance huser
      extract_lets follow
      have hfollow {t : Lowering} (ht : s.Serves prog t)
          (hnamed : (prog.Idle user inst ∧ s.nodes.get? user = none ∧ (prog.Scoped → t.nodes.get? user ≠ none)) ∨
            (¬prog.Idle user inst ∧ t.nodes.get? user = none)) : Obeys E (follow ⟨⟩) t := by
        change Obeys E (if inst.isCall = true then bindFormal prog ask user v else pure ()) t
        split
        · rename_i hcall
          refine hbind ht (ht.recorded hrecorded) ?_ hnamed
          unfold Instruction.isCall at hcall
          split at hcall
          · assumption
          · contradiction
        · exact .pure
      cases relevant with
      | true => exact hfollow hs₁ (.inr ⟨fun h ↦ by simpa using hidle.1 h, hnew₁⟩)
      | false =>
        have hidle := hidle.2 rfl
        refine (hdeferred hs₁ (hs₁.recorded hrecorded) hnew₁ hjudged).bind fun op s₂ h₂ ↦ ?_
        have hsupplies := lowerDeferred_ensures hprog hask hjudged hs₁.valid huser hnew₁
          (fun _ ↦ hs₁.recorded hrecorded) _ _ h₂
        have hs₂ := hs₁.trans hsupplies.toEvolves
        have hnamed (hscoped : prog.Scoped) : s₂.nodes.get? user ≠ none := by
          rcases hsupplies.resolves (.inl hscoped) with ⟨id, hid, -⟩ | ⟨-, hsentinel⟩
          · simp [hid]
          · simp [sentinel?, huser] at hsentinel
        have hrest {t : Lowering} (ht : s₂.Serves prog t) : Obeys E (follow ⟨⟩) t :=
          hfollow (hs₂.trans ht) (.inl ⟨hidle, hnew, fun hscoped ↦ ht.toKeeps.isNamed (hnamed hscoped)⟩)
        split
        · rename_i hstore
          split
          · rename_i pointer hpointer
            have hop : inst.opcode = .store := by
              unfold Instruction.isStore at hstore
              split at hstore
              · assumption
              · contradiction
            exact (hstored hnew hs₂ hnamed hidle hop hpointer).bind fun _ s₃ h₃ ↦ hrest (hask.uses hs₂.valid h₃)
          · exact hrest (.refl hs₂.valid)
        · exact hrest (.refl hs₂.valid)

end

end PointsTo.Lower
