import PointsTo.Proofs.Availability
import PointsTo.Proofs.Dominance
import PointsTo.Proofs.Outcomes

/-!
# Programs that find all their operands

Every global has its memory before anything refers to it.  Instructions are visited after everything
that they draw on, and uses are followed in functions that are explored.  So a regular program that
keeps its addresses is never rejected for a missing operand.
-/

namespace PointsTo

namespace Lower

open Stateful

variable {prog : Program} {ask : Provider} {s t : Lowering} {f : FuncId} {v w : ValueId}
  {inst : Instruction} {r : FunctionRecord}

/-! ## Function bodies -/

section

variable (hprog : prog.Coherent) (hreg : prog.Regular) (hask : ask.Sound prog) (hfind : ask.Finding prog)

include hprog hreg hask hfind

variable (hkeeps : prog.KeepsAddresses) (hcustom : prog.Customary)

include hkeeps hcustom

/-- The instructions of a function find their operands, which are met before, and so do its phis. -/
theorem backs_of_clear (hfurnished : s.Furnished prog) (hclear : prog.Quiet f ∨ s.Clear prog) :
    ask.Backs prog (fun e ↦ ∀ text, e ≠ .rejected (.missingOperand text)) f s := by
  have hord := hreg.toOrderly
  have hsurveyed {mine : ValueId → Prop} {t : Lowering} (ht : s.Evolves prog mine t) (hf : t.records.get? f ≠ none)
      (hexplored : t.Explored prog f) : t.Surveyed prog f := ⟨ht.valid, hfurnished.mono ht.toKeeps, hf, hexplored⟩
  refine ⟨fun {_ t v inst} ht hf hv hvf hready ↦ ?_, fun ht hf hexplored hv hvf hw ↦ ?_, fun ht hf hexplored ↦ ?_⟩
  · have hpoised : t.Poised prog v inst :=
      { valid := ht.valid
        furnished := hfurnished.mono ht.toKeeps
        instruction := hv
        recorded := hvf ▸ hf
        ready := hready
        entering := fun hg hfn hdef ↦ hclear.imp (fun hquiet ↦ hquiet.calledFunction? hprog hv hvf hg hfn hdef)
          fun hclear ↦ hclear.serves hord hprog ht }
    exact lowerInBlock_obeys (poised_heeds hprog hreg hask hfind hcustom hv) hpoised
  · subst hvf
    exact incoming_finds hprog hreg hfind (hsurveyed ht hf hexplored) hv hw
  · exact placeAll_finds hprog hreg hask hfind hkeeps (hsurveyed ht hf hexplored)
      (hclear.imp id (·.serves hord hprog ht))

/-- A function is lowered without missing anything. -/
theorem lowerFunction_finds (hs : s.Valid prog) (hfurnished : s.Furnished prog) (hglobals : s.globals ≠ none)
    (hclear : prog.Quiet f ∨ s.Clear prog) : Finds (lowerFunction prog ask f) s := by
  refine lowerFunction_obeys hprog hask (.finding fun _ ↦ id) hreg.toOrderly hs hglobals inferInstance
    fun hs₁ hrecords _ hopens _ ↦ ?_
  have hkeeps₁ := hs₁.toKeeps.trans hopens.toKeeps
  refine backs_of_clear hprog hreg hask hfind hkeeps hcustom (hfurnished.mono hkeeps₁) ?_
  -- A function that is not quiet does not count.
  by_cases hquiet : prog.Quiet f
  · exact .inl hquiet
  · refine .inr fun g hg hrecorded ↦ (hclear.resolve_left hquiet g hg ?_).mono hkeeps₁
    rwa [hopens.others fun heq ↦ hquiet (heq ▸ hg), hrecords] at hrecorded

end

/-- Whatever is offered is found, however deep requests are nested. -/
theorem provider_finding (hprog : prog.Coherent) (hreg : prog.Regular) (hkeeps : prog.KeepsAddresses)
    (hcustom : prog.Customary) (depth : Nat) : (provider prog depth).Finding prog := by
  induction depth with
  | zero => exact ⟨fun _ _ _ ↦ .exhausted, fun _ _ _ _ ↦ .exhausted, fun _ _ _ _ ↦ .exhausted⟩
  | succ depth ih =>
    have hask := provider_sound hprog depth
    exact
      { operand := operand_finds hprog hreg hask ih hcustom
        entry := lowerFunction_finds hprog hreg hask ih hkeeps hcustom
        uses := lowerUses_finds hprog hreg hask ih hkeeps hcustom }

/-! ## Globals -/

section

variable (hreg : prog.Regular) (hfind : ask.Finding prog)

include hreg hfind

/-- A global that is initialized with null or with an integer. -/
theorem lowerContent_finds {global : Global} {id : NodeId} (hs : s.Valid prog) (hfurnished : s.Furnished prog)
    (hglobal : global ∈ prog.globals) : Finds (lowerContent prog ask global id) s := by
  obtain ⟨init, hinit, hconstant⟩ := hreg.initialized hglobal
  have hoffers : s.Offers prog init := by
    rcases hconstant with hnull | ⟨n, hint⟩
    · exact .of_home (f := 0) (.null hnull) (by simp [Program.home?_of_kindAt hnull, ValueKind.home?])
    · exact .of_home (f := 0) (.int hint) (by simp [Program.home?_of_kindAt hint, ValueKind.home?])
  have hstore : Finds (storeInitial ask init id 0 id) s := by
    refine (hfind.operand hs hfurnished hoffers).bind fun _ _ _ ↦ ?_
    dsimp only
    split <;> exact Tame.throws _
  unfold lowerContent
  rw [hinit]
  cases global.external with
  | true => exact Tame.throws _
  | false =>
    refine .bind_lift fun zero _ ↦ ?_
    split
    · exact Tame.throws _
    · unfold lowerInitializer
      refine .bind_lift fun c? hc ↦ ?_
      rcases hconstant with hnull | ⟨n, hint⟩
      · obtain rfl : c? = some .null := Except.ok.inj (hc.symm.trans (Program.constant?_eq_ok_iff.2 hnull))
        dsimp only
        split
        · exact hstore
        · exact .pure
      · obtain rfl : c? = some (.int n) := Except.ok.inj (hc.symm.trans (Program.constant?_eq_ok_iff.2 hint))
        dsimp only
        split
        · exact hstore
        · exact .pure

end

/-- A regular program that keeps its addresses is not rejected for a missing operand. -/
theorem build_finds (hprog : prog.Coherent) (hreg : prog.Regular) (hkeeps : prog.KeepsAddresses)
    (hcustom : prog.Customary) (entry : String) (journal : Journal) : Finds (build prog entry) { journal } := by
  have hask := provider_sound hprog (requestDepth prog)
  have hfind := provider_finding hprog hreg hkeeps hcustom (requestDepth prog)
  refine build_obeys hprog (.finding fun _ ↦ id) entry journal (fun _ ↦ ?_) fun _ hs hglobals hfurnished ↦ ?_
  · refine lowerGlobals_obeys hprog hask (.finding fun _ ↦ id) (.initial prog journal) (fun _ _ _ ↦ rfl)
      (fun hg ht hfurnished ↦ ?_) fun hg ht hfurnished _ ↦ lowerContent_finds hreg hfind ht.valid hfurnished hg
    obtain ⟨_, hkind⟩ := hprog.kindAt_global hg
    exact hfind.operand ht.valid hfurnished (.of_home (f := 0) (.global hg) (Program.home?_of_kindAt hkind))
  · refine lowerFunction_finds hprog hreg hask hfind hkeeps hcustom hs.valid hfurnished hglobals (.inr ?_)
    exact Lowering.Clear.serves (s := { journal }) hreg.toOrderly hprog (fun _ _ h ↦ absurd rfl h) hs

/-- A regular program that keeps its addresses is never rejected for a missing operand. -/
theorem build_misses_no_operand (hprog : prog.Coherent) (hreg : prog.Regular) (hkeeps : prog.KeepsAddresses)
    (hcustom : prog.Customary) (entry : String) (journal : Journal) (text : String) (t : Lowering) :
    build prog entry { journal } ≠ .error (.rejected (.missingOperand text)) t := by
  intro h
  exact build_finds hprog hreg hkeeps hcustom entry journal _ _ h text rfl

open Command in
/-- A function that stores the address of a variable in the variable, over and over, after it passed the
address to another function. -/
def keeper : Program := .assembled
  [function "main" .void [] false, function "keep" .void [.int 64] false, global "G" .ptr, constant .null .ptr,
    initializer 3 4, block 0, block 0, block 0, block 1, successor 0 0 1, successor 0 1 1, successor 0 1 2,
    alloca 0 0 (.int 64), cast 0 0 .ptrToInt 5 (.int 64), call 0 0 1 [6] .void,
    phi 0 1 [5, 9] .ptr, getElementPtr 0 1 (.int 64) 8 [], store 0 1 6 5, store 0 1 9 3, ret 0 2 none, ret 1 0 none]

theorem build_misses_no_operand_keeper : (∃ root t, build keeper "main" {} = .ok root t) ∧
    ∀ entry journal text t, build keeper entry { journal } ≠ .error (.rejected (.missingOperand text)) t := by
  have hbuild : succeeds (fun _ _ ↦ true) (build keeper "main" {}) = true := by decide +kernel
  have horderly : keeper.OrderlyBy fun f b ↦ if f = 0 then List.range b else [] := by decide +kernel
  have hreg : keeper.Regular := Program.regular_of_check horderly (by decide +kernel) (by decide)
  have hkeeps : keeper.KeepsAddresses := Program.keepsAddresses_of_check (by decide +kernel)
  obtain ⟨root, t, ht, -⟩ := ok_of_succeeds hbuild
  exact ⟨⟨root, t, ht⟩, build_misses_no_operand (Program.coherent_assembled _) hreg hkeeps (by decide)⟩

open Command in
/-- Two functions that store an address in the same global. -/
def clash : Program := .assembled
  [function "main" .void [] false, function "h" .void [] false, global "G" (.int 64), constant (.int 0) (.int 64),
    initializer 2 3, block 0, block 1, call 0 0 1 [] .void, cast 0 0 .ptrToInt 2 (.int 64), store 0 0 5 2, ret 0 0 none,
    cast 1 0 .ptrToInt 2 (.int 64), store 1 0 8 2, ret 1 0 none]

/-- The address that the called function stores is followed to the store of its caller, before the caller
has taken the address that it stores there. -/
theorem operand_missed : clash.Regular ∧ clash.Customary ∧
    ∃ t, build clash "main" {} = .error (.rejected (.missingOperand "%5 = ptrtoint @G (in @main)")) t := by
  have horderly : clash.OrderlyBy fun _ _ ↦ [] := by decide +kernel
  have hbuild : fails (fun e _ ↦ e = .rejected (.missingOperand "%5 = ptrtoint @G (in @main)"))
      (build clash "main" {}) = true := by
    decide +kernel
  refine ⟨Program.regular_of_check horderly (by decide +kernel) (by decide), by decide, ?_⟩
  obtain ⟨e, t, ht, he⟩ := error_of_fails hbuild
  exact ⟨t, by rw [ht, of_decide_eq_true he]⟩

end Lower

end PointsTo
