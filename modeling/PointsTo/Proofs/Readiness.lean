import PointsTo.Proofs.Findings
import PointsTo.Proofs.Functions
import PointsTo.Proofs.Regularity

/-!
# When instructions can be lowered

An instruction can be lowered once everything that it draws on is met: what is relevant has its node
by then, and what is not can be lowered when it is asked for, because what it draws on in turn is met
too.  Nothing of this is lost while other values and other functions are lowered.

While the body of a quiet function is lowered nothing but quiet functions is asked for, and no uses are
followed.  So whenever uses are followed, every quiet function that has a record is explored.
-/

namespace PointsTo

open Stateful

namespace Lowering

variable (prog : Program) (s : Lowering)

/-- Every global has its memory. -/
def Furnished : Prop := ∀ g ∈ prog.globals, s.nodes.get? g.value ≠ none

/-- All that the instruction draws on is met. -/
def Ready (v : ValueId) : Prop := ∀ x, Relation.TransGen prog.Draws v x → s.Met prog x

/-- Every instruction of the function is met. -/
def Explored (f : FuncId) : Prop :=
  ∀ v inst, prog.kindAt v = some (.instruction inst) → inst.function = f → s.Met prog v

/-- Every quiet function that has a record is explored. -/
def Clear : Prop := ∀ f, prog.Quiet f → s.records.get? f ≠ none → s.Explored prog f

/-- The value can be supplied. -/
structure Offers (w : ValueId) : Prop where
  refers : ∃ f, prog.Refers f w
  housed : s.Housed prog w
  ready : s.Ready prog w
  met : ∀ {inst}, prog.kindAt w = some (.instruction inst) → s.Met prog w

/-- The instruction can be lowered. -/
structure Poised (v : ValueId) (inst : Instruction) : Prop where
  valid : s.Valid prog
  furnished : s.Furnished prog
  instruction : prog.kindAt v = some (.instruction inst)
  recorded : s.records.get? inst.function ≠ none
  ready : s.Ready prog v
  entering : ∀ {f fn}, prog.calledFunction? v = .ok (some f) → prog.functions[f]? = some fn → fn.isDeclaration = false →
    prog.Quiet f ∨ s.Clear prog

/-- The function is recorded and explored. -/
structure Surveyed (f : FuncId) : Prop where
  valid : s.Valid prog
  furnished : s.Furnished prog
  recorded : s.records.get? f ≠ none
  explored : s.Explored prog f

variable {prog s} {t : Lowering} {f : FuncId} {v w : ValueId} {inst : Instruction} {r : FunctionRecord}
  {mine : ValueId → Prop}

theorem Furnished.mono (h : s.Furnished prog) (hst : s.Keeps prog t) : t.Furnished prog := fun g hg ↦
    hst.isNamed (h g hg)

theorem Ready.mono (h : s.Ready prog v) (hst : s.Keeps prog t) : t.Ready prog v := fun x hx ↦ (h x hx).mono hst

theorem Explored.mono (h : s.Explored prog f) (hst : s.Keeps prog t) : t.Explored prog f :=
  fun v inst hv hf ↦ (h v inst hv hf).mono hst

theorem Offers.mono (h : s.Offers prog w) (hst : s.Keeps prog t) : t.Offers prog w :=
  ⟨h.refers, hst.housed h.housed, h.ready.mono hst, fun hw ↦ (h.met hw).mono hst⟩

theorem Surveyed.serves (h : s.Surveyed prog f) (hst : s.Evolves prog mine t) : t.Surveyed prog f :=
  ⟨hst.valid, h.furnished.mono hst.toKeeps, hst.recorded h.recorded, h.explored.mono hst.toKeeps⟩

/-- Values that are no instructions draw on nothing. -/
theorem Ready.of_kind (h : ∀ inst, prog.kindAt w ≠ some (.instruction inst)) : s.Ready prog w := by
  intro x hx
  obtain ⟨u, ⟨inst, -, hw, -⟩, -⟩ := Relation.TransGen.head'_iff.1 hx
  exact absurd hw (h inst)

/-- What refers to no function at all can be supplied at any time. -/
theorem Offers.of_home (hrefers : prog.Refers f w) (hhome : prog.home? w = none) : s.Offers prog w := by
  have hkind (inst : Instruction) : prog.kindAt w ≠ some (.instruction inst) := by
    intro hw
    simp [Program.home?_of_kindAt hw, ValueKind.home?] at hhome
  exact ⟨⟨f, hrefers⟩, fun g hg ↦ by simp [hhome] at hg, .of_kind hkind, fun {inst} hw ↦ absurd hw (hkind inst)⟩

/-- A call is irrelevant if it calls nothing that touches pointers. -/
theorem idle_call_iff {b : Bool} (h : Lower.isRelevantCall prog v s = .ok b s) (hs : prog.Truthful s.relevance) :
    (∃ f fn, prog.calledFunction? v = .ok (some f) ∧ prog.functions[f]? = some fn ∧
      if fn.isDeclaration then prog.isRelevantDeclaration f v = .ok false
      else prog.isPointer v = .ok false ∧ prog.passesPointer v = .ok false ∧ prog.Quiet f) ↔ b = false := by
  simp only [Lower.isRelevantCall, bind_eq_ok_iff, lift_eq_ok_iff] at h
  obtain ⟨asm, _, ⟨hasm, rfl⟩, h⟩ := h
  cases asm with
  | true =>
    obtain ⟨rfl, -⟩ := pure_eq_ok_iff.1 h
    refine ⟨fun ⟨f, fn, hf, _⟩ ↦ ?_, by simp⟩
    exact absurd (Program.isAsmCall_eq_false hf hasm) (by simp)
  | false =>
    simp only [Bool.false_eq_true, if_false, bind_eq_ok_iff, lift_eq_ok_iff] at h
    obtain ⟨f?, _, ⟨hf, rfl⟩, h⟩ := h
    cases f? with
    | none =>
      obtain ⟨rfl, -⟩ := pure_eq_ok_iff.1 h
      simp [hf]
    | some f =>
      simp only [bind_eq_ok_iff, lift_eq_ok_iff] at h
      obtain ⟨fn, _, ⟨hlookup, rfl⟩, h⟩ := h
      have hfn := Query.lookup_eq_ok_iff.1 hlookup
      simp only [hf, Except.ok.injEq, Option.some.injEq, exists_and_left, exists_eq_left', hfn]
      split at h
      · rename_i hdecl
        simp [hdecl, (lift_eq_ok_iff.1 h).1]
      · rename_i hdef
        simp only [bind_eq_ok_iff, lift_eq_ok_iff] at h
        obtain ⟨pointer, _, ⟨hpointer, rfl⟩, h⟩ := h
        cases pointer with
        | true =>
          obtain ⟨rfl, -⟩ := pure_eq_ok_iff.1 h
          simp [hdef, hpointer]
        | false =>
          simp only [Bool.false_eq_true, if_false, bind_eq_ok_iff, lift_eq_ok_iff] at h
          obtain ⟨passes, _, ⟨hpasses, rfl⟩, h⟩ := h
          cases passes with
          | true =>
            obtain ⟨rfl, -⟩ := pure_eq_ok_iff.1 h
            simp [hdef, hpasses]
          | false =>
            have hknown := (Lower.touchesPointers_eq_ok h).2
            simp [hdef, hpointer, hpasses, hs f b hknown]

/-- What is judged not to matter is idle, and nothing else is. -/
theorem Judged.idle_iff {b : Bool} (h : s.Judged prog v b) (hs : prog.Truthful s.relevance)
    (hv : prog.kindAt v = some (.instruction inst)) : prog.Idle v inst ↔ b = false := by
  have hrel := h s id
  simp only [Lower.isRelevant, bind_eq_ok_iff, lift_eq_ok_iff,
    Program.instruction?_eq_ok_iff.2 hv, Except.ok.injEq] at hrel
  obtain ⟨_, _, ⟨rfl, rfl⟩, hrel⟩ := hrel
  have hplain {opcode : Opcode} (hrel : (do
      if ← prog.isPointer v then Lower.reject (.unhandledInstruction opcode.name (← prog.describe v))
      return false : Lower Bool) s = .ok b s) : prog.isPointer v = .ok false ↔ b = false := by
    simp only [bind_eq_ok_iff, lift_eq_ok_iff] at hrel
    obtain ⟨pointer, _, ⟨hpointer, rfl⟩, hrel⟩ := hrel
    cases pointer with
    | true =>
      obtain ⟨_, _, -, hrel⟩ := bind_eq_ok_iff.1 hrel
      obtain ⟨_, _, hreject, -⟩ := bind_eq_ok_iff.1 hrel
      exact absurd hreject Lower.reject_ne_ok
    | false =>
      obtain ⟨rfl, -⟩ := pure_eq_ok_iff.1 hrel
      simp [hpointer]
  obtain ⟨opcode, operands, function, block⟩ := inst
  cases opcode with
  | store =>
    dsimp only at hrel
    unfold Program.Idle
    cases hstored : Instruction.operand? ⟨.store, operands, function, block⟩ 0 with
    | none =>
      simp only [hstored, pure_eq_ok_iff] at hrel
      simp [hrel.1]
    | some stored =>
      simp only [hstored, lift_eq_ok_iff] at hrel
      simp [hrel.1]
  | call => exact idle_call_iff hrel hs
  | load | extractValue | select | phi =>
    obtain ⟨hpointer, -⟩ := lift_eq_ok_iff.1 hrel
    simp [Program.Idle, hpointer]
  | alloca | getElementPtr | ret =>
    obtain ⟨rfl, -⟩ := pure_eq_ok_iff.1 hrel
    simp [Program.Idle]
  | cast op =>
    cases op with
    | bitcast | ptrToInt | intToPtr =>
      obtain ⟨rfl, -⟩ := pure_eq_ok_iff.1 hrel
      simp [Program.Idle]
    | _ => exact hplain hrel
  | _ => exact hplain hrel

section

variable (hord : prog.Orderly) (hprog : prog.Coherent)

include hord

/-- When every instruction of a function is met, all are ready. -/
theorem Explored.ready (h : s.Explored prog f) (hv : prog.kindAt v = some (.instruction inst))
    (hf : inst.function = f) : s.Ready prog v := by
  intro x hx
  obtain ⟨source, hsource, hfunction⟩ : ∃ source, prog.kindAt x = some (.instruction source) ∧ source.function = f := by
    induction hx with
    | single hdraws =>
      obtain ⟨_, source, -, -, -, hsource⟩ := id hdraws
      exact ⟨source, hsource, (hord.draws_function hdraws hv hsource).trans hf⟩
    | tail _ hdraws ih =>
      obtain ⟨inst', hinst', hf'⟩ := ih
      obtain ⟨_, source, -, -, -, hsource⟩ := id hdraws
      exact ⟨source, hsource, (hord.draws_function hdraws hinst' hsource).trans hf'⟩
  exact h x source hsource hfunction

include hprog

theorem Finished.explored (h : s.Finished prog f r) : s.Explored prog f :=
  fun _ _ hv hf ↦ h.met (hf ▸ hord.visits hprog hv)

/-- Functions that are lowered on the way are explored in the end. -/
theorem Clear.mono (h : s.Clear prog) (hst : s.Keeps prog t)
    (hfinished : ∀ {f r}, s.records.get? f = none → t.records.get? f = some r → t.Finished prog f r) :
    t.Clear prog := by
  intro f hquiet hf
  by_cases hold : s.records.get? f = none
  · obtain ⟨r, hr⟩ := Option.ne_none_iff_exists'.1 hf
    exact (hfinished hold hr).explored hord hprog
  · exact (h f hquiet hold).mono hst

theorem Clear.serves (h : s.Clear prog) (hst : s.Evolves prog mine t) : t.Clear prog :=
  h.mono hord hprog hst.toKeeps hst.finished

theorem Poised.mono (h : s.Poised prog v inst) (hst : s.Keeps prog t) (ht : t.Valid prog)
    (hfinished : ∀ {f r}, s.records.get? f = none → t.records.get? f = some r → t.Finished prog f r) :
    t.Poised prog v inst where
  valid := ht
  furnished := h.furnished.mono hst
  instruction := h.instruction
  recorded := hst.recorded h.recorded
  ready := h.ready.mono hst
  entering hf hfn hdef := (h.entering hf hfn hdef).imp id fun hclear ↦ hclear.mono hord hprog hst hfinished

theorem Poised.serves (h : s.Poised prog v inst) (hst : s.Serves prog t) : t.Poised prog v inst :=
  h.mono hord hprog hst.toKeeps hst.valid hst.finished

end

section

variable (hprog : prog.Coherent) (hreg : prog.Regular)

include hprog

theorem housed_of_refers (hrefers : prog.Refers f w) (hf : s.records.get? f ≠ none) : s.Housed prog w :=
  fun _ hg ↦ hrefers.home_eq hprog hg ▸ hf

include hreg

/-- An instruction that is ready is offered its operands. -/
theorem Ready.offers (h : s.Ready prog v) (hv : prog.kindAt v = some (.instruction inst))
    (hf : s.records.get? inst.function ≠ none) (hphi : inst.isPhi = false) (hw : w ∈ inst.operands) :
    s.Offers prog w where
  refers := ⟨inst.function, hreg.refers hv hw⟩
  housed := housed_of_refers hprog (hreg.refers hv hw) hf
  ready := by
    by_cases hkind : ∃ source, prog.kindAt w = some (.instruction source)
    · obtain ⟨source, hsource⟩ := hkind
      exact fun x hx ↦ h x (.head ⟨inst, source, hv, hphi, hw, hsource⟩ hx)
    · exact .of_kind fun source hsource ↦ hkind ⟨source, hsource⟩
  met hsource := h w (.single ⟨inst, _, hv, hphi, hw, hsource⟩)

theorem Poised.offers (h : s.Poised prog v inst) (hphi : inst.isPhi = false) (hw : w ∈ inst.operands) :
    s.Offers prog w :=
  h.ready.offers hprog hreg h.instruction h.recorded hphi hw

theorem Explored.offers (h : s.Explored prog f) (hf : s.records.get? f ≠ none) (hrefers : prog.Refers f w) :
    s.Offers prog w where
  refers := ⟨f, hrefers⟩
  housed := housed_of_refers hprog hrefers hf
  ready := by
    by_cases hkind : ∃ source, prog.kindAt w = some (.instruction source)
    · obtain ⟨source, hsource⟩ := hkind
      exact h.ready hreg.toOrderly hsource (hrefers.function_eq hprog hsource)
    · exact .of_kind fun source hsource ↦ hkind ⟨source, hsource⟩
  met hsource := h w _ hsource (hrefers.function_eq hprog hsource)

end

end Lowering

/-- The provider finds what is offered. -/
structure Provider.Finding (prog : Program) (ask : Provider) : Prop where
  operand : ∀ {w s}, s.Valid prog → s.Furnished prog → s.Offers prog w → Lower.Finds (ask.operand w) s
  entry : ∀ {f s}, s.Valid prog → s.Furnished prog → s.globals ≠ none → prog.Quiet f ∨ s.Clear prog →
    Lower.Finds (ask.entry f) s
  uses : ∀ {f v s}, s.Surveyed prog f → s.Clear prog → prog.home? v = some f → prog.Carries v →
    Lower.Finds (ask.uses v) s

end PointsTo
