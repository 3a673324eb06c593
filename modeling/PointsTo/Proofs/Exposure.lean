import PointsTo.Proofs.Grounding
import PointsTo.Proofs.Readiness

/-!
# Where uses are followed

The uses of a value are followed if the value carries an address.  Most of the time the function of the
value is explored by then, or quiet, so calls among the uses that matter have their nodes.  An address
that is stored in memory of no function is followed from there to wherever that memory is used, and
calls that matter may still be without nodes there: they relay what they are handed.
-/

namespace PointsTo

namespace Program

/-- The values through which an address is followed from memory of no function. -/
inductive Exposed (prog : Program) : ValueId → Prop
  | memory {v w pointer : ValueId} {inst : Instruction} : prog.Carries w → prog.kindAt v = some (.instruction inst) →
      w ∈ inst.operands → prog.Idle v inst → inst.opcode = .store → inst.operand? 1 = some pointer →
        prog.home? pointer = none → prog.Exposed pointer
  | result {v w : ValueId} {inst : Instruction} : prog.Exposed w → prog.kindAt v = some (.instruction inst) →
      w ∈ inst.operands → prog.Idle v inst → prog.Exposed v
  | stored {v w pointer : ValueId} {inst : Instruction} : prog.Exposed w → prog.kindAt v = some (.instruction inst) →
      w ∈ inst.operands → prog.Idle v inst → inst.opcode = .store → inst.operand? 1 = some pointer →
      prog.Exposed pointer
  | formal {call w param : ValueId} {f : FuncId} : prog.Exposed w → prog.Hands call w f param → prog.Exposed param

/-- A call that matters hands the exposed value to the parameter. -/
def Relays (prog : Program) (w param : ValueId) : Prop :=
  prog.Exposed w ∧ ∃ call inst f, prog.kindAt call = some (.instruction inst) ∧ ¬prog.Idle call inst ∧
    prog.Hands call w f param

variable {prog : Program} {f : FuncId} {v w call param : ValueId} {inst : Instruction}

theorem Hands.kindAt (h : prog.Hands call v f param) (hprog : prog.Coherent) :
    ∃ index, prog.kindAt param = some (.argument f index) := by
  obtain ⟨-, inst, fn, index, -, hfn, -, -, hparam⟩ := h
  exact ⟨index, hprog.param (by rw [hfn]; rfl) hparam⟩

theorem Hands.lt (h : prog.Hands call v f param) (hprog : prog.Coherent) : param < prog.values.length := by
  obtain ⟨index, hkind⟩ := h.kindAt hprog
  exact lt_of_kindAt hkind

/-- No call of a quiet function matters. -/
theorem Quiet.idle (h : prog.Quiet f) (hprog : prog.Coherent) (hv : prog.kindAt v = some (.instruction inst))
    (hf : inst.function = f) (hop : inst.opcode = .call) : prog.Idle v inst := by
  obtain ⟨caller, hcaller⟩ := h.exists_function
  obtain ⟨touch, htouch, hne, hquiet⟩ := h.touchOf hcaller (hprog.mem_insts hv (hf ▸ hcaller))
  rcases touchOf_cases hv htouch with ⟨hpointers, -⟩ | ⟨-, hcall, -⟩ | ⟨-, hpointer, -, hpasses, g, fn, hg, hfn, htouch⟩
  · contradiction
  · simp [Instruction.isCall, hop] at hcall
  · simp only [Idle, hop]
    refine ⟨g, fn, hg, hfn, ?_⟩
    by_cases hdeclared : fn.isDeclaration = true
    · rw [if_pos hdeclared] at htouch ⊢
      exact htouch.2
    · rw [if_neg hdeclared] at htouch ⊢
      have harguments : prog.callArguments v = .ok inst.arguments :=
        Query.bind_eq_ok_iff.2 ⟨some inst, instruction?_eq_ok_iff.2 hv, rfl⟩
      exact ⟨hpointer, Query.bind_eq_ok_iff.2 ⟨_, harguments, hpasses⟩, hquiet g htouch⟩

end Program

namespace Lowering

variable (prog : Program) (s : Lowering)

/-- The value carries an address within a function that is explored or quiet. -/
structure Tame (v : ValueId) : Prop where
  carries : prog.Carries v
  settled : ∃ f, prog.home? v = some f ∧ (s.Explored prog f ∨ prog.Quiet f)

/-- The uses of the value may be followed. -/
def Followed (v : ValueId) : Prop := s.Tame prog v ∨ prog.Exposed v

/-- Every function that is complete is explored. -/
structure Tidy : Prop where
  valid : s.Valid prog
  explored : ∀ {f r}, s.records.get? f = some r → r.complete = true → s.Explored prog f

variable {prog s} {t : Lowering} {f : FuncId} {v w user call param pointer : ValueId} {inst : Instruction}
  {mine : ValueId → Prop}

theorem Tame.mono (h : s.Tame prog v) (hst : s.Keeps prog t) : t.Tame prog v := by
  obtain ⟨f, hf, hsettled⟩ := h.settled
  exact ⟨h.carries, f, hf, hsettled.imp (·.mono hst) id⟩

theorem Followed.mono (h : s.Followed prog v) (hst : s.Keeps prog t) : t.Followed prog v := h.imp (·.mono hst) id

namespace Tidy

theorem keeps (h : s.Tidy prog) (hst : s.Keeps prog t) (ht : t.Valid prog)
    (hrecord : ∀ {f r}, t.records.get? f = some r → r.complete = true →
      t.Explored prog f ∨ ∃ r', s.records.get? f = some r' ∧ r'.complete = true) : t.Tidy prog where
  valid := ht
  explored hr hcomplete := by
    rcases hrecord hr hcomplete with hexplored | ⟨r', hr', hcomplete'⟩
    · exact hexplored
    · exact (h.explored hr' hcomplete').mono hst

theorem of_records (h : s.Tidy prog) (hst : s.Keeps prog t) (ht : t.Valid prog) (hrecords : t.records = s.records) :
    t.Tidy prog :=
  h.keeps hst ht fun hr hcomplete ↦ .inr ⟨_, hrecords ▸ hr, hcomplete⟩

/-- Nobody but who lowers a function completes it, and then it is explored. -/
theorem serves (h : s.Tidy prog) (hord : prog.Orderly) (hprog : prog.Coherent) (hst : s.Evolves prog mine t) :
    t.Tidy prog := by
  refine h.keeps hst.toKeeps hst.valid fun {f r} hr hcomplete ↦ ?_
  cases hold : s.records.get? f with
  | none => exact .inl ((hst.finished hold hr).explored hord hprog)
  | some r' =>
    have hpersists := hst.persists hold hr (h.valid.record hold).exit.lt_size
    exact .inr ⟨r', rfl, hpersists.complete.symm.trans hcomplete⟩

/-- A function that is just begun is not complete. -/
theorem opens (h : s.Tidy prog) {r : FunctionRecord} (hst : s.Opens prog f r t) (hopen : r.complete = false) :
    t.Tidy prog := by
  refine h.keeps hst.toKeeps hst.valid fun {g r'} hr' hcomplete ↦ ?_
  by_cases hg : g = f
  · rw [hg, hst.opened] at hr'
    rw [← Option.some.inj hr', hopen] at hcomplete
    contradiction
  · exact .inr ⟨r', hst.others hg ▸ hr', hcomplete⟩

theorem initial (prog : Program) (journal : Journal) : Tidy prog { journal } :=
  ⟨.initial prog journal, fun h ↦ by simp at h⟩

end Tidy

section

variable (hscoped : prog.Scoped)

include hscoped

/-- The home of what a use computes. -/
theorem Tame.home_user (h : s.Tame prog v) (huser : prog.kindAt user = some (.instruction inst))
    (hv : v ∈ inst.operands) : s.Explored prog inst.function ∨ prog.Quiet inst.function := by
  obtain ⟨f, hf, hsettled⟩ := h.settled
  have hhome := hscoped.operand huser hv
  simp only [hf, reduceCtorEq, Program.home?_of_kindAt huser, ValueKind.home?, Option.some.injEq, false_or] at hhome
  exact hhome ▸ hsettled

/-- What is computed from a value that is followed is followed too. -/
theorem Followed.result (h : s.Followed prog v) (huser : prog.kindAt user = some (.instruction inst))
    (hv : v ∈ inst.operands) (hidle : prog.Idle user inst) : s.Followed prog user := by
  refine h.imp (fun htame ↦ ?_) fun hexposed ↦ .result hexposed huser hv hidle
  exact ⟨.result htame.carries huser hv hidle, inst.function, Program.home?_of_kindAt huser,
    htame.home_user hscoped huser hv⟩

/-- So is the memory where it is stored. -/
theorem Followed.memory (h : s.Followed prog v) (huser : prog.kindAt user = some (.instruction inst))
    (hv : v ∈ inst.operands)
    (hidle : prog.Idle user inst) (hstore : inst.opcode = .store) (hpointer : inst.operand? 1 = some pointer) :
    s.Followed prog pointer := by
  rcases h with htame | hexposed
  · cases hhome : prog.home? pointer with
    | none => exact .inr (.memory htame.carries huser hv hidle hstore hpointer hhome)
    | some f =>
      have hsame := hscoped.operand huser (List.mem_of_getElem? hpointer)
      simp only [hhome, reduceCtorEq, Program.home?_of_kindAt huser, ValueKind.home?, Option.some.injEq,
        false_or] at hsame
      refine .inl ⟨.memory htame.carries huser hv hidle hstore hpointer, f, hhome, ?_⟩
      exact hsame ▸ htame.home_user hscoped huser hv
  · exact .inr (.stored hexposed huser hv hidle hstore hpointer)

variable (hprog : prog.Coherent)

include hprog

omit hscoped in
/-- And the formal that it is passed to. -/
theorem Followed.formal (h : s.Followed prog v) (hcall : prog.kindAt call = some (.instruction inst))
    (hidle : prog.Idle call inst) (hhands : prog.Hands call v f param) : s.Followed prog param := by
  refine h.imp (fun htame ↦ ?_) fun hexposed ↦ .formal hexposed hhands
  obtain ⟨index, hkind⟩ := hhands.kindAt hprog
  obtain ⟨hf, _, fn, _, -, hfn, hdef, -⟩ := id hhands
  exact ⟨.formal htame.carries hcall hidle hhands, f, Program.home?_of_kindAt hkind,
    .inr (hidle.quiet hcall hf hfn hdef)⟩

/-- A call without a node does not matter, unless it is handed something exposed. -/
theorem Tame.idle (h : s.Tame prog v) (hs : s.Valid prog) (hcall : prog.kindAt call = some (.instruction inst))
    (hv : v ∈ inst.operands) (hop : inst.opcode = .call) (hnew : s.nodes.get? call = none) : prog.Idle call inst := by
  rcases h.home_user hscoped hcall hv with hexplored | hquiet
  · have hjudged := (hexplored call inst hcall rfl).resolve_left fun hne ↦ hne hnew
    exact (hjudged.idle_iff hs.relevance hcall).2 rfl
  · exact hquiet.idle hprog hcall rfl hop

end

end Lowering

end PointsTo
