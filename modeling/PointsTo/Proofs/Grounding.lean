import Mathlib.Data.Finset.Card
import PointsTo.Proofs.Regularity

/-!
# Grounded programs

In a grounded program every id names something, values are defined before they are used, and constants
are not made of themselves.  So nothing is computed from itself, except through phis, and the number of
values that a value is computed from tells how deep a search for its origins can get.
-/

namespace PointsTo

def ValueKind.isPhi : ValueKind → Bool
  | .instruction inst => inst.isPhi
  | _ => false

namespace Program

/-- The value is computed from the other one.  What comes into a phi does not count. -/
def Depends (prog : Program) (v w : ValueId) : Prop := ∃ k, prog.kindAt v = some k ∧ k.isPhi = false ∧ w ∈ k.operands

/-- The constant is made of the other value. -/
def Composed (prog : Program) (v w : ValueId) : Prop :=
  ∃ c, prog.kindAt v = some (.constant c) ∧ w ∈ (ValueKind.constant c).operands

/-- Every id names something. -/
structure InRange (prog : Program) : Prop where
  operand : ∀ {v w k}, prog.kindAt v = some k → w ∈ k.operands → w < prog.values.length
  argument : ∀ {v f index}, prog.kindAt v = some (.argument f index) → f < prog.functions.length
  global : ∀ {v g}, prog.kindAt v = some (.global g) → g < prog.globals.length
  initializer : ∀ {g init}, g ∈ prog.globals → g.initializer = some init → init < prog.values.length

/-- Every id names something, and nothing is computed from itself. -/
structure Founded (prog : Program) : Prop where
  inRange : prog.InRange
  acyclic : ∀ v, ¬Relation.TransGen prog.Depends v v

structure Grounded (prog : Program) : Prop extends prog.Orderly where
  inRange : prog.InRange
  scopes : prog.Scoped
  acyclic : ∀ v, ¬Relation.TransGen prog.Composed v v

open Classical in
/-- The number of values that can be reached from the value along the relation. -/
noncomputable def height (prog : Program) (R : ValueId → ValueId → Prop) (v : ValueId) : Nat :=
  ((Finset.range prog.values.length).filter (Relation.TransGen R v)).card

variable {prog : Program} {v w : ValueId} {f : FuncId} {inst : Instruction} {R : ValueId → ValueId → Prop}

theorem height_lt_height (hR : ∀ v, ¬Relation.TransGen R v v) (h : Relation.TransGen R v w)
    (hw : w < prog.values.length) : prog.height R w < prog.height R v := by
  classical
  refine Finset.card_lt_card ⟨fun x hx ↦ ?_, fun hsubset ↦ ?_⟩
  · obtain ⟨hlt, hx⟩ := Finset.mem_filter.1 hx
    exact Finset.mem_filter.2 ⟨hlt, h.trans hx⟩
  · have hself := hsubset (Finset.mem_filter.2 ⟨Finset.mem_range.2 hw, h⟩)
    exact hR w (Finset.mem_filter.1 hself).2

theorem height_lt_length (hR : ∀ v, ¬Relation.TransGen R v v) (hv : v < prog.values.length) :
    prog.height R v < prog.values.length := by
  classical
  calc prog.height R v
      < (Finset.range prog.values.length).card := by
        refine Finset.card_lt_card ⟨Finset.filter_subset _ _, fun hsubset ↦ ?_⟩
        exact hR v (Finset.mem_filter.1 (hsubset (Finset.mem_range.2 hv))).2
    _ = prog.values.length := Finset.card_range _

theorem Depends.lt (h : prog.Depends v w) (hrange : prog.InRange) : w < prog.values.length := by
  obtain ⟨k, hk, -, hw⟩ := h
  exact hrange.operand hk hw

/-- What values of no function are computed from belongs to no function. -/
theorem Depends.composed (h : prog.Depends v w) (hscoped : prog.Scoped) (hhome : prog.home? v = none) :
    prog.Composed v w ∧ prog.home? w = none := by
  obtain ⟨k, hk, -, hw⟩ := h
  have hwhome := hscoped.operand hk hw
  rw [hhome, or_self] at hwhome
  refine ⟨?_, hwhome⟩
  cases k with
  | constant c => exact ⟨c, hk, hw⟩
  | instruction inst => simp [home?_of_kindAt hk, ValueKind.home?] at hhome
  | _ => simp [ValueKind.operands] at hw

theorem transGen_composed (hscoped : prog.Scoped) (hhome : prog.home? v = none)
    (h : Relation.TransGen prog.Depends v w) : Relation.TransGen prog.Composed v w ∧ prog.home? w = none := by
  induction h with
  | single h =>
    obtain ⟨hcomposed, hhome⟩ := h.composed hscoped hhome
    exact ⟨.single hcomposed, hhome⟩
  | tail _ h ih =>
    obtain ⟨hcomposed, hhome⟩ := h.composed hscoped ih.2
    exact ⟨ih.1.tail hcomposed, hhome⟩

/-- Instructions are computed from instructions by instructions only. -/
theorem Depends.draws (h : prog.Depends v w) (hscoped : prog.Scoped) (hw : prog.kindAt w = some (.instruction inst)) :
    prog.Draws v w ∧ ∃ user, prog.kindAt v = some (.instruction user) := by
  obtain ⟨k, hk, hphi, hmem⟩ := h
  have hhome := hscoped.operand hk hmem
  simp only [home?_of_kindAt hw, home?_of_kindAt hk, ValueKind.home?, reduceCtorEq, false_or] at hhome
  cases k with
  | instruction user => exact ⟨⟨user, inst, hk, hphi, hmem, hw⟩, user, hk⟩
  | argument g index => simp [ValueKind.operands] at hmem
  | _ => simp at hhome

theorem transGen_draws (hscoped : prog.Scoped) (h : Relation.TransGen prog.Depends v w) {inst : Instruction}
    (hw : prog.kindAt w = some (.instruction inst)) : Relation.TransGen prog.Draws v w := by
  induction h generalizing inst with
  | single h => exact .single (h.draws hscoped hw).1
  | tail _ h ih =>
    obtain ⟨hdraws, user, huser⟩ := h.draws hscoped hw
    exact (ih huser).tail hdraws

/-- An instruction does not draw on itself. -/
theorem Orderly.not_draws_self (h : prog.Orderly) (hprog : prog.Coherent) (v : ValueId) :
    ¬Relation.TransGen prog.Draws v v := by
  intro hdraws
  obtain ⟨_, ⟨inst, _, hv, -⟩, -⟩ := Relation.TransGen.head'_iff.1 hdraws
  obtain ⟨-, -, fn, blocks, hfn, hblocks, hmem⟩ := h.visits hprog hv
  obtain ⟨before, after, hsplit⟩ := List.append_of_mem hmem
  obtain ⟨insts, rest, hinsts⟩ := List.append_of_mem (hprog.placed hv)
  rcases h.drawn_before hprog hfn hblocks hsplit hinsts hdraws with ⟨c, hc, hmem⟩ | hmem
  · have hnodup := Function.nodup_reachableBlocks hblocks
    rw [hsplit, List.nodup_append] at hnodup
    exact hnodup.2.2 c hc _ (by simp) (hprog.block_unique hmem (hprog.placed hv)).2
  · have hnodup := hprog.nodup inst.function inst.block
    rw [hinsts, List.nodup_append] at hnodup
    exact hnodup.2.2 v hmem v (by simp) rfl

/-- Nothing is computed from itself. -/
theorem Grounded.not_depends_self (h : prog.Grounded) (hprog : prog.Coherent) (v : ValueId) :
    ¬Relation.TransGen prog.Depends v v := by
  intro hcycle
  cases hhome : prog.home? v with
  | none => exact h.acyclic v (transGen_composed h.scopes hhome hcycle).1
  | some f =>
    obtain ⟨_, ⟨k, hk, -, hmem⟩, -⟩ := Relation.TransGen.head'_iff.1 hcycle
    rw [home?_of_kindAt hk] at hhome
    cases k with
    | instruction inst => exact h.toOrderly.not_draws_self hprog v (transGen_draws h.scopes hcycle hk)
    | argument g index => simp [ValueKind.operands] at hmem
    | _ => simp [ValueKind.home?] at hhome

theorem Grounded.founded (h : prog.Grounded) (hprog : prog.Coherent) : prog.Founded :=
  ⟨h.inRange, h.not_depends_self hprog⟩

/-! ## Checks -/

/-- The ids of the value name something, and constants are made of earlier values. -/
def isGrounded (prog : Program) (v : ValueId) : ValueKind → Bool
  | .argument f _ => f < prog.functions.length
  | .global g => g < prog.globals.length
  | .constant c => ∀ w ∈ (ValueKind.constant c).operands, w < v
  | k => ∀ w ∈ k.operands, w < prog.values.length

theorem inRange_of_check (hvalues : ∀ v < prog.values.length, ∀ k ∈ prog.kindAt v, prog.isGrounded v k = true)
    (hglobals : ∀ g ∈ prog.globals, ∀ init ∈ g.initializer, init < prog.values.length) : prog.InRange := by
  refine ⟨fun {v w k} hv hw ↦ ?_, fun {v f index} hv ↦ ?_, fun {v g} hv ↦ ?_, fun hg hinit ↦ hglobals _ hg _ hinit⟩
  all_goals have hcheck := hvalues v (lt_of_kindAt hv) _ hv
  · cases k with
    | constant c => exact (of_decide_eq_true hcheck w hw).trans (lt_of_kindAt hv)
    | instruction inst => exact of_decide_eq_true hcheck w hw
    | _ => simp [ValueKind.operands] at hw
  · exact of_decide_eq_true hcheck
  · exact of_decide_eq_true hcheck

end Program

end PointsTo
