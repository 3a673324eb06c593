import PointsTo.CallGraph

/-!
# Call sites of a call graph

A call graph has one edge per caller and callee, which lists each call site once.  Recording a call
adds its site to one edge and leaves the other edges alone.
-/

namespace PointsTo.CallGraph

variable {cg : CallGraph} {caller callee h f : FuncId} {site other : CallSite}

theorem joins_iff {e : CallEdge} : e.joins caller callee = true ↔ e.caller = caller ∧ e.callee = callee := by
  simp [CallEdge.joins]

theorem joins_addSite (e : CallEdge) : (e.addSite site).joins caller callee = e.joins caller callee := by
  unfold CallEdge.addSite
  split <;> rfl

theorem edge?_addFunction : (cg.addFunction f).edge? caller callee = cg.edge? caller callee := by
  unfold addFunction
  split <;> rfl

theorem sites_addFunction : (cg.addFunction f).sites caller callee = cg.sites caller callee := by
  rw [sites, sites, edge?_addFunction]

/-- Recording a call changes the edge of its caller and callee only. -/
theorem edge?_addCall : (cg.addCall caller callee site).edge? h f =
    if h = caller ∧ f = callee then
      some (((cg.edge? h f).map (·.addSite site)).getD ⟨caller, callee, [site]⟩)
    else cg.edge? h f := by
  -- Both functions are enlisted first, which leaves the edges as they are.
  have hedges : ((cg.addFunction caller).addFunction callee).edges = cg.edges := by
    unfold addFunction
    split <;> split <;> rfl
  have hedge : ((cg.addFunction caller).addFunction callee).edge? caller callee = cg.edge? caller callee := by
    rw [edge?_addFunction, edge?_addFunction]
  unfold addCall
  simp only [hedge]
  split
  · rename_i e he
    simp only [edge?, hedges, List.find?_map]
    have hsame : ((fun e : CallEdge ↦ e.joins h f) ∘
        fun e : CallEdge ↦ if e.joins caller callee then e.addSite site else e) = fun e ↦ e.joins h f := by
      funext e
      simp only [Function.comp]
      split
      · exact joins_addSite e
      · rfl
    rw [hsame]
    split
    · rename_i hpair
      obtain ⟨rfl, rfl⟩ := hpair
      have hfound : cg.edges.find? (·.joins h f) = some e := he
      simp [hfound, List.find?_some hfound]
    · rename_i hpair
      cases hfound : cg.edges.find? (·.joins h f) with
      | none => rfl
      | some e' =>
        have hjoins := List.find?_some hfound
        simp only [joins_iff] at hjoins
        have hnot : e'.joins caller callee = false := by
          rw [Bool.eq_false_iff]
          intro hj
          obtain ⟨hcaller, hcallee⟩ := joins_iff.1 hj
          exact hpair ⟨hjoins.1.symm.trans hcaller, hjoins.2.symm.trans hcallee⟩
        simp [hnot]
  · rename_i hnone
    have hnone : cg.edges.find? (·.joins caller callee) = none := hnone
    simp only [edge?, hedges, List.find?_append]
    split
    · rename_i hpair
      obtain ⟨rfl, rfl⟩ := hpair
      have hnew : (⟨h, f, [site]⟩ : CallEdge).joins h f = true := joins_iff.2 ⟨rfl, rfl⟩
      simp [hnone, hnew]
    · rename_i hpair
      have hnot : (⟨caller, callee, [site]⟩ : CallEdge).joins h f = false := by
        rw [Bool.eq_false_iff]
        intro hj
        obtain ⟨hcaller, hcallee⟩ := joins_iff.1 hj
        exact hpair ⟨hcaller.symm, hcallee.symm⟩
      simp [hnot]

/-- The sites of the changed edge are the old ones and the new one. -/
theorem sites_addCall : (cg.addCall caller callee site).sites h f =
    if h = caller ∧ f = callee ∧ site ∉ cg.sites h f then cg.sites h f ++ [site] else cg.sites h f := by
  unfold sites
  rw [edge?_addCall]
  by_cases hpair : h = caller ∧ f = callee
  · rw [if_pos hpair]
    cases hedge : cg.edge? h f with
    | none => simp [hpair]
    | some e =>
      by_cases hold : site ∈ e.sites
      · simp [CallEdge.addSite, hold]
      · simp [CallEdge.addSite, hold, hpair]
  · rw [if_neg hpair, if_neg fun hnew ↦ hpair ⟨hnew.1, hnew.2.1⟩]

theorem mem_sites_addCall : other ∈ (cg.addCall caller callee site).sites h f ↔
    other ∈ cg.sites h f ∨ (h = caller ∧ f = callee ∧ other = site) := by
  rw [sites_addCall]
  split
  · rename_i hnew
    simp [hnew]
  · rename_i hnew
    constructor
    · exact .inl
    · rintro (hother | ⟨hh, hf, rfl⟩)
      · exact hother
      · exact Decidable.byContradiction fun hnot ↦ hnew ⟨hh, hf, hnot⟩

theorem nodup_sites_addCall (hnodup : (cg.sites h f).Nodup) :
    ((cg.addCall caller callee site).sites h f).Nodup := by
  rw [sites_addCall]
  split
  · rename_i hnew
    rw [List.nodup_append]
    refine ⟨hnodup, by simp, fun x hx y hy ↦ ?_⟩
    rintro rfl
    exact hnew.2.2 (List.mem_singleton.1 hy ▸ hx)
  · exact hnodup

end PointsTo.CallGraph
