import PointsTo.Proofs.Building

/-!
# Incoming values of phis

Once all blocks of a function are visited, its phis get their incoming values, block by block.  A phi
of integers has a node by then if an address is made in a visited block of the phi, or of what is computed
from it by casts and with constants.  A phi of integers that is first asked for while another one gets its
incoming values has none; if its own block is behind already, its incoming values never reach it.
-/

namespace PointsTo

open Stateful

namespace Lower

open Command

variable {prog : Program} {entry : String} {journal : Journal} {root : NodeId} {t : Lowering} {f : FuncId}
  {v w : ValueId} {inst : Instruction}

/-- In a built program all incoming values of a phi reach its node if the phi is a pointer, or if an address is
made of it or of what is computed from it. -/
theorem incoming_reach_phi (hprog : prog.Coherent) (hscoped : prog.Scoped)
    (hbuild : build prog entry { journal } = .ok root t) (hf : t.records.get? f ≠ none)
    (hv : prog.Visits f v inst) (hphi : inst.isPhi = true) (haddresses : prog.Addresses f v) :
    ∃ phi, t.nodes.get? v = some phi ∧ ∀ w ∈ inst.operands, prog.Arrives w → t.Gets prog w phi := by
  obtain ⟨r, hr⟩ := Option.ne_none_iff_exists'.1 hf
  exact ((intact_of_build hprog hbuild).finished hr).phis hscoped hv hphi haddresses

/-- A phi of integers in a loop, carrying the address of a slot that is taken before the loop.  The address moves on
by a word each time, and it is used after the move. -/
def ring : Program := .assembled
  [function "main" .void [] false, block 0, block 0, successor 0 0 1, successor 0 1 1,
    alloca 0 0 (.int 64), cast 0 0 .ptrToInt 1 (.int 64), constant (.int 8) (.int 64), phi 0 1 [2, 5] (.int 64),
    binary 0 1 .add 4 3 (.int 64), cast 0 1 .intToPtr 5 .ptr]

theorem incoming_reach_phi_ring : ∃ inst root t, build ring "main" {} = .ok root t ∧ t.records.get? 0 ≠ none ∧
    ring.Visits 0 4 inst ∧ inst.isPhi = true ∧ inst.operands = [2, 5] ∧
    ∃ phi, t.nodes.get? 4 = some phi ∧ t.Gets ring 2 phi ∧ t.Gets ring 5 phi := by
  have hbuild : succeeds (fun _ t ↦ (t.records.get? 0).isSome) (build ring "main" {}) = true := by
    decide +kernel
  obtain ⟨root, t, hbuild, hf⟩ := ok_of_succeeds hbuild
  have hf : t.records.get? 0 ≠ none := Option.isSome_iff_ne_none.1 hf
  have hreaches (b : BlockId) (hb : b ∈ [0, 1]) : ring.Reaches 0 b := ⟨_, [0, 1], rfl, rfl, hb⟩
  have hv : ring.Visits 0 4 ⟨.phi, [2, 5], 0, 1⟩ := ⟨rfl, rfl, hreaches 1 (by decide)⟩
  have hstems : ring.Stems 5 4 := ⟨⟨.binary .add, [4, 3], 0, 1⟩, rfl, rfl, .inr ⟨.add, 3, 8, rfl, rfl, .inl rfl⟩⟩
  have haddresses : ring.Addresses 0 4 :=
    .inr ⟨6, ⟨.cast .intToPtr, [5], 0, 1⟩, 5, ⟨rfl, rfl, hreaches 1 (by decide)⟩, rfl, rfl, .single hstems⟩
  obtain ⟨phi, hphi, hgets⟩ := incoming_reach_phi (Program.coherent_assembled _) (by decide) hbuild hf hv rfl haddresses
  refine ⟨_, root, t, hbuild, hf, hv, rfl, rfl, phi, hphi, hgets 2 (by simp) ?_, hgets 5 (by simp) ?_⟩
  · rintro inst ⟨⟩
    exact hreaches 0 (by decide)
  · rintro inst ⟨⟩
    exact hreaches 1 (by decide)

/-- One phi of integers after the other; an address is made of the second one. -/
def relayed : Program := .assembled
  [function "main" .void [] false, block 0, block 0, block 0, successor 0 0 1, successor 0 1 2,
    alloca 0 0 (.int 64), cast 0 0 .ptrToInt 1 (.int 64), phi 0 1 [2] (.int 64), phi 0 2 [3] (.int 64),
    cast 0 2 .intToPtr 4 .ptr, ret 0 2 none]

/-- The first phi is asked for when its block is behind. -/
theorem incoming_lost : ∃ inst root t, relayed.Scoped ∧ build relayed "main" {} = .ok root t ∧
    relayed.Visits 0 3 inst ∧ inst.isPhi = true ∧ 2 ∈ inst.operands ∧ relayed.Arrives 2 ∧ t.nodes.get? 2 ≠ none ∧
    ∃ phi, t.nodes.get? 3 = some phi ∧ ¬t.Gets relayed 2 phi := by
  have hbuild : succeeds (fun _ t ↦ decide (t.nodes.get? 2 = some 5 ∧ t.nodes.get? 3 = some 9 ∧
      (t.graph.nodes[9]?).map (·.operands) = some [])) (build relayed "main" {}) = true := by
    decide +kernel
  obtain ⟨root, t, hbuild, htest⟩ := ok_of_succeeds hbuild
  obtain ⟨hsource, hphi, hops⟩ := of_decide_eq_true htest
  have hreaches (b : BlockId) (hb : b ∈ [0, 1, 2]) : relayed.Reaches 0 b := ⟨_, [0, 1, 2], rfl, rfl, hb⟩
  refine ⟨⟨.phi, [2], 0, 1⟩, root, t, by decide, hbuild, ⟨rfl, rfl, hreaches 1 (by decide)⟩, rfl, by simp, ?_,
    by simp [hsource], 9, hphi, ?_⟩
  · rintro inst ⟨⟩
    exact hreaches 0 (by decide)
  · rintro ⟨n, hn, op, hop, -⟩
    rw [hn, Option.map_some, Option.some.injEq] at hops
    simp [hops] at hop

end Lower

end PointsTo
