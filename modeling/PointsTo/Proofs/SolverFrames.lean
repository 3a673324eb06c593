import PointsTo.Proofs.Frames
import PointsTo.Proofs.LinkedCalls

/-!
# What every part of solving does to a lowered program

Solving leaves what was lowered as it is, but for the pointers that nodes gain and the calls that are
linked.  So a relation that holds across the primitive steps of lowering holds across every part of
solving too, in whatever way it ends.
-/

namespace PointsTo

open Stateful

/-- What was lowered moves along the relation. -/
def Analysis.Along {μ : Type} (R : Lowering → Lowering → Prop) (a b : Analysis μ) : Prop := R a.host b.host

instance {μ : Type} {R : Lowering → Lowering → Prop} [IsPreorder Lowering R] : IsPreorder (Analysis μ)
    (Analysis.Along R) where
  refl a := refl_of R a.host
  trans _ _ _ hab hbc := trans_of R hab hbc

namespace Solve

variable {μ α : Type} {prog : Program} {id : NodeId} {n : Node} {a b : Analysis μ} {R : Lowering → Lowering → Prop}
  {fresh : NodeId → Prop} [hR : Lowering.Frame R fresh]

/-- In whatever way the step ends, what was lowered moves along the relation. -/
abbrev Along (R : Lowering → Lowering → Prop) (x : Solve μ Lowering α) : Prop := Follows (Analysis.Along R) x

namespace Along

include hR

/-- A step that leaves alone what was lowered, except for the journal. -/
theorem modify_aside {change : Analysis μ → Analysis μ}
    (h : ∀ a, ∃ journal, (change a).host = { a.host with journal }) :
    Along R (modify change : Solve μ Lowering PUnit) := by
  refine .modify fun a ↦ ?_
  obtain ⟨journal, hjournal⟩ := h a
  unfold Analysis.Along
  rw [hjournal]
  exact hR.aside rfl rfl rfl

instance onSolver (f : Solver μ → Solver μ) : Along R (onSolver f) := modify_aside fun a ↦ ⟨a.host.journal, rfl⟩

instance count (f : SolverStats → SolverStats) : Along R (count f : Solve μ Lowering Unit) := onSolver _

instance setMemory (m : μ) : Along R (setMemory m) := onSolver _

instance note (severity : Severity) (text : Unit → String) :
    Along R (note (Lowering.linker prog) severity text : Solve μ Lowering Unit) :=
  modify_aside fun _ ↦ ⟨_, rfl⟩

instance graph : Along R (graph (Lowering.linker prog) : Solve μ Lowering Graph) := .bind fun _ ↦ .pure _

instance warn (w : Warning) : Along R (warn (Lowering.linker prog) w : Solve μ Lowering Unit) := by
  unfold Solve.warn
  exact inferInstance

instance addOperand (c d : NodeId) :
    Along R (onGraph (Lowering.linker prog) (·.addOperand c d) : Solve μ Lowering Unit) :=
  .modify fun _ ↦ hR.grow .addOperand

instance onHost (x : Lower α) [hx : Follows R x] : Along R (onHost x : Solve μ Lowering α) where
  leaves {a b} h := by
    rcases h with ⟨c, h⟩ | ⟨e, h⟩
    · obtain ⟨host, hhost, rfl⟩ := onHost_eq h
      exact hx.leaves (.inl ⟨c, hhost⟩)
    · unfold Solve.onHost at h
      split at h
      · contradiction
      · rename_i e' host hhost
        obtain ⟨-, rfl⟩ := EStateM.Result.error.inj h
        exact hx.leaves (.inr ⟨e', hhost⟩)

section

variable [Lowering.Begins prog R]

instance linkTarget (p : Pointer) : Along R (linkTarget (Lowering.linker prog) id p : Solve μ Lowering Bool) := by
  have hlink : Follows R ((Lowering.linker prog).link id p.target) := Lower.Moves.linkCall
  refine .bind fun _ ↦ ?_
  split
  · exact .pure _
  · refine .bind fun _ ↦ ?_
    split
    · refine .bind fun g ↦ .bind fun site ↦ ?_
      cases site.paired with
      | none => exact .pure _
      | some ret => exact inferInstance
    · exact .bind fun g ↦ .bind fun target ↦ inferInstance

instance linkTargets : Along R (linkTargets (Lowering.linker prog) id n : Solve μ Lowering Bool) := by
  unfold Solve.linkTargets
  split
  · exact .pure _
  · exact .bind fun _ ↦ .bind fun _ ↦ .foldlM (fun _ _ ↦ inferInstance) _ _

omit hR in
/-- A set that is fixed gains nothing. -/
theorem gained_of_fixed [MemoryModel μ] {g : Graph} {maxOffset : Nat} {m : μ} {e : Effect μ}
    (h : Transfer.effect g maxOffset id n m = .ok e) (hfixed : n.kind.isFixed = true) : e.gained = ∅ := by
  rcases Transfer.effect_cases h with ⟨hkind, -⟩ | ⟨hkind, -⟩ | ⟨hkind, -⟩ | ⟨-, -, hgained⟩ | ⟨-, -, hgained⟩ |
    ⟨-, -, -, hgained⟩
  · rcases hkind with hkind | hkind | hkind | hkind
    all_goals simp [hkind, NodeKind.isFixed] at hfixed
  · simp [hkind, NodeKind.isFixed] at hfixed
  · simp [hkind, NodeKind.isFixed] at hfixed
  · exact hgained
  · exact hgained
  · exact hgained

omit [Lowering.Begins prog R] in
theorem gain {gained : PointerSet} (hn : a.host.graph.nodes[id]? = some n) (hfixed : n.kind.isFixed = true → gained = ∅)
    (h : Leaves (gain (Lowering.linker prog) id n gained) a b) : a.Along R b := by
  unfold Solve.gain at h
  dsimp only at h
  split at h
  · rename_i hgrew
    have hfree : n.kind.isFixed = false := by
      refine Bool.eq_false_iff.2 fun hkind ↦ ?_
      have hnothing : gained ⊆ n.pointsTo := hfixed hkind ▸ fun _ hp ↦ absurd hp OrderedSet.not_mem_empty
      rw [PointerSet.absorb_fst_eq_false.2 hnothing] at hgrew
      contradiction
    have hmore : n.pointsTo ⊆ (n.pointsTo.absorb gained).2 := by
      rw [PointerSet.absorb_snd]
      exact fun p hp ↦ OrderedSet.mem_union.2 (.inl hp)
    rcases leaves_bind_iff.1 h with ⟨e, he⟩ | ⟨_, c, hc, h⟩
    · contradiction
    · obtain rfl := modify_eq_ok_iff.1 hc
      refine trans_of (Analysis.Along R) ?_ (Follows.leaves h)
      exact hR.gain hn hfree hmore
  · exact Follows.leaves h

variable [MemoryModel μ]

theorem act (hn : a.host.graph.nodes[id]? = some n)
    (h : Leaves (act (Lowering.linker prog) a.host.graph id n) a b) : a.Along R b := by
  unfold Solve.act at h
  rcases Follows.leaves_bind (Analysis.Along R) h with hab | ⟨_, _, hget, -, h⟩
  · exact hab
  obtain ⟨rfl, rfl⟩ := get_eq_ok_iff.1 hget
  rcases Follows.leaves_bind (Analysis.Along R) h with hab | ⟨e, _, he, -, h⟩
  · exact hab
  obtain ⟨heffect, rfl⟩ := lift_eq_ok_iff.1 he
  rcases Follows.leaves_bind (Analysis.Along R) h with hab | ⟨_, c, hset, hac, h⟩
  · exact hab
  have hc : c.host.graph.nodes[id]? = some n := by
    rw [setMemory_eq hset]
    exact hn
  refine trans_of (Analysis.Along R) hac ?_
  rcases leaves_bind_iff.1 h with hfail | ⟨grew, d, hgain, h⟩
  · exact gain hc (gained_of_fixed heffect) (.inr hfail)
  · exact trans_of (Analysis.Along R) (gain hc (gained_of_fixed heffect) (.inl ⟨grew, hgain⟩)) (Follows.leaves h)

instance visit : Along R (visit (Lowering.linker prog) id : Solve μ Lowering Bool) where
  leaves {a b} h := by
    rw [visit_eq] at h
    rcases Follows.leaves_bind (Analysis.Along R) h with hab | ⟨g, _, hg, -, h⟩
    · exact hab
    obtain ⟨rfl, rfl⟩ := graph_eq hg
    rcases Follows.leaves_bind (Analysis.Along R) h with hab | ⟨_, _, hget, -, h⟩
    · exact hab
    obtain ⟨rfl, rfl⟩ := get_eq_ok_iff.1 hget
    rcases Follows.leaves_bind (Analysis.Along R) h with hab | ⟨m, _, henter, -, h⟩
    · exact hab
    obtain ⟨-, rfl⟩ := lift_eq_ok_iff.1 henter
    rcases Follows.leaves_bind (Analysis.Along R) h with hab | ⟨_, c, hset, hac, h⟩
    · exact hab
    have hc : c.host = a.host := by rw [setMemory_eq hset]
    refine trans_of (Analysis.Along R) hac ?_
    rcases Follows.leaves_bind (Analysis.Along R) h with hab | ⟨n, _, hlookup, -, h⟩
    · exact hab
    obtain ⟨hnode, rfl⟩ := lift_eq_ok_iff.1 hlookup
    have hn : c.host.graph.nodes[id]? = some n := hc ▸ Graph.node_eq_ok_iff.1 hnode
    rcases Follows.leaves_bind (Analysis.Along R) h with hab | ⟨strays, _, hstrays, -, h⟩
    · exact hab
    obtain ⟨-, rfl⟩ := lift_eq_ok_iff.1 hstrays
    rw [← hc] at h
    split at h
    · rcases Follows.leaves_bind (Analysis.Along R) h with hab | ⟨_, d, hwarn, had, h⟩
      · exact hab
      have hd : d.host.graph = c.host.graph := (warn_alike (Lowering.linker_lawful prog) hwarn).graph
      have hact : Leaves (Solve.act (Lowering.linker prog) d.host.graph id n) d b := by rwa [hd]
      exact trans_of (Analysis.Along R) had (act (hd ▸ hn) hact)
    · exact act hn h

instance advance (r : Round) : Along R (advance (Lowering.linker prog) r : Solve μ Lowering (Option Round)) := by
  unfold Solve.advance
  split
  · exact .pure _
  · refine .bind fun g ↦ .bind fun changed ↦ .bind fun _ ↦ .bind fun g ↦ ?_
    exact inferInstance

instance drain (budget : Nat) (r : Round) : Along R
    (drain (Lowering.linker prog) budget r : Solve μ Lowering Bool) := by
  induction budget generalizing r with
  | zero => exact .throw _
  | succ budget ih =>
    refine .bind fun r? ↦ ?_
    cases r? with
    | none => exact .pure _
    | some r => exact ih r

instance round (budget : Nat) : Along R (round (Lowering.linker prog) budget : Solve μ Lowering Bool) :=
  .bind fun _ ↦ .bind fun _ ↦ .bind fun _ ↦ .bind fun _ ↦ .bind fun _ ↦ .pure _

instance rounds (budget more : Nat) : Along R (rounds (Lowering.linker prog) budget more : Solve μ Lowering Unit) := by
  induction more with
  | zero => exact .throw _
  | succ more ih =>
    refine .bind fun changed ↦ ?_
    exact inferInstance

instance run (budget : Nat) : Along R (run (Lowering.linker prog) budget : Solve μ Lowering SolverStats) :=
  .bind fun _ ↦ .bind fun _ ↦ .bind fun _ ↦ .pure _

end

end Along

end Solve

namespace Analysis

variable {μ : Type} [MemoryModel μ] {prog : Program} {R : Lowering → Lowering → Prop} {fresh : NodeId → Prop}
  [Lowering.Frame R fresh] [Lowering.Begins prog R]

instance along_run (options : Options) (budget : Nat) :
    Solve.Along R (run prog options budget : Solve μ Lowering SolverStats) := by
  refine .bind fun s ↦ ?_
  split
  · exact inferInstance
  · exact inferInstance

instance along_round (budget : Nat) : Solve.Along R (round prog budget : Solve μ Lowering Bool) :=
  Solve.Along.round budget

end Analysis

end PointsTo
