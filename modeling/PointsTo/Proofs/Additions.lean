import PointsTo.Proofs.Failures
import PointsTo.Proofs.SolverFrames

/-!
# Solving only adds

A round of solving adds operands, users, control edges and pointers to the nodes that are there, and
new nodes behind them.  It takes nothing away and changes nothing else, even if it fails because a
function that turns out to be called cannot be lowered.  Nodes whose set is fixed keep it; so a node
that stands for an object points to that object alone in every state that an analysis can come to.
-/

namespace PointsTo

open Stateful

namespace Lowering

variable {k : Nat}

theorem Retained.of_records {s : Lowering} {records : OrderedMap FuncId FunctionRecord}
    (h : ∀ f, s.records.get? f ≠ none → records.get? f ≠ none) : s.Retained k { s with records } :=
  ⟨(Graph.Extends.refl s.graph).retains, h, fun hg ↦ hg⟩

instance : Frame (Retains k) (k ≤ ·) where
  aside hgraph hrecords hglobals := retains_of_graph_eq hgraph (fun _ hf ↦ hrecords ▸ hf) fun hg ↦ hglobals ▸ hg
  grow hg _ := ⟨hg.retains, fun _ hf ↦ hf, fun hg ↦ hg⟩
  edit hid hedits _ :=
    ⟨.update (fun n _ ↦ (hedits n).matches) fun hlt ↦ absurd hid (not_le.2 hlt), fun _ hf ↦ hf, fun hg ↦ hg⟩
  gain {s id n set} hn hfree hmore _ := by
    refine ⟨.update (fun m hm ↦ ?_) fun _ m hm ↦ ?_, fun _ hf ↦ hf, fun hg ↦ hg⟩
    all_goals obtain rfl := Option.mem_unique hn hm
    · exact ⟨rfl, fun hkind ↦ absurd hkind (by simp [hfree])⟩
    · have hfixed (hkind : n.kind.isFixed = true) : set = n.pointsTo := absurd hkind (by simp [hfree])
      exact ⟨{ Node.Retains.refl n with pointsTo := hmore, fixed := hfixed }, fun hz ↦ hz⟩
  alter _ _ := .of_records fun _ hf ↦ OrderedMap.get?_modify_ne_none hf
  returned _ _ _ := .of_records fun _ hf ↦ OrderedMap.get?_modify_ne_none hf
  bind_fresh {α β x next} ids hx hfresh hnext := by
    refine ⟨fun {s t} h hs ↦ ?_⟩
    rcases Follows.leaves_bind (Retains k) h with hst | ⟨a, u, ha, hsu, h⟩
    · exact hst hs
    · have hnext := hnext a fun id hid ↦ hs.trans (hfresh s a u ha id hid)
      exact trans_of (Retains k) hsu (hnext.leaves h) hs

instance {prog : Program} : Begins prog (Retains k) where
  chained := retains_of_graph_eq rfl (fun _ hf ↦ hf) fun _ ↦ by simp
  begins {f fn s t} _ _ h := by
    have hentry : Follows (Retains k) (Lower.create (·.create { kind := .entry })) := by
      refine ⟨fun {s t} h ↦ ?_⟩
      rcases h with ⟨id, h⟩ | ⟨e, h⟩
      · obtain ⟨-, rfl⟩ := Lower.create_eq_ok_iff.1 h
        exact fun _ ↦ ⟨.create fun hobject ↦ absurd hobject (by simp [NodeKind.isObject]), fun _ hf ↦ hf, fun hg ↦ hg⟩
      · contradiction
    have hexit : Graph.Makes (·.create { kind := .noop }) := .create rfl rfl
    have hopen : Follows (Retains k) (Lower.openRecord prog f fn) := by
      refine .bind fun entry ↦ .bind fun exit ↦ .bind fun formals ↦ .andThen (.modify fun s _ ↦ ?_) fun _ ↦ .pure _
      exact ⟨(Graph.Extends.refl s.graph).retains, fun f' hf ↦ OrderedMap.get?_insert_ne_none hf, fun hg ↦ hg⟩
    exact hopen.leaves h

end Lowering

/-- The later analysis retains what the earlier one has lowered. -/
abbrev Analysis.Retains {μ : Type} (k : Nat) (a b : Analysis μ) : Prop := a.Along (Lowering.Retains k) b

variable {μ : Type} [MemoryModel μ] {k : Nat} {prog : Program} {a b : Analysis μ}

namespace Solve.Retaining

theorem round (budget : Nat) : Follows (Analysis.Retains k)
    (round (Lowering.linker prog) budget : Solve μ Lowering Bool) :=
  Along.round budget

theorem run (budget : Nat) : Follows (Analysis.Retains k)
    (run (Lowering.linker prog) budget : Solve μ Lowering SolverStats) :=
  Along.run budget

end Solve.Retaining

namespace Analysis

theorem retaining_run (options : Options) (budget : Nat) :
    Follows (Analysis.Retains k) (run prog options budget : Solve μ Lowering SolverStats) := along_run options budget

/-- The states that an analysis of a program can come to: it is built, run, taken through single rounds
and asked to link calls, in any order and whether these succeed or not. -/
inductive Reachable (prog : Program) : Analysis μ → Prop
  | fresh (options : Options) (journal : Journal) : Reachable prog (fresh options journal)
  | run {a b : Analysis μ} (options : Options) (budget : Nat) (ha : Reachable prog a)
      (h : Leaves (run prog options budget) a b) : Reachable prog b
  | round {a b : Analysis μ} (budget : Nat) (ha : Reachable prog a) (h : Leaves (round prog budget) a b) :
      Reachable prog b
  | build {a b : Analysis μ} (entry : String) (ha : Reachable prog a)
      (h : Leaves (Solve.onHost (Lower.build prog entry)) a b) : Reachable prog b
  | link {a b : Analysis μ} (callSite function : NodeId) (ha : Reachable prog a)
      (h : Leaves (Solve.onHost (Lower.linkCall prog callSite function)) a b) : Reachable prog b

theorem Reachable.anchored (ha : Reachable prog a) : a.host.graph.Anchored := by
  -- No bound is needed here: no node loses its kind or its fixed set.
  have hstep {a b : Analysis μ} {α : Type} {x : Solve μ Lowering α} [hx : Solve.Along (Lowering.Retains 0) x]
      (h : Leaves x a b) (ha : a.host.graph.Anchored) : b.host.graph.Anchored :=
    ha.of_retains (hx.leaves h (Nat.zero_le _)).graph
  induction ha with
  | fresh options journal => exact .sentinels
  | run options budget _ h ih => exact hstep h ih
  | round budget _ h ih => exact hstep h ih
  | build entry _ h ih => exact hstep h ih
  | link callSite function _ h ih => exact hstep h ih

/-- In every state that an analysis can come to, nodes that stand for objects point to themselves alone,
so no two of them share a pointer; and a round, in whatever way it ends, retains every node. -/
theorem round_only_adds (ha : Reachable prog a) :
    (∀ (budget : Nat) (b : Analysis μ), Leaves (round prog budget) a b → ∀ (id : NodeId) (n : Node),
      a.host.graph.nodes[id]? = some n → ∃ m, b.host.graph.nodes[id]? = some m ∧ n.Retains m) ∧
    (∀ (id : NodeId) (n : Node), a.host.graph.nodes[id]? = some n → n.kind.isAllocation = true ∨ n.kind = .function →
      n.pointsTo = .singleton ⟨id, .zero⟩) ∧
    ∀ (i j : NodeId) (n m : Node), a.host.graph.nodes[i]? = some n → a.host.graph.nodes[j]? = some m →
      n.kind.isAllocation = true → m.kind.isAllocation = true → i ≠ j → ∀ p ∈ n.pointsTo, p ∉ m.pointsTo := by
  have hobject {id : NodeId} {n : Node} (hn : a.host.graph.nodes[id]? = some n)
      (hkind : n.kind.isAllocation = true ∨ n.kind = .function) : n.pointsTo = .singleton ⟨id, .zero⟩ := by
    refine ha.anchored id n hn ?_
    rcases hkind with hkind | hkind
    · cases hk : n.kind <;> simp_all [NodeKind.isAllocation, NodeKind.isObject]
    · rw [hkind]
      rfl
  refine ⟨fun budget b h id n hn ↦ ?_, fun id n hn hkind ↦ hobject hn hkind, fun i j n m hn hm hi hj hne p hp hp' ↦ ?_⟩
  · have hretains : Analysis.Retains a.host.graph.size a b := (Solve.Retaining.round budget).leaves h
    obtain ⟨m, hm, -, hold⟩ := (hretains le_rfl).graph.node hn
    exact ⟨m, hm, hold (Graph.lt_size_of_node hn)⟩
  · rw [hobject hn (.inl hi), OrderedSet.mem_singleton] at hp
    rw [hobject hm (.inl hj), OrderedSet.mem_singleton, hp] at hp'
    exact hne (congrArg Pointer.target hp')

open Command

/-- A call through a pointer to a function that cannot be lowered. -/
def stuck : Program := .assembled
  [function "main" .void [] false, function "g" .void [] false, constant (.int 1) (.int 64), block 0, block 1,
    alloca 0 0 (.int 64), select 0 0 2 1 1 .ptr, call 0 0 4 [] .void, ret 0 0 none,
    instruction 1 0 (.other "foo") [] .ptr, ret 1 0 none]

theorem round_only_adds_stuck : ∃ a b : Analysis SharedMemory, ∃ e n m, Reachable stuck a ∧
    round stuck 40 a = .error e b ∧ a.host.graph.nodes[6]? = some n ∧ b.host.graph.nodes[6]? = some m ∧ n.Retains m ∧
      n.pointsTo = ∅ ∧ m.pointsTo = .singleton ⟨5, .zero⟩ ∧ b.host.graph.size = 14 := by
  let start : Analysis SharedMemory := fresh {} {}
  have hbuild : Stateful.succeeds (fun _ a ↦ decide ((a.host.graph.nodes[6]?).map (·.pointsTo) = some ∅))
      (Solve.onHost (Lower.build stuck "main") start) = true := by decide +kernel
  have hround : Stateful.fails (fun _ b ↦ decide (
      (b.host.graph.nodes[6]?).map (·.pointsTo) = some (.singleton ⟨5, .zero⟩) ∧
      b.host.graph.size = 14)) ((do let _ ← Solve.onHost (Lower.build stuck "main"); round stuck 40) start) = true := by
    decide +kernel
  obtain ⟨root, a, hbuild, hn⟩ := ok_of_succeeds hbuild
  obtain ⟨e, b, hround, htest⟩ := error_of_fails hround
  obtain ⟨hm, hsize⟩ := of_decide_eq_true htest
  obtain ⟨n, hn, hempty⟩ := Option.map_eq_some_iff.1 (of_decide_eq_true hn)
  obtain ⟨m, hm, hset⟩ := Option.map_eq_some_iff.1 hm
  have hround : round stuck 40 a = .error e b := by
    rcases bind_eq_error_iff.1 hround with hfail | ⟨_, a', ha', hround⟩
    · exact absurd (hbuild.symm.trans hfail) (by simp)
    · obtain ⟨-, rfl⟩ := EStateM.Result.ok.inj (hbuild.symm.trans ha')
      exact hround
  have hreach : Reachable stuck a := .build "main" (.fresh {} {}) (.inl ⟨root, hbuild⟩)
  obtain ⟨m', hm', hretains⟩ := (round_only_adds hreach).1 40 b (.inr ⟨e, hround⟩) 6 n hn
  obtain rfl := Option.mem_unique hm' hm
  exact ⟨a, b, e, n, m', hreach, hround, hn, hm, hretains, hempty, hset, hsize⟩

end Analysis

end PointsTo
