import Mathlib.Order.Bounds.Basic
import PointsTo.Lowering.Body
import PointsTo.Proofs.Arrivals
import PointsTo.Proofs.Dominance
import PointsTo.Proofs.Edges
import PointsTo.Proofs.Primitives

/-!
# Near blocks come first

Breadth-first search visits vertices in the order of their distance from the root: the queue holds vertices
of some distance, followed by vertices that are one step farther away.  A block that control passes on
every way to another block is visited before it, and so are its instructions.
-/

namespace PointsTo

namespace BreadthFirst

variable {next : Nat → List Nat} {root k m n v w : Nat} {front back seen : List Nat} {budget : Nat}

/-- The vertex is reached from the root in that many steps. -/
inductive Walk (next : Nat → List Nat) (root : Nat) : (steps vertex : Nat) → Prop
  | root : Walk next root 0 root
  | step {n v w : Nat} : Walk next root n v → w ∈ next v → Walk next root (n + 1) w

/-- The fewest steps in which the vertex is reached. -/
def Distance (next : Nat → List Nat) (root v n : Nat) : Prop := IsLeast {n | Walk next root n v} n

theorem Distance.unique (h : Distance next root v m) (h' : Distance next root v n) : m = n := IsLeast.unique h h'

theorem Walk.distance (h : Walk next root n v) : ∃ m ≤ n, Distance next root v m := by
  classical
  have hex : ∃ n, Walk next root n v := ⟨n, h⟩
  exact ⟨Nat.find hex, Nat.find_min' hex h, Nat.find_spec hex, fun m hm ↦ Nat.find_min' hex hm⟩

/-- The last step of a shortest walk starts one step nearer. -/
theorem Distance.last (h : Distance next root w (n + 1)) : ∃ v, Distance next root v n ∧ w ∈ next v := by
  obtain ⟨hwalk, hleast⟩ := h
  cases hwalk with
  | step hv hw =>
    refine ⟨_, ⟨hv, fun m hm ↦ ?_⟩, hw⟩
    exact Nat.le_of_succ_le_succ (hleast (Walk.step hm hw))

/-- The queue holds the vertices at distance `k` that are not visited yet, and behind them those at
distance `k + 1` that were seen.  Everything nearer was seen. -/
structure Layered (next : Nat → List Nat) (root k : Nat) (front back seen : List Nat) : Prop where
  now : ∀ v ∈ front, Distance next root v k
  later : ∀ v ∈ back, Distance next root v (k + 1)
  near : ∀ {v n}, Distance next root v n → n ≤ k → v ∈ seen
  far : ∀ {v n}, v ∈ seen → Distance next root v n → n ≤ k + 1
  queued : ∀ {v}, v ∈ seen → Distance next root v (k + 1) → v ∈ back
  due : ∀ {v}, Distance next root v (k + 1) → v ∈ seen ∨ ∃ u ∈ front, v ∈ next u

namespace Layered

theorem initial (next : Nat → List Nat) (root : Nat) : Layered next root 0 [root] [] [root] := by
  have hroot : Distance next root root 0 := ⟨.root, fun _ _ ↦ Nat.zero_le _⟩
  have hzero {v : Nat} (h : Distance next root v 0) : v = root := by
    obtain ⟨hwalk, -⟩ := h
    cases hwalk with
    | root => rfl
  constructor
  · intro v hv
    rwa [List.mem_singleton.1 hv]
  · simp
  · intro v n hv hn
    obtain rfl := Nat.le_zero.1 hn
    simp [hzero hv]
  · intro v n hv hn
    rw [List.mem_singleton.1 hv] at hn
    simp [hn.unique hroot]
  · intro v hv hn
    rw [List.mem_singleton.1 hv] at hn
    exact absurd (hn.unique hroot) (by simp)
  · intro v hv
    obtain ⟨u, hu, hnext⟩ := hv.last
    exact .inr ⟨u, by simp [hzero hu], hnext⟩

/-- What is new next to a vertex is one step farther away. -/
theorem visit (h : Layered next root k (v :: front) back seen) : ∃ new,
    (discover (next v) (front ++ back) seen).1 = front ++ (back ++ new) ∧
      Layered next root k front (back ++ new) (discover (next v) (front ++ back) seen).2 := by
  obtain ⟨new, hqueue, -, hnew, hseen⟩ := discover_spec (next v) (front ++ back) seen
  have hdistance {w : Nat} (hw : w ∈ new) : Distance next root w (k + 1) := by
    obtain ⟨hnext, hunseen⟩ := (hnew w).1 hw
    have hwalk : Walk next root k v := (h.now v (by simp)).1
    obtain ⟨m, hm, hdist⟩ := (hwalk.step hnext).distance
    rcases Nat.le_succ_iff.1 hm with hle | rfl
    · exact absurd (h.near hdist hle) hunseen
    · exact hdist
  refine ⟨new, by rw [hqueue, List.append_assoc], ?_, ?_, ?_, ?_, ?_, ?_⟩
  · exact fun w hw ↦ h.now w (List.mem_cons_of_mem _ hw)
  · intro w hw
    rcases List.mem_append.1 hw with hw | hw
    · exact h.later w hw
    · exact hdistance hw
  · exact fun hw hn ↦ (hseen _).2 (.inl (h.near hw hn))
  · intro w n hw hn
    rcases (hseen w).1 hw with hw | hw
    · exact h.far hw hn
    · rw [hn.unique (hdistance hw)]
  · intro w hw hn
    rw [List.mem_append]
    exact ((hseen w).1 hw).imp_left fun hw ↦ h.queued hw hn
  · intro w hw
    rcases h.due hw with hold | ⟨u, hu, hnext⟩
    · exact .inl ((hseen w).2 (.inl hold))
    · rcases List.mem_cons.1 hu with rfl | hu
      · refine .inl ((hseen w).2 ?_)
        by_cases hold : w ∈ seen
        · exact .inl hold
        · exact .inr ((hnew w).2 ⟨hnext, hold⟩)
      · exact .inr ⟨u, hu, hnext⟩

end Layered

/-- Distances never decrease along the list, and are at least `k`. -/
structure Ascends (next : Nat → List Nat) (root k : Nat) (vs : List Nat) : Prop where
  sorted : vs.Pairwise fun v w ↦ ∀ m n, Distance next root v m → Distance next root w n → m ≤ n
  least : ∀ v ∈ vs, ∀ n, Distance next root v n → k ≤ n

theorem Ascends.cons {vs : List Nat} (h : Ascends next root k vs) (hv : Distance next root v k) :
    Ascends next root k (v :: vs) where
  sorted := List.pairwise_cons.2 ⟨fun w hw _ n hm hn ↦ hm.unique hv ▸ h.least w hw n hn, h.sorted⟩
  least := List.forall_mem_cons.2 ⟨fun _ hn ↦ (hn.unique hv).ge, h.least⟩

end BreadthFirst

namespace Function

variable {fn : Function} {blocks past : List BlockId} {b d : BlockId} {n : Nat}

/-- The fewest steps of control from the entry block to the block. -/
def Distance (fn : Function) (b : BlockId) (n : Nat) : Prop :=
  IsLeast {n | ∃ past, fn.Arrives past b ∧ past.length = n} n

theorem mem_reachableBlocks_iff (h : fn.reachableBlocks = .ok blocks) (hdef : fn.isDeclaration = false) :
    b ∈ blocks ↔ ∃ past, fn.Arrives past b := by
  constructor
  · intro hb
    obtain ⟨before, after, hsplit⟩ := List.append_of_mem hb
    obtain ⟨past, harrives, -⟩ := arrives_of_visited h hsplit
    exact ⟨past, harrives⟩
  · rintro ⟨past, harrives⟩
    exact harrives.mem h hdef

end Function

/-! ## The order of instructions -/

/-- Between two instructions only control edges are added, and it is noted what was placed where. -/
structure Lowering.Rewires (s t : Lowering) : Prop where
  nodes : t.nodes = s.nodes
  records : t.records = s.records
  graph : s.graph.Rewired t.graph

theorem Lowering.Rewires.refl (s : Lowering) : s.Rewires s := ⟨rfl, rfl, .refl _⟩

theorem Lowering.Rewires.trans {s t u : Lowering} (h : s.Rewires t) (h' : t.Rewires u) : s.Rewires u :=
  ⟨h'.nodes.trans h.nodes, h'.records.trans h.records, h.graph.trans h'.graph⟩

namespace Lower

open Stateful

variable {prog : Program} {ask : Provider} {s t u : Lowering} {f : FuncId} {b : BlockId} {vs ws : List ValueId}

/-- The instructions are lowered one after the other. -/
inductive Proceeds (prog : Program) (ask : Provider) : List ValueId → Lowering → Lowering → Prop
  | done {s t : Lowering} : s.Rewires t → Proceeds prog ask [] s t
  | next {v : ValueId} {vs : List ValueId} {span? : Option Span} {s s' t t' : Lowering} : s.Rewires s' →
      lowerInBlock prog ask v s' = .ok span? t' → Proceeds prog ask vs t' t → Proceeds prog ask (v :: vs) s t

namespace Proceeds

theorem rewires (h : s.Rewires t) (h' : Proceeds prog ask vs t u) : Proceeds prog ask vs s u := by
  cases h' with
  | done hrewires => exact .done (h.trans hrewires)
  | next hrewires hlower hrest => exact .next (h.trans hrewires) hlower hrest

theorem append (h : Proceeds prog ask vs s t) (h' : Proceeds prog ask ws t u) : Proceeds prog ask (vs ++ ws) s u := by
  induction h with
  | done hrewires => exact h'.rewires hrewires
  | next hrewires hlower _ ih => exact .next hrewires hlower (ih h')

end Proceeds

end Lower

end PointsTo
