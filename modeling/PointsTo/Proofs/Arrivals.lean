import Mathlib.Algebra.BigOperators.Fin
import PointsTo.Lowering.Body
import PointsTo.Proofs.Blocks
import PointsTo.Proofs.Edges

/-!
# Looking through blocks without nodes

Between the blocks of a function the control edges are found by a search that looks through blocks without
nodes.  The search has enough budget, so it finds the first node of every block that it can get to.
-/

namespace PointsTo

section

variable {succs : BlockId → List BlockId} {first? : BlockId → Option NodeId} {found : OrderedSet BlockId}
  {b c x y : BlockId} {id : NodeId}

/-- From the first block the second is reached through blocks without nodes that were not looked at yet. -/
inductive Clears (succs : BlockId → List BlockId) (first? : BlockId → Option NodeId) (found : OrderedSet BlockId) :
    BlockId → BlockId → Prop
  | here {b : BlockId} : b ∉ found → Clears succs first? found b b
  | next {b x y : BlockId} : x ∉ found → first? x = none → y ∈ succs x → Clears succs first? found y b →
      Clears succs first? found x b

/-- A way either avoids a block, or can be begun behind it. -/
theorem Clears.insert (h : Clears succs first? found x b) (hb : b ≠ c) :
    Clears succs first? (found.insert c) x b ∨
      (first? c = none ∧ ∃ y ∈ succs c, Clears succs first? (found.insert c) y b) := by
  induction h with
  | here hfound => exact .inl (.here (by simp [hb, hfound]))
  | @next b x y hx hnone hy _ ih =>
    rcases ih hb with hclears | hbehind
    · by_cases hxc : x = c
      · exact .inr ⟨hxc ▸ hnone, y, hxc ▸ hy, hclears⟩
      · exact .inl (.next (by simp [hxc, hx]) hnone hy hclears)
    · exact .inr hbehind

/-- The edges that leave blocks that were not looked at yet. -/
def edgesLeft (succs : BlockId → List BlockId) (size : Nat) (found : OrderedSet BlockId) : Nat :=
  ∑ x ∈ (Finset.range size).filter fun x ↦ found.contains x = false, (succs x).length

theorem edgesLeft_insert {size : Nat} (hsize : size ≤ b → succs b = []) (hb : b ∉ found) :
    (succs b).length + edgesLeft succs size (found.insert b) ≤ edgesLeft succs size found := by
  have hcontains (x : BlockId) : found.contains x = false ↔ x ∉ found := by
    rw [← Bool.not_eq_true, OrderedSet.contains_iff]
  have herase : ((Finset.range size).filter fun x ↦ (found.insert b).contains x = false) =
      ((Finset.range size).filter fun x ↦ found.contains x = false).erase b := by
    ext x
    simp only [Finset.mem_filter, Finset.mem_range, Finset.mem_erase, ← Bool.not_eq_true, OrderedSet.contains_iff,
      OrderedSet.mem_insert, not_or]
    tauto
  unfold edgesLeft
  rw [herase]
  by_cases hlt : b < size
  · refine (Finset.add_sum_erase _ (fun x ↦ (succs x).length) ?_).le
    simp [hlt, hcontains, hb]
  · rw [Finset.erase_eq_of_notMem (by simp [hlt]), hsize (Nat.not_lt.1 hlt), List.length_nil, Nat.zero_add]

/-- A search that can afford every edge finds the nodes of all blocks that it can get to. -/
theorem mem_bridge {size budget : Nat} {pending : List BlockId} (hsize : ∀ b, size ≤ b → succs b = [])
    (hbudget : pending.length + edgesLeft succs size found < budget) (hx : x ∈ pending)
    (hclears : Clears succs first? found x b) (hb : first? b = some id) :
    id ∈ bridge succs first? budget pending found := by
  induction budget generalizing pending found x with
  | zero => omega
  | succ budget ih =>
    cases pending with
    | nil => contradiction
    | cons c pending =>
      rw [List.length_cons] at hbudget
      unfold bridge
      split
      · rename_i hc
        have hxc : x ≠ c := by
          rintro rfl
          cases hclears <;> exact absurd (OrderedSet.contains_iff.1 hc) ‹_›
        exact ih (by omega) ((List.mem_cons.1 hx).resolve_left hxc) hclears
      · rename_i hc
        have hfresh : c ∉ found := fun h ↦ hc (OrderedSet.contains_iff.2 h)
        have hleft := edgesLeft_insert (hsize c) hfresh
        by_cases hbc : b = c
        · subst hbc
          simp [hb]
        · have hrest (hclears : Clears succs first? (found.insert c) x b) : x ∈ pending := by
            refine (List.mem_cons.1 hx).resolve_left ?_
            rintro rfl
            cases hclears <;> simp_all
          split
          · rcases hclears.insert hbc with hclears | ⟨hnone, -⟩
            · exact List.mem_cons_of_mem _ (ih (by omega) (hrest hclears) hclears)
            · simp_all
          · have hbudget : (succs c ++ pending).length + edgesLeft succs size (found.insert c) < budget := by
              rw [List.length_append]
              omega
            rcases hclears.insert hbc with hclears | ⟨-, y, hy, hclears⟩
            · exact ih hbudget (List.mem_append_right _ (hrest hclears)) hclears
            · exact ih hbudget (List.mem_append_left _ hy) hclears

end

namespace Function

variable {fn : Function} {first? : BlockId → Option NodeId} {past : List BlockId} {b c : BlockId} {id : NodeId}

theorem successors_of_length_le (h : fn.blocks.length ≤ b) : fn.successors b = [] := by
  simp [successors, List.getElem?_eq_none h]

theorem edgesLeft_empty : edgesLeft fn.successors fn.blocks.length ∅ = fn.edgeCount := by
  have hcount : fn.edgeCount = (fn.blocks.map (·.succs.length)).sum := by
    rw [List.sum_eq_foldl, List.foldl_map]
    rfl
  have hall : ((Finset.range fn.blocks.length).filter fun x ↦ (∅ : OrderedSet BlockId).contains x = false) =
      Finset.range fn.blocks.length := Finset.filter_true_of_mem fun _ _ ↦ rfl
  rw [hcount, edgesLeft, hall, Finset.sum_range, ← Fin.sum_univ_getElem]
  refine Fintype.sum_equiv (finCongr (by simp)) _ _ fun i ↦ ?_
  simp [successors]

theorem length_successors_le (b : BlockId) : (fn.successors b).length ≤ fn.edgeCount := by
  have hle : (fn.successors b).length + edgesLeft fn.successors fn.blocks.length ((∅ : OrderedSet BlockId).insert b) ≤
      edgesLeft fn.successors fn.blocks.length ∅ := edgesLeft_insert successors_of_length_le OrderedSet.not_mem_empty
  rw [edgesLeft_empty] at hle
  omega

end Function

end PointsTo
