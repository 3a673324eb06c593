import Mathlib.Data.Finset.Card
import Mathlib.Data.Finset.Range
import PointsTo.Program.Blocks
import PointsTo.Proofs.Coherence

/-!
# The order of blocks

Breadth-first search visits a vertex at most once: a vertex is queued when it is first seen, and never
again.  Blocks of a function share no instructions, so each instruction is visited at most once too.

The search leaves nothing out that control can reach, and control can reach every visited block
through blocks that are visited before it.
-/

namespace PointsTo

namespace BreadthFirst

variable {next : Nat → List Nat} {found queue seen : List Nat} {budget : Nat}

/-- What is discovered is what was found and not seen before.  It comes behind the queue. -/
theorem discover_spec (found queue seen : List Nat) : ∃ new, (discover found queue seen).1 = queue ++ new ∧ new.Nodup ∧
    (∀ x, x ∈ new ↔ x ∈ found ∧ x ∉ seen) ∧ ∀ x, x ∈ (discover found queue seen).2 ↔ x ∈ seen ∨ x ∈ new := by
  induction found generalizing queue seen with
  | nil => exact ⟨[], by simp [discover]⟩
  | cons v found ih =>
    by_cases hv : seen.contains v
    · have hstep : discover (v :: found) queue seen = discover found queue seen := by
        simp only [discover, List.foldl_cons, hv, if_true]
      have hv' : v ∈ seen := by simpa using hv
      obtain ⟨new, hqueue, hnodup, hnew, hseen⟩ := ih queue seen
      refine ⟨new, hstep ▸ hqueue, hnodup, fun x ↦ ?_, hstep ▸ hseen⟩
      rw [hnew, List.mem_cons]
      constructor
      · exact fun h ↦ ⟨.inr h.1, h.2⟩
      · rintro ⟨rfl | hx, hns⟩
        · exact absurd hv' hns
        · exact ⟨hx, hns⟩
    · have hstep : discover (v :: found) queue seen = discover found (queue ++ [v]) (v :: seen) := by
        simp only [discover, List.foldl_cons, hv, Bool.false_eq_true, if_false]
      obtain ⟨new, hqueue, hnodup, hnew, hseen⟩ := ih (queue ++ [v]) (v :: seen)
      have hv' : v ∉ seen := by simpa using hv
      refine ⟨v :: new, ?_, ?_, fun x ↦ ?_, fun x ↦ ?_⟩
      · rw [hstep, hqueue, List.append_assoc, List.singleton_append]
      · exact List.nodup_cons.2 ⟨fun hmem ↦ ((hnew v).1 hmem).2 (by simp), hnodup⟩
      · by_cases hx : x = v
        · simp [hx, hv']
        · simp [hx, hnew]
      · rw [hstep, hseen]
        simp only [List.mem_cons]
        tauto

/-- What is visited was queued before, or is seen later for the first time. -/
theorem visit_spec (hnodup : queue.Nodup) (hseen : ∀ x ∈ queue, x ∈ seen) :
    (visit next budget queue seen).Nodup ∧ ∀ x ∈ visit next budget queue seen, x ∈ queue ∨ x ∉ seen := by
  induction budget generalizing queue seen with
  | zero => simp [visit]
  | succ budget ih =>
    cases queue with
    | nil => simp [visit]
    | cons v queue =>
      obtain ⟨new, hqueue, hnew, hunseen, hseen'⟩ := discover_spec (next v) queue seen
      have hstep : visit next (budget + 1) (v :: queue) seen =
          v :: visit next budget (discover (next v) queue seen).1 (discover (next v) queue seen).2 := rfl
      rw [List.nodup_cons] at hnodup
      have hv : v ∈ seen := hseen v (by simp)
      have hmem (x : Nat) : x ∈ (discover (next v) queue seen).1 ↔ x ∈ queue ∨ x ∈ new := by
        rw [hqueue, List.mem_append]
      have hnodup' : (discover (next v) queue seen).1.Nodup := by
        rw [hqueue, List.nodup_append]
        refine ⟨hnodup.2, hnew, fun x hx y hy hxy ↦ ?_⟩
        exact ((hunseen y).1 hy).2 (hxy ▸ hseen x (by simp [hx]))
      have hqueued (x : Nat) (hx : x ∈ (discover (next v) queue seen).1) : x ∈ (discover (next v) queue seen).2 := by
        rw [hseen']
        exact ((hmem x).1 hx).imp_left fun hx ↦ hseen x (by simp [hx])
      obtain ⟨hrest, hold⟩ := ih hnodup' hqueued
      rw [hstep]
      refine ⟨List.nodup_cons.2 ⟨fun hvisit ↦ ?_, hrest⟩, fun x hx ↦ ?_⟩
      · rcases hold v hvisit with hq | hns
        · rcases (hmem v).1 hq with hq | hn
          · exact hnodup.1 hq
          · exact ((hunseen v).1 hn).2 hv
        · exact hns ((hseen' v).2 (.inl hv))
      · rcases List.mem_cons.1 hx with rfl | hx
        · exact .inl (by simp)
        · rcases hold x hx with hq | hns
          · rcases (hmem x).1 hq with hq | hn
            · exact .inl (by simp [hq])
            · exact .inr ((hunseen x).1 hn).2
          · exact .inr fun hs ↦ hns ((hseen' x).2 (.inl hs))

/-- A vertex is visited because it was queued, or because a vertex before it leads to it. -/
theorem mem_next_of_visit {v : Nat} {before after : List Nat}
    (h : visit next budget queue seen = before ++ v :: after) : v ∈ queue ∨ ∃ p ∈ before, v ∈ next p := by
  induction budget generalizing queue seen before with
  | zero => simp [visit] at h
  | succ budget ih =>
    cases queue with
    | nil => simp [visit] at h
    | cons u queue =>
      obtain ⟨new, hqueue, -, hnew, -⟩ := discover_spec (next u) queue seen
      change u :: visit next budget (discover (next u) queue seen).1 (discover (next u) queue seen).2 = _ at h
      cases before with
      | nil =>
        obtain ⟨rfl, -⟩ := List.cons.inj h
        exact .inl (by simp)
      | cons u' before =>
        obtain ⟨rfl, hrest⟩ := List.cons.inj h
        rcases ih hrest with hv | ⟨p, hp, hv⟩
        · rw [hqueue, List.mem_append] at hv
          rcases hv with hv | hv
          · exact .inl (by simp [hv])
          · exact .inr ⟨u, by simp, ((hnew v).1 hv).1⟩
        · exact .inr ⟨p, by simp [hp], hv⟩

/-- The vertices below `size` that were not seen yet. -/
def unseen (size : Nat) (seen : List Nat) : Finset Nat := Finset.range size \ seen.toFinset

/-- A search that can afford every queued and every unseen vertex leaves none of them out. -/
theorem visit_complete {size : Nat} (hnext : ∀ x, ∀ y ∈ next x, y < size)
    (hbudget : queue.length + (unseen size seen).card ≤ budget) :
    (∀ x ∈ queue, x ∈ visit next budget queue seen) ∧
      ∀ x ∈ visit next budget queue seen, ∀ y ∈ next x, y ∈ seen ∨ y ∈ visit next budget queue seen := by
  induction budget generalizing queue seen with
  | zero =>
    have hqueue : queue = [] := List.eq_nil_of_length_eq_zero (by omega)
    simp [visit, hqueue]
  | succ budget ih =>
    cases queue with
    | nil => simp [visit]
    | cons v queue =>
      obtain ⟨new, hqueue, hnodup, hnew, hseen⟩ := discover_spec (next v) queue seen
      have hsubset : new.toFinset ⊆ unseen size seen := by
        intro x hx
        obtain ⟨hfound, hns⟩ := (hnew x).1 (List.mem_toFinset.1 hx)
        simp [unseen, hns, hnext v x hfound]
      -- What is queued now was unseen before, so the total goes down by the vertex that is visited.
      have hcard : (unseen size (discover (next v) queue seen).2).card + new.length = (unseen size seen).card := by
        have hunseen : unseen size (discover (next v) queue seen).2 = unseen size seen \ new.toFinset := by
          ext x
          simp only [unseen, Finset.mem_sdiff, List.mem_toFinset, hseen]
          tauto
        rw [hunseen, ← List.toFinset_card_of_nodup hnodup, Finset.card_sdiff_add_card_eq_card hsubset]
      have hbudget' : (discover (next v) queue seen).1.length + (unseen size (discover (next v) queue seen).2).card ≤
          budget := by
        rw [hqueue, List.length_append]
        simp only [List.length_cons] at hbudget
        omega
      obtain ⟨hqueued, hclosed⟩ := ih hbudget'
      have hmem (x : Nat) : x ∈ visit next (budget + 1) (v :: queue) seen ↔
          x = v ∨ x ∈ visit next budget (discover (next v) queue seen).1 (discover (next v) queue seen).2 :=
        List.mem_cons
      have hreaches (x : Nat) (hx : x ∈ queue ∨ x ∈ new) : x ∈ visit next (budget + 1) (v :: queue) seen := by
        refine (hmem x).2 (.inr (hqueued x ?_))
        rw [hqueue, List.mem_append]
        exact hx
      refine ⟨fun x hx ↦ ?_, fun x hx y hy ↦ ?_⟩
      · rcases List.mem_cons.1 hx with rfl | hx
        · exact (hmem x).2 (.inl rfl)
        · exact hreaches x (.inl hx)
      · by_cases hys : y ∈ seen
        · exact .inl hys
        rcases (hmem x).1 hx with rfl | hx
        · exact .inr (hreaches y (.inr ((hnew y).2 ⟨hy, hys⟩)))
        · rcases hclosed x hx y hy with hy | hy
          · exact .inr (hreaches y (.inr (((hseen y).1 hy).resolve_left hys)))
          · exact .inr ((hmem y).2 (.inr hy))

theorem nodup_order (size : Nat) (next : Nat → List Nat) (root : Nat) : (order size next root).Nodup :=
  (visit_spec (by simp) (by simp)).1

end BreadthFirst

namespace Function

variable {fn : Function} {blocks past : List BlockId} {b : BlockId}

/-- Control goes from the entry block through the blocks of `past`, in order, to the block. -/
inductive Arrives (fn : Function) : (past : List BlockId) → BlockId → Prop
  | entry : fn.Arrives [] 0
  | next {past : List BlockId} {b c : BlockId} : fn.Arrives past b → c ∈ fn.successors b → fn.Arrives (past ++ [b]) c

theorem nodup_reachableBlocks (h : fn.reachableBlocks = .ok blocks) : blocks.Nodup := by
  unfold reachableBlocks at h
  split at h
  · obtain rfl := Query.pure_eq_ok_iff.1 h
    exact List.nodup_nil
  · obtain ⟨_, -, h⟩ := Query.bind_eq_ok_iff.1 h
    obtain rfl := Query.pure_eq_ok_iff.1 h
    exact BreadthFirst.nodup_order ..

/-- Declarations have no blocks. -/
theorem defined_of_reachable (h : fn.reachableBlocks = .ok blocks) (hb : b ∈ blocks) : fn.isDeclaration = false := by
  cases hdecl : fn.isDeclaration with
  | false => rfl
  | true =>
    simp only [reachableBlocks, hdecl, if_true, Query.pure_eq_ok_iff] at h
    simp [← h] at hb

theorem reachableBlocks_eq (h : fn.reachableBlocks = .ok blocks) (hdef : fn.isDeclaration = false) :
    blocks = BreadthFirst.order fn.blocks.length fn.successors 0 ∧ ∀ b, ∀ c ∈ fn.successors b,
    c < fn.blocks.length := by
  simp only [reachableBlocks, hdef, Bool.false_eq_true, if_false, Query.bind_eq_ok_iff, Query.pure_eq_ok_iff] at h
  obtain ⟨flow, hflow, rfl⟩ := h
  refine ⟨rfl, fun b c hc ↦ ?_⟩
  unfold flowGraph at hflow
  split at hflow
  · rename_i hall
    unfold successors at hc
    cases hb : fn.blocks[b]? with
    | none => simp [hb] at hc
    | some block =>
      have hblock := List.all_eq_true.1 hall block (List.mem_of_getElem? hb)
      exact of_decide_eq_true (List.all_eq_true.1 hblock c (by simpa [hb] using hc))
  · contradiction

/-- The blocks can be listed if control stays in the function. -/
theorem reachableBlocks_total (hdef : fn.isDeclaration = false)
    (hflows : ∀ b, ∀ c ∈ fn.successors b, c < fn.blocks.length) : ∃ blocks, fn.reachableBlocks = .ok blocks := by
  have hall : (fn.blocks.all fun b ↦ b.succs.all (· < fn.blocks.length)) = true := by
    refine List.all_eq_true.2 fun block hblock ↦ List.all_eq_true.2 fun c hc ↦ decide_eq_true ?_
    obtain ⟨b, hb⟩ := List.mem_iff_getElem?.1 hblock
    exact hflows b c (by simpa [successors, hb] using hc)
  simp only [reachableBlocks, hdef, Bool.false_eq_true, if_false, flowGraph, hall, if_true]
  exact ⟨_, rfl⟩

/-- Control can arrive at each block through blocks that are visited before it. -/
theorem arrives_of_visited (h : fn.reachableBlocks = .ok blocks) :
    ∀ {before after : List BlockId}, blocks = before ++ b :: after →
      ∃ past, fn.Arrives past b ∧ ∀ p ∈ past, p ∈ before := by
  intro before
  -- The block that leads to `b` is visited before `b`.
  induction hn : before.length using Nat.strong_induction_on generalizing before b with
  | _ n ih =>
    intro after hsplit
    have hdef := defined_of_reachable h (b := b) (by simp [hsplit])
    rw [(reachableBlocks_eq h hdef).1] at hsplit
    rcases BreadthFirst.mem_next_of_visit hsplit with hroot | ⟨p, hp, hb⟩
    · rw [List.mem_singleton.1 hroot]
      exact ⟨[], .entry, by simp⟩
    · obtain ⟨front, back, rfl⟩ := List.append_of_mem hp
      have hfront : blocks = front ++ p :: (back ++ b :: after) := by
        rw [(reachableBlocks_eq h hdef).1, hsplit, List.append_assoc, List.cons_append]
      obtain ⟨past, harrives, hpast⟩ := ih front.length (by simp [← hn]) rfl hfront
      refine ⟨past ++ [p], harrives.next hb, fun q hq ↦ ?_⟩
      rcases List.mem_append.1 hq with hq | hq
      · simp [hpast q hq]
      · simp [List.mem_singleton.1 hq]

/-- Every block at which control can arrive is visited. -/
theorem Arrives.mem (harrives : fn.Arrives past b) (h : fn.reachableBlocks = .ok blocks)
    (hdef : fn.isDeclaration = false) : b ∈ blocks := by
  obtain ⟨rfl, hsuccs⟩ := reachableBlocks_eq h hdef
  have hsize : 0 < fn.blocks.length := by
    cases hblocks : fn.blocks with
    | nil => simp [isDeclaration, hblocks] at hdef
    | cons => simp
  have hbudget : [0].length + (BreadthFirst.unseen fn.blocks.length [0]).card ≤ fn.blocks.length := by
    have hunseen : BreadthFirst.unseen fn.blocks.length [0] = (Finset.range fn.blocks.length).erase 0 := by
      ext x
      simp [BreadthFirst.unseen, and_comm]
    rw [hunseen, Finset.card_erase_of_mem (Finset.mem_range.2 hsize), Finset.card_range]
    simp only [List.length_singleton]
    omega
  obtain ⟨hroot, hclosed⟩ := BreadthFirst.visit_complete hsuccs hbudget
  induction harrives with
  | entry => exact hroot 0 (by simp)
  | next _ hc ih =>
    rcases hclosed _ ih _ hc with hseen | hvisited
    · rw [List.mem_singleton.1 hseen]
      exact hroot 0 (by simp)
    · exact hvisited

end Function

/-- An instruction stands in one block only. -/
theorem Program.Coherent.block_unique {prog : Program} (h : prog.Coherent) {v : ValueId} {f f' : FuncId}
    {b b' : BlockId} (hv : v ∈ prog.instsOf f b) (hv' : v ∈ prog.instsOf f' b') : f = f' ∧ b = b' := by
  obtain ⟨inst, hinst, rfl, rfl⟩ := h.inst hv
  obtain ⟨inst', hinst', rfl, rfl⟩ := h.inst hv'
  obtain rfl := Program.instruction_unique hinst hinst'
  exact ⟨rfl, rfl⟩

end PointsTo
