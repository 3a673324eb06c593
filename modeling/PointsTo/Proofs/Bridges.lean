import PointsTo.Proofs.Arrivals
import PointsTo.Proofs.BlockOrder
import PointsTo.Proofs.Primitives

/-!
# Control passes through blocks without nodes

Blocks without nodes do not appear in the graph.  The last node of a block is followed by the first nodes of
the blocks that control can get to through such blocks.  The search for them ends in every function, also if
control can circle among blocks without nodes, and finds no other nodes.
-/

namespace PointsTo

section

variable {succs : BlockId → List BlockId} {first? : BlockId → Option NodeId} {found : OrderedSet BlockId}
  {pending : List BlockId} {ids : List NodeId} {id : NodeId}

/-- The search for the nodes behind the pending blocks ends with these nodes, however long it takes. -/
inductive Searches (succs : BlockId → List BlockId) (first? : BlockId → Option NodeId) :
    (pending : List BlockId) → (found : OrderedSet BlockId) → (ids : List NodeId) → Prop
  | done {found : OrderedSet BlockId} : Searches succs first? [] found []
  | known {b pending found ids} : b ∈ found → Searches succs first? pending found ids →
      Searches succs first? (b :: pending) found ids
  | node {b pending found id ids} : b ∉ found → first? b = some id → Searches succs first? pending
      (found.insert b) ids → Searches succs first? (b :: pending) found (id :: ids)
  | through {b pending found ids} : b ∉ found → first? b = none →
      Searches succs first? (succs b ++ pending) (found.insert b) ids → Searches succs first? (b :: pending) found ids

/-- Every edge is followed once, so the search ends within a budget for all edges. -/
theorem searches_bridge {size budget : Nat} (hsize : ∀ b, size ≤ b → succs b = [])
    (hbudget : pending.length + edgesLeft succs size found < budget) :
    Searches succs first? pending found (bridge succs first? budget pending found) := by
  induction budget generalizing pending found with
  | zero => omega
  | succ budget ih =>
    cases pending with
    | nil => exact .done
    | cons b pending =>
      rw [List.length_cons] at hbudget
      unfold bridge
      split
      · rename_i hb
        exact .known (OrderedSet.contains_iff.1 hb) (ih (by omega))
      · rename_i hb
        have hfresh : b ∉ found := fun h ↦ hb (OrderedSet.contains_iff.2 h)
        have hleft := edgesLeft_insert (hsize b) hfresh
        split
        · rename_i id hid
          exact .node hfresh hid (ih (by omega))
        · rename_i hnone
          refine .through hfresh hnone (ih ?_)
          rw [List.length_append]
          omega

/-- A search finds only nodes of blocks that it can get to. -/
theorem Searches.clears (h : Searches succs first? pending found ids) (hid : id ∈ ids) :
    ∃ x ∈ pending, ∃ b, Clears succs first? ∅ x b ∧ first? b = some id := by
  induction h with
  | done => contradiction
  | known _ _ ih =>
    obtain ⟨x, hx, hclears⟩ := ih hid
    exact ⟨x, List.mem_cons_of_mem _ hx, hclears⟩
  | node _ hfirst _ ih =>
    rcases List.mem_cons.1 hid with rfl | hid
    · exact ⟨_, List.mem_cons_self, _, .here OrderedSet.not_mem_empty, hfirst⟩
    · obtain ⟨x, hx, hclears⟩ := ih hid
      exact ⟨x, List.mem_cons_of_mem _ hx, hclears⟩
  | @through b _ _ _ _ hnone _ ih =>
    obtain ⟨x, hx, c, hclears, hc⟩ := ih hid
    rcases List.mem_append.1 hx with hx | hx
    · exact ⟨b, List.mem_cons_self, c, .next OrderedSet.not_mem_empty hnone hx hclears, hc⟩
    · exact ⟨x, List.mem_cons_of_mem _ hx, c, hclears, hc⟩

end

namespace Function

variable {fn : Function} {first? : BlockId → Option NodeId} {past way : List BlockId} {b c : BlockId} {id : NodeId}

/-- Control passes from `b` to `c` in one or more steps, and only through blocks without nodes. -/
def Bridged (fn : Function) (empty : BlockId → Prop) (b c : BlockId) : Prop :=
  ∃ way : List BlockId, (b :: (way ++ [c])).IsChain (fun x y ↦ y ∈ fn.successors x) ∧ ∀ x ∈ way, empty x

theorem bridged_iff_clears : fn.Bridged (first? · = none) b c ↔ ∃ x ∈ fn.successors b,
    Clears fn.successors first? ∅ x c := by
  constructor
  · rintro ⟨way, hchain, hempty⟩
    induction way generalizing b with
    | nil => exact ⟨c, by simpa using hchain, .here OrderedSet.not_mem_empty⟩
    | cons x way ih =>
      obtain ⟨hx, hchain⟩ := List.isChain_cons_cons.1 hchain
      obtain ⟨y, hy, hclears⟩ := ih hchain fun z hz ↦ hempty z (List.mem_cons_of_mem _ hz)
      exact ⟨x, hx, .next OrderedSet.not_mem_empty (hempty x List.mem_cons_self) hy hclears⟩
  · rintro ⟨x, hx, hclears⟩
    induction hclears generalizing b with
    | here => exact ⟨[], by simpa using hx, by simp⟩
    | next _ hnone hy _ ih =>
      obtain ⟨way, hchain, hempty⟩ := ih hy
      exact ⟨_ :: way, List.isChain_cons_cons.2 ⟨hx, hchain⟩, List.forall_mem_cons.2 ⟨hnone, hempty⟩⟩

theorem searches (first? : BlockId → Option NodeId) (b : BlockId) : Searches fn.successors first? (fn.successors b) ∅
    (bridge fn.successors first? (2 * fn.edgeCount + 1) (fn.successors b) ∅) := by
  refine searches_bridge (fun _ ↦ successors_of_length_le) ?_
  have hle : (fn.successors b).length ≤ fn.edgeCount := length_successors_le b
  rw [edgesLeft_empty]
  omega

/-- The nodes that follow a block are exactly those of the blocks that are bridged to it. -/
theorem mem_bridge_iff : id ∈ bridge fn.successors first? (2 * fn.edgeCount + 1) (fn.successors b) ∅ ↔
    ∃ c, fn.Bridged (first? · = none) b c ∧ first? c = some id := by
  simp only [bridged_iff_clears]
  constructor
  · intro hid
    obtain ⟨x, hx, c, hclears, hc⟩ := (searches first? b).clears hid
    exact ⟨c, ⟨x, hx, hclears⟩, hc⟩
  · rintro ⟨c, ⟨x, hx, hclears⟩, hc⟩
    refine PointsTo.mem_bridge (fun _ ↦ successors_of_length_le) ?_ hx hclears hc
    have hle : (fn.successors b).length ≤ fn.edgeCount := length_successors_le b
    rw [edgesLeft_empty]
    omega

/-- Control arrives at every block that it passes behind a block at which it arrives. -/
theorem Arrives.chain (h : fn.Arrives past b) (hchain : (b :: (way ++ [c])).IsChain (fun x y ↦ y ∈ fn.successors x)) :
    ∀ x ∈ way, ∃ past, fn.Arrives past x := by
  induction way generalizing b past with
  | nil => simp
  | cons x way ih =>
    obtain ⟨hx, hchain⟩ := List.isChain_cons_cons.1 hchain
    exact List.forall_mem_cons.2 ⟨⟨_, h.next hx⟩, ih (h.next hx) hchain⟩

theorem Arrives.bridged_iff {empty empty' : BlockId → Prop} (h : fn.Arrives past b)
    (hempty : ∀ x, (∃ past, fn.Arrives past x) → (empty x ↔ empty' x)) : fn.Bridged empty b c ↔
    fn.Bridged empty' b c := by
  refine exists_congr fun way ↦ and_congr_right fun hchain ↦ forall₂_congr fun x hx ↦ ?_
  exact hempty x (h.chain hchain x hx)

end Function

/-- Adding control edges adds these edges. -/
theorem Graph.mem_successors_foldl_addSuccessor {g : Graph} {links : List (NodeId × NodeId)} {x y : NodeId}
    (h : ∀ link ∈ links, link.1 < g.size) :
    y ∈ (links.foldl (fun g link ↦ g.addSuccessor link.1 link.2) g).successors x ↔ y ∈ g.successors x ∨
    (x, y) ∈ links := by
  induction links generalizing g with
  | nil => simp
  | cons link links ih =>
    have hrest : ∀ link' ∈ links, link'.1 < (g.addSuccessor link.1 link.2).size := fun link' hlink ↦ by
      rw [size_addSuccessor]
      exact h link' (List.mem_cons_of_mem _ hlink)
    rw [List.foldl_cons, ih hrest, mem_successors_addSuccessor (h link List.mem_cons_self), List.mem_cons, or_assoc,
      Prod.ext_iff]

namespace Lower

variable {prog : Program} {f : FuncId} {fn : Function} {s : Lowering}

/-- The first node of a block that has nodes. -/
def firstNode? (s : Lowering) (f : FuncId) (b : BlockId) : Option NodeId := ((s.blocks.get? (f, b)).join).map (·.first)

/-- The control edges that are added between the blocks of a function. -/
def links (s : Lowering) (f : FuncId) (fn : Function) : List (NodeId × NodeId) :=
  (List.range fn.blocks.length).flatMap fun b ↦ ((s.blocks.get? (f, b)).join).toList.flatMap fun span ↦
    (bridge fn.successors (firstNode? s f) (2 * fn.edgeCount + 1) (fn.successors b) ∅).map fun id ↦ (span.last, id)

/-- The state with these control edges added. -/
def linked (s : Lowering) (links : List (NodeId × NodeId)) : Lowering :=
  { s with graph := links.foldl (fun g link ↦ g.addSuccessor link.1 link.2) s.graph }

theorem forM_linked {α : Type} {xs : List α} {step : α → Lower Unit} {links : α → List (NodeId × NodeId)}
    (h : ∀ x s, step x s = .ok () (linked s (links x))) : xs.forM step s = .ok () (linked s (xs.flatMap links)) := by
  induction xs generalizing s with
  | nil => rfl
  | cons x xs ih =>
    have hlinked : linked (linked s (links x)) (xs.flatMap links) = linked s ((x :: xs).flatMap links) := by
      simp [linked, List.flatMap_cons, List.foldl_append]
    rw [← hlinked]
    exact Stateful.bind_eq_ok_iff.2 ⟨(), _, h x s, ih⟩

theorem linkBlocks_eq (hfn : prog.functions[f]? = some fn) : linkBlocks prog f s = .ok ()
    (linked s (links s f fn)) := by
  refine Stateful.bind_eq_ok_iff.2 ⟨fn, s, Stateful.lift_eq_ok_iff.2 ⟨Query.lookup_eq_ok_iff.2 hfn, rfl⟩, ?_⟩
  refine forM_linked fun b t ↦ ?_
  cases (s.blocks.get? (f, b)).join with
  | none => rfl
  | some span =>
    rw [Option.toList_some, List.flatMap_cons, List.flatMap_nil, List.append_nil, List.map_eq_flatMap]
    exact forM_linked fun id t ↦ rfl

theorem mem_links_iff {x y : NodeId} : (x, y) ∈ links s f fn ↔ ∃ b c span span',
    s.blocks.get? (f, b) = some (some span) ∧ s.blocks.get? (f, c) = some (some span') ∧ span.last = x ∧
      span'.first = y ∧ fn.Bridged (firstNode? s f · = none) b c := by
  simp only [links, List.mem_flatMap, List.mem_range, List.mem_map, Option.mem_toList, Option.join_eq_some_iff,
    Function.mem_bridge_iff, firstNode?, Option.map_eq_some_iff, Prod.mk.injEq]
  constructor
  · rintro ⟨b, -, span, hspan, -, ⟨c, hbridged, span', hspan', rfl⟩, hx, hy⟩
    exact ⟨b, c, span, span', hspan, hspan', hx, hy, hbridged⟩
  · rintro ⟨b, c, span, span', hspan, hspan', hx, rfl, hbridged⟩
    refine ⟨b, ?_, span, hspan, _, ⟨c, hbridged, span', hspan', rfl⟩, hx, rfl⟩
    -- No way leads out of a block that is not there.
    obtain ⟨x, hx, -⟩ := Function.bridged_iff_clears.1 hbridged
    by_contra hlt
    rw [Function.successors_of_length_le (Nat.not_lt.1 hlt)] at hx
    contradiction

end Lower

/-- Linking the blocks of a function, of which exactly those are noted that control can reach, adds from the
last node of each block with nodes control edges to the first nodes of exactly the blocks that control gets to
through blocks without nodes.  It changes nothing else, and each search among the blocks ends by itself, not
by its budget. -/
theorem empty_blocks_are_bridged (prog : Program) (f : FuncId) (fn : Function) (s : Lowering)
    (hfn : prog.functions[f]? = some fn)
    (hvisited : ∀ b, (s.blocks.get? (f, b)).isSome ↔ ∃ past, fn.Arrives past b)
    (hnodes : ∀ b span, s.blocks.get? (f, b) = some (some span) → span.first < s.graph.size ∧
    span.last < s.graph.size) :
    ∃ t, Lower.linkBlocks prog f s = .ok () t ∧ t = { s with graph := t.graph } ∧ s.graph.Rewired t.graph ∧
      (∀ x y, y ∈ t.graph.successors x ↔ y ∈ s.graph.successors x ∨
        ∃ b c span span', s.blocks.get? (f, b) = some (some span) ∧ s.blocks.get? (f, c) = some (some span') ∧
          span.last = x ∧ span'.first = y ∧ fn.Bridged (fun e ↦ s.blocks.get? (f, e) = some none) b c) ∧
      ∀ b, Searches fn.successors (Lower.firstNode? s f) (fn.successors b) ∅
        (bridge fn.successors (Lower.firstNode? s f) (2 * fn.edgeCount + 1) (fn.successors b) ∅) := by
  refine ⟨_, Lower.linkBlocks_eq hfn, rfl, Graph.Rewired.foldl (fun _ _ ↦ .addSuccessor) _, fun x y ↦
    ?_, Function.searches _⟩
  have hlast : ∀ link ∈ Lower.links s f fn, link.1 < s.graph.size := by
    rintro ⟨x, y⟩ hlink
    obtain ⟨b, c, span, span', hspan, -, rfl, -⟩ := Lower.mem_links_iff.1 hlink
    exact (hnodes b span hspan).2
  refine (Graph.mem_successors_foldl_addSuccessor hlast).trans (or_congr_right (Lower.mem_links_iff.trans ?_))
  refine exists₄_congr fun b c span span' ↦ and_congr_right fun hspan ↦ and_congr_right fun _ ↦ and_congr_right fun _ ↦
    and_congr_right fun _ ↦ ?_
  -- Control arrives at the blocks on the way, so all of them are noted.
  obtain ⟨past, harrives⟩ := (hvisited b).1 (by simp [hspan])
  refine harrives.bridged_iff fun x hx ↦ ?_
  obtain ⟨span?, hspan?⟩ := Option.isSome_iff_exists.1 ((hvisited x).2 hx)
  cases span? <;> simp [Lower.firstNode?, hspan?]

/-- Two blocks without nodes that control circles in, before a loop of one block; nothing leads to the last
block. -/
def ring : Function where
  name := "ring"
  value := 0
  params := []
  returnTy := .void
  variadic := false
  blocks := [⟨[], [1, 1]⟩, ⟨[], [2]⟩, ⟨[], [1, 3]⟩, ⟨[], [3]⟩, ⟨[], [0]⟩]

/-- The blocks of `ring` are noted, and two of them have nodes. -/
def ringNoted : Lowering where
  graph := { nodes := List.replicate 4 { kind := .phi } }
  blocks := ((((∅ : OrderedMap (FuncId × BlockId) (Option Span)).insert (0, 0) (some ⟨0, 1⟩)).insert (0, 1) none).insert
    (0, 2) none).insert (0, 3) (some ⟨2, 3⟩)

theorem ringNoted_visited (b : BlockId) : (ringNoted.blocks.get? (0, b)).isSome ↔ ∃ past, ring.Arrives past b := by
  have hblocks : ring.reachableBlocks = .ok [0, 1, 2, 3] := by decide
  have hnoted : (ringNoted.blocks.get? (0, b)).isSome ↔ b ∈ [0, 1, 2, 3] := by
    simp only [ringNoted, Option.isSome_iff_exists, OrderedMap.get?_insert_eq_some_iff, OrderedMap.get?_empty]
    grind
  exact hnoted.trans (Function.mem_reachableBlocks_iff hblocks rfl)

theorem empty_blocks_are_bridged_ring : ∃ t, Lower.linkBlocks { functions := [ring] } 0 ringNoted = .ok () t ∧
    2 ∈ t.graph.successors 1 ∧ 2 ∈ t.graph.successors 3 := by
  have hnodes : ∀ b span, ringNoted.blocks.get? (0, b) = some (some span) →
      span.first < ringNoted.graph.size ∧ span.last < ringNoted.graph.size := by
    intro b span hspan
    simp [ringNoted, OrderedMap.get?_insert_eq_some_iff] at hspan
    rcases hspan with ⟨-, rfl⟩ | ⟨-, -, -, -, rfl⟩
    · decide
    · decide
  obtain ⟨t, ht, -, -, hedges, -⟩ := empty_blocks_are_bridged { functions := [ring] } 0 ring ringNoted rfl
    ringNoted_visited hnodes
  have hfirst : ring.Bridged (fun e ↦ ringNoted.blocks.get? (0, e) = some none) 0 3 := ⟨[1, 2], by decide, by decide⟩
  have hloop : ring.Bridged (fun e ↦ ringNoted.blocks.get? (0, e) = some none) 3 3 := ⟨[], by decide, by decide⟩
  exact ⟨t, ht, (hedges 1 2).2 (.inr ⟨0, 3, _, _, rfl, rfl, rfl, rfl, hfirst⟩),
    (hedges 3 2).2 (.inr ⟨3, 3, _, _, rfl, rfl, rfl, rfl, hloop⟩)⟩

end PointsTo
