import Mathlib.Logic.Relation
import PointsTo.Proofs.Mirroring

/-!
# Splices keep all paths

A chain of nodes that no other control edge touches is put behind a node or before it.  Behind a node, the chain takes
over the edges that leave the node; before it, the edges that arrive there.  Either way control gets from one of the
other nodes to another one exactly if it did before.  The second case is the first one with all edges reversed.
-/

namespace PointsTo

open Relation

/-! ## Detours -/

section

variable {α : Type} {E E' : α → α → Prop} {chain : List α} {x first last u v : α}

/-- The second relation leads from `x` through the chain to where the first one led at once. -/
structure Detours (E E' : α → α → Prop) (chain : List α) (x first last : α) : Prop where
  edge : ∀ y z, E' y z ↔ (y = x ∧ z = first) ∨ (y = last ∧ E x z) ∨ (y ≠ x ∧ y ≠ last ∧ E y z)
  closed : ∀ y z, E y z → (y ∈ chain ↔ z ∈ chain)
  through : ReflTransGen E' first last
  apart : x ∉ chain
  first_mem : first ∈ chain
  last_mem : last ∈ chain

namespace Detours

/-- A step between other nodes is a step still, or goes through the chain. -/
theorem transGen_of_edge (h : Detours E E' chain x first last) (hu : u ∉ chain) (huv : E u v) : TransGen E' u v := by
  have hlast : u ≠ last := fun heq ↦ hu (heq ▸ h.last_mem)
  by_cases hx : u = x
  · subst hx
    have hfirst : E' u first := (h.edge u first).2 (.inl ⟨rfl, rfl⟩)
    have hend : E' last v := (h.edge last v).2 (.inr (.inl ⟨rfl, huv⟩))
    exact ((TransGen.single hfirst).trans_left h.through).tail hend
  · exact .single ((h.edge u v).2 (.inr (.inr ⟨hx, hlast, huv⟩)))

/-- Whoever gets into the chain got to `x` before. -/
theorem of_transGen (h : Detours E E' chain x first last) (hu : u ∉ chain) (huv : TransGen E' u v) :
    (v ∈ chain → ReflTransGen E u x) ∧ (v ∉ chain → TransGen E u v) := by
  -- One step onwards, from a node that is reached without the detour or from inside the chain.
  have hstep {w z : α} (hin : w ∈ chain → ReflTransGen E u x) (hout : w ∉ chain → ReflTransGen E u w) (hwz : E' w z) :
      (z ∈ chain → ReflTransGen E u x) ∧ (z ∉ chain → TransGen E u z) := by
    rcases (h.edge w z).1 hwz with ⟨rfl, rfl⟩ | ⟨rfl, hz⟩ | ⟨-, -, hz⟩
    · exact ⟨fun _ ↦ hout h.apart, fun hnot ↦ absurd h.first_mem hnot⟩
    · exact ⟨fun hmem ↦ absurd ((h.closed x z hz).2 hmem) h.apart, fun _ ↦ .tail' (hin h.last_mem) hz⟩
    · exact ⟨fun hmem ↦ hin ((h.closed w z hz).2 hmem), fun hnot ↦
        .tail' (hout fun hw ↦ hnot ((h.closed w z hz).1 hw)) hz⟩
  induction huv with
  | single huv => exact hstep (fun hmem ↦ absurd hmem hu) (fun _ ↦ .refl) huv
  | tail _ hwz ih => exact hstep ih.1 (fun hnot ↦ (ih.2 hnot).to_reflTransGen) hwz

theorem transGen_iff (h : Detours E E' chain x first last) (hu : u ∉ chain) (hv : v ∉ chain) :
    TransGen E' u v ↔ TransGen E u v := by
  refine ⟨fun huv ↦ (h.of_transGen hu huv).2 hv, fun huv ↦ ?_⟩
  clear hv
  suffices hpath : TransGen E' u v ∧ v ∉ chain from hpath.1
  induction huv with
  | single huv => exact ⟨h.transGen_of_edge hu huv, fun hmem ↦ hu ((h.closed _ _ huv).2 hmem)⟩
  | tail _ hwz ih => exact ⟨ih.1.trans (h.transGen_of_edge ih.2 hwz), fun hmem ↦ ih.2 ((h.closed _ _ hwz).2 hmem)⟩

end Detours

/-- Along a list of neighbours one gets from its head to its last element. -/
theorem reflTransGen_of_neighbours {R : α → α → Prop} (hfirst : chain.head? = some first)
    (hlast : chain.getLast? = some last) (hR : ∀ y z, [y, z] <:+: chain → R y z) : ReflTransGen R first last := by
  induction chain generalizing first with
  | nil => contradiction
  | cons a rest ih =>
    obtain rfl := Option.some.inj hfirst
    cases rest with
    | nil =>
      obtain rfl := Option.some.inj hlast
      exact .refl
    | cons b rest =>
      refine .head (hR a b (List.prefix_append [a, b] rest).isInfix) ?_
      exact ih rfl (by simpa using hlast) fun y z hyz ↦ hR y z (hyz.trans (List.suffix_cons a _).isInfix)

/-- The last element of a list without repetition has no neighbour behind it. -/
theorem not_neighbour_of_last (hnodup : chain.Nodup) (hlast : chain.getLast? = some last) : ¬[last, u] <:+: chain := by
  rintro ⟨pre, post, rfl⟩
  have hmem : last ∈ u :: post := by
    refine List.mem_of_getLast? ?_
    simpa [List.getLast?_append] using hlast
  have hsplit : (last :: u :: post).Nodup := by
    refine hnodup.sublist ?_
    simp
  exact (List.nodup_cons.1 hsplit).1 hmem

end

namespace Graph

variable {g : Graph} {chain : List NodeId} {x y z first last : NodeId}

def Edge (g : Graph) (a b : NodeId) : Prop := b ∈ g.successors a

/-- Different nodes, one after the other, which no other control edge touches. -/
structure Detached (g : Graph) (chain : List NodeId) : Prop where
  nodup : chain.Nodup
  lt_size : ∀ y ∈ chain, y < g.size
  edge : ∀ y z, (y ∈ chain ∨ z ∈ chain) → (g.Edge y z ↔ [y, z] <:+: chain)

namespace Detached

theorem closed (hchain : g.Detached chain) (hyz : g.Edge y z) : y ∈ chain ↔ z ∈ chain := by
  constructor
  · intro hy
    exact ((hchain.edge y z (.inl hy)).1 hyz).subset (by simp)
  · intro hz
    exact ((hchain.edge y z (.inr hz)).1 hyz).subset (by simp)

theorem successors_last (hchain : g.Detached chain) (hlast : chain.getLast? = some last) : g.successors last = [] := by
  refine List.eq_nil_iff_forall_not_mem.2 fun z hz ↦ ?_
  exact not_neighbour_of_last hchain.nodup hlast ((hchain.edge last z (.inl (List.mem_of_getLast? hlast))).1 hz)

theorem flip (hchain : g.Detached chain) (hg : g.TwoWay) : g.flip.Detached chain.reverse where
  nodup := List.nodup_reverse.2 hchain.nodup
  lt_size y hy := by simpa using hchain.lt_size y (List.mem_reverse.1 hy)
  edge y z h := by
    rw [List.mem_reverse, List.mem_reverse] at h
    rw [Edge, successors_flip, ← hg, ← List.reverse_infix, List.reverse_reverse]
    exact hchain.edge z y h.symm

end Detached

/-- What a splice behind a node does to the successors, and to paths. -/
structure Splices (g h : Graph) (chain : List NodeId) (x first last : NodeId) : Prop where
  anchor : h.successors x = [first]
  takes : h.successors last = g.successors x
  others : ∀ y, y ≠ x → y ≠ last → h.successors y = g.successors y
  matched : h.Matched
  paths : ∀ u v, u ∉ chain → v ∉ chain → (TransGen h.Edge u v ↔ TransGen g.Edge u v)

theorem Matched.spliceAfter (hg : g.Matched) (hx : x < g.size) (hchain : g.Detached chain) (hapart : x ∉ chain)
    (hfirst : chain.head? = some first) (hlast : chain.getLast? = some last) :
    g.Splices (g.spliceAfter x first last) chain x first last := by
  have hfirst' : first ∈ chain := List.mem_of_head? hfirst
  have hlast' : last ∈ chain := List.mem_of_getLast? hlast
  have hne : x ≠ last := fun heq ↦ hapart (heq ▸ hlast')
  have hlt : last < g.size := hchain.lt_size last hlast'
  have hanchor : (g.spliceAfter x first last).successors x = [first] := successors_spliceAfter_self hx hne
  have htakes : (g.spliceAfter x first last).successors last = g.successors x :=
    successors_spliceAfter_last hne hlt (hchain.successors_last hlast) (hg.successors x)
  have hothers (y : NodeId) (hy : y ≠ x) (hy' : y ≠ last) :
      (g.spliceAfter x first last).successors y = g.successors y :=
    successors_spliceAfter_of_ne hy hy'
  refine ⟨hanchor, htakes, hothers,
    hg.relinks (.spliceAfter hg.twoWay hx (hchain.lt_size first hfirst') hlt), fun u v hu hv ↦ ?_⟩
  refine Detours.transGen_iff ⟨fun y z ↦ ?_, fun y z ↦ hchain.closed, ?_, hapart, hfirst', hlast'⟩ hu hv
  · rw [Edge, Edge, Edge]
    by_cases hy : y = x
    · subst hy
      simp [hanchor, hne]
    · by_cases hy' : y = last
      · subst hy'
        simp [htakes, hne.symm]
      · simp [hothers y hy hy', hy, hy']
  · refine reflTransGen_of_neighbours hfirst hlast fun y z hyz ↦ ?_
    have hy : y ∈ chain := hyz.subset (by simp)
    have hy' : y ≠ last := by
      rintro rfl
      exact not_neighbour_of_last hchain.nodup hlast hyz
    rw [Edge, hothers y (fun heq ↦ hapart (heq ▸ hy)) hy']
    exact (hchain.edge y z (.inl hy)).2 hyz

/-- A splice before a node is a splice behind it, with all edges reversed. -/
theorem TwoWay.flip_spliceBefore (hg : g.TwoWay) (hfirst : first < g.size) :
    (g.spliceBefore x first last).flip = g.flip.spliceAfter x last first := by
  have hfold (preds : List NodeId) (h : Graph) (hh : h.TwoWay) (hsize : h.size = g.size)
      (hpreds : ∀ p ∈ preds, p < g.size) :
      (preds.foldl (fun h p ↦ (h.removeSuccessor p x).addSuccessor p first) h).TwoWay ∧
      (preds.foldl (fun h p ↦ (h.removeSuccessor p x).addSuccessor p first) h).flip =
        preds.foldl (fun h s ↦ (h.removeSuccessor x s).addSuccessor first s) h.flip := by
    induction preds generalizing h with
    | nil => exact ⟨hh, rfl⟩
    | cons p preds ih =>
      have hremove : (h.removeSuccessor p x).TwoWay := hh.removeSuccessor
      have hsize' : (h.removeSuccessor p x).size = g.size := size_removeSuccessor.trans hsize
      have hadd := hremove.addSuccessor (hsize' ▸ hpreds p List.mem_cons_self) (hsize' ▸ hfirst)
      have hrest := ih _ hadd (size_addSuccessor.trans hsize') fun q hq ↦ hpreds q (List.mem_cons_of_mem _ hq)
      refine ⟨hrest.1, hrest.2.trans ?_⟩
      rw [hremove.flip_addSuccessor, flip_removeSuccessor, List.foldl_cons]
  have hpreds : ∀ p ∈ g.predecessors x, p < g.size := fun p hp ↦ lt_size_of_mem_successors ((hg p x).2 hp)
  obtain ⟨htwoWay, hflip⟩ := hfold _ g hg rfl hpreds
  rw [Graph.spliceBefore, Graph.spliceAfter, htwoWay.flip_addSuccessor, hflip, successors_flip]

theorem TwoWay.transGen_flip (hg : g.TwoWay) {u v : NodeId} : TransGen g.flip.Edge u v ↔ TransGen g.Edge v u := by
  have hswap : g.flip.Edge = Function.swap g.Edge := by
    funext a b
    simp [Edge, Function.swap, ← hg b a]
  rw [hswap, transGen_swap]

/-- A chain that is spliced in behind a node stands between the node and all its former successors; spliced in before
it, between the node and all its former predecessors.  No other edge changes, and control gets from one of the other
nodes to another one if and only if it did before. -/
theorem splices_keep_paths (hg : g.Matched) (hx : x < g.size) (hchain : g.Detached chain) (hapart : x ∉ chain)
    (hfirst : chain.head? = some first) (hlast : chain.getLast? = some last) :
    ((g.spliceAfter x first last).successors x = [first] ∧
      (g.spliceAfter x first last).successors last = g.successors x ∧
      (∀ y, y ≠ x → y ≠ last → (g.spliceAfter x first last).successors y = g.successors y) ∧
      (g.spliceAfter x first last).Matched ∧
      ∀ u v, u ∉ chain → v ∉ chain → (TransGen (g.spliceAfter x first last).Edge u v ↔ TransGen g.Edge u v)) ∧
    ((g.spliceBefore x first last).predecessors x = [last] ∧
      (g.spliceBefore x first last).predecessors first = g.predecessors x ∧
      (∀ y, y ≠ x → y ≠ first → (g.spliceBefore x first last).predecessors y = g.predecessors y) ∧
      (g.spliceBefore x first last).Matched ∧
      ∀ u v, u ∉ chain → v ∉ chain → (TransGen (g.spliceBefore x first last).Edge u v ↔ TransGen g.Edge u v)) := by
  have hafter := hg.spliceAfter hx hchain hapart hfirst hlast
  refine ⟨⟨hafter.anchor, hafter.takes, hafter.others, hafter.matched, hafter.paths⟩, ?_⟩
  have hlt : first < g.size := hchain.lt_size first (List.mem_of_head? hfirst)
  have hlt' : last < g.size := hchain.lt_size last (List.mem_of_getLast? hlast)
  have hmatched : (g.spliceBefore x first last).Matched := hg.relinks (.spliceBefore hg.twoWay hx hlt hlt')
  have hbefore : g.flip.Splices (g.spliceBefore x first last).flip chain.reverse x last first := by
    rw [hg.twoWay.flip_spliceBefore hlt]
    exact hg.flip.spliceAfter (by simpa using hx) (hchain.flip hg.twoWay) (by simpa using hapart)
      (by simpa using hlast) (by simpa using hfirst)
  refine ⟨by simpa using hbefore.anchor, by simpa using hbefore.takes, fun y hy hy' ↦ by
    simpa using hbefore.others y hy hy', hmatched, fun u v hu hv ↦ ?_⟩
  rw [← hmatched.twoWay.transGen_flip, ← hg.twoWay.transGen_flip]
  exact hbefore.paths v u (by simpa using hv) (by simpa using hu)

/-- A node that leads to itself, and a chain of two nodes. -/
def loopAndChain : Graph :=
  sentinels.replay [.create .noop, .create .noop, .create .noop, .create .noop, .addSuccessor 2 2, .addSuccessor 2 5,
    .addSuccessor 3 4]

theorem splices_keep_paths_loopAndChain :
    (loopAndChain.spliceAfter 2 3 4).successors 4 = [2, 5] ∧ (loopAndChain.spliceBefore 2 3 4).predecessors 3 = [2] ∧
      TransGen (loopAndChain.spliceAfter 2 3 4).Edge 2 2 ∧ ¬TransGen (loopAndChain.spliceBefore 2 3 4).Edge 5 2 := by
  have hmatched : loopAndChain.Matched := by
    refine (Mirrors.sentinels.replay ?_).control
    exact ⟨by decide, by decide, by decide, by decide, by decide, by decide, by decide, trivial⟩
  have hedge (y z : NodeId) : loopAndChain.Edge y z ↔ (y = 2 ∧ (z = 2 ∨ z = 5)) ∨ (y = 3 ∧ z = 4) := by
    rcases y with _ | _ | _ | _ | _ | _ | y <;> simp [Edge, loopAndChain, replay, Edit.apply, create,
      addSuccessor, update, hasSuccessor, sentinels, successors]
  have hchain : loopAndChain.Detached [3, 4] := by
    refine ⟨by decide, by decide, fun y z h ↦ ?_⟩
    rw [hedge]
    constructor
    · rintro (⟨rfl, rfl | rfl⟩ | ⟨rfl, rfl⟩)
      · simp at h
      · simp at h
      · exact List.infix_rfl
    · intro hinfix
      have heq := hinfix.eq_of_length rfl
      simp_all
  obtain ⟨hafter, hbefore⟩ := splices_keep_paths (x := 2) hmatched (by decide) hchain (by decide) rfl rfl
  refine ⟨hafter.2.1, hbefore.2.1, (hafter.2.2.2.2 2 2 (by decide) (by decide)).2 (.single ((hedge 2 2).2 (by simp))),
    fun hpath ↦ ?_⟩
  obtain ⟨z, hz, -⟩ := TransGen.head'_iff.1 ((hbefore.2.2.2.2 5 2 (by decide) (by decide)).1 hpath)
  simp [hedge] at hz

end Graph

end PointsTo
