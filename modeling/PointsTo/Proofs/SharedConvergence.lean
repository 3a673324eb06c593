import PointsTo.Proofs.LeastSolution
import PointsTo.Proofs.Stability

/-!
# Solving with shared memory converges

Shared memory only gains, and a write answers that something changed only if a cell has gained a
pointer.  A graph has finitely many nodes and there are finitely many offsets, so that its cells can
gain finitely often.  Hence the memory of a run comes to rest, and with it the run.
-/

namespace PointsTo

namespace SharedMemory

variable {m m₁ m₂ m' : SharedMemory} {b c : Bool}

/-- The second memory holds what the first holds, and the answer is false if it holds no more. -/
structure Gains (m : SharedMemory) (wrote : Bool) (m' : SharedMemory) : Prop where
  contents : m.objects.contents ≤ m'.objects.contents
  noticed : m'.objects.contents = m.objects.contents → wrote = false

theorem Gains.refl (m : SharedMemory) : Gains m false m := ⟨le_rfl, fun _ ↦ rfl⟩

theorem Gains.trans (h : Gains m b m₁) (h₁ : Gains m₁ c m₂) : Gains m (b || c) m₂ where
  contents := h.contents.trans h₁.contents
  noticed hsame := by
    -- What lies between equal contents is equal to them.
    have hmid : m₁.objects.contents = m.objects.contents := le_antisymm (hsame ▸ h₁.contents) h.contents
    rw [h.noticed hmid, h₁.noticed (hsame.trans hmid.symm)]
    rfl

theorem Adds.gains {added : Contents} (h : Adds added m b m') : Gains m b m' where
  contents t o := by
    rw [h.contents]
    exact Set.subset_union_left
  noticed hsame := by
    refine h.noticed fun t o p hp ↦ ?_
    rw [← hsame, h.contents]
    exact .inr hp

end SharedMemory

namespace Transfer

open SharedMemory

variable {g : Graph} {maxOffset : Nat} {id : NodeId} {n : Node} {m m' : SharedMemory} {b : Bool}

theorem store_gains (h : store g id n m = .ok (b, m')) : Gains m b m' := by
  refine (store_induction (P := Gains m) (R := fun _ _ _ ↦ True) ?_ h (.refl m)).1
  intro values _ _ p _ _ _ _ c m₁ hm₁
  exact ⟨hm₁.trans (store_adds p values m₁).gains, trivial, fun _ _ _ ↦ trivial⟩

theorem copyOne_gains {src dest : Pointer} (h : copyOne g id n src dest m = .ok (b, m')) : Gains m b m' := by
  rcases copyOne_cases h with ⟨-, rfl, rfl⟩ | ⟨-, -, hstore⟩ | ⟨-, -, hcopy⟩
  · exact .refl m'
  · have hadds := store_adds dest (.singleton .unknown) m
    change SharedMemory.store dest (.singleton .unknown) m = _ at hstore
    rw [hstore] at hadds
    exact hadds.gains
  · exact (copy_adds hcopy).gains

theorem memcpy_gains (h : memcpy g id n m = .ok (b, m')) : Gains m b m' := by
  refine (memcpy_induction (P := Gains m) (R := fun _ _ _ _ ↦ True) ?_ h (.refl m)).1
  intro _ _ _ src _ _ dest _ _ c m₁ w m₂ hm₁ hcopy
  exact ⟨hm₁.trans (copyOne_gains hcopy), trivial, fun _ _ _ _ _ ↦ trivial⟩

/-- Processing a node answers that memory changed only if a cell has gained a pointer. -/
theorem effect_gains {e : Effect SharedMemory} (h : effect g maxOffset id n m = .ok e) :
    Gains m e.wrote e.memory := by
  rcases effect_cases h with ⟨-, -, hm, hw⟩ | ⟨-, -, hm, hw⟩ | ⟨-, -, hm, hw⟩ | ⟨-, h, -⟩ | ⟨-, h, -⟩ |
    ⟨-, hm, hw, -⟩
  case inr.inr.inr.inl => exact store_gains h
  case inr.inr.inr.inr.inl => exact memcpy_gains h
  -- Nothing else writes.
  all_goals
    rw [hm, hw]
    exact .refl m

end Transfer

/-! ## Finitely many cells -/

/-- Anything among the targets of a graph of this size, in the memory of its nodes. -/
def Facts.inCells (size : Nat) : Facts where
  pts _ := {p | p.target < size}
  mem t _ := {p | t < size ∧ p.target < size}

theorem Facts.inCells_solves {g : Graph} {maxOffset size : Nat} (hsize : unknownTarget < size) :
    (inCells size).Solves g maxOffset := by
  have hnull : Pointer.null.target < size := lt_trans (by decide) hsize
  intro id n _
  refine ⟨fun _ _ _ _ hp ↦ hp, fun _ _ p hp ↦ ?_, fun _ _ _ _ _ ↦ hsize, fun _ _ p _ _ ↦ ?_,
    fun _ _ _ _ ht _ _ hp ↦ ⟨ht, hp⟩, fun _ _ _ _ _ _ _ ht _ ↦ ⟨ht, hsize⟩, fun _ _ _ p _ _ q ht _ place ↦ ?_⟩
  · unfold Graph.shifted
    split
    · exact hp
    · exact hp
  · rintro q (hq | hq | ⟨-, place, hq⟩ | ⟨-, rfl⟩)
    exacts [hq.2, hq.2, hq.2, hnull]
  · rintro v (⟨_, _, hv⟩ | ⟨-, -, rfl⟩)
    exacts [⟨ht, hv.2⟩, ⟨ht, hnull⟩]

/-- Contents are determined by the pointers in their cells, and these cells are finitely many. -/
theorem Facts.finite_inCells (size : Nat) : {mem : Contents | mem ≤ (inCells size).mem}.Finite := by
  have hcells : ({t : NodeId | t < size} ×ˢ (Set.univ : Set Offset) ×ˢ {p : Pointer | p.target < size}).Finite :=
    (Set.finite_lt_nat size).prod (Set.finite_univ.prod (Pointer.finite_lt size))
  refine (hcells.finite_subsets.preimage
    (f := fun mem : Contents ↦ {c : NodeId × Offset × Pointer | c.2.2 ∈ mem c.1 c.2.1}) ?_).subset ?_
  · intro mem _ mem' _ h
    funext t o
    ext p
    exact Set.ext_iff.1 h (t, o, p)
  · rintro mem hmem ⟨t, o, p⟩ hp
    obtain ⟨ht, hp⟩ := hmem t o hp
    exact ⟨ht, trivial, hp⟩

namespace Solve

variable {s : Solving SharedMemory LoneGraph} {g : Graph}

theorem tells_contents : Tells fun m : SharedMemory ↦ m.objects.contents := by
  intro g maxOffset id n m m' e henter heffect hsame
  obtain rfl : m = m' := Except.ok.inj henter
  exact ⟨(Transfer.effect_gains heffect).noticed hsame, rfl⟩

/-- The memory of a run only gains, and stays within the cells of the graph. -/
theorem step_contents (x : Round × Solving SharedMemory LoneGraph) (hx : InRange x)
    (hmem : x.2.solver.memory.objects.contents ≤ (Facts.inCells x.2.host.graph.size).mem) :
    x.2.solver.memory.objects.contents ≤ (step LoneGraph.linker x).2.solver.memory.objects.contents ∧
      (step LoneGraph.linker x).2.solver.memory.objects.contents ≤ (Facts.inCells x.2.host.graph.size).mem := by
  rcases step_spec x with halike | ⟨id, queue, changed, t, hp⟩
  · rw [halike.memory]
    exact ⟨le_rfl, hmem⟩
  · obtain ⟨n, m, e, u, v, linked, hv⟩ := visited LoneGraph.linker_lawful hp.visit
    obtain rfl : x.2.solver.memory = m := Except.ok.inj hv.enter
    have hmemory : (step LoneGraph.linker x).2.solver.memory = e.memory := by
      rw [hp.alike.memory, hv.memory_leave, (hv.links.frame LoneGraph.linker_lawful).1, hv.memory_gain]
      rfl
    rw [hmemory]
    refine ⟨(Transfer.effect_gains hv.effect).contents, ?_⟩
    exact (Transfer.effect_within (Facts.inCells_solves hx.sound.graph.sentinels) hx.sound.graph.covers hv.node
      (show Confined.Within x.2.solver.memory _ from hmem) hv.effect).2

theorem contents_course (hs : Sound s) (hg : Extends g s) (hfresh : s.solver.memory = MemoryModel.fresh) (k : Nat) :
    (course LoneGraph.linker s k).2.solver.memory.objects.contents ≤ (Facts.inCells g.size).mem := by
  induction k with
  | zero =>
    change s.solver.memory.objects.contents ≤ _
    rw [hfresh]
    exact MemoryMap.Within.empty
  | succ k ih =>
    have hsize : (course LoneGraph.linker s k).2.host.graph.size = g.size := (hg.course k).precedes.size.symm
    rw [course_succ]
    rw [← hsize] at ih ⊢
    exact (step_contents _ (InRange.course hs k) ih).2

/-- At some step the cells have gained for the last time. -/
theorem eventually_contents (hs : Sound s) (hg : Extends g s) (hfresh : s.solver.memory = MemoryModel.fresh) :
    ∀ᶠ k in Filter.atTop, (course LoneGraph.linker s (k + 1)).2.solver.memory.objects.contents =
      (course LoneGraph.linker s k).2.solver.memory.objects.contents := by
  have hwithin := contents_course hs hg hfresh
  refine exists_eventually_eq_iff.1 (eventually_eq_of_growing (R := fun a b : Contents ↦ a ≤ b)
    (f := fun k ↦ (course LoneGraph.linker s k).2.solver.memory.objects.contents)
    ((Facts.finite_inCells g.size).subset ?_) le_refl le_trans (fun _ _ ↦ le_antisymm) (.of_forall fun k ↦ ?_))
  · rintro _ ⟨k, rfl⟩
    exact hwithin k
  · have hsize : (course LoneGraph.linker s k).2.host.graph.size = g.size := (hg.course k).precedes.size.symm
    rw [course_succ]
    exact (step_contents _ (InRange.course hs k) (hsize ▸ hwithin k)).1

theorem exists_settled (hg : g.WellFormed) (maxOffset : Nat) (journal : Journal) :
    ∃ k, Settled (course LoneGraph.linker (lone SharedMemory g maxOffset journal) k).1 := by
  have hs : Sound (lone SharedMemory g maxOffset journal) := sound_lone hg maxOffset journal
  have hext : Extends g (lone SharedMemory g maxOffset journal) := .fresh g
  rw [exists_settled_iff @tells_contents hs hext]
  exact eventually_contents hs hext rfl

/-- A run with shared memory on a well-formed graph comes to a round that empties its queue and changes
nothing, and it succeeds with every budget from some budget on. -/
theorem sharedRun_converges (hg : g.WellFormed) (maxOffset : Nat) (journal : Journal) :
    (∃ k, Settled (course LoneGraph.linker (lone SharedMemory g maxOffset journal) k).1) ∧
      ∃ bound, ∀ budget ≥ bound, ∃ stats s',
        run LoneGraph.linker budget (lone SharedMemory g maxOffset journal) = .ok stats s' := by
  obtain ⟨k, hk⟩ := exists_settled hg maxOffset journal
  exact ⟨⟨k, hk⟩, run_of_leads LoneGraph.linker_lawful (leads_course k) hk⟩

/-- A pointer goes around a phi and an element address, and through memory: each time around its offset
grows, as does the place where a copy puts it. -/
def spiral : Graph where
  nodes := Graph.sentinels.nodes ++
    [{ kind := .alloc, pointsTo := .singleton ⟨2, .zero⟩, users := [3, 5], successors := [3] },
      { kind := .phi, operands := [2, 4, 7], users := [4, 6], predecessors := [2, 6], successors := [4] },
      { kind := .gep, operands := [3], offset := .ofNat 8, users := [3, 5], predecessors := [3], successors := [5] },
      { kind := .store, operands := [4, 2], predecessors := [4], successors := [6] },
      { kind := .memcpy, operands := [2, 3], length := .unknown, predecessors := [5], successors := [3, 7] },
      { kind := .load, operands := [2], users := [3], predecessors := [6] }]

theorem sharedRun_converges_spiral :
    spiral.WellFormed ∧ (∃ k, Settled (course LoneGraph.linker (lone SharedMemory spiral 4096) k).1) ∧
      ∃ bound, ∀ budget ≥ bound, ∃ stats s', run LoneGraph.linker budget (lone SharedMemory spiral 4096) =
      .ok stats s' := by
  have hwf : spiral.WellFormed := by decide
  exact ⟨hwf, sharedRun_converges hwf 4096 {}⟩

end Solve

end PointsTo
