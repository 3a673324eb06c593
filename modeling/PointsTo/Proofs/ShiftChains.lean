import PointsTo.Proofs.Relocation
import PointsTo.Proofs.SharedConvergence

/-!
# Chains of shifts

A shift puts a known offset out of bounds for good: whatever is added to it afterwards, the sum stays out of bounds
or does not fit a word any more.  So two shifts in a row, each bounded by the size of the target or by the largest
offset, yield what one shift by the sum yields.  In the end a node that shifts a base points to the shifted pointers
of the base and to nothing else, hence chains of shifts may be folded.
-/

namespace PointsTo

namespace Offset

theorem known_add_known {a b : Nat} (ha : a < limit) (hb : b < limit) : known a ha + known b hb = ofNat (a + b) := rfl

theorem unknown_add (o : Offset) : unknown + o = unknown := rfl

theorem add_unknown (o : Offset) : o + unknown = unknown := by cases o <;> rfl

theorem ofNat_add_known (a : Nat) {b : Nat} (hb : b < limit) : ofNat a + known b hb = ofNat (a + b) := by
  by_cases ha : a < limit
  · rw [ofNat_eq_known ha, known_add_known]
  · rw [ofNat_eq_unknown (Nat.not_lt.1 ha), ofNat_eq_unknown (by omega), unknown_add]

protected theorem add_assoc (o a b : Offset) : o + a + b = o + (a + b) := by
  cases o with
  | unknown => rfl
  | known o ho =>
    cases a with
    | unknown => rfl
    | known a ha =>
      cases b with
      | unknown => rw [add_unknown, add_unknown, add_unknown]
      | known b hb =>
        rw [known_add_known, known_add_known, ofNat_add_known]
        by_cases hab : a + b < limit
        · rw [ofNat_eq_known hab, known_add_known, Nat.add_assoc]
        · rw [ofNat_eq_unknown (Nat.not_lt.1 hab), ofNat_eq_unknown (by omega), add_unknown]

/-- An offset out of bounds stays out of bounds, whatever is added to it. -/
theorem bound_add (maxOffset size : Nat) (o b : Offset) :
    (o.bound maxOffset size + b).bound maxOffset size = (o + b).bound maxOffset size := by
  cases o with
  | unknown => rfl
  | known o ho =>
    by_cases hout : (0 < size ∧ size ≤ o) ∨ (size = 0 ∧ maxOffset < o)
    · rw [bound, if_pos hout, unknown_add]
      cases b with
      | unknown => rfl
      | known b hb =>
        rw [known_add_known]
        by_cases hlt : o + b < limit
        · rw [ofNat_eq_known hlt, bound, bound, if_pos (by omega)]
        · rw [ofNat_eq_unknown (Nat.not_lt.1 hlt)]
    · rw [bound, if_neg hout]

end Offset

namespace Graph

variable {g h k : Graph} {maxOffset : Nat} {id base : NodeId} {amount : Offset}

/-- Two bounded shifts are one bounded shift by the sum. -/
theorem shifted_shifted (p : Pointer) (a b : Offset) :
    g.shifted maxOffset (g.shifted maxOffset p a) b = g.shifted maxOffset p (a + b) := by
  by_cases hs : p.isSentinel
  · simp [shifted, hs]
  · have hs' (o : Offset) : ¬(⟨p.target, o⟩ : Pointer).isSentinel = true := hs
    simp only [shifted, if_neg hs, if_neg (hs' _), Offset.bound_add, Offset.add_assoc]

/-- A node that shifts a base by an amount and points to nothing yet. -/
def Shifts (g : Graph) (id base : NodeId) (amount : Offset) : Prop :=
  ∃ n, g.nodes[id]? = some n ∧ n.kind = .gep ∧ n.operand? 0 = some base ∧ n.offset = amount ∧ n.pointsTo = ∅

/-- What a node points to. -/
def pts (g : Graph) (id : NodeId) : Set Pointer := {p | ∃ n, g.nodes[id]? = some n ∧ p ∈ n.pointsTo}

theorem Precedes.pts_subset (hgh : g.Precedes h) (id : NodeId) : g.pts id ⊆ h.pts id := by
  rintro p ⟨n, hn, hp⟩
  obtain ⟨m, hm, hnm⟩ := hgh.later hn
  exact ⟨m, hm, hnm.pointsTo p hp⟩

/-- The node points to shifted pointers of the base only. -/
def Derives (g h : Graph) (maxOffset : Nat) (id base : NodeId) (amount : Offset) : Prop :=
  h.pts id ⊆ (g.shifted maxOffset · amount) '' h.pts base

/-- The base may gain, and the node gains shifted pointers of the base. -/
theorem Derives.later (hd : g.Derives h maxOffset id base amount) (hhk : h.Precedes k)
    (hnew : k.pts id ⊆ h.pts id ∪ (g.shifted maxOffset · amount) '' h.pts base) :
    g.Derives k maxOffset id base amount := by
  intro p hp
  have hshifted : p ∈ (g.shifted maxOffset · amount) '' h.pts base := (hnew hp).elim (fun hold ↦ hd hold)
    fun hnew ↦ hnew
  exact Set.image_mono (hhk.pts_subset base) hshifted

end Graph

namespace Solve

variable {μ : Type} [MemoryModel μ] {s s' : Solving μ LoneGraph} {g : Graph} {maxOffset budget : Nat}
  {id base g₁ g₂ g₃ : NodeId} {amount a b : Offset}

theorem derives_visit {j : NodeId} {changed : Bool} (hg : g.Shifts id base amount) (hprecedes : g.Precedes s.host.graph)
    (hderives : g.Derives s.host.graph s.solver.maxOffset id base amount)
    (h : visit LoneGraph.linker j s = .ok changed s') :
    g.Derives s'.host.graph s.solver.maxOffset id base amount := by
  obtain ⟨n, m, e, t, u, linked, hv⟩ := visited LoneGraph.linker_lawful h
  refine (hv.preserves (P := fun k _ ↦ g.Derives k s.solver.maxOffset id base amount) ?_
    fun {host _ _ k _} hd _ _ hlink ↦ ?_).1
  · refine hderives.later (.gain j e.gained) ?_
    rintro p ⟨l, hl, hp⟩
    rw [Graph.nodes_update] at hl
    split at hl
    · rename_i hj
      obtain ⟨l, hl', rfl⟩ := Option.map_eq_some_iff.1 hl
      rcases OrderedSet.mem_union.1 hp with hold | hnew
      · exact .inl ⟨l, hl', hold⟩
      · -- The node itself was visited: what it gains was computed from the base.
        obtain ⟨n₀, hn₀, hkind, hbase, rfl, -⟩ := hg
        obtain rfl : n = l := Option.mem_unique hv.node (hj ▸ hl')
        have hnode := hprecedes.embeds.node hn₀ hl'
        obtain ⟨S, hS, hmem⟩ := Transfer.mem_gep (hnode.operand? hbase)
          (Transfer.effect_gep (hnode.kind ▸ hkind) hv.effect)
        obtain ⟨q, hq, rfl⟩ := (hmem p).1 hnew
        obtain ⟨l₀, hl₀, rfl⟩ := Graph.pointsTo_eq_ok_iff.1 hS
        refine .inr ⟨q, ⟨l₀, hl₀, hq⟩, ?_⟩
        simp only [Graph.shifted, hprecedes.embeds.sizeAt_eq, hnode.offset]
        rfl
    · exact .inl ⟨l, hl, hp⟩
  · refine hd.later (Graph.precedes_of_linking hlink) ?_
    rintro p ⟨l, hl, hp⟩
    have hsame : (Facts.found host.graph ∅).Covers k := Graph.covers_of_linking hlink fun _ n hn q hq ↦ ⟨n, hn, hq⟩
    exact .inl (hsame hl p hp)

theorem Leads.derives {journal : Journal} {y : Round × Solving μ LoneGraph} (hg : g.Shifts id base amount)
    (h : Leads LoneGraph.linker (outset LoneGraph.linker (lone μ g maxOffset journal)) y) :
    g.Precedes y.2.host.graph ∧ g.Derives y.2.host.graph maxOffset id base amount := by
  have hrun : g.Precedes y.2.host.graph ∧ y.2.solver.maxOffset = maxOffset ∧
      g.Derives y.2.host.graph maxOffset id base amount := by
    refine h.preserves LoneGraph.linker_lawful (P := fun s ↦ g.Precedes s.host.graph ∧ s.solver.maxOffset = maxOffset ∧
      g.Derives s.host.graph maxOffset id base amount) (fun {s t} halike hs ↦ ?_) (fun {j c s t} hvisit hs ↦ ?_)
      ⟨.refl g, rfl, ?_⟩
    · have hgraph : t.host.graph = s.host.graph := halike.graph
      rw [hgraph, halike.maxOffset]
      exact hs
    · obtain ⟨hprecedes, rfl, hderives⟩ := hs
      obtain ⟨n, m, e, t', u, linked, hv⟩ := visited LoneGraph.linker_lawful hvisit
      exact ⟨hprecedes.trans (visit_precedes hvisit), hv.maxOffset LoneGraph.linker_lawful,
        derives_visit hg hprecedes hderives hvisit⟩
    · rintro p ⟨n, hn, hp⟩
      obtain ⟨n', hn', -, -, -, hempty⟩ := hg
      rw [Option.mem_unique hn hn', hempty] at hp
      exact absurd hp OrderedSet.not_mem_empty
  exact ⟨hrun.1, hrun.2.2⟩

/-- In the end a shift points to the shifted pointers of its base and to nothing else. -/
theorem pts_of_shifts {journal : Journal} {stats : SolverStats} {s' : Solving SharedMemory LoneGraph}
    (h : run LoneGraph.linker budget (lone SharedMemory g maxOffset journal) = .ok stats s')
    (hg : g.Shifts id base amount) :
    s'.host.graph.pts id = (g.shifted maxOffset · amount) '' s'.host.graph.pts base := by
  obtain ⟨r, t, hleads, -, halike⟩ := leads_of_run LoneGraph.linker_lawful h
  have hgraph : s'.host.graph = t.host.graph := halike.graph
  obtain ⟨hprecedes, hderives⟩ := hleads.derives hg
  rw [← hgraph] at hprecedes hderives
  refine Set.Subset.antisymm hderives ?_
  rintro _ ⟨p, hp, rfl⟩
  obtain ⟨n, hn, hkind, hbase, rfl, -⟩ := hg
  obtain ⟨m, hm, hnm⟩ := hprecedes.embeds.later hn
  have hmem := ((found_solution h).2.2 hm).gep (hnm.kind ▸ hkind) (hnm.operand? hbase) p hp
  rwa [Graph.shifted, ← hprecedes.embeds.sizeAt_eq, ← hnm.offset] at hmem

/-- A shift of a shift and a shift of the base by the sum point to the same in the end, which solving reaches. -/
theorem shifts_fold (hg : g.WellFormed) (h₁ : g.Shifts g₁ base a) (h₂ : g.Shifts g₂ g₁ b)
    (h₃ : g.Shifts g₃ base (a + b)) (maxOffset : Nat) (journal : Journal) :
    (∃ bound, ∀ budget ≥ bound, ∃ stats s', run LoneGraph.linker budget (lone SharedMemory g maxOffset journal) =
    .ok stats s') ∧
    ∀ budget stats s', run LoneGraph.linker budget (lone SharedMemory g maxOffset journal) = .ok stats s' →
      ∃ S, s'.host.graph.pointsTo g₂ = .ok S ∧ s'.host.graph.pointsTo g₃ = .ok S := by
  obtain ⟨k, hk⟩ := exists_settled hg maxOffset journal
  refine ⟨run_of_leads LoneGraph.linker_lawful (leads_course k) hk, fun budget stats s' h ↦ ?_⟩
  have hsame : s'.host.graph.pts g₂ = s'.host.graph.pts g₃ := by
    rw [pts_of_shifts h h₂, pts_of_shifts h h₁, pts_of_shifts h h₃, Set.image_image]
    simp only [Graph.shifted_shifted]
  obtain ⟨r, t, hleads, -, halike⟩ := leads_of_run LoneGraph.linker_lawful h
  have hgraph : s'.host.graph = t.host.graph := halike.graph
  have hprecedes : g.Precedes s'.host.graph := hgraph ▸ (hleads.derives h₁).1
  obtain ⟨n₂, hn₂, -⟩ := h₂
  obtain ⟨n₃, hn₃, -⟩ := h₃
  obtain ⟨m₂, hm₂, -⟩ := hprecedes.later hn₂
  obtain ⟨m₃, hm₃, -⟩ := hprecedes.later hn₃
  have hset : m₂.pointsTo = m₃.pointsTo := by
    refine OrderedSet.ext fun p ↦ ?_
    have hp := Set.ext_iff.1 hsame p
    simpa [Graph.pts, hm₂, hm₃] using hp
  exact ⟨m₂.pointsTo, Graph.pointsTo_eq_ok_iff.2 ⟨m₂, hm₂, rfl⟩, Graph.pointsTo_eq_ok_iff.2 ⟨m₃, hm₃, hset.symm⟩⟩

/-- A phi that gets back what was shifted twice, so that the offsets climb out of an object of 24 bytes. -/
def staircase : Graph where
  nodes := Graph.sentinels.nodes ++
    [{ kind := .alloc, pointsTo := .singleton ⟨2, .zero⟩, size := 24, users := [3] },
      { kind := .phi, operands := [2, 5, 1], users := [4, 6] },
      { kind := .gep, operands := [3], offset := .ofNat 8, users := [5] },
      { kind := .gep, operands := [4], offset := .ofNat 1, users := [3] },
      { kind := .gep, operands := [3], offset := .ofNat 9 }]

theorem shifts_fold_staircase :
    (staircase.WellFormed ∧ staircase.Shifts 4 3 (.ofNat 8) ∧ staircase.Shifts 5 4 (.ofNat 1) ∧
      staircase.Shifts 6 3 (.ofNat 8 + .ofNat 1)) ∧
    (∃ bound, ∀ budget ≥ bound, ∃ stats s', run LoneGraph.linker budget (lone SharedMemory staircase 64) =
    .ok stats s') ∧ ∀ budget stats s', run LoneGraph.linker budget (lone SharedMemory staircase 64) = .ok stats s' →
      ∃ S, s'.host.graph.pointsTo 5 = .ok S ∧ s'.host.graph.pointsTo 6 = .ok S := by
  have hwf : staircase.WellFormed := by decide
  have h₁ : staircase.Shifts 4 3 (.ofNat 8) := ⟨_, rfl, rfl, rfl, rfl, rfl⟩
  have h₂ : staircase.Shifts 5 4 (.ofNat 1) := ⟨_, rfl, rfl, rfl, rfl, rfl⟩
  have h₃ : staircase.Shifts 6 3 (.ofNat 8 + .ofNat 1) := ⟨_, rfl, rfl, rfl, by decide, rfl⟩
  exact ⟨⟨hwf, h₁, h₂, h₃⟩, shifts_fold hwf h₁ h₂ h₃ 64 {}⟩

end Solve

end PointsTo
