import PointsTo.Proofs.Course

/-!
# Runs that repeat themselves

What a solver on a graph of its own does next depends on the graph, the memory, the links and the
queue, not on its counts, warnings and journal.  If it comes to a state that is alike to an earlier
one in these respects, it never comes to an end.
-/

namespace PointsTo.Solve

open Stateful

variable {μ σ α β : Type} {L : CallLinker σ}

theorem Alike.symm {s t : Solving μ σ} (h : Alike L s t) : Alike L t s :=
  ⟨h.graph.symm, h.memory.symm, h.linked.symm, h.maxOffset.symm⟩

/-- From states that are alike, the step gives the same answer and leads to states that are alike. -/
def Indifferent (L : CallLinker σ) (x : Solve μ σ α) : Prop :=
  ∀ ⦃s t s' : Solving μ σ⦄ ⦃a : α⦄, Alike L s t → x s = .ok a s' → ∃ t', x t = .ok a t' ∧ Alike L s' t'

namespace Indifferent

variable {x : Solve μ σ α} {f : α → Solve μ σ β}

theorem pure (a : α) : Indifferent L (Pure.pure a : Solve μ σ α) := by
  intro s t s' b hst h
  obtain ⟨rfl, rfl⟩ := pure_eq_ok_iff.1 h
  exact ⟨t, rfl, hst⟩

theorem bind (hx : Indifferent L x) (hf : ∀ a, Indifferent L (f a)) : Indifferent L (x >>= f) := by
  intro s t s' b hst h
  obtain ⟨a, s₁, hs₁, h⟩ := bind_eq_ok_iff.1 h
  obtain ⟨t₁, ht₁, halike⟩ := hx hst hs₁
  obtain ⟨t', ht', halike'⟩ := hf a halike h
  exact ⟨t', bind_eq_ok_iff.2 ⟨a, t₁, ht₁, ht'⟩, halike'⟩

theorem lift (q : Query α) : Indifferent L (liftM q : Solve μ σ α) := by
  intro s t s' a hst h
  obtain ⟨hq, rfl⟩ := lift_eq_ok_iff.1 h
  exact ⟨t, lift_eq_ok_iff.2 ⟨hq, rfl⟩, hst⟩

/-- Looking only at what states that are alike have in common. -/
theorem get_bind {f : Solving μ σ → Solve μ σ β} (hsame : ∀ s t, Alike L s t → f s = f t)
    (hf : ∀ s, Indifferent L (f s)) : Indifferent L (get >>= f) := by
  intro s t s' b hst h
  obtain ⟨_, _, hget, h⟩ := bind_eq_ok_iff.1 h
  obtain ⟨rfl, rfl⟩ := get_eq_ok_iff.1 hget
  obtain ⟨t', ht', halike⟩ := hf s hst h
  refine ⟨t', bind_eq_ok_iff.2 ⟨t, t, get_eq_ok_iff.2 ⟨rfl, rfl⟩, ?_⟩, halike⟩
  rwa [← hsame s t hst]

theorem modify {f : Solving μ σ → Solving μ σ} (hf : ∀ s t, Alike L s t → Alike L (f s) (f t)) :
    Indifferent L (modify f : Solve μ σ PUnit) := by
  intro s t s' a hst h
  obtain rfl := modify_eq_ok_iff.1 h
  exact ⟨f t, rfl, hf s t hst⟩

/-- A step without an answer that leads to a state like the one before. -/
theorem idle {x : Solve μ σ PUnit} (hx : ∀ s, Yields x s fun _ t ↦ Alike L s t) : Indifferent L x := by
  intro s t s' a hst h
  obtain ⟨_, s₁, hs₁, halike⟩ := hx s
  obtain ⟨_, t', ht', halike'⟩ := hx t
  obtain ⟨-, rfl⟩ := EStateM.Result.ok.inj (hs₁.symm.trans h)
  exact ⟨t', ht', halike.symm.trans (hst.trans halike')⟩

theorem foldlM {f : β → α → Solve μ σ β} (hf : ∀ b a, Indifferent L (f b a)) (l : List α) (b : β) :
    Indifferent L (l.foldlM f b) := by
  induction l generalizing b with
  | nil => exact pure b
  | cons a rest ih =>
    rw [List.foldlM_cons]
    exact bind (hf b a) ih

end Indifferent

variable {s t : Solving μ LoneGraph} {id : NodeId} {n : Node}

theorem graph_indifferent : Indifferent L (graph L : Solve μ σ Graph) :=
  .get_bind (fun s t hst ↦ by rw [hst.graph]) fun s ↦ .pure _

theorem note_indifferent (severity : Severity) (text : Unit → String) :
    Indifferent LoneGraph.linker (note LoneGraph.linker severity text : Solve μ LoneGraph Unit) :=
  .modify fun _ _ hst ↦ ⟨hst.graph, hst.memory, hst.linked, hst.maxOffset⟩

/-- Whether a warning is new makes a difference only to the warnings and the journal. -/
theorem warn_indifferent (w : Warning) :
    Indifferent LoneGraph.linker (warn LoneGraph.linker w : Solve μ LoneGraph Unit) :=
  .idle fun _ ↦ warn_total LoneGraph.linker_lawful w

theorem count_indifferent (f : SolverStats → SolverStats) : Indifferent L (count f : Solve μ σ Unit) :=
  .modify fun _ _ hst ↦ ⟨hst.graph, hst.memory, hst.linked, hst.maxOffset⟩

theorem setMemory_indifferent (m : μ) : Indifferent L (setMemory m : Solve μ σ Unit) :=
  .modify fun _ _ hst ↦ ⟨hst.graph, rfl, hst.linked, hst.maxOffset⟩

theorem gain_indifferent (gained : PointerSet) :
    Indifferent LoneGraph.linker (gain LoneGraph.linker id n gained : Solve μ LoneGraph Bool) := by
  unfold gain
  dsimp only
  split
  · refine .bind (.modify fun s t hst ↦ ⟨?_, hst.memory, hst.linked, hst.maxOffset⟩) fun _ ↦
      .bind (note_indifferent _ _) fun _ ↦ .pure _
    exact congrArg (Graph.update · _ _) hst.graph
  · exact .pure _

theorem linkTarget_indifferent (callSite : NodeId) (p : Pointer) :
    Indifferent LoneGraph.linker (linkTarget LoneGraph.linker callSite p : Solve μ LoneGraph Bool) := by
  unfold linkTarget
  refine .get_bind (fun s t hst ↦ by rw [hst.linked]) fun s ↦ ?_
  split
  · exact .pure _
  · refine .bind (.modify fun s t hst ↦ ⟨hst.graph, hst.memory, ?_, hst.maxOffset⟩) fun _ ↦ ?_
    · exact congrArg (OrderedSet.insert (callSite, p.target)) hst.linked
    · split
      · refine .bind graph_indifferent fun g ↦ .bind (.lift _) fun n ↦ ?_
        cases n.paired with
        | none => exact .pure _
        | some ret =>
          refine .bind (.modify fun s t hst ↦ ⟨?_, hst.memory, hst.linked, hst.maxOffset⟩) fun _ ↦ .pure _
          exact congrArg (Graph.addOperand · ret unknownTarget) hst.graph
      · refine .bind graph_indifferent fun g ↦ .bind (.lift _) fun n ↦ ?_
        split
        · exact .pure _
        · -- A graph on its own refuses.
          refine .bind (fun s t s' a hst h ↦ ?_) fun joined ↦ ?_
          · obtain ⟨host, hlink, rfl⟩ := onHost_eq h
            obtain ⟨rfl, rfl⟩ := pure_eq_ok_iff.1 hlink
            exact ⟨t, rfl, hst⟩
          · split
            · exact .bind (count_indifferent _) fun _ ↦ .pure _
            · exact .pure _

theorem linkTargets_indifferent (callSite : NodeId) :
    Indifferent LoneGraph.linker (linkTargets LoneGraph.linker callSite n : Solve μ LoneGraph Bool) := by
  unfold linkTargets
  cases n.operand? 0 with
  | none => exact .pure _
  | some callee =>
    refine .bind graph_indifferent fun g ↦ .bind (.lift _) fun targets ↦ .foldlM (fun changed p ↦ ?_) _ _
    exact .bind (linkTarget_indifferent callSite p) fun _ ↦ .pure _

variable [MemoryModel μ]

theorem act_indifferent (g : Graph) :
    Indifferent LoneGraph.linker (act LoneGraph.linker g id n : Solve μ LoneGraph Bool) := by
  unfold act
  refine .get_bind (fun s t hst ↦ by dsimp only; rw [hst.memory, hst.maxOffset]) fun s ↦
    .bind (.lift _) fun e ↦
    .bind (setMemory_indifferent _) fun _ ↦ .bind (gain_indifferent _) fun grew ↦ ?_
  have hrest (linked : Bool) : Indifferent LoneGraph.linker (get >>= fun s ↦ do
      setMemory (MemoryModel.leave id s.solver.memory).2
      return e.wrote || grew || linked || (MemoryModel.leave id s.solver.memory).1 : Solve μ LoneGraph Bool) :=
    .get_bind (fun s t hst ↦ by rw [hst.memory]) fun s ↦ .bind (setMemory_indifferent _) fun _ ↦ .pure _
  split
  · exact .bind (linkTargets_indifferent id) hrest
  · exact .bind (.pure _) hrest

theorem visit_indifferent (id : NodeId) :
    Indifferent LoneGraph.linker (visit LoneGraph.linker id : Solve μ LoneGraph Bool) := by
  rw [visit_eq]
  refine .bind graph_indifferent fun g ↦ .get_bind (fun s t hst ↦ by rw [hst.memory]) fun s ↦
    .bind (.lift _) fun m ↦ .bind (setMemory_indifferent m) fun _ ↦ .bind (.lift _) fun n ↦
    .bind (.lift _) fun strays ↦ ?_
  split
  · exact .bind (warn_indifferent _) fun _ ↦ act_indifferent g
  · exact act_indifferent g

theorem advance_indifferent (r : Round) :
    Indifferent LoneGraph.linker (advance LoneGraph.linker r : Solve μ LoneGraph (Option Round)) := by
  unfold advance
  cases r.queue.pop with
  | none => exact .pure _
  | some next =>
    refine .bind graph_indifferent fun g ↦ .bind (visit_indifferent _) fun changed ↦
      .bind (count_indifferent _) fun _ ↦ .bind graph_indifferent fun g' ↦ ?_
    dsimp only
    split
    · exact .bind (count_indifferent _) fun _ ↦ .bind (.lift _) fun n ↦ .pure _
    · exact .pure _

/-! ## Periodic courses -/

/-- The same round, with states that are alike. -/
def Repeats (x y : Round × Solving μ LoneGraph) : Prop := x.1 = y.1 ∧ Alike LoneGraph.linker x.2 y.2

variable {x y z x' : Round × Solving μ LoneGraph}

omit [MemoryModel μ] in
theorem Repeats.symm (h : Repeats x y) : Repeats y x := ⟨h.1.symm, h.2.symm⟩

omit [MemoryModel μ] in
theorem Repeats.trans (hxy : Repeats x y) (hyz : Repeats y z) : Repeats x z :=
  ⟨hxy.1.trans hyz.1, hxy.2.trans hyz.2⟩

theorem repeats_iff {x y : Round × Solving NodeMemory LoneGraph} :
    Repeats x y ↔
      (x.1.queue.front = y.1.queue.front ∧ x.1.queue.back = y.1.queue.back ∧
        x.1.queue.waiting = y.1.queue.waiting ∧ x.1.changed = y.1.changed) ∧
      y.2.host.graph = x.2.host.graph ∧
      (y.2.solver.memory.maps = x.2.solver.memory.maps ∧ y.2.solver.memory.current = x.2.solver.memory.current) ∧
      y.2.solver.linked = x.2.solver.linked ∧ y.2.solver.maxOffset = x.2.solver.maxOffset := by
  obtain ⟨⟨⟨front, back, waiting⟩, changed⟩, s⟩ := x
  obtain ⟨⟨⟨front', back', waiting'⟩, changed'⟩, t⟩ := y
  constructor
  · rintro ⟨hround, hgraph, hmemory, hlinked, hmax⟩
    obtain ⟨⟨rfl, rfl, rfl⟩, rfl⟩ := hround
    exact ⟨⟨rfl, rfl, rfl, rfl⟩, hgraph, hmemory ▸ ⟨rfl, rfl⟩, hlinked, hmax⟩
  · rintro ⟨⟨rfl, rfl, rfl, rfl⟩, hgraph, ⟨hmaps, hcurrent⟩, hlinked, hmax⟩
    exact ⟨rfl, hgraph, congrArg₂ NodeMemory.mk hmaps hcurrent, hlinked, hmax⟩

instance (x y : Round × Solving NodeMemory LoneGraph) : Decidable (Repeats x y) :=
  decidable_of_iff _ repeats_iff.symm

theorem Repeats.next (hxy : Repeats x y) (hx : next LoneGraph.linker x = some x') :
    ∃ y', next LoneGraph.linker y = some y' ∧ Repeats x' y' := by
  obtain ⟨r, s⟩ := x
  obtain ⟨r', t⟩ := y
  obtain ⟨rfl, hst⟩ : r = r' ∧ Alike LoneGraph.linker s t := hxy
  obtain ⟨r', s'⟩ := x'
  rcases next_step LoneGraph.linker_lawful hx with hadvance | ⟨hpop, hchanged, rfl, rfl⟩
  · obtain ⟨t', ht', halike⟩ := advance_indifferent r hst hadvance
    exact ⟨(r', t'), next_of_advance ht', rfl, halike⟩
  · have halike : Alike LoneGraph.linker (endRound LoneGraph.linker true s) (endRound LoneGraph.linker true t) :=
      ⟨hst.graph, hst.memory, hst.linked, hst.maxOffset⟩
    exact ⟨_, next_of_pop_none hpop hchanged, congrArg Round.start halike.graph.symm, halike⟩

theorem Repeats.step (hxy : Repeats x y) : Repeats (step LoneGraph.linker x) (step LoneGraph.linker y) := by
  rcases step_cases (L := LoneGraph.linker) x with hx | ⟨hx, hsame⟩
  · obtain ⟨y', hy', hrepeats⟩ := hxy.next hx
    rwa [Solve.step.eq_def _ y, hy', Option.getD_some]
  · rcases step_cases (L := LoneGraph.linker) y with hy | ⟨-, hsame'⟩
    · obtain ⟨x', hx', -⟩ := hxy.symm.next hy
      rw [hx] at hx'
      contradiction
    · rwa [hsame, hsame']

theorem Repeats.iterate (hxy : Repeats x y) (k : Nat) :
    Repeats ((Solve.step LoneGraph.linker)^[k] x) ((Solve.step LoneGraph.linker)^[k] y) := by
  induction k with
  | zero => exact hxy
  | succ k ih =>
    rw [Function.iterate_succ_apply', Function.iterate_succ_apply']
    exact ih.step

/-- A run that comes again to the state of a round that it was in before succeeds with no budget. -/
theorem run_ne_ok_of_repeats {s s' : Solving μ LoneGraph} {budget i period : Nat} {stats : SolverStats}
    (hperiod : 0 < period) (hopen : ¬Settled (course LoneGraph.linker s i).1)
    (hrepeats : Repeats (course LoneGraph.linker s i) (course LoneGraph.linker s (i + period))) :
    run LoneGraph.linker budget s ≠ .ok stats s' := by
  -- Each time around ends in a state like the first.
  have hrounds (m : Nat) :
      Repeats (course LoneGraph.linker s i) (course LoneGraph.linker s (i + m * period)) := by
    induction m with
    | zero => exact ⟨by rw [Nat.zero_mul, Nat.add_zero], by rw [Nat.zero_mul, Nat.add_zero]; exact .refl _⟩
    | succ m ih =>
      have hnext := ih.iterate period
      simp only [course, ← Function.iterate_add_apply] at hnext hrepeats ⊢
      rw [Nat.add_comm period i, Nat.add_comm period] at hnext
      rw [Nat.succ_mul, ← Nat.add_assoc]
      exact hrepeats.trans hnext
  intro hrun
  obtain ⟨k, hk⟩ := (run_iff_settled LoneGraph.linker_lawful).1 ⟨budget, stats, s', hrun⟩
  have hlater : k ≤ i + k * period := Nat.le_add_left_of_le (Nat.le_mul_of_pos_right k hperiod)
  rw [← course_of_settled hlater hk, ← (hrounds k).1] at hk
  exact hopen hk

end PointsTo.Solve
