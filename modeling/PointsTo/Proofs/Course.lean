import Mathlib.Logic.Relation
import PointsTo.Proofs.Linking

/-!
# The course of a run

A run is a sequence of states of a round: each state takes the next waiting node and processes it, or
starts a new round when no node waits and the last round has changed something.  The budgets of a run
only bound how long this goes on: a run succeeds with some budget if and only if the sequence comes to
a round that changes nothing.
-/

namespace PointsTo

open Stateful

namespace Worklist

variable {α : Type} [TotalOrder α] {q q' : Worklist α} {a : α}

theorem pop_eq_none (h : q.pop = none) : q.toList = [] := by
  unfold pop at h
  split at h
  · contradiction
  · rename_i hfront
    split at h
    · contradiction
    · rename_i hback
      rw [toList, hfront, hback, List.append_nil]

theorem pop_eq_some (h : q.pop = some (a, q')) : q.toList = a :: q'.toList := by
  unfold pop at h
  split at h
  · rename_i front hfront
    obtain ⟨rfl, rfl⟩ := Prod.mk.inj (Option.some.inj h)
    rw [toList, hfront, List.cons_append]
    rfl
  · rename_i hfront
    split at h
    · rename_i front hback
      obtain ⟨rfl, rfl⟩ := Prod.mk.inj (Option.some.inj h)
      rw [toList, hfront, hback]
      simp [toList]
    · contradiction

/-- Items that do not wait yet and are all different join the queue in their order. -/
theorem toList_extend {items : List α} (hnodup : items.Nodup) (hfresh : ∀ a ∈ items, ¬a ∈ q.waiting) :
    (q.extend items).toList = q.toList ++ items := by
  induction items generalizing q with
  | nil => simp [extend]
  | cons a rest ih =>
    obtain ⟨ha, hrest⟩ := List.nodup_cons.1 hnodup
    have hpush : (q.push a).2 = { q with back := a :: q.back, waiting := q.waiting.insert a } := by
      have hwait := OrderedSet.contains_eq_false_iff.2 (hfresh a List.mem_cons_self)
      simp [push, hwait]
    have hfresh' : ∀ b ∈ rest, ¬b ∈ (q.push a).2.waiting := by
      intro b hb hmem
      rw [hpush] at hmem
      rcases OrderedSet.mem_insert.1 hmem with rfl | hmem
      · exact ha hb
      · exact hfresh b (List.mem_cons_of_mem _ hb) hmem
    calc (q.extend (a :: rest)).toList = ((q.push a).2.extend rest).toList := rfl
      _ = (q.push a).2.toList ++ rest := ih hrest hfresh'
      _ = q.toList ++ a :: rest := by
        rw [hpush]
        simp [toList]

theorem mem_toList_extend {items : List α} {b : α} (hb : b ∈ (q.extend items).toList) :
    b ∈ q.toList ∨ b ∈ items := by
  induction items generalizing q with
  | nil => exact .inl hb
  | cons a rest ih =>
    rcases ih hb with hb | hb
    · dsimp only [push] at hb
      split at hb
      · exact .inl hb
      · simp only [toList, List.reverse_cons, ← List.append_assoc, List.mem_append, List.mem_singleton] at hb
        rcases hb with hb | rfl
        · exact .inl (List.mem_append.2 hb)
        · exact .inr List.mem_cons_self
    · exact .inr (List.mem_cons_of_mem _ hb)

end Worklist

namespace Solve

variable {μ σ : Type} {L : CallLinker σ} {s s' t : Solving μ σ} {r r' : Round}

theorem Round.toList_start (g : Graph) : (Round.start g).queue.toList = g.ids :=
  Worklist.toList_extend (q := {}) List.nodup_range fun _ _ ↦ OrderedSet.not_mem_empty

/-- A round that is over is counted and journaled. -/
def endRound (L : CallLinker σ) (changed : Bool) (s : Solving μ σ) : Solving μ σ :=
  let rounds := s.solver.stats.rounds + 1
  { solver := { s.solver with stats := { s.solver.stats with rounds } }
    host := L.onJournal (·.note .debug fun _ ↦ s!"PTA: round {rounds} done, changed: {changed}") s.host }

theorem endRound_alike (hL : L.Lawful) {changed : Bool} : Alike L s (endRound L changed s) :=
  ⟨hL.graph_onJournal _ _, rfl, rfl, rfl⟩

variable [MemoryModel μ]

theorem round_eq (budget : Nat) : (round L budget : Solve μ σ Bool) = (do
    let changed ← drain L budget (.start (← graph L))
    modify (endRound L changed)
    return changed) := rfl

/-! ## One step -/

/-- The first state of a run. -/
def outset (L : CallLinker σ) (s : Solving μ σ) : Round × Solving μ σ := (.start (L.graph s.host), s)

/-- The state after the next node was processed, or at the start of the next round.  There is none
after a round that changes nothing, nor if processing fails. -/
def next (L : CallLinker σ) (x : Round × Solving μ σ) : Option (Round × Solving μ σ) :=
  match advance L x.1 x.2 with
  | .ok (some r) s => some (r, s)
  | .ok none s =>
    if x.1.changed then some (outset L (endRound L true s)) else none
  | .error _ _ => none

theorem advance_of_pop_none (h : r.queue.pop = none) : advance L r s = .ok none s := by
  unfold advance
  rw [h]
  rfl

/-- A step that takes a node from the queue; nothing is queued without a change. -/
structure Processed (L : CallLinker σ) (r : Round) (s : Solving μ σ) (r' : Round) (s' : Solving μ σ)
    (id : NodeId) (queue : Worklist NodeId) (changed : Bool) (t : Solving μ σ) : Prop where
  pop : r.queue.pop = some (id, queue)
  visit : visit L id s = .ok changed t
  alike : Alike L t s'
  quiet : changed = false → r' = { r with queue }
  busy : changed = true → r'.changed = true

theorem advance_cases (hL : L.Lawful) {x : Option Round} (h : advance L r s = .ok x s') :
    (x = none ∧ r.queue.pop = none ∧ s' = s) ∨
      ∃ r', x = some r' ∧ ∃ id queue changed t, Processed L r s r' s' id queue changed t := by
  unfold advance at h
  cases hpop : r.queue.pop with
  | none =>
    simp only [hpop, pure_eq_ok_iff] at h
    exact .inl ⟨h.1.symm, rfl, h.2.symm⟩
  | some next =>
    obtain ⟨id, queue⟩ := next
    simp only [hpop, bind_eq_ok_iff] at h
    obtain ⟨_, _, hg, changed, t, hvisit, _, t₁, hcount, _, _, hg', h⟩ := h
    obtain ⟨rfl, rfl⟩ := graph_eq hg
    obtain ⟨rfl, rfl⟩ := graph_eq hg'
    have halike := count_alike (L := L) hcount
    have hsame : changed = false → L.graph t₁.host = L.graph s.host := by
      rintro rfl
      obtain ⟨_, _, _, hrested⟩ := rested hL hvisit
      exact halike.graph.trans hrested.graph
    split at h
    · rename_i hchanged
      simp only [bind_eq_ok_iff, lift_eq_ok_iff, pure_eq_ok_iff] at h
      obtain ⟨_, t₂, hcount', n, _, ⟨-, rfl⟩, rfl, rfl⟩ := h
      refine .inr ⟨_, rfl, id, queue, changed, t, hpop, hvisit, halike.trans (count_alike hcount'),
        fun hfalse ↦ ?_, fun _ ↦ rfl⟩
      simp [hfalse, hsame hfalse] at hchanged
    · rename_i hchanged
      obtain ⟨rfl, rfl⟩ := pure_eq_ok_iff.1 h
      refine .inr ⟨_, rfl, id, queue, changed, t, hpop, hvisit, halike, fun hfalse ↦ ?_, fun htrue ↦ ?_⟩
      · -- No nodes were added, so none are queued.
        rw [hsame hfalse, Nat.sub_self]
        rfl
      · simp [htrue] at hchanged

theorem next_of_advance (h : advance L r s = .ok (some r') s') : next L (r, s) = some (r', s') := by
  unfold next
  rw [h]

theorem next_of_pop_none (hpop : r.queue.pop = none) (hchanged : r.changed = true) :
    next L (r, s) = some (outset L (endRound L true s)) := by
  unfold next
  rw [advance_of_pop_none hpop, hchanged]
  rfl

/-- A step processes a node, or starts a round after one that has changed something. -/
theorem next_step (hL : L.Lawful) (h : next L (r, s) = some (r', s')) :
    advance L r s = .ok (some r') s' ∨
      (r.queue.pop = none ∧ r.changed = true ∧ r' = .start (L.graph s'.host) ∧ s' = endRound L true s) := by
  unfold next at h
  split at h
  · rename_i r₁ t hadvance
    obtain ⟨rfl, rfl⟩ := Prod.mk.inj (Option.some.inj h)
    exact .inl hadvance
  · rename_i t hadvance
    split at h
    · rename_i hchanged
      obtain ⟨rfl, rfl⟩ := Prod.mk.inj (Option.some.inj h)
      rcases advance_cases hL hadvance with ⟨-, hpop, rfl⟩ | ⟨r₂, hsome, -⟩
      · exact .inr ⟨hpop, hchanged, rfl, rfl⟩
      · contradiction
    · contradiction
  · contradiction

theorem next_cases (hL : L.Lawful) (h : next L (r, s) = some (r', s')) :
    (∃ id queue changed t, Processed L r s r' s' id queue changed t) ∨
      (r.queue.pop = none ∧ r.changed = true ∧ r' = .start (L.graph s'.host) ∧ s' = endRound L true s) := by
  rcases next_step hL h with hadvance | hstart
  · rcases advance_cases hL hadvance with ⟨hnone, -⟩ | ⟨r₁, hsome, hprocessed⟩
    · contradiction
    · exact .inl (Option.some.inj hsome ▸ hprocessed)
  · exact .inr hstart

/-! ## Many steps -/

/-- The second state comes after the first in the course of a run. -/
def Leads (L : CallLinker σ) : Round × Solving μ σ → Round × Solving μ σ → Prop :=
  Relation.ReflTransGen fun x y ↦ next L x = some y

/-- What is kept by processing a node and does not depend on counts and journal is kept by a run. -/
theorem Leads.preserves (hL : L.Lawful) {P : Solving μ σ → Prop}
    (halike : ∀ {s t}, Alike L s t → P s → P t)
    (hvisit : ∀ {id changed s t}, visit L id s = .ok changed t → P s → P t)
    {x y : Round × Solving μ σ} (h : Leads L x y) (hx : P x.2) : P y.2 := by
  induction h with
  | refl => exact hx
  | @tail y z _ hyz ih =>
    obtain ⟨r, s⟩ := y
    obtain ⟨r', s'⟩ := z
    rcases next_cases hL hyz with ⟨id, queue, changed, t, hp⟩ | ⟨-, -, -, rfl⟩
    · exact halike hp.alike (hvisit hp.visit ih)
    · exact halike (endRound_alike hL) ih

/-- Nodes were visited one after the other without any change. -/
inductive Quiet (L : CallLinker σ) : List NodeId → Solving μ σ → Solving μ σ → Prop
  | none (s : Solving μ σ) : Quiet L [] s s
  | more {done : List NodeId} {id : NodeId} {s t t' u : Solving μ σ} (h : Quiet L done s t)
      (hvisit : visit L id t = .ok false t') (halike : Alike L t' u) : Quiet L (done ++ [id]) s u

/-- All visits without a change find the same graph, and the same memory in any respect `K` that such
visits keep. -/
theorem Quiet.rested (hL : L.Lawful) {K : μ → Prop} {done : List NodeId} (h : Quiet L done s t)
    (hkeep : ∀ {id : NodeId} {u u' : Solving μ σ} {n : Node} {m : μ} {e : Effect μ},
      Rested L id u u' n m e → K u.solver.memory → K u'.solver.memory)
    (hs : K s.solver.memory) :
    L.graph t.host = L.graph s.host ∧ t.solver.maxOffset = s.solver.maxOffset ∧ K t.solver.memory ∧
      ∀ id ∈ done, ∃ u u' n m e, Rested L id u u' n m e ∧ L.graph u.host = L.graph s.host ∧
        u.solver.maxOffset = s.solver.maxOffset ∧ K u.solver.memory ∧ u'.solver.linked ⊆ t.solver.linked := by
  induction h with
  | none s => exact ⟨rfl, rfl, hs, by simp⟩
  | @more done id s t t' u _ hvisit halike ih =>
    obtain ⟨hgraph, hmax, hK, hdone⟩ := ih hs
    obtain ⟨n, m, e, hr⟩ := Solve.rested hL hvisit
    refine ⟨halike.graph.trans (hr.graph.trans hgraph), halike.maxOffset.trans (hr.maxOffset.trans hmax),
      halike.memory ▸ hkeep hr hK, fun j hj ↦ ?_⟩
    rcases List.mem_append.1 hj with hj | hj
    · obtain ⟨v, v', n', m', e', hr', hgraph', hmax', hK', hlinked⟩ := hdone j hj
      exact ⟨v, v', n', m', e', hr', hgraph', hmax', hK', fun x hx ↦ halike.linked ▸ hr.linked x (hlinked x hx)⟩
    · obtain rfl := List.mem_singleton.1 hj
      exact ⟨t, t', n, m, e, hr, hgraph, hmax, hK, fun x hx ↦ halike.linked ▸ hx⟩

/-- A round that has changed nothing yet has visited, without a change, the nodes that wait no more. -/
theorem Leads.quiet (hL : L.Lawful) (h : Leads L (outset L s) (r, t)) (hr : r.changed = false) :
    ∃ t₀ done, Leads L (outset L s) (outset L t₀) ∧ Quiet L done t₀ t ∧
      done ++ r.queue.toList = (L.graph t₀.host).ids := by
  suffices hgen : ∀ y, Leads L (outset L s) y → y.1.changed = false →
      ∃ t₀ done, Leads L (outset L s) (outset L t₀) ∧ Quiet L done t₀ y.2 ∧
        done ++ y.1.queue.toList = (L.graph t₀.host).ids from hgen (r, t) h hr
  intro y hy
  induction hy with
  | refl => exact fun _ ↦ ⟨s, [], .refl, .none s, Round.toList_start _⟩
  | @tail y z hy hyz ih =>
    obtain ⟨r, t⟩ := y
    obtain ⟨r', t'⟩ := z
    intro hz
    rcases next_cases hL hyz with ⟨id, queue, changed, t₁, hp⟩ | ⟨-, -, rfl, rfl⟩
    · cases changed with
      | true => exact absurd (hp.busy rfl) (by simpa using hz)
      | false =>
        obtain rfl := hp.quiet rfl
        obtain ⟨t₀, done, hstart, hquiet, hdone⟩ := ih hz
        refine ⟨t₀, done ++ [id], hstart, hquiet.more hp.visit hp.alike, ?_⟩
        rw [← hdone, Worklist.pop_eq_some hp.pop]
        simp
    · exact ⟨_, [], hy.tail hyz, .none _, Round.toList_start _⟩

/-! ## Runs -/

/-- No node waits, and the round has changed nothing. -/
def Settled (r : Round) : Prop := r.queue.pop = none ∧ r.changed = false

instance (r : Round) : Decidable (Settled r) := inferInstanceAs (Decidable (_ ∧ _))

/-- The rest of a run: what is left of a round, and the rounds after it. -/
def resume (L : CallLinker σ) (left budget more : Nat) (r : Round) : Solve μ σ Unit := do
  let changed ← drain L left r
  modify (endRound L changed)
  if changed then rounds L budget more

theorem rounds_succ (budget more : Nat) :
    rounds L budget (more + 1) s = resume L budget budget more (.start (L.graph s.host)) s := by
  have hrounds : (rounds L budget (more + 1) : Solve μ σ Unit) = (do
      let g ← graph L
      resume L budget budget more (.start g)) := by
    simp only [rounds, round_eq, resume, bind_assoc, pure_bind]
  rw [hrounds]
  rfl

theorem resume_of_pop_none {left budget more : Nat} (hpop : r.queue.pop = none) :
    resume L (left + 1) budget more r s =
      if r.changed then rounds L budget more (endRound L true s) else .ok () (endRound L false s) := by
  have hdrain : drain L (left + 1) r s = .ok r.changed s := by
    change EStateM.bind _ _ s = _
    unfold EStateM.bind
    rw [advance_of_pop_none hpop]
    rfl
  change EStateM.bind _ _ s = _
  unfold EStateM.bind
  rw [hdrain]
  cases r.changed <;> rfl

theorem resume_of_advance {left budget more : Nat} (hadvance : advance L r s = .ok (some r') s') :
    resume L (left + 1) budget more r s = resume L left budget more r' s' := by
  have hdrain : drain L (left + 1) r s = drain L left r' s' := by
    change EStateM.bind _ _ s = _
    unfold EStateM.bind
    rw [hadvance]
  change EStateM.bind _ _ s = EStateM.bind _ _ s'
  unfold EStateM.bind
  rw [hdrain]

/-- A run that succeeds comes to a round that changes nothing. -/
theorem leads_of_rounds (hL : L.Lawful) {budget more : Nat} (h : rounds L budget more s = .ok () s') :
    ∃ r t, Leads L (outset L s) (r, t) ∧ Settled r ∧ s' = endRound L false t := by
  induction more generalizing s with
  | zero => contradiction
  | succ more ih =>
    rw [rounds_succ] at h
    suffices hresume : ∀ left r t, resume L left budget more r t = .ok () s' →
        ∃ r₁ t₁, Leads L (r, t) (r₁, t₁) ∧ Settled r₁ ∧ s' = endRound L false t₁ from hresume budget _ s h
    intro left
    induction left with
    | zero => exact fun r t h ↦ by contradiction
    | succ left ihLeft =>
      intro r t h
      cases hadvance : advance L r t with
      | error e t' =>
        exfalso
        have hdrain : drain L (left + 1) r t = .error e t' := by
          change EStateM.bind _ _ t = _
          unfold EStateM.bind
          rw [hadvance]
        change EStateM.bind _ _ t = _ at h
        unfold EStateM.bind at h
        rw [hdrain] at h
        contradiction
      | ok x t' =>
        rcases advance_cases hL hadvance with ⟨rfl, hpop, rfl⟩ | ⟨r', rfl, -⟩
        · rw [resume_of_pop_none hpop] at h
          cases hchanged : r.changed with
          | false =>
            rw [hchanged] at h
            exact ⟨r, t', .refl, ⟨hpop, hchanged⟩, (EStateM.Result.ok.inj h).2.symm⟩
          | true =>
            rw [hchanged] at h
            obtain ⟨r₁, t₁, hleads, hsettled, hs'⟩ := ih h
            exact ⟨r₁, t₁, .head (next_of_pop_none hpop hchanged) hleads, hsettled, hs'⟩
        · rw [resume_of_advance hadvance] at h
          obtain ⟨r₁, t₁, hleads, hsettled, hs'⟩ := ihLeft r' t' h
          exact ⟨r₁, t₁, .head (next_of_advance hadvance) hleads, hsettled, hs'⟩

/-- Conversely, all budgets from some bound on are enough for a course that comes to such a round. -/
theorem resume_of_leads (hL : L.Lawful) {x : Round × Solving μ σ} (h : Leads L x (r, t)) (hr : Settled r) :
    ∃ bound, ∀ left budget more, bound ≤ left → bound ≤ budget → bound ≤ more →
      resume L left budget more x.1 x.2 = .ok () (endRound L false t) := by
  induction h using Relation.ReflTransGen.head_induction_on with
  | refl =>
    refine ⟨1, fun left budget more hleft _ _ ↦ ?_⟩
    obtain ⟨left, rfl⟩ := Nat.exists_eq_add_of_le' hleft
    rw [resume_of_pop_none hr.1, hr.2]
    rfl
  | @head x y hxy _ ih =>
    obtain ⟨r, s⟩ := x
    obtain ⟨r', s'⟩ := y
    obtain ⟨bound, ih⟩ := ih
    refine ⟨bound + 1, fun left budget more hleft hbudget hmore ↦ ?_⟩
    obtain ⟨left, rfl⟩ := Nat.exists_eq_add_of_le' (Nat.le_of_add_left_le hleft)
    obtain ⟨more, rfl⟩ := Nat.exists_eq_add_of_le' (Nat.le_of_add_left_le hmore)
    rcases next_step hL hxy with hadvance | ⟨hpop, hchanged, rfl, rfl⟩
    · rw [resume_of_advance hadvance]
      exact ih left budget (more + 1) (by omega) (by omega) (by omega)
    · rw [resume_of_pop_none hpop, hchanged, if_pos rfl, rounds_succ]
      exact ih budget budget more (by omega) (by omega) (by omega)

theorem leads_of_run (hL : L.Lawful) {budget : Nat} {stats : SolverStats} (h : run L budget s = .ok stats s') :
    ∃ r t, Leads L (outset L s) (r, t) ∧ Settled r ∧ Alike L t s' := by
  unfold run at h
  simp only [bind_eq_ok_iff, get_eq_ok_iff, pure_eq_ok_iff] at h
  obtain ⟨_, _, hrounds, _, _, ⟨rfl, rfl⟩, _, _, hnote, -, rfl⟩ := h
  obtain ⟨r, t, hleads, hsettled, rfl⟩ := leads_of_rounds hL hrounds
  exact ⟨r, t, hleads, hsettled, (endRound_alike hL).trans (note_alike hL hnote)⟩

/-- After a run all targets of all calls have been looked at. -/
theorem looked_of_run (hL : L.Lawful) {budget : Nat} {stats : SolverStats} (h : run L budget s = .ok stats s')
    {c callee : NodeId} {n : Node} {targets : PointerSet} (hn : (L.graph s'.host).nodes[c]? = some n)
    (hkind : n.kind = .indirectCall) (hcallee : n.operand? 0 = some callee)
    (htargets : (L.graph s'.host).pointsTo callee = .ok targets) : ∀ p ∈ targets, Looked c s' p := by
  obtain ⟨r, t, hleads, hsettled, halike⟩ := leads_of_run hL h
  obtain ⟨t₀, done, -, hquiet, hdone⟩ := hleads.quiet hL hsettled.2
  rw [Worklist.pop_eq_none hsettled.1, List.append_nil] at hdone
  obtain ⟨hgraph, -, -, hrested⟩ := hquiet.rested hL (K := fun _ ↦ True) (fun _ _ ↦ trivial) trivial
  rw [halike.graph, hgraph] at hn htargets
  have hc : c ∈ done := hdone ▸ List.mem_range.2 (Graph.lt_size_of_node hn)
  obtain ⟨u, u', m, _, _, hu, hsame, -, -, hlinked⟩ := hrested c hc
  have hnode := hu.node
  rw [hsame, hn, Option.some.injEq] at hnode
  subst hnode
  intro p hp
  refine (hu.looked hkind callee targets hcallee (hsame ▸ htargets) p hp).imp_right fun hmem ↦ ?_
  rw [halike.linked]
  exact hlinked _ hmem

theorem run_of_leads (hL : L.Lawful) (h : Leads L (outset L s) (r, t)) (hr : Settled r) :
    ∃ bound, ∀ budget ≥ bound, ∃ stats s', run L budget s = .ok stats s' := by
  obtain ⟨bound, hbound⟩ := resume_of_leads hL h hr
  refine ⟨bound + 1, fun budget hbudget ↦ ⟨(endRound L false t).solver.stats, ?_⟩⟩
  obtain ⟨more, rfl⟩ : ∃ more, budget = more + 1 := ⟨budget - 1, by omega⟩
  have hrounds : rounds L (more + 1) (more + 1) s = .ok () (endRound L false t) := by
    rw [rounds_succ]
    exact hbound _ _ _ (by omega) (by omega) (by omega)
  unfold run
  simp only [bind_eq_ok_iff, get_eq_ok_iff, pure_eq_ok_iff]
  exact ⟨_, _, _, hrounds, _, _, ⟨rfl, rfl⟩, _, _, rfl, rfl, rfl⟩

/-! ## The states one after the other -/

/-- The next state, or the same one when the run is over. -/
def step (L : CallLinker σ) (x : Round × Solving μ σ) : Round × Solving μ σ := (next L x).getD x

theorem step_cases (x : Round × Solving μ σ) : next L x = some (step L x) ∨ (next L x = none ∧ step L x = x) := by
  unfold step
  cases next L x with
  | none => exact .inr ⟨rfl, rfl⟩
  | some y => exact .inl rfl

/-- The state of a run after a number of steps; its last state is repeated when it is over. -/
def course (L : CallLinker σ) (s : Solving μ σ) (k : Nat) : Round × Solving μ σ := (step L)^[k] (outset L s)

theorem course_succ (k : Nat) : course L s (k + 1) = step L (course L s k) :=
  Function.iterate_succ_apply' _ _ _

theorem leads_course (k : Nat) : Leads L (outset L s) (course L s k) := by
  induction k with
  | zero => exact .refl
  | succ k ih =>
    rw [course_succ]
    rcases step_cases (L := L) (course L s k) with hnext | ⟨-, hsame⟩
    · exact ih.tail hnext
    · rwa [hsame]

theorem exists_course_of_leads {y : Round × Solving μ σ} (h : Leads L (outset L s) y) :
    ∃ k, course L s k = y := by
  induction h with
  | refl => exact ⟨0, rfl⟩
  | tail _ hstep ih =>
    obtain ⟨k, rfl⟩ := ih
    refine ⟨k + 1, ?_⟩
    rw [course_succ, step, hstep, Option.getD_some]

theorem next_of_settled {x : Round × Solving μ σ} (hx : Settled x.1) : next L x = none := by
  unfold next
  rw [advance_of_pop_none hx.1, hx.2]
  rfl

theorem course_of_settled {j k : Nat} (hjk : j ≤ k) (hj : Settled (course L s j).1) :
    course L s k = course L s j := by
  induction k, hjk using Nat.le_induction with
  | base => rfl
  | succ k _ ih => rw [course_succ, ih, step, next_of_settled hj, Option.getD_none]

/-- A run succeeds with some budget if and only if it comes to a round that changes nothing. -/
theorem run_iff_settled (hL : L.Lawful) :
    (∃ budget stats s', run L budget s = .ok stats s') ↔ ∃ k, Settled (course L s k).1 := by
  constructor
  · rintro ⟨budget, stats, s', hrun⟩
    obtain ⟨r, t, hleads, hsettled, -⟩ := leads_of_run hL hrun
    obtain ⟨k, hk⟩ := exists_course_of_leads hleads
    exact ⟨k, hk ▸ hsettled⟩
  · rintro ⟨k, hk⟩
    obtain ⟨bound, hbound⟩ := run_of_leads hL (leads_course k) hk
    exact ⟨bound, hbound bound le_rfl⟩

/-! ## What a run keeps of its host -/

section

variable {P : Solving μ σ → Prop} (hvisit : ∀ id s, P s → Ensures (visit L id) s fun _ ↦ P)
  (hcount : ∀ s (f : SolverStats → SolverStats), P s →
  P { s with solver := { s.solver with stats := f s.solver.stats } })
  (hnote : ∀ s f, P s → P { s with host := L.onJournal f s.host })

include hvisit hcount

theorem advance_keeps (hs : P s) : Ensures (advance L r) s fun _ ↦ P := by
  unfold advance
  split
  · exact .pure hs
  · rename_i id queue _
    refine .seq fun size _ hsize ↦ ?_
    obtain ⟨-, rfl⟩ := graph_eq hsize
    refine (hvisit id s hs).bind fun changed t ht ↦ .seq fun _ t₁ hcounted ↦ .seq fun g _ hg ↦ ?_
    obtain rfl := modify_eq_ok_iff.1 hcounted
    obtain ⟨-, rfl⟩ := graph_eq hg
    have ht₁ := hcount t (fun s ↦ { s with processed := s.processed + 1 }) ht
    split
    · refine .seq fun _ t₂ hcounted ↦ .bind_lift fun n _ ↦ .pure ?_
      obtain rfl := modify_eq_ok_iff.1 hcounted
      exact hcount _ (fun s ↦ { s with changed := s.changed + 1 }) ht₁
    · exact .pure ht₁

theorem drain_keeps {budget : Nat} (hs : P s) : Ensures (drain L budget r) s fun _ ↦ P := by
  induction budget generalizing r s with
  | zero => exact fun _ _ h ↦ by contradiction
  | succ budget ih =>
    refine (advance_keeps hvisit hcount hs).bind fun x t ht ↦ ?_
    cases x with
    | none => exact .pure ht
    | some r => exact ih ht

include hnote

theorem rounds_keeps {budget more : Nat} (hs : P s) : Ensures (rounds L budget more) s fun _ ↦ P := by
  induction more generalizing s with
  | zero => exact fun _ _ h ↦ by contradiction
  | succ more ih =>
    refine .bind (Q := fun _ ↦ P) (.seq fun g _ hg ↦ ?_) fun changed t ht ↦ ?_
    · obtain ⟨-, rfl⟩ := graph_eq hg
      refine (drain_keeps hvisit hcount hs).bind fun changed t ht ↦ .seq fun _ t₁ hcounted ↦ .bind_get ?_
      obtain rfl := modify_eq_ok_iff.1 hcounted
      refine .seq fun _ t₂ hnoted ↦ .pure ?_
      obtain rfl := modify_eq_ok_iff.1 hnoted
      exact hnote _ _ (hcount t (fun s ↦ { s with rounds := s.rounds + 1 }) ht)
    · split
      · exact ih ht
      · exact .pure ht

/-- What visits keep, and counting and journaling, is kept by a run. -/
theorem run_keeps {budget : Nat} (hs : P s) : Ensures (run L budget) s fun _ ↦ P := by
  refine (rounds_keeps hvisit hcount hnote hs).bind fun _ t ht ↦ .bind_get (.seq fun _ t₁ hnoted ↦ .pure ?_)
  obtain rfl := modify_eq_ok_iff.1 hnoted
  exact hnote _ _ ht

end

/-- A fresh solver on a graph of its own. -/
def lone (μ : Type) [MemoryModel μ] (g : Graph) (maxOffset : Nat) (journal : Journal := {}) :
    Solving μ LoneGraph :=
  { solver := .fresh μ maxOffset, host := { graph := g, journal } }

end Solve

end PointsTo
