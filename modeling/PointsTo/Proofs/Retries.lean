import PointsTo.Proofs.Additions
import PointsTo.Proofs.Rerun
import PointsTo.Proofs.Verdicts

/-!
# Running again after a rejection

What is built before a rejection stays.  So a program that is rejected before its entry function is begun,
because there is no such function or because of its globals, is rejected for good.  Once the entry
function is begun it counts as lowered, and a later run goes on with what there is of it.  In the same way
a target of a call that could not be linked counts as looked at.
-/

namespace PointsTo

/-- Queries of memory do not reject the program. -/
class MemoryModel.Accepting (μ : Type) [MemoryModel μ] : Prop where
  enter : ∀ (g : Graph) (id : NodeId) (m : μ), Query.NeverRejects (MemoryModel.enter g id m)
  load : ∀ (g : Graph) (id : NodeId) (p : Pointer) (m : μ), Query.NeverRejects (MemoryModel.load g id p m)
  copy : ∀ (g : Graph) (id : NodeId) (src dest : Pointer) (length : Offset) (m : μ),
    Query.NeverRejects (MemoryModel.copy g id src dest length m)

instance : MemoryModel.Accepting SharedMemory where
  enter _ _ m := .pure m
  load _ _ _ _ := .bind fun _ ↦ .pure _
  copy _ _ _ _ _ _ := .bind fun _ ↦ .pure _

instance : MemoryModel.Accepting NodeMemory where
  enter _ _ _ := .bind fun _ ↦ .pure _
  load _ _ _ _ := .bind fun _ ↦ .pure _
  copy g id src dest length m := by
    have hcopy : Query.NeverRejects (NodeMemory.copy g id src dest length m) := by
      unfold NodeMemory.copy
      split
      · exact .pure _
      · exact .bind fun _ ↦ .pure _
    exact .bind fun _ ↦ .pure _

/-! ## Rejections while solving -/

namespace Query.NeverRejects

variable {α β μ : Type} {g : Graph} {id : NodeId} {n : Node} {m : μ}

theorem foldlM {step : β → α → Query β} (h : ∀ b a, NeverRejects (step b a)) (l : List α) (b : β) :
    NeverRejects (l.foldlM step b) := by
  induction l generalizing b with
  | nil => exact .pure b
  | cons a rest ih =>
    rw [List.foldlM_cons]
    have := h b a
    exact .bind ih

instance pointsTo : NeverRejects (g.pointsTo id) := .bind fun _ ↦ .pure _

instance strays : NeverRejects (Transfer.strays g n) := by
  unfold Transfer.strays
  split
  · exact inferInstance
  · exact inferInstance
  · exact .pure _

instance collect : NeverRejects (Transfer.collect g n) := .foldlM (fun _ _ ↦ inferInstance) _ _

instance gep {maxOffset : Nat} : NeverRejects (Transfer.gep g maxOffset n) := by
  unfold Transfer.gep
  split
  · exact .pure _
  · have hshift (p : Pointer) : NeverRejects (Transfer.shiftBounded g maxOffset p n.offset) := by
      unfold Transfer.shiftBounded
      split
      · exact .pure _
      · split
        · exact .pure _
        · exact .bind fun _ ↦ .pure _
    refine .bind fun targets ↦ ?_
    have := mapM hshift targets.toList
    exact .bind fun _ ↦ .pure _

variable [MemoryModel μ] [hμ : MemoryModel.Accepting μ]

instance load : NeverRejects (Transfer.load g id n m) := by
  unfold Transfer.load
  split
  · exact .pure _
  · refine .bind fun targets ↦ .foldlM (fun out p ↦ ?_) _ _
    split
    · exact .pure _
    · split
      · exact .pure _
      · have := hμ.load g id p m
        exact .bind fun _ ↦ .pure _

omit hμ in
instance store : NeverRejects (Transfer.store g id n m) := by
  unfold Transfer.store
  split
  · refine .bind fun values ↦ .bind fun targets ↦ .foldlM (fun b p ↦ ?_) _ _
    obtain ⟨changed, m⟩ := b
    dsimp only
    split
    · exact .pure _
    · have : NeverRejects (Transfer.isStrong g (targets.size == 1) p) := by
        unfold Transfer.isStrong
        split
        · exact .bind fun _ ↦ .pure _
        · exact .pure _
      exact .bind fun _ ↦ .pure _
  · exact .pure _

instance memcpy : NeverRejects (Transfer.memcpy g id n m) := by
  have hcopy (src dest : Pointer) (m : μ) : NeverRejects (Transfer.copyOne g id n src dest m) := by
    unfold Transfer.copyOne
    split
    · exact .pure _
    · split
      · exact .pure _
      · exact hμ.copy ..
  unfold Transfer.memcpy
  split
  · refine .bind fun sources ↦ .bind fun dests ↦ .foldlM (fun b src ↦ ?_) _ _
    obtain ⟨changed, m⟩ := b
    dsimp only
    split
    · exact .pure _
    · refine .foldlM (fun b dest ↦ ?_) _ _
      obtain ⟨changed, m⟩ := b
      dsimp only
      split
      · exact .pure _
      · have := hcopy src dest m
        exact .bind fun _ ↦ .pure _
  · exact .pure _

instance effect {maxOffset : Nat} : NeverRejects (Transfer.effect g maxOffset id n m) := by
  unfold Transfer.effect
  split
  all_goals exact inferInstance

end Query.NeverRejects

namespace Solve

open Stateful

variable {α β μ σ : Type} {L : CallLinker σ} {id : NodeId} {n : Node} {s t : Solving μ σ}

/-- No target is forgotten that was looked at. -/
def Recalls (s t : Solving μ σ) : Prop := s.solver.linked ⊆ t.solver.linked

instance : IsPreorder (Solving μ σ) Recalls where
  refl _ := OrderedSet.subset_refl _
  trans _ _ _ hst htu p hp := htu p (hst p hp)

theorem recalls_of_eq (h : t.solver.linked = s.solver.linked) : Recalls s t := fun _ hp ↦ h ▸ hp

/-- A rejection is due to a target that is looked at for the first time. -/
class Tries (x : Solve μ σ α) : Prop extends Follows Recalls x where
  tries : ∀ {s cause t}, x s = .error (.rejected cause) t → ∃ p ∈ t.solver.linked, p ∉ s.solver.linked

namespace Tries

variable {x : Solve μ σ α} {next : α → Solve μ σ β}

theorem of_neverRejects [hx : NeverRejects x] [Follows Recalls x] : Tries x where
  tries {s cause t} h := absurd rfl (hx.throws s _ t h cause)

instance pure (a : α) : Tries (pure a : Solve μ σ α) := of_neverRejects

instance get : Tries (get : Solve μ σ (Solving μ σ)) := of_neverRejects

instance lift (q : Query α) [q.NeverRejects] : Tries (liftM q : Solve μ σ α) := of_neverRejects

theorem alter {change : Solving μ σ → Solving μ σ} (h : ∀ s, Recalls s (change s)) :
    Tries (modify change : Solve μ σ PUnit) :=
  have := Follows.modify h
  of_neverRejects

instance exhausted : Tries (throw .exhausted : Solve μ σ α) where
  tries {s cause t} h := by
    obtain ⟨he, -⟩ := EStateM.Result.error.inj h
    contradiction

theorem bind [hx : Tries x] (hnext : ∀ a, Tries (next a)) : Tries (x >>= next) where
  toFollows := .bind fun a ↦ (hnext a).toFollows
  tries {s cause t} h := by
    rcases bind_eq_error_iff.1 h with he | ⟨a, u, ha, h⟩
    · exact hx.tries he
    · obtain ⟨p, hp, hnew⟩ := (hnext a).tries h
      exact ⟨p, hp, fun hs ↦ hnew (hx.leaves (.inl ⟨a, ha⟩) p hs)⟩

instance sequence (x : Solve μ σ α) (next : α → Solve μ σ β) [Tries x] [hnext : ∀ a, Tries (next a)] :
    Tries (x >>= next) := bind hnext

instance ite (c : Prop) [Decidable c] (x y : Solve μ σ α) [hx : Tries x] [hy : Tries y] : Tries
    (if c then x else y) := by
  split
  · exact hx
  · exact hy

theorem foldlM {step : β → α → Solve μ σ β} (h : ∀ b a, Tries (step b a)) (l : List α) (b : β) :
    Tries (l.foldlM step b) := by
  induction l generalizing b with
  | nil => exact pure b
  | cons a rest ih =>
    rw [List.foldlM_cons]
    have := h b a
    exact bind ih

/-- Steps that look at nothing. -/
theorem aside {change : Solving μ σ → Solving μ σ} (h : ∀ s, (change s).solver.linked = s.solver.linked) :
    Tries (modify change : Solve μ σ PUnit) := alter fun s ↦ recalls_of_eq (h s)

instance graph : Tries (graph L : Solve μ σ Graph) := .bind fun _ ↦ .pure _

instance onGraph (change : Graph → Graph) : Tries (onGraph L change : Solve μ σ Unit) := .aside fun _ ↦ rfl

instance note (severity : Severity) (text : Unit → String) : Tries (note L severity text : Solve μ σ Unit) :=
  .aside fun _ ↦ rfl

instance count (f : SolverStats → SolverStats) : Tries (count f : Solve μ σ Unit) := .aside fun _ ↦ rfl

instance setMemory (m : μ) : Tries (setMemory m : Solve μ σ Unit) := .aside fun _ ↦ rfl

instance warn (w : Warning) : Tries (warn L w : Solve μ σ Unit) := by
  have hwarnings (warnings : Warnings) : Tries (onSolver fun s ↦ { s with warnings } : Solve μ σ Unit) :=
    .aside fun _ ↦ rfl
  unfold Solve.warn
  exact inferInstance

instance gain (gained : PointerSet) : Tries (gain L id n gained : Solve μ σ Bool) := by
  unfold Solve.gain
  exact inferInstance

instance onHost (x : EStateM Failure σ α) : Follows Recalls (onHost x : Solve μ σ α) where
  leaves {s t} h := by
    have hsolver : t.solver = s.solver := by
      rcases h with ⟨a, h⟩ | ⟨e, h⟩
      all_goals
        unfold Solve.onHost at h
        split at h
      · rw [← (EStateM.Result.ok.inj h).2]
      · contradiction
      · contradiction
      · rw [← (EStateM.Result.error.inj h).2]
    exact recalls_of_eq (by rw [hsolver])

/-- The pair is remembered before anything that may be rejected. -/
theorem look {q : NodeId × NodeId} {c : Solving μ σ → Bool} {a : α} {rest : Solve μ σ α} (hrest : Follows Recalls rest)
    (hc : ∀ s, c s = false → q ∉ s.solver.linked) : Tries (do
      if c (← MonadState.get) then return a
      onSolver fun s ↦ { s with linked := s.linked.insert q }
      rest) where
  toFollows := by
    have hlook : Tries (onSolver fun s ↦ { s with linked := s.linked.insert q } : Solve μ σ Unit) :=
      .alter fun _ _ hq ↦ OrderedSet.mem_insert.2 (.inr hq)
    exact .bind fun _ ↦ inferInstance
  tries {s cause t} h := by
    rcases bind_eq_error_iff.1 h with he | ⟨_, _, hget, h⟩
    · contradiction
    obtain ⟨rfl, rfl⟩ := get_eq_ok_iff.1 hget
    split at h
    · contradiction
    · rename_i hnew
      rcases bind_eq_error_iff.1 h with he | ⟨_, u, hu, h⟩
      · contradiction
      obtain rfl := modify_eq_ok_iff.1 hu
      refine ⟨q, hrest.leaves (.inr ⟨_, h⟩) q ?_, hc s (Bool.not_eq_true _ ▸ hnew)⟩
      exact OrderedSet.mem_insert.2 (.inl rfl)

instance linkTarget (p : Pointer) : Tries (linkTarget L id p : Solve μ σ Bool) := by
  refine look (c := fun s ↦ p.isNull || s.solver.linked.contains (id, p.target)) ?_ fun s hs ↦ ?_
  · split
    · refine .bind fun g ↦ .bind fun site ↦ ?_
      cases site.paired with
      | none => exact .pure _
      | some ret => exact .bind fun _ ↦ .pure _
    · exact inferInstance
  · rw [Bool.or_eq_false_iff] at hs
    exact OrderedSet.contains_eq_false_iff.1 hs.2

instance linkTargets : Tries (linkTargets L id n : Solve μ σ Bool) := by
  unfold Solve.linkTargets
  split
  · exact .pure _
  · exact .bind fun _ ↦ .bind fun _ ↦ .foldlM (fun _ _ ↦ inferInstance) _ _

variable [MemoryModel μ] [hμ : MemoryModel.Accepting μ]

instance visit : Tries (visit L id : Solve μ σ Bool) := by
  have henter (g : Graph) (m : μ) := hμ.enter g id m
  unfold Solve.visit
  refine .bind fun g ↦ .bind fun _ ↦ .bind fun _ ↦ .bind fun _ ↦ .bind fun n ↦ .bind fun strays ↦ ?_
  extract_lets rest
  have hrest : Tries (rest ()) := by
    refine .bind fun _ ↦ .bind fun effect ↦ .bind fun _ ↦ .bind fun grew ↦ ?_
    extract_lets leave
    have hleave (linked : Bool) : Tries (leave linked) := .bind fun _ ↦ .bind fun _ ↦ .pure _
    split
    · exact .bind fun linked ↦ hleave linked
    · exact .bind fun linked ↦ hleave linked
  split
  · exact .bind fun _ ↦ hrest
  · exact hrest

instance advance (r : Round) : Tries (advance L r : Solve μ σ (Option Round)) := by
  unfold Solve.advance
  split
  · exact .pure _
  · refine .bind fun g ↦ .bind fun changed ↦ .bind fun _ ↦ .bind fun g ↦ ?_
    exact inferInstance

theorem drain (budget : Nat) (r : Round) : Tries (drain L budget r : Solve μ σ Bool) := by
  induction budget generalizing r with
  | zero => exact exhausted
  | succ budget ih =>
    refine .bind fun r? ↦ ?_
    cases r? with
    | none => exact .pure _
    | some r => exact ih r

instance round (budget : Nat) : Tries (round L budget : Solve μ σ Bool) :=
  have := drain (L := L) (μ := μ) budget
  .bind fun _ ↦ .bind fun _ ↦ .bind fun _ ↦ .bind fun _ ↦ .bind fun _ ↦ .pure _

theorem rounds (budget more : Nat) : Tries (rounds L budget more : Solve μ σ Unit) := by
  induction more with
  | zero => exact exhausted
  | succ more ih => exact .bind fun _ ↦ inferInstance

instance run (budget : Nat) : Tries (run L budget : Solve μ σ SolverStats) :=
  have := rounds (L := L) (μ := μ) budget budget
  .bind fun _ ↦ .bind fun _ ↦ .bind fun _ ↦ .pure _

end Tries

end Solve

/-! ## What stays of a build -/

namespace Stateful

variable {σ α β : Type} {s t : σ} {x : EStateM Failure σ α} {next : α → EStateM Failure σ β}

/-- The computation comes to an end in the second state: it succeeds, or it rejects the program. -/
def Returns (x : EStateM Failure σ α) (s t : σ) : Prop := (∃ a, x s = .ok a t) ∨ ∃ cause, x s = .error
    (.rejected cause) t

theorem Yields.after {Q : β → σ → Prop} {a : α} (hx : x s = .ok a t) (h : Yields (next a) t Q) : Yields
    (x >>= next) s Q := by
  obtain ⟨b, u, hb, hQ⟩ := h
  exact ⟨b, u, bind_eq_ok_iff.2 ⟨a, t, hx, hb⟩, hQ⟩

theorem Returns.leaves (h : Returns x s t) : Leaves x s t := h.imp id fun ⟨cause, h⟩ ↦ ⟨.rejected cause, h⟩

theorem returns_bind_iff : Returns (x >>= next) s t ↔
    (∃ cause, x s = .error (.rejected cause) t) ∨ ∃ a u, x s = .ok a u ∧ Returns (next a) u t := by
  unfold Returns
  simp only [bind_eq_ok_iff, bind_eq_error_iff]
  grind

theorem Returns.after [hx : NeverRejects x] (h : Returns (x >>= next) s t) :
    ∃ a u, x s = .ok a u ∧ Returns (next a) u t := by
  rcases returns_bind_iff.1 h with ⟨cause, he⟩ | h
  · exact absurd rfl (hx.throws s _ t he cause)
  · exact h

theorem Returns.after_lift {q : Query α} [q.NeverRejects] {next : α → EStateM Failure σ β}
    (h : Returns ((liftM q : EStateM Failure σ α) >>= next) s t) : ∃ a, q = .ok a ∧ Returns (next a) s t := by
  obtain ⟨a, u, ha, h⟩ := Returns.after h
  obtain ⟨hq, rfl⟩ := lift_eq_ok_iff.1 ha
  exact ⟨a, hq, h⟩

end Stateful

namespace Lowering

/-- No function is begun and there are no globals yet. -/
structure Pristine (prog : Program) (s : Lowering) : Prop where
  globals : s.globals = none
  root : s.graph.root = none
  records : ∀ f, s.records.get? f = none
  folded : s.Folded prog

/-- The entry function counts as lowered. -/
def Begun (prog : Program) (entry : String) (s : Lowering) : Prop :=
  ∃ f, prog.functionNamed? entry = some f ∧ s.records.get? f ≠ none

/-- The same, with all that a build checks before it comes to the entry function. -/
structure Launched (prog : Program) (entry : String) (s : Lowering) : Prop where
  globals : s.globals ≠ none
  record : ∃ f fn, prog.functionNamed? entry = some f ∧ prog.function f = .ok fn ∧ fn.isDeclaration = false ∧
    s.records.get? f ≠ none

variable {prog : Program} {entry : String} {s t : Lowering}

theorem Pristine.not_begun (hs : s.Pristine prog) : ¬s.Begun prog entry := fun ⟨f, _, hf⟩ ↦ hf (hs.records f)

theorem Launched.begun (hs : s.Launched prog entry) : s.Begun prog entry := by
  obtain ⟨f, -, hf, -, -, hr⟩ := hs.record
  exact ⟨f, hf, hr⟩

theorem Launched.retains (hs : s.Launched prog entry) (hst : s.Retains 0 t) : t.Launched prog entry := by
  have hst := hst (Nat.zero_le _)
  obtain ⟨f, fn, hf, hfn, hdefined, hr⟩ := hs.record
  exact ⟨hst.globals hs.globals, f, fn, hf, hfn, hdefined, hst.records f hr⟩

theorem Pristine.initial (prog : Program) (journal : Journal) : ({ journal } : Lowering).Pristine prog :=
  ⟨rfl, rfl, fun _ ↦ rfl, fun _ h ↦ absurd rfl h⟩

end Lowering

namespace Lower

open Stateful

variable {prog : Program} {ask : Provider} {entry : String} {s t : Lowering} {f : FuncId} {fn : Function}

theorem note_yields {severity : Severity} {text : Unit → Query String} (h : ∃ line, text () = .ok line) :
    Yields (note severity text) s fun _ _ ↦ True := by
  refine .after rfl ?_
  split
  · exact (Yields.lift h).bind fun _ _ _ ↦ ⟨_, _, rfl, trivial⟩
  · exact .pure trivial

/-- A function is recorded before anything of it is lowered that may be rejected. -/
theorem record_of_lowerFunction [ask.Moves (Lowering.Retains 0)] (hs : s.globals ≠ none)
    (h : Returns (lowerFunction prog ask f) s t) : t.records.get? f ≠ none := by
  obtain ⟨chain, hchain⟩ := Option.ne_none_iff_exists'.1 hs
  rcases returns_bind_iff.1 h with ⟨cause, he⟩ | ⟨_, s₁, h₁, h⟩
  · rw [globalChain_of_some hchain] at he
    contradiction
  · rw [globalChain_of_some hchain] at h₁
    obtain ⟨rfl, rfl⟩ := EStateM.Result.ok.inj h₁
    obtain ⟨r?, s₂, hr, h⟩ := Returns.after h
    obtain ⟨rfl, rfl⟩ := record?_eq_ok_iff.1 hr
    cases hrecord : s.records.get? f with
    | some r =>
      have hst : s.Retains 0 t := (Follows.pure r.entry).leaves (hrecord ▸ h).leaves
      exact (hst (Nat.zero_le _)).records f (by simp [hrecord])
    | none =>
      rw [hrecord] at h
      obtain ⟨fn, hfn, h⟩ := h.after_lift
      obtain ⟨_, s₁, -, h⟩ := h.after
      obtain ⟨node, s₂, -, h⟩ := h.after
      obtain ⟨exit, s₃, -, h⟩ := h.after
      obtain ⟨formals, s₄, -, h⟩ := h.after
      obtain ⟨_, s₅, hmark, h⟩ := h.after
      obtain rfl := modify_eq_ok_iff.1 hmark
      dsimp only at h
      split at h
      · refine (Follows.leaves (R := Lowering.Retains 0) h.leaves (Nat.zero_le _)).records f ?_
        simp
      · refine (Follows.leaves (R := Lowering.Retains 0) h.leaves (Nat.zero_le _)).records f ?_
        simp

/-- A function that is recorded is not looked into again. -/
theorem lowerFunction_of_record {chain : Option Span} {r : FunctionRecord} (hs : s.globals = some chain)
    (hr : s.records.get? f = some r) : lowerFunction prog ask f s = .ok r.entry s := by
  simp only [lowerFunction, bind_eq_ok_iff, record?_eq_ok_iff]
  exact ⟨chain, s, globalChain_of_some hs, _, s, ⟨rfl, rfl⟩, by rw [hr]; rfl⟩

/-- The globals are rejected from every pristine state, which stays one, or from none. -/
theorem globalChain_decides (hprog : prog.Scoped) : ∃ P, ∀ s : Lowering, s.Pristine prog →
    Ensures (globalChain prog (Lower.ask prog)) s (fun _ t ↦ P ∧ t.globals ≠ none) ∧
      Throws (globalChain prog (Lower.ask prog)) s fun e t ↦ ∀ cause, e = .rejected cause → ¬P ∧ t.Pristine prog := by
  obtain ⟨P, hP⟩ := lowerGlobals_decides (provider_deciding hprog (requestDepth prog)) hprog
  refine ⟨P, fun s hs ↦ ?_⟩
  obtain ⟨hok, herror⟩ := hP s hs.folded
  unfold globalChain
  refine ⟨.bind_get ?_, .bind_get ?_⟩
  all_goals rw [hs.globals]
  · refine hok.bind fun chain t ⟨hP, _⟩ ↦ .seq fun _ u hu ↦ .pure ⟨hP, ?_⟩
    obtain rfl := modify_eq_ok_iff.1 hu
    simp
  · refine (herror.mono fun e t h cause hcause ↦ ?_).bind fun chain t _ ↦ Throws.modify.bind fun _ _ _ ↦ .pure
    obtain ⟨hP, hst⟩ := h cause hcause
    exact ⟨hP, hst.globals.trans hs.globals, hst.root.trans hs.root, fun f ↦ hst.records ▸ hs.records f,
      hst.folded hs.folded⟩

section

variable (hf : prog.functionNamed? entry = some f) (hfn : prog.function f = .ok fn)
    (hdefined : fn.isDeclaration = false)

include hf hfn hdefined

theorem build_returns (h : Returns (build prog entry) s t) :
    (∃ cause, globalChain prog (Lower.ask prog) s = .error (.rejected cause) t) ∨
      ∃ chain u, globalChain prog (Lower.ask prog) s = .ok chain u ∧
        (u.globals ≠ none → t.globals ≠ none ∧ t.records.get? f ≠ none) := by
  unfold build at h
  rw [hf] at h
  obtain ⟨_, hfn', h⟩ := h.after_lift
  obtain rfl := Except.ok.inj (hfn.symm.trans hfn')
  extract_lets finish rest at h
  rw [hdefined] at h
  rcases returns_bind_iff.1 h with herror | ⟨chain, u, hchain, h⟩
  · exact .inl herror
  · refine .inr ⟨chain, u, hchain, fun hu ↦ ?_⟩
    have hfinish (root : NodeId) : Follows (Lowering.Retains 0) (finish root) := .bind fun _ ↦ .bind fun _ ↦
      inferInstance
    have hfunction {w : Lowering} (hw : Returns (lowerFunction prog (Lower.ask prog) f) u w) :
        w.globals ≠ none ∧ w.records.get? f ≠ none :=
      have huw : u.Retains 0 w := Follows.leaves hw.leaves
      ⟨(huw (Nat.zero_le _)).globals hu, record_of_lowerFunction hu hw⟩
    rcases returns_bind_iff.1 h with ⟨cause, he⟩ | ⟨id, w, hw, h⟩
    · exact hfunction (.inr ⟨cause, he⟩)
    · obtain ⟨hglobals, hrecord⟩ := hfunction (.inl ⟨id, hw⟩)
      have hwt : w.Retains 0 t := by
        cases chain with
        | none => exact (Follows.bind hfinish).leaves h.leaves
        | some span => exact (Follows.bind fun _ ↦ .bind hfinish).leaves h.leaves
      have hwt := hwt (Nat.zero_le _)
      exact ⟨hwt.globals hglobals, hwt.records f hrecord⟩

theorem build_of_begun (hs : s.globals ≠ none) (hr : s.records.get? f ≠ none) :
    ∃ root t, build prog entry s = .ok root t := by
  obtain ⟨chain, hs⟩ := Option.ne_none_iff_exists'.1 hs
  obtain ⟨r, hr⟩ := Option.ne_none_iff_exists'.1 hr
  have hbuild : Yields (build prog entry) s fun _ _ ↦ True := by
    unfold build
    rw [hf]
    refine .after (lift_eq_ok_iff.2 ⟨hfn, rfl⟩) ?_
    extract_lets finish rest
    have hfinish (root : NodeId) (t : Lowering) : Yields (finish root) t fun _ _ ↦ True := by
      refine .after rfl (.after rfl ((note_yields ⟨_, rfl⟩).bind fun _ _ _ ↦ .pure trivial))
    rw [hdefined]
    refine .after (globalChain_of_some hs) (.after (lowerFunction_of_record hs hr) ?_)
    cases chain with
    | none => exact .after rfl (hfinish ..)
    | some span => exact .after rfl (.after rfl (hfinish ..))
  obtain ⟨root, t, h, -⟩ := hbuild
  exact ⟨root, t, h⟩

end

/-- Nothing is built if the entry function is not defined. -/
theorem build_of_undefined (hundefined : ∀ f fn, prog.functionNamed? entry = some f → prog.function f = .ok fn →
    fn.isDeclaration = true) (h : Returns (build prog entry) s t) : s = t := by
  have hreject {α : Type} {cause : Rejection} (h : Returns (reject cause : Lower α) s t) : s = t := by
    rcases h with ⟨_, h⟩ | ⟨_, h⟩
    · exact absurd h reject_ne_ok
    · exact (EStateM.Result.error.inj h).2
  unfold build at h
  split at h
  · exact hreject h
  · rename_i f hf
    obtain ⟨fn, hfn, h⟩ := h.after_lift
    extract_lets finish rest at h
    rw [hundefined f fn hf hfn] at h
    rcases returns_bind_iff.1 h with ⟨cause, he⟩ | ⟨_, _, h, _⟩
    · exact hreject (.inr ⟨cause, he⟩)
    · exact absurd h reject_ne_ok

/-- Whether the entry function of a scoped program is ever begun is decided before anything is built. -/
theorem build_decides (hprog : prog.Scoped) (entry : String) : ∃ P : Prop, ∀ s t, s.Pristine prog →
    Returns (build prog entry) s t → (P ∧ t.Launched prog entry) ∨ (¬P ∧ t.Pristine prog) := by
  by_cases hdefined : ∃ f fn, prog.functionNamed? entry = some f ∧ prog.function f = .ok fn ∧ fn.isDeclaration = false
  · obtain ⟨f, fn, hf, hfn, hdefined⟩ := hdefined
    obtain ⟨P, hP⟩ := globalChain_decides hprog
    refine ⟨P, fun s t hs h ↦ ?_⟩
    rcases build_returns hf hfn hdefined h with ⟨cause, he⟩ | ⟨chain, u, hu, ht⟩
    · exact .inr ((hP s hs).2 _ t he cause rfl)
    · obtain ⟨hP, hglobals⟩ := (hP s hs).1 chain u hu
      obtain ⟨hglobals, hr⟩ := ht hglobals
      exact .inl ⟨hP, hglobals, f, fn, hf, hfn, hdefined, hr⟩
  · refine ⟨False, fun s t hs h ↦ .inr ⟨id, ?_⟩⟩
    obtain rfl := build_of_undefined (fun f fn hf hfn ↦ by_contra fun hd ↦
      hdefined ⟨f, fn, hf, hfn, Bool.not_eq_true _ ▸ hd⟩) h
    exact hs

end Lower

namespace Analysis

open Stateful

variable {μ : Type} [MemoryModel μ] {prog : Program} {options : Options} {journal : Journal} {budget : Nat}
  {a b : Analysis μ}

/-- The later state is reached by runs, each of which succeeds or rejects the program. -/
def Reruns (prog : Program) (options : Options) : Analysis μ → Analysis μ → Prop :=
  Relation.ReflTransGen fun a b ↦ ∃ budget, Returns (run prog options budget) a b

/-- A run lowers the program, which may be rejected, unless the graph has a root already; then it solves. -/
theorem run_of_returns (h : Returns (run prog options budget) a b) :
    (a.host.graph.root = none ∧ ∃ cause, Lower.build prog options.entry a.host = .error (.rejected cause) b.host) ∨
      ∃ host, (a.host.graph.root = none → ∃ root, Lower.build prog options.entry a.host = .ok root host) ∧
        run prog options budget a = Solve.run (Lowering.linker prog) budget { a with host } := by
  have hrun : run prog options budget a = (if a.host.graph.root.isNone then do
      let _ ← Solve.onHost (Lower.build prog options.entry)
      Solve.run (Lowering.linker prog) budget
    else Solve.run (Lowering.linker prog) budget) a := rfl
  rw [hrun]
  unfold Returns at h
  rw [hrun] at h
  cases hroot : a.host.graph.root with
  | some root => exact .inr ⟨a.host, fun hnone ↦ by contradiction, rfl⟩
  | none =>
    rw [hroot] at h
    rcases returns_bind_iff.1 h with ⟨cause, he⟩ | ⟨root, c, hc, h⟩
    · unfold Solve.onHost at he
      split at he
      · contradiction
      · rename_i e host hhost
        obtain ⟨rfl, rfl⟩ := EStateM.Result.error.inj he
        exact .inl ⟨rfl, cause, hhost⟩
    · obtain ⟨host, hhost, rfl⟩ := Solve.onHost_eq hc
      refine .inr ⟨host, fun _ ↦ ⟨root, hhost⟩, ?_⟩
      change EStateM.bind _ _ a = _
      unfold EStateM.bind
      rw [hc]

/-- Runs leave a pristine state as it is, all of them, or launch the entry function, all of them. -/
theorem run_decides (μ : Type) [MemoryModel μ] (hprog : prog.Scoped) (options : Options) : ∃ P : Prop,
    ∀ (budget : Nat) (a b : Analysis μ), a.host.Pristine prog → Returns (run prog options budget) a b →
      (P ∧ b.host.Launched prog options.entry) ∨ (¬P ∧ b.host.Pristine prog) := by
  obtain ⟨P, hP⟩ := Lower.build_decides hprog options.entry
  refine ⟨P, fun budget a b ha h ↦ ?_⟩
  rcases run_of_returns h with ⟨-, cause, he⟩ | ⟨host, hbuild, hrun⟩
  · exact hP a.host b.host ha (.inr ⟨cause, he⟩)
  · obtain ⟨root, hbuild⟩ := hbuild ha.root
    rcases hP a.host host ha (.inl ⟨root, hbuild⟩) with ⟨hP, hhost⟩ | ⟨-, hhost⟩
    · have hsolve : Returns (Solve.run (Lowering.linker prog) budget) { a with host } b := by
        unfold Returns at h ⊢
        rwa [hrun] at h
      have hretains : Analysis.Retains 0 { a with host } b := (Solve.Retaining.run budget).leaves hsolve.leaves
      exact .inl ⟨hP, hhost.retains hretains⟩
    · exact absurd hhost.root (Lower.root_of_build root host hbuild)

/-- A program that is rejected before its entry function is begun is rejected for good.  Once the entry
function is begun nothing is rejected a second time: what is left of the part that was rejected is never
lowered, and a later rejection is due to a target of a call that no run has looked at before. -/
theorem rejected_for_good_unless_begun [MemoryModel.Accepting μ] (hprog : prog.Scoped)
    (ha : Reruns prog options (fresh options journal) a) {cause : Rejection}
    (h : run prog options budget a = .error (.rejected cause) b) :
    (¬b.host.Begun prog options.entry → ∀ c, Reruns prog options b c → ∀ more stats d, run prog options more c ≠
      .ok stats d) ∧ (b.host.Begun prog options.entry → ∀ c, Reruns prog options b c →
        (c.host.graph.root = none → ∃ root host, Lower.build prog options.entry c.host = .ok root host) ∧
        ∀ more cause d, run prog options more c = .error (.rejected cause) d →
          ∃ p ∈ d.solver.linked, p ∉ c.solver.linked) := by
  obtain ⟨P, hP⟩ := run_decides μ hprog options
  have hlaunched {budget : Nat} {a b : Analysis μ} (h : Returns (run prog options budget) a b)
      (ha : a.host.Launched prog options.entry) : b.host.Launched prog options.entry :=
    ha.retains ((retaining_run options budget).leaves h.leaves)
  have hphase {c : Analysis μ} (hc : Reruns prog options (fresh options journal) c) :
      c.host.Pristine prog ∨ (P ∧ c.host.Launched prog options.entry) := by
    induction hc with
    | refl => exact .inl (.initial prog journal)
    | tail _ hstep ih =>
      obtain ⟨budget, hstep⟩ := hstep
      rcases ih with ih | ⟨hP, ih⟩
      · exact (hP budget _ _ ih hstep).symm.imp And.right id
      · exact .inr ⟨hP, hlaunched hstep ih⟩
  have hb : (P ∧ b.host.Launched prog options.entry) ∨ (¬P ∧ b.host.Pristine prog) := by
    have hreturns : Returns (run prog options budget) a b := .inr ⟨cause, h⟩
    rcases hphase ha with hpristine | ⟨hP, hlaunch⟩
    · exact hP budget a b hpristine hreturns
    · exact .inl ⟨hP, hlaunched hreturns hlaunch⟩
  have hfresh : Reruns prog options (fresh options journal) b := ha.tail ⟨budget, .inr ⟨cause, h⟩⟩
  rcases hb with ⟨hP, hb⟩ | ⟨hnot, hb⟩
  · refine ⟨fun hbegun ↦ absurd hb.begun hbegun, fun _ c hc ↦ ?_⟩
    obtain ⟨hglobals, f, fn, hf, hfn, hdefined, hr⟩ : c.host.Launched prog options.entry := by
      induction hc with
      | refl => exact hb
      | tail _ hstep ih => exact hlaunched hstep.choose_spec ih
    have hbuild := Lower.build_of_begun hf hfn hdefined hglobals hr
    refine ⟨fun _ ↦ hbuild, fun more cause d hd ↦ ?_⟩
    rcases run_of_returns (.inr ⟨cause, hd⟩) with ⟨-, cause, he⟩ | ⟨host, -, hrun⟩
    · obtain ⟨root, host, hok⟩ := hbuild
      rw [hok] at he
      contradiction
    · obtain ⟨p, hp, hnew⟩ := (Solve.Tries.run more).tries (hrun.symm.trans hd)
      exact ⟨p, hp, hnew⟩
  · refine ⟨fun _ c hc more stats d hd ↦ ?_, fun hbegun ↦ absurd hbegun hb.not_begun⟩
    obtain ⟨_, hroot, -⟩ := rooted_of_run hd
    rcases hphase ((hfresh.trans hc).tail ⟨more, .inl ⟨stats, hd⟩⟩) with hd | ⟨hP, -⟩
    · exact hroot hd.root
    · exact hnot hP

open Command

/-- A global that starts with bytes where a pointer is expected. -/
def illegible : Program := .assembled
  [function "main" .void [] false, global "X" .ptr, global "Y" .ptr, constant .data .ptr, initializer 1 1,
    initializer 2 3, block 0, ret 0 0 none]

theorem rejected_for_good_unless_begun_illegible :
    (∃ cause b, run illegible {} 40 (fresh {} {} : Analysis NodeMemory) = .error (.rejected cause) b ∧
      b.host.nodes.get? 1 ≠ none ∧ ∀ c, Reruns illegible {} b c → ∀ more stats d, run illegible {} more c ≠
      .ok stats d) ∧
    ∃ cause b, run stuck {} 40 (fresh {} {} : Analysis SharedMemory) = .error (.rejected cause) b ∧
      b.host.Begun stuck "main" ∧ ∀ c, Reruns stuck {} b c → ∀ more cause d,
        run stuck {} more c = .error (.rejected cause) d → ∃ p ∈ d.solver.linked, p ∉ c.solver.linked := by
  have hillegible : Stateful.fails (fun e (b : Analysis NodeMemory) ↦
      decide (e = .rejected (.unhandledInitializer "Y" "const.3") ∧
      b.host.nodes.get? 1 ≠ none ∧ b.host.records.get? 0 = none)) (run illegible {} 40 (fresh {} {})) = true := by
    decide +kernel
  have hstuck : Stateful.fails (fun e (b : Analysis SharedMemory) ↦
      decide (e = .rejected (.unhandledInstruction "foo" "%7 = foo  (in @g)") ∧
      b.host.records.get? 0 ≠ none)) (run stuck {} 40 (fresh {} {})) = true := by
    decide +kernel
  obtain ⟨_, b, hb, htest⟩ := error_of_fails hillegible
  obtain ⟨rfl, hnode, hrecord⟩ := of_decide_eq_true htest
  obtain ⟨_, c, hc, htest⟩ := error_of_fails hstuck
  obtain ⟨rfl, hbegun⟩ := of_decide_eq_true htest
  have hnot : ¬b.host.Begun illegible "main" := by
    rintro ⟨f, hf, hr⟩
    obtain rfl : 0 = f := Option.some.inj hf
    exact hr hrecord
  have hbegun : c.host.Begun stuck "main" := ⟨0, by decide, hbegun⟩
  refine ⟨⟨_, b, hb, hnode, (rejected_for_good_unless_begun (by decide) .refl hb).1 hnot⟩, _, c, hc, hbegun, ?_⟩
  exact fun d hd ↦ ((rejected_for_good_unless_begun (by decide) .refl hc).2 hbegun d hd).2

/-- A function with an instruction that cannot be lowered. -/
def unfinished : Program := .assembled
  [function "main" .void [] false, block 0, instruction 0 0 (.other "foo") [] .ptr, ret 0 0 none]

/-- A global that starts with an argument of a function.  The program is not scoped. -/
def borrowed : Program := .assembled
  [function "main" .void [.int 64] false, global "X" .ptr, initializer 2 1, block 0, ret 0 0 none]

/-- Programs that are rejected by a first run, for a global, for the body of the entry function or for a
target of a call, and accepted by a second one. -/
theorem rejection_forgotten :
    (∃ cause b stats c, run borrowed {} 40 (fresh {} {} : Analysis SharedMemory) = .error (.rejected cause) b ∧
      run borrowed {} 40 b = .ok stats c) ∧
    (∃ cause b stats c, run unfinished {} 40 (fresh {} {} : Analysis SharedMemory) = .error (.rejected cause) b ∧
      run unfinished {} 40 b = .ok stats c) ∧
    ∃ cause b stats c, run stuck {} 40 (fresh {} {} : Analysis SharedMemory) = .error (.rejected cause) b ∧
      run stuck {} 40 b = .ok stats c := by
  have htwice {prog : Program} (cause : Rejection) (h : Stateful.fails (fun e (b : Analysis SharedMemory) ↦
      decide (e = .rejected cause) && Stateful.succeeds (fun _ _ ↦ true) (run prog {} 40 b))
        (run prog {} 40 (fresh {} {})) = true) :
      ∃ cause b stats c, run prog {} 40 (fresh {} {} : Analysis SharedMemory) = .error (.rejected cause) b ∧
        run prog {} 40 b = .ok stats c := by
    obtain ⟨_, b, hb, htest⟩ := error_of_fails h
    rw [Bool.and_eq_true] at htest
    obtain rfl := of_decide_eq_true htest.1
    obtain ⟨stats, c, hc, -⟩ := ok_of_succeeds htest.2
    exact ⟨cause, b, stats, c, hb, hc⟩
  refine ⟨htwice (.missingOperand "%1") ?_, htwice (.unhandledInstruction "foo" "%1 = foo  (in @main)") ?_,
    htwice (.unhandledInstruction "foo" "%7 = foo  (in @g)") ?_⟩
  · decide +kernel
  · decide +kernel
  · decide +kernel

end Analysis

end PointsTo
