import PointsTo.Proofs.Answers

/-!
# Call relevance

Calls are judged by the functions that they reach, and what is found out about a function is remembered.  However
many questions were asked before and in whatever order, the answer is the same: it can be told from the functions
that are reached by direct calls alone, and it is found also if functions call each other in circles.  Only a
callee that is a cast of itself, which a block that is never reached may have, is looked for without end.
-/

namespace PointsTo

namespace Lower

open Stateful

/-- The state after questions were asked about functions and instructions, and whatever else was done in between. -/
inductive Queried (prog : Program) : Lowering → Prop
  | fresh {s : Lowering} (h : s.relevance = ∅) : Queried prog s
  | function {s t : Lowering} {f : FuncId} {b : Bool} (hs : Queried prog s) (h : touchesPointers prog f s = .ok b t) :
      Queried prog t
  | instruction {s t : Lowering} {v : ValueId} {b : Bool} (hs : Queried prog s) (h : isRelevant prog v s = .ok b t) :
      Queried prog t
  | other {s t : Lowering} (hs : Queried prog s) (h : t.relevance = s.relevance) : Queried prog t

variable {prog : Program} {s : Lowering} {f : FuncId}

theorem Queried.exact (hs : Queried prog s) : prog.Exact s.relevance := by
  induction hs with
  | fresh hs => simp [Program.Exact, hs]
  | function _ h ih => exact (touchesPointers_eq_ok h).1.exact ih
  | instruction _ h ih => exact (isRelevant_eq_ok h).1.exact ih
  | other _ h ih => exact h ▸ ih

theorem touchesPointers_total (hrange : prog.InRange) (hprog : prog.Coherent) (hends : prog.CalleesEnd f)
    (hf : f < prog.functions.length) (s : Lowering) : ∃ b t, touchesPointers prog f s = .ok b t := by
  cases hknown : s.relevance.get? f with
  | some b => exact ⟨b, s, bind_eq_ok_iff.2 ⟨s, s, rfl, by simp only [hknown]; rfl⟩⟩
  | none =>
    obtain ⟨b, hsearch⟩ : (prog.searchPointers s.relevance (prog.instructionCount + 2) [f] ∅).Answers := by
      refine Program.searchPointers_answers hrange hprog (by simpa using ⟨hf, hends⟩) ?_
      rw [Program.instructionCount_eq, List.length_singleton]
      omega
    refine ⟨b, { s with relevance := s.relevance.insert f b }, bind_eq_ok_iff.2 ⟨s, s, rfl, ?_⟩⟩
    simp only [hknown]
    exact bind_eq_ok_iff.2 ⟨b, s, lift_eq_ok_iff.2 ⟨hsearch, rfl⟩, rfl⟩

/-- A function is found to touch pointers exactly if one does that it reaches by direct calls, whatever was asked
before.  Something is found unless an id names nothing or the casts of a callee go round in a circle. -/
theorem relevance_exact (hs : Queried prog s) :
    (∀ b t, touchesPointers prog f s = .ok b t → (b = true ↔ prog.ReachesPointers f)) ∧
      (prog.InRange → prog.Coherent → prog.CalleesEnd f → f < prog.functions.length →
        ∃ b t, touchesPointers prog f s = .ok b t) := by
  refine ⟨fun b t h ↦ ?_, fun hrange hprog hends hf ↦ touchesPointers_total hrange hprog hends hf s⟩
  obtain ⟨hst, hknown⟩ := touchesPointers_eq_ok h
  exact hst.exact hs.exact f b hknown

open Command in
/-- Two functions that call each other, and two more, of which one calls itself and one of the former and the other one
takes the address of a variable.  The first one also has a sum of itself in a block that is never reached. -/
def pendulum : Program := .assembled
  [function "tick" .void [] false, function "tock" .void [] false, function "strike" .void [] false,
    function "chime" .void [] false, block 0, block 1, block 2, block 3, call 0 0 1 [] .void, ret 0 0 none,
    call 1 0 0 [] .void, ret 1 0 none, call 2 0 0 [] .void, call 2 0 2 [] .void, call 2 0 3 [] .void, ret 2 0 none,
    call 3 0 2 [] .void, alloca 3 0 (.int 64), ret 3 0 none, block 0, binary 0 1 .add 15 15 (.int 64)]

theorem relevance_exact_pendulum : ∃ s, Queried pendulum s ∧ s.relevance.get? 0 = some false ∧
    ¬pendulum.ReachesPointers 1 ∧ pendulum.ReachesPointers 2 ∧ ∃ b t, touchesPointers pendulum 3 s = .ok b t := by
  have hrange : pendulum.InRange := Program.inRange_of_check (by decide) (by decide)
  have hends : pendulum.CalleesEnd 3 := fun _ _ _ _ _ _ callee _ ↦ Program.castsEnd_of_check (by decide) callee
  have hrun : succeeds (fun _ t ↦ t.relevance.get? 0 = some false ∧ succeeds (fun b _ ↦ !b)
      (touchesPointers pendulum 1 t) ∧
      succeeds (fun b _ ↦ b) (touchesPointers pendulum 2 t)) (touchesPointers pendulum 0 {}) = true := by decide
  obtain ⟨_, s, hs, htest⟩ := ok_of_succeeds hrun
  obtain ⟨hknown, hquiet, hreaches⟩ := of_decide_eq_true htest
  have hqueried : Queried pendulum s := .function (.fresh rfl) hs
  obtain ⟨_, _, hquiet, hfalse⟩ := ok_of_succeeds hquiet
  obtain ⟨_, _, hreaches, htrue⟩ := ok_of_succeeds hreaches
  refine ⟨s, hqueried, hknown, fun h ↦ ?_, ((relevance_exact hqueried).1 _ _ hreaches).1 htrue, ?_⟩
  · simp [((relevance_exact hqueried).1 _ _ hquiet).2 h] at hfalse
  · exact (relevance_exact hqueried).2 hrange (Program.coherent_assembled _) hends (by decide)

open Command in
/-- A function with a block that is never reached, in which a cast of itself is called. -/
def mirage : Program := .assembled
  [function "main" .void [] false, function "f" .void [] false, block 0, block 1, block 1, call 0 0 1 [] .void,
    ret 0 0 none, ret 1 0 none, call 1 1 6 [] .void, cast 1 1 .bitcast 6 .ptr, ret 1 1 none]

/-- The cast is a pointer, so the function touches pointers; but the callee is looked for first, and however long the
casts are followed, no callee is found. -/
theorem callee_never_found : mirage.InRange ∧ mirage.ReachesPointers 1 ∧
    (∀ budget, mirage.stripWithin false budget 6 = .error .exhausted) ∧
    ∃ t, touchesPointers mirage 1 {} = .error .exhausted t := by
  have hstrip (budget : Nat) : mirage.stripWithin false budget 6 = .error .exhausted := by
    induction budget with
    | zero => rfl
    | succ budget ih => exact ih
  have hsearch : fails (fun e _ ↦ e = .exhausted) (touchesPointers mirage 1 {}) = true := by decide
  obtain ⟨e, t, hsearch, he⟩ := error_of_fails hsearch
  refine ⟨Program.inRange_of_check (by decide) (by decide), ?_, hstrip, t, by rw [hsearch, of_decide_eq_true he]⟩
  have hcast : mirage.kindAt 6 = some (.instruction ⟨.cast .bitcast, [6], 1, 1⟩) := rfl
  have hbody : ∃ fn ∈ mirage.functions[1]?, 6 ∈ fn.blocks.flatMap (·.insts) := ⟨_, rfl, by decide⟩
  obtain ⟨fn, hfn, hmem⟩ := hbody
  exact ⟨1, .refl, .handles hfn hmem hcast (.result rfl)⟩

end Lower

end PointsTo
