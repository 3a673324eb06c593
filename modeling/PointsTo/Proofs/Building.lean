import PointsTo.Proofs.Functions

/-!
# Built programs

Lowering a program from its entry function is a sequence of requests to a state in which nothing is
lowered yet.  So in the end every call is joined to its callee and every function that was opened is
complete, whichever function asked for which.
-/

namespace PointsTo

namespace Lowering

/-- Every call is joined and every function complete. -/
structure Intact (prog : Program) (s : Lowering) : Prop where
  valid : s.Valid prog
  joined : ∀ {m q call}, s.IsPair m q call → s.Joined prog m q call
  finished : ∀ {f r}, s.records.get? f = some r → s.Finished prog f r

variable {prog : Program} {s t : Lowering} {mine : ValueId → Prop}

/-- The sentinels are no calls. -/
theorem Intact.initial (prog : Program) (journal : Journal) : Intact prog { journal } where
  valid := .initial prog journal
  joined := by
    rintro m q call ⟨-, n, hn, hk, -⟩
    rcases m with _ | _ | m
    all_goals
      simp [Graph.sentinels] at hn
      try (rw [← hn] at hk; contradiction)
  finished hr := by simp at hr

theorem Intact.evolves (h : s.Intact prog) (hst : s.Evolves prog mine t) : t.Intact prog where
  valid := hst.valid
  joined {m q call} hpair := by
    rcases Nat.lt_or_ge m s.graph.size with hm | hm
    · have hpair' := hpair.of_persists h.valid hst.graph hm
      obtain ⟨f, r, hjoins⟩ := h.joined hpair'
      obtain ⟨r', hjoins'⟩ := hjoins.grows hpair' h.valid hst.toGrows hst.valid hm (hpair'.site h.valid).lt_size
        (h.valid.record hjoins.record).exit.lt_size
      exact ⟨f, r', hjoins'⟩
    · exact hst.joined hm hpair
  finished {f r'} hr' := by
    cases hr : s.records.get? f with
    | none => exact hst.finished hr hr'
    | some r =>
      have hpers := hst.persists hr hr' (h.valid.record hr).exit.lt_size
      exact (h.finished hr).mono hst.toGrows hst.valid (fun _ ha ↦ ha.lt_size) hpers.complete

end Lowering

namespace Lower

open Stateful

variable {prog : Program} {s : Lowering} {entry : String}

/-- The globals lead to the entry function, which is lowered after them. -/
theorem build_ensures (hprog : prog.Coherent) (hs : s.Valid prog)
    (hnew : prog.Scoped → s.globals = none → ∀ g ∈ prog.globals, s.nodes.get? g.value = none) :
    Ensures (build prog entry) s fun _ t ↦ s.Serves prog t ∧
      (∃ f, prog.functionNamed? entry = some f ∧ t.records.get? f ≠ none) ∧
        ∃ chain u, globalChain prog (ask prog) s = .ok chain u ∧ u.Keeps prog t := by
  have hask := provider_sound hprog (requestDepth prog)
  unfold build
  split
  · exact fun _ _ h ↦ absurd h reject_ne_ok
  · rename_i f hentry
    refine .bind_lift fun fn _ ↦ ?_
    extract_lets finish rest
    have hrest : Ensures (rest ⟨⟩) s fun _ t ↦ s.Serves prog t ∧
        (∃ f, prog.functionNamed? entry = some f ∧ t.records.get? f ≠ none) ∧
          ∃ chain u, globalChain prog (ask prog) s = .ok chain u ∧ u.Keeps prog t := by
      refine .seq fun chain s₁ hlowered ↦ ?_
      obtain ⟨h₁, hglobals, hchain⟩ := globalChain_ensures hask hprog hs hnew chain s₁ hlowered
      refine (lowerFunction_ensures hprog hask h₁.valid fun _ ↦ by simp [hglobals]).bind fun id s₂ h ↦ ?_
      obtain ⟨h₂, r, hr, hid⟩ := h
      have hfinish {u : Lowering} {root : NodeId} (hu : s₂.Serves prog u) : Ensures (finish root) u fun _ t ↦
          s.Serves prog t ∧ (∃ f, prog.functionNamed? entry = some f ∧ t.records.get? f ≠ none) ∧
            ∃ chain u, globalChain prog (ask prog) s = .ok chain u ∧ u.Keeps prog t := by
        refine .seq fun _ u₁ hroot ↦ .bind_get (.seq fun _ t hnote ↦ .pure ?_)
        obtain rfl := onGraph_eq_ok_iff.1 hroot
        have ht := (hu.step (.root root)).step (note_eq_ok hnote).step
        refine ⟨(h₁.trans h₂).trans ht, ⟨f, hentry, ht.recorded (by simp [hr])⟩, chain, s₁, hlowered, ?_⟩
        exact (h₂.trans ht).toKeeps
      cases chain with
      | none => exact .bind_pure (hfinish (.refl h₂.valid))
      | some span =>
        refine .seq fun _ u hu ↦ .bind_pure (hfinish ?_)
        obtain rfl := onGraph_eq_ok_iff.1 hu
        refine (Lowering.Evolves.refl h₂.valid).step (.successor (h₂.ends (hchain span rfl).2) ?_)
        exact hid ▸ (h₂.valid.record hr).entry.accepts (by simp)
    split
    · exact .seq fun _ _ h ↦ absurd h reject_ne_ok
    · exact hrest

/-- What is built from scratch. -/
theorem intact_of_build (hprog : prog.Coherent) {journal : Journal} {root : NodeId} {t : Lowering}
    (h : build prog entry { journal } = .ok root t) : t.Intact prog :=
  (Lowering.Intact.initial prog journal).evolves
    (build_ensures hprog (.initial prog journal) (fun _ _ _ _ ↦ rfl) root t h).1

end Lower

end PointsTo
