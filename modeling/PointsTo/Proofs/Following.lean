import PointsTo.Proofs.Nesting
import PointsTo.Proofs.Tending

/-!
# Uses are followed to a conclusion

A value that is lowered on request gets its node before its uses are followed, and so does a use before
what it computes, stores or passes on is followed.  Only calls that matter are followed without getting
a node.  If nothing exposed is relayed in a circle, this comes to an end, too.
-/

namespace PointsTo

namespace Lower

open Stateful Program

variable {prog : Program} {ask : Provider} {s t : Lowering} {f : FuncId} {v w call user param : ValueId}
  {inst : Instruction} {n : Nat}

/-- Uses can be followed once there is progress. -/
theorem Concludes.uses (hmeets : ∀ n, ask.Meets prog s n) (htidy : s.Tidy prog) (hv : s.Followed prog v) :
    Concludes (ask.uses v) s := by
  rcases hv with htame | hexposed
  · exact hmeets _ (.uses v) s (Nat.lt_succ_self _) (.refl prog s) htidy htame
  · exact hmeets _ (.relay v) s (Nat.lt_succ_self _) (.refl prog s) htidy hexposed

section

variable (hprog : prog.Coherent) (h : prog.Grounded) (hask : ask.Sound prog)

include hprog h hask

/-! ## Values that are lowered on request -/

/-- An irrelevant instruction asks for what it is computed from, and the rest once it has its node. -/
theorem lowerDeferred_concludes (htidy : s.Tidy prog) (hcopes : ask.Copes prog s (Request.rank prog (.operand v)))
    (hv : prog.kindAt v = some (.instruction inst)) (hrecorded : s.records.get? inst.function ≠ none)
    (hjudged : s.Judged prog v false) (hnew : s.nodes.get? v = none) {followUses : Bool}
    (huses : followUses = true → s.Followed prog v) : Concludes (lowerDeferred prog ask v followUses) s := by
  have hmeets {t : Lowering} (ht : s.Serves prog t) (hnamed : t.nodes.get? v ≠ none) :=
    hcopes.advanced ht.toKeeps (ht.toKeeps.progress_lt_of_named (lt_of_kindAt hv) hnew hnamed)
  refine lowerDeferred_obeys (attended_heeds hprog h hask hv) ⟨htidy, hv, hrecorded, hcopes.meets⟩ hjudged hnew
    (fun {_ t u w} ht hnamed _ _ hu hw ↦ ?_) fun {t} hfollow ht hnamed ↦ ?_
  · have hserves := ht.trans hu
    have hhoused := (Program.Within.operand hv hw).housed h.scopes (hserves.recorded hrecorded)
    exact ⟨hhoused, hmeets ht hnamed _ (.operand w) u (Nat.lt_succ_self _) hu.toKeeps
      (htidy.serves h.toOrderly hprog hserves) ⟨h.inRange.operand hv hw, hhoused⟩⟩
  · exact Concludes.uses (hmeets ht hnamed) (htidy.serves h.toOrderly hprog ht) ((huses hfollow).mono ht.toKeeps)

/-- A request for a value leads to requests for what the value is computed from. -/
theorem operand_concludes (htidy : s.Tidy prog) (hcopes : ask.Copes prog s (Request.rank prog (.operand v)))
    (hv : v < prog.values.length) (hhoused : s.Housed prog v) : Concludes (operand prog ask v) s := by
  refine (availableOperand?_concludes hprog h hask htidy hv hcopes.meets).bind fun op? t hop ↦ ?_
  obtain ⟨-, hnone⟩ := availableOperand?_ensures hask htidy.valid _ _ hop
  cases op? with
  | some op => exact .pure
  | none =>
    obtain ⟨hnew, rfl⟩ := hnone rfl
    refine .bind_lift (value_answers hv) fun x hx ↦ ?_
    have hkind := kindAt_of_value hx
    split
    · rename_i inst hinst
      rw [hinst] at hkind
      have := h.lenient.isRelevant hprog hv
      refine .next fun relevant t hrelevant ↦ ?_
      obtain ⟨hsettles, hjudged⟩ := isRelevant_eq_ok hrelevant
      have hserves : s.Serves prog t := (Lowering.Evolves.refl htidy.valid).step hsettles.step
      cases relevant with
      | true => exact h.lenient.missing hprog hv fun _ ↦ ⟨_, rfl⟩
      | false =>
        refine lowerDeferred_concludes hprog h hask (htidy.serves h.toOrderly hprog hserves)
          (hcopes.mono hserves.toKeeps le_rfl) hkind ?_ hjudged (hsettles.nodes ▸ hnew) (by simp)
        exact hserves.recorded (hhoused _ (home?_of_kindAt hkind))
    · rename_i f index harg
      rw [harg] at hkind
      exact lowerFormal_obeys hprog h.lenient hkind (hhoused _ (home?_of_kindAt hkind))
    · exact h.lenient.missing hprog hv fun _ ↦ ⟨_, rfl⟩

/-! ## Uses -/

/-- What was lowered on request gets its place, and the addresses that were taken are followed. -/
theorem placeAll_concludes (htidy : s.Tidy prog) (hmeets : ask.Meets prog s (2 + prog.values.length))
    (hexplored : s.Explored prog f) : Concludes (placeAll prog ask f) s := by
  refine placeAll_obeys hprog hask h.lenient htidy.valid fun {v inst u} hkind hf hop hu ↦ ?_
  refine hmeets (.uses v) u (by simp only [Request.rank]; omega) hu.toKeeps (htidy.serves h.toOrderly hprog hu) ?_
  exact ⟨.address hkind hop, f, hf ▸ home?_of_kindAt hkind, .inl (hexplored.mono hu.toKeeps)⟩

/-- A value is bound to the formal that it is passed to, and followed there. -/
theorem bindFormal_concludes (htidy : s.Tidy prog) (hmeets : ask.Meets prog s (2 + prog.values.length))
    (hcall : prog.kindAt call = some (.instruction inst)) (hrecorded : s.records.get? inst.function ≠ none)
    (hmem : v ∈ inst.operands)
    (huses : ∀ f param t, prog.Hands call v f param → s.Serves prog t → Concludes (ask.uses param) t) :
    Concludes (bindFormal prog ask call v) s := by
  have hv := h.inRange.operand hcall hmem
  refine bindFormal_obeys hprog hask h.lenient htidy.valid hcall hrecorded
    (fun {f _} hhands ↦ ?_) (fun {t} ht ↦ ?_) (fun hhands ht _ ↦ huses _ _ _ hhands ht) fun _ ht hr hcomplete ↦ ?_
  · refine hmeets (.entry f) s (by simp only [Request.rank]; omega) (.refl prog s) htidy ?_
    exact ⟨lt_of_calledFunction? hprog hhands.1, htidy.valid.started hrecorded⟩
  · have hhoused : t.Housed prog v := (Program.Within.operand hcall hmem).housed h.scopes (ht.recorded hrecorded)
    have hheight := height_lt_length (h.not_depends_self hprog) hv
    exact ⟨hhoused, hmeets (.operand v) t (by simp only [Request.rank]; omega) ht.toKeeps
      (htidy.serves h.toOrderly hprog ht) ⟨hv, hhoused⟩⟩
  · have htidy := htidy.serves h.toOrderly hprog ht
    exact placeAll_concludes hprog h hask htidy (hmeets.mono ht.toKeeps le_rfl) (htidy.explored hr hcomplete)

variable (hrelays : ∀ v, ¬Relation.TransGen prog.Relays v v)

include hrelays

/-- A use gets its node, unless it is a call that matters.  Such a call relays what it is handed. -/
theorem lowerUse_concludes (htidy : s.Tidy prog) (hcopes : ask.Copes prog s n) (hn : 1 + prog.values.length ≤ n)
    (hv : s.Tame prog v ∨ (prog.Exposed v ∧ Request.rank prog (.relay v) ≤ n))
    (huser : prog.kindAt user = some (.instruction inst)) (hmem : v ∈ inst.operands) :
    Concludes (lowerUse prog ask v user) s := by
  have hlt := lt_of_kindAt huser
  have hfollowed : s.Followed prog v := hv.imp id And.left
  have hmeets {t : Lowering} (hnew : s.nodes.get? user = none) (ht : s.Serves prog t)
      (hnamed : t.nodes.get? user ≠ none) :=
    hcopes.advanced ht.toKeeps (ht.toKeeps.progress_lt_of_named hlt hnew hnamed)
  refine lowerUse_obeys hprog hask h.lenient htidy.valid huser
    (fun ht hrecorded hnew hjudged ↦ ?_) (fun hnew ht hnamed hidle hop hpointer ↦ ?_)
    fun {t} ht hrecorded hop hidle ↦ ?_
  · have hheight := height_lt_length (h.not_depends_self hprog) hlt
    have hrank : Request.rank prog (.operand user) ≤ n := by
      simp only [Request.rank]
      omega
    refine lowerDeferred_concludes hprog h hask (htidy.serves h.toOrderly hprog ht) (hcopes.mono ht.toKeeps hrank)
      huser hrecorded hjudged hnew fun _ ↦ (hfollowed.mono ht.toKeeps).result h.scopes huser hmem ?_
    exact (hjudged.idle_iff ht.valid.relevance huser).2 rfl
  · exact Concludes.uses (hmeets hnew ht (hnamed h.scopes)) (htidy.serves h.toOrderly hprog ht)
      ((hfollowed.mono ht.toKeeps).memory h.scopes huser hmem hidle hop hpointer)
  · have htidy' := htidy.serves h.toOrderly hprog ht
    rcases hidle with ⟨hidle, hnew, hnamed⟩ | ⟨hbusy, hnew⟩
    · have hmeets := hmeets hnew ht (hnamed h.scopes)
      refine bindFormal_concludes hprog h hask htidy' (hmeets _) huser hrecorded hmem fun f param u hhands hu ↦ ?_
      refine .uses (fun n ↦ (hmeets n).mono hu.toKeeps le_rfl) (htidy'.serves h.toOrderly hprog hu) ?_
      exact (hfollowed.mono (ht.trans hu).toKeeps).formal hprog huser hidle hhands
    · -- A call that matters has a node by now, unless it was met through memory of no function.
      obtain ⟨hexposed, hrank⟩ : prog.Exposed v ∧ Request.rank prog (.relay v) ≤ n := by
        refine hv.resolve_left fun htame ↦ hbusy ?_
        exact (htame.mono ht.toKeeps).idle h.scopes hprog ht.valid huser hmem hop hnew
      simp only [Request.rank] at hrank
      refine bindFormal_concludes hprog h hask htidy' (hcopes.meets.mono ht.toKeeps (by omega)) huser hrecorded hmem
        fun f param u hhands hu ↦ ?_
      have hrelay : prog.Relays v param := ⟨hexposed, user, inst, f, huser, hbusy, hhands⟩
      have hheight := height_lt_height hrelays (.single hrelay) (hhands.lt hprog)
      refine hcopes.meets (.relay param) u ?_ (ht.trans hu).toKeeps (htidy'.serves h.toOrderly hprog hu)
        (.formal hexposed hhands)
      simp only [Request.rank]
      omega

theorem lowerUses_concludes (htidy : s.Tidy prog) (hcopes : ask.Copes prog s n) (hn : 1 + prog.values.length ≤ n)
    (hv : s.Tame prog v ∨ (prog.Exposed v ∧ Request.rank prog (.relay v) ≤ n)) :
    Concludes (lowerUses prog ask v) s := by
  refine .forM (fun t ↦ s.Serves prog t) (fun user huser t ht ↦ ?_)
    (fun user _ t ht ↦ (lowerUse_ensures hprog hask ht.valid).mono fun _ _ hu ↦ ht.trans hu.1) (.refl htidy.valid)
  obtain ⟨inst, hkind, hmem⟩ := operand_of_mem_users (List.mem_reverse.1 huser)
  exact lowerUse_concludes hprog h hask hrelays (htidy.serves h.toOrderly hprog ht) (hcopes.mono ht.toKeeps le_rfl) hn
    (hv.imp (·.mono ht.toKeeps) id) hkind hmem

end

end Lower

end PointsTo
