import Mathlib
import PointsTo.Proofs.Dominance
import PointsTo.Proofs.Following
import PointsTo.Proofs.Outcomes

/-!
# Lowering comes to an end

Every request makes progress or leads to requests of lower rank, so requests nest only so deep: as many
times as there can be progress, and as many levels each time as there are ranks.  Hence a grounded
program is lowered or rejected, unless something exposed is relayed in a circle.
-/

namespace PointsTo

theorem Ty.depth_le_maxDepth {fields : List Ty} {field : Ty} (h : field ∈ fields) :
    field.depth ≤ Ty.maxDepth fields := by
  induction h with
  | head => exact Nat.le_max_left _ _
  | tail _ _ ih => exact ih.trans (Nat.le_max_right _ _)

/-- Elements of an aggregate are less deeply nested than the aggregate. -/
theorem DataLayout.depth_lt_of_element? {dl : DataLayout} {ty elem : Ty} {index offset : Nat}
    (h : dl.element? ty index = some (offset, elem)) : elem.depth < ty.depth := by
  unfold DataLayout.element? at h
  split at h
  · split at h
    · rename_i field _ hfield _
      obtain ⟨-, rfl⟩ := Prod.mk.inj (Option.some.inj h)
      exact Nat.lt_succ_of_le (Ty.depth_le_maxDepth (List.mem_of_getElem? hfield))
    · contradiction
  · dsimp only at h
    split at h
    · obtain ⟨-, rfl⟩ := Prod.mk.inj (Option.some.inj h)
      exact Nat.lt_succ_self _
    · contradiction
  · contradiction

namespace Request

variable {prog : Program} {s t : Lowering} {q q' : Request}

/-- A bound on how deep requests are nested in a request: as many levels as there are ranks, each time
that there can still be progress. -/
noncomputable def cost (prog : Program) (s : Lowering) (q : Request) : Nat :=
  (prog.values.length + prog.functions.length - s.progress prog) * (2 * prog.values.length + 3) + q.rank prog

theorem rank_lt : q.rank prog < 2 * prog.values.length + 3 := by
  have hheight (R : ValueId → ValueId → Prop) (v : ValueId) : prog.height R v ≤ prog.values.length := by
    classical
    calc prog.height R v ≤ (Finset.range prog.values.length).card := Finset.card_filter_le _ _
      _ = prog.values.length := Finset.card_range _
  cases q with
  | operand v | relay v =>
    have hoperands := hheight prog.Depends v
    have hrelays := hheight prog.Relays v
    simp only [rank]
    omega
  | entry | uses =>
    simp only [rank]
    omega

theorem cost_lt_of_rank (hst : s.Keeps prog t) (hrank : q'.rank prog < q.rank prog) :
    q'.cost prog t < q.cost prog s := by
  have hprogress := hst.progress_le
  exact Nat.add_lt_add_of_le_of_lt (Nat.mul_le_mul_right _ (by omega)) hrank

theorem cost_lt_of_progress (hprogress : s.progress prog < t.progress prog) : q'.cost prog t < q.cost prog s := by
  have hle : t.progress prog ≤ prog.values.length + prog.functions.length := Lowering.progress_le
  have hrank : q'.rank prog < 2 * prog.values.length + 3 := rank_lt
  calc q'.cost prog t
      < (prog.values.length + prog.functions.length - t.progress prog + 1) * (2 * prog.values.length + 3) := by
        rw [Nat.succ_mul]
        exact Nat.add_lt_add_left hrank _
    _ ≤ (prog.values.length + prog.functions.length - s.progress prog) * (2 * prog.values.length + 3) :=
        Nat.mul_le_mul_right _ (by omega)
    _ ≤ q.cost prog s := Nat.le_add_right _ _

/-- Requests are followed as deep as any of them can cost. -/
theorem cost_le_requestDepth (hfunctions : prog.functions ≠ []) : q.cost prog s ≤ Lower.requestDepth prog := by
  have hpos : 0 < prog.functions.length := List.length_pos_iff.2 hfunctions
  have hrank : q.rank prog < 2 * prog.values.length + 3 := rank_lt
  calc q.cost prog s
      ≤ (prog.values.length + prog.functions.length) * (2 * prog.values.length + 3) + (2 * prog.values.length + 3) :=
        Nat.add_le_add (Nat.mul_le_mul_right _ (Nat.sub_le _ _)) hrank.le
    _ = (prog.values.length + prog.functions.length + 1) * (2 * prog.values.length + 3) := (Nat.succ_mul _ _).symm
    _ ≤ Lower.requestDepth prog := Nat.mul_le_mul (by omega) (by omega)

end Request

namespace Lower

open Stateful

variable {prog : Program} {ask : Provider} {s t : Lowering} {f : FuncId} {v : ValueId} {inst : Instruction}
    {id last : NodeId}

section

variable (hprog : prog.Coherent) (h : prog.Grounded) (hask : ask.Sound prog)

include hprog h hask

/-! ## Functions -/

/-- A function is begun at the first request, which is progress. -/
theorem lowerFunction_concludes (htidy : s.Tidy prog) (hglobals : s.globals ≠ none)
    (hf : f < prog.functions.length) {n : Nat}
    (hcopes : ask.Copes prog s n) : Concludes (lowerFunction prog ask f) s := by
  have hord := h.toOrderly
  refine lowerFunction_obeys hprog hask h.lenient hord htidy.valid hglobals
    (Conclusive.lift (Program.function_answers hf)) fun {_ r₀ t} hs₁ _ hnew hopens hopen ↦ ?_
  have hkeeps := hs₁.toKeeps.trans hopens.toKeeps
  have hmeets := hcopes.advanced hkeeps (hkeeps.progress_lt_of_recorded hf hnew (by simp [hopens.opened]))
  have htidy := (htidy.serves hord hprog hs₁).opens hopens hopen
  refine ⟨fun hu hrecorded hv hvf _ ↦ ?_, fun {_ u _ w _} hu hrecorded _ hv hvf hw ↦ ?_, fun hu _ hexplored ↦ ?_⟩
  · exact lowerInBlock_obeys (attended_heeds hprog h hask hv)
      ⟨htidy.serves hord hprog hu, hv, hvf ▸ hrecorded, (hmeets _).mono hu.toKeeps le_rfl⟩
  · have hhoused := (Program.Within.operand hv hw).housed h.scopes (hvf ▸ hrecorded)
    exact ⟨hhoused, hmeets _ (.operand w) u (Nat.lt_succ_self _) hu.toKeeps (htidy.serves hord hprog hu)
      ⟨h.inRange.operand hv hw, hhoused⟩⟩
  · exact placeAll_concludes hprog h hask (htidy.serves hord hprog hu) ((hmeets _).mono hu.toKeeps le_rfl) hexplored

/-! ## Globals -/

section

variable (htidy : s.Tidy prog) (hmeets : ask.Meets prog s (1 + prog.values.length))

include htidy hmeets

omit hask

/-- What belongs to no function can be asked for at any time. -/
theorem Concludes.homeless (hv : v < prog.values.length) (hhome : prog.home? v = none) : Concludes
    (ask.operand v) s := by
  have hheight := Program.height_lt_length (h.not_depends_self hprog) hv
  refine hmeets (.operand v) s (by simp only [Request.rank]; omega) (.refl prog s) htidy ⟨hv, fun g hg ↦ ?_⟩
  simp [hhome] at hg

theorem storeInitial_concludes {offset : Nat} (hv : v < prog.values.length) (hhome : prog.home? v = none) :
    Concludes (storeInitial ask v id offset last) s := by
  refine (Concludes.homeless hprog h htidy hmeets hv hhome).bind fun op _ _ ↦ ?_
  dsimp only
  split <;> exact Tame.throws _

end

/-- Initializers are followed as deep as the type of the global is nested. -/
theorem lowerInitializer_concludes {global : Global} {budget : Nat} {ty : Ty} {offset : Nat} (htidy : s.Tidy prog)
    (hmeets : ask.Meets prog s (1 + prog.values.length)) (hv : v < prog.values.length) (hhome : prog.home? v = none)
    (hlast : s.Extends prog last) (hbudget : ty.depth < budget) :
    Concludes (lowerInitializer prog ask global id budget v ty offset last) s := by
  have hord := h.toOrderly
  induction budget generalizing s v ty offset last with
  | zero => contradiction
  | succ budget ih =>
    have hreject {t : Lowering} : Concludes (unhandledInitializer prog global v : Lower NodeId) t :=
      .bind_lift (Program.describe_answers h.inRange hprog hv) fun _ _ ↦ .reject
    have hstore : Concludes (storeInitial ask v id offset last) s :=
      storeInitial_concludes hprog h htidy hmeets hv hhome
    unfold lowerInitializer
    refine .bind_lift (Program.constant?_answers hv) fun c? hc ↦ ?_
    split
    · rename_i elems
      have hkind := Program.constant?_eq_ok_iff.1 hc
      refine .foldlM (fun last t ↦ s.Serves prog t ∧ t.Extends prog last) (fun x hx last' t ⟨ht, hlast'⟩ ↦ ?_)
        (fun x hx last' t ⟨ht, hlast'⟩ ↦ ?_) ⟨.refl htidy.valid, hlast⟩
      all_goals
        have hmem := List.fst_mem_of_mem_zipIdx hx
        have hcomposed : prog.Depends v x.1 := ⟨_, hkind, rfl, hmem⟩
        have hlt := hcomposed.lt h.inRange
        have hhome' := (hcomposed.composed h.scopes hhome).2
      · have htidy' := htidy.serves hord hprog ht
        have hmeets' := hmeets.mono ht.toKeeps le_rfl
        dsimp only
        split
        · exact hreject
        · rename_i elemOffset elemTy helem
          have hdepth := DataLayout.depth_lt_of_element? helem
          split
          · exact storeInitial_concludes hprog h htidy' hmeets' hlt hhome'
          · refine .bind_lift (Program.isZero_answers (h.founded hprog) hlt) fun zero _ ↦ ?_
            split
            · exact ih htidy' hmeets' hlt hhome' hlast' (by omega)
            · exact .pure
      · have hafter {last : NodeId} {u : Lowering} (hu : t.Serves prog u ∧ u.Extends prog last) :
            s.Serves prog u ∧ u.Extends prog last := ⟨ht.trans hu.1, hu.2⟩
        dsimp only
        split
        · exact .bind_lift fun _ _ _ _ h ↦ absurd h reject_ne_ok
        · split
          · exact (storeInitial_ensures hask ht.valid (fun _ ↦ hhome') hlast').mono fun _ _ ↦ hafter
          · refine .bind_lift fun zero _ ↦ ?_
            split
            · exact (lowerInitializer_ensures hask ht.valid (fun _ ↦ hhome') hlast').mono fun _ _ ↦ hafter
            · exact .pure ⟨ht, hlast'⟩
    · split
      · exact hreject
      · exact .pure
    · split
      · exact hstore
      · exact .pure
    · split
      · exact hstore
      · exact hreject

theorem lowerContent_concludes {global : Global} (htidy : s.Tidy prog)
    (hmeets : ask.Meets prog s (1 + prog.values.length))
    (hglobal : global ∈ prog.globals) (hid : s.Extends prog id) : Concludes (lowerContent prog ask global id) s := by
  unfold lowerContent
  split
  · rename_i init hinit _
    have hlt := h.inRange.initializer hglobal hinit
    refine .bind_lift (Program.isZero_answers (h.founded hprog) hlt) fun zero _ ↦ ?_
    split
    · exact Tame.throws _
    · exact lowerInitializer_concludes hprog h hask htidy hmeets hlt (h.scopes.initializer hglobal hinit) hid
        (Nat.lt_succ_self _)
  · exact Tame.throws _

end

/-! ## Depth -/

/-- The requests that are nested in a request of this cost are cheaper. -/
theorem copes_of_cost {q : Request} {n : Nat} (hn : q.cost prog s ≤ n)
    (hconcludes : ∀ t q, t.Tidy prog → t.Admits prog q → q.cost prog t < n → ask.Concludes t q) :
    ask.Copes prog s (q.rank prog) where
  meets q' t hrank hst ht hq' :=
    hconcludes t q' ht hq' ((Request.cost_lt_of_rank hst hrank).trans_le hn)
  advanced _ hprogress _ q' u _ htu hu hq' :=
    hconcludes u q' hu hq' ((Request.cost_lt_of_progress (hprogress.trans_le htu.progress_le)).trans_le hn)

section

variable (hprog : prog.Coherent) (h : prog.Grounded) (hrelays : ∀ v, ¬Relation.TransGen prog.Relays v v)

include hprog h hrelays

/-- Requests that are nested as deep as they can cost come to a conclusion. -/
theorem provider_concludes (depth : Nat) (s : Lowering) (q : Request) (htidy : s.Tidy prog) (hq : s.Admits prog q)
    (hdepth : q.cost prog s < depth) : (provider prog depth).Concludes s q := by
  induction depth generalizing s q with
  | zero => contradiction
  | succ depth ih =>
    have hask := provider_sound hprog depth
    have hcopes : (provider prog depth).Copes prog s (q.rank prog) := copes_of_cost (Nat.le_of_lt_succ hdepth) ih
    cases q with
    | operand v => exact operand_concludes hprog h hask htidy hcopes hq.1 hq.2
    | entry f => exact lowerFunction_concludes hprog h hask htidy hq.2 hq.1 hcopes
    | uses v => exact lowerUses_concludes hprog h hask hrelays htidy hcopes le_rfl (.inl hq)
    | relay v =>
      refine lowerUses_concludes hprog h hask hrelays htidy hcopes ?_ (.inr ⟨hq, le_rfl⟩)
      simp only [Request.rank]
      omega

/-- The depth to which requests are followed suffices. -/
theorem ask_copes (hfunctions : prog.functions ≠ []) (s : Lowering) :
    (Lower.ask prog).Copes prog s (1 + prog.values.length) :=
  copes_of_cost (q := .uses 0) (Request.cost_le_requestDepth hfunctions)
    (provider_concludes hprog h hrelays (requestDepth prog))

/-- A grounded program that relays nothing in a circle is lowered or rejected. -/
theorem build_concludes (entry : String) (journal : Journal) : Concludes (build prog entry) { journal } := by
  have hord := h.toOrderly
  have hask := provider_sound hprog (requestDepth prog)
  have htidy : ({ journal } : Lowering).Tidy prog := .initial prog journal
  have hlt {f : FuncId} (hf : prog.functionNamed? entry = some f) : f < prog.functions.length :=
    (List.findIdx?_eq_some_iff_getElem.1 hf).1
  have hcopes {f : FuncId} (hf : prog.functionNamed? entry = some f) :=
    ask_copes hprog h hrelays (List.ne_nil_of_length_pos (Nat.zero_lt_of_lt (hlt hf)))
  refine build_obeys hprog h.lenient entry journal (fun hf ↦ ?_) fun hf hs hglobals _ ↦ ?_
  · refine lowerGlobals_obeys hprog hask h.lenient htidy.valid (fun _ _ _ ↦ rfl)
      (fun {g t} hg ht _ ↦ ?_) fun {g t id} hg ht _ hid ↦ ?_
    · obtain ⟨_, hkind⟩ := hprog.kindAt_global hg
      exact Concludes.homeless hprog h (htidy.serves hord hprog ht) (hcopes hf t).meets (Program.lt_of_kindAt hkind)
        (Program.home?_of_kindAt hkind)
    · exact lowerContent_concludes hprog h hask (htidy.serves hord hprog ht) (hcopes hf t).meets hg hid
  · exact lowerFunction_concludes hprog h hask (htidy.serves hord hprog hs) hglobals (hlt hf) (hcopes hf _)

end

end Lower

namespace Program

variable {prog : Program}

/-! ## Checks -/

theorem grounded_of_check {table : FuncId → BlockId → List BlockId} (horderly : prog.OrderlyBy table)
    (hscoped : prog.Scoped) (hvalues : ∀ v < prog.values.length, ∀ k ∈ prog.kindAt v, prog.isGrounded v k = true)
    (hglobals : ∀ g ∈ prog.globals, ∀ init ∈ g.initializer, init < prog.values.length) : prog.Grounded where
  toOrderly := horderly.orderly
  scopes := hscoped
  inRange := inRange_of_check hvalues hglobals
  acyclic v hcycle := by
    have hlt {v w : ValueId} (h : Relation.TransGen prog.Composed v w) : w < v := by
      induction h with
      | single h =>
        obtain ⟨c, hv, hw⟩ := h
        exact of_decide_eq_true (hvalues _ (lt_of_kindAt hv) _ hv) _ hw
      | tail _ h ih =>
        obtain ⟨c, hv, hw⟩ := h
        exact (of_decide_eq_true (hvalues _ (lt_of_kindAt hv) _ hv) _ hw).trans ih
    exact (hlt hcycle).false

/-- Calls hand on what is ranked higher than the parameters that they hand it to. -/
theorem not_relays_self (rank : ValueId → Nat)
    (h : ∀ call < prog.values.length, ∀ inst ∈ prog.instructionAt? call, ∀ f < prog.functions.length,
      (prog.calledFunction? call).toOption = some (some f) → ∀ fn ∈ prog.functions[f]?,
        ∀ x ∈ inst.arguments.zip fn.params, rank x.2 < rank x.1)
        (v : ValueId) : ¬Relation.TransGen prog.Relays v v := by
  have hstep {w param : ValueId} (hrelays : prog.Relays w param) : rank param < rank w := by
    obtain ⟨-, call, _, f, -, -, hcalled, inst, fn, j, hcall, hfn, -, hj, hparam⟩ := hrelays
    have hw : inst.arguments[j]? = some w := by
      obtain ⟨hlt, heq, -⟩ := List.findIdx?_eq_some_iff_getElem.1 hj
      rw [List.getElem?_eq_getElem hlt, beq_iff_eq.1 heq]
    refine h _ (lt_of_kindAt hcall) inst (instructionAt?_eq_some_iff.2 hcall) f (List.getElem?_eq_some_iff.1 hfn).1
      (by simp [hcalled, Except.toOption]) fn hfn (w, param) (List.mem_of_getElem? (i := j) ?_)
    simp [List.getElem?_zip_eq_some, hw, hparam]
  have hlt {w param : ValueId} (hrelays : Relation.TransGen prog.Relays w param) : rank param < rank w := by
    induction hrelays with
    | single h => exact hstep h
    | tail _ h ih => exact (hstep h).trans ih
  exact fun hcycle ↦ (hlt hcycle).false

end Program

namespace Lower

open Stateful

variable {prog : Program}

/-- Every grounded program in which no exposed value is relayed in a circle is lowered or rejected:
requests are never nested too deep, and nothing dangles. -/
theorem lowered_or_rejected (hprog : prog.Coherent) (h : prog.Grounded)
    (hrelays : ∀ v, ¬Relation.TransGen prog.Relays v v)
    (entry : String) (journal : Journal) : (∃ root t, build prog entry { journal } = .ok root t) ∨
      ∃ cause t, build prog entry { journal } = .error (.rejected cause) t := by
  cases hbuild : build prog entry { journal } with
  | ok root t => exact .inl ⟨root, t, rfl⟩
  | error e t =>
    obtain ⟨cause, rfl⟩ := build_concludes hprog h hrelays entry journal e t hbuild
    exact .inr ⟨cause, t, rfl⟩

open Command in
/-- Two functions that call each other with the address of a global that holds its own address. -/
def carousel : Program := .assembled
  [function "main" .void [] false, function "odd" .void [.ptr] false, function "even" .void [.ptr] false,
    global "G" (.int 64), constant (.int 0) (.int 64), initializer 5 6, block 0, block 1, block 2,
    cast 0 0 .ptrToInt 5 (.int 64), store 0 0 7 5, call 0 0 3 [5] .void, ret 0 0 none,
    cast 2 0 .ptrToInt 4 (.int 64), store 2 0 11 5, call 2 0 1 [4] .void, ret 2 0 none,
    call 1 0 3 [5] .void, ret 1 0 none]

theorem lowered_or_rejected_carousel : (∃ root t, build carousel "main" {} = .ok root t) ∧
    ∀ entry journal, (∃ root t, build carousel entry { journal } = .ok root t) ∨
      ∃ cause t, build carousel entry { journal } = .error (.rejected cause) t := by
  have hbuild : succeeds (fun _ _ ↦ true) (build carousel "main" {}) = true := by decide +kernel
  have horderly : carousel.OrderlyBy fun _ _ ↦ [] := by decide +kernel
  have hgrounded : carousel.Grounded := Program.grounded_of_check horderly (by decide) (by decide) (by decide)
  have hrelays : ∀ v, ¬Relation.TransGen carousel.Relays v v := Program.not_relays_self id (by decide +kernel)
  obtain ⟨root, t, ht, -⟩ := ok_of_succeeds hbuild
  exact ⟨⟨root, t, ht⟩, lowered_or_rejected (Program.coherent_assembled _) hgrounded hrelays⟩

open Command in
/-- A function that calls itself with the address of a global and with what it was called with, after it
called a function that stores the address of the global in the global. -/
def whirl : Program := .assembled
  [function "main" .void [.ptr] false, function "h" .void [] false, global "G" (.int 64), constant (.int 0) (.int 64),
    initializer 3 4, block 0, block 1, call 0 0 2 [] .void, call 0 0 0 [3] .void, call 0 0 0 [1] .void, ret 0 0 none,
    cast 1 0 .ptrToInt 3 (.int 64), store 1 0 9 3, ret 1 0 none]

/-- The parameter of `whirl` has its node, and the call that hands the parameter to itself has none. -/
def isWhirling (s : Lowering) : Bool :=
  !s.nodes.contains 7 && s.records.contains 0 && s.globals.isSome && (s.nodes.get? 1).any (· < s.graph.size)

/-- The call binds the parameter to itself once more, and asks for its uses again. -/
theorem bindFormal_whirls {s : Lowering} (hs : isWhirling s = true) (depth : Nat) : ∃ t, isWhirling t = true ∧
    ∀ u, (provider whirl (depth + 1)).uses 1 t = .error .exhausted u →
      bindFormal whirl (provider whirl (depth + 1)) 7 1 s = .error .exhausted u := by
  have hwhirls := hs
  simp only [isWhirling, Bool.and_eq_true, OrderedMap.contains, Option.isSome_iff_exists, Option.any_eq_true,
    decide_eq_true_eq] at hwhirls
  obtain ⟨⟨⟨-, r, hr⟩, chain, hchain⟩, id, hid, hlt⟩ := hwhirls
  have hentry : (provider whirl (depth + 1)).entry 0 s = .ok r.entry s := by
    refine bind_eq_ok_iff.2 ⟨chain, s, globalChain_of_some hchain, ?_⟩
    exact bind_eq_ok_iff.2 ⟨_, s, record?_eq_ok_iff.2 ⟨hr, rfl⟩, rfl⟩
  have hformal : nodeOf? 1 s = .ok (some id) s := nodeOf?_eq_ok_iff.2 ⟨hid, rfl⟩
  obtain ⟨n, hn⟩ := s.graph.exists_node hlt
  obtain ⟨op, hsite⟩ : ∃ op, returnSite id s = .ok op s := ⟨_, returnSite_eq_ok_iff.2 ⟨n, hn, rfl, rfl⟩⟩
  have havailable : availableOperand? whirl (provider whirl depth) 1 s = .ok (some op) s :=
    bind_eq_ok_iff.2 ⟨_, s, hformal, bind_eq_ok_iff.2 ⟨op, s, hsite, rfl⟩⟩
  have hoperand : (provider whirl (depth + 1)).operand 1 s = .ok op s :=
    bind_eq_ok_iff.2 ⟨some op, s, havailable, rfl⟩
  refine ⟨{ s with graph := s.graph.addOperand id op }, ?_, fun u hu ↦ ?_⟩
  · unfold isWhirling
    rw [Graph.size_addOperand]
    exact hs
  · refine bind_eq_error_iff.2 (.inr ⟨some 0, s, rfl, bind_eq_error_iff.2 (.inr ⟨_, s, rfl, ?_⟩)⟩)
    refine bind_eq_error_iff.2 (.inr ⟨[1], s, rfl, bind_eq_error_iff.2 (.inr ⟨r.entry, s, hentry, ?_⟩)⟩)
    refine bind_eq_error_iff.2 (.inr ⟨some id, s, hformal, bind_eq_error_iff.2 (.inr ⟨id, s, rfl, ?_⟩)⟩)
    refine bind_eq_error_iff.2 (.inr ⟨op, s, hoperand, bind_eq_error_iff.2 (.inr ⟨⟨⟩, _, rfl, ?_⟩)⟩)
    exact bind_eq_error_iff.2 (.inl hu)

/-- However deep requests may be nested, the uses of the parameter are asked for once too often. -/
theorem uses_exhausted {s : Lowering} (hs : isWhirling s = true) (depth : Nat) :
    ∃ t, (provider whirl depth).uses 1 s = .error .exhausted t := by
  induction depth generalizing s with
  | zero => exact ⟨s, rfl⟩
  | succ depth ih =>
    obtain ⟨t, ht⟩ : ∃ t, bindFormal whirl (provider whirl depth) 7 1 s = .error .exhausted t := by
      cases depth with
      | zero => exact ⟨s, rfl⟩
      | succ depth =>
        obtain ⟨t, ht, hstep⟩ := bindFormal_whirls hs depth
        exact (ih ht).imp hstep
    simp only [isWhirling, Bool.and_eq_true, Bool.not_eq_true'] at hs
    obtain ⟨⟨⟨hcall, hbegun⟩, -⟩, -⟩ := hs
    have huse : lowerUse whirl (provider whirl depth) 1 7 s = .error .exhausted t := by
      refine bind_eq_error_iff.2 (.inr ⟨s, s, rfl, ?_⟩)
      rw [hcall]
      refine bind_eq_error_iff.2 (.inr ⟨_, s, rfl, bind_eq_error_iff.2 (.inr ⟨s, s, rfl, ?_⟩)⟩)
      dsimp only
      rw [hbegun]
      exact bind_eq_error_iff.2 (.inr ⟨true, s, rfl, ht⟩)
    exact ⟨t, bind_eq_error_iff.2 (.inl huse)⟩

/-- One more level of requests. -/
def nested (ask : Provider) : Provider :=
  { operand := fun v ↦ operand whirl ask v
    entry := fun f ↦ lowerFunction whirl ask f
    uses := fun v ↦ lowerUses whirl ask v }

/-- One more level of requests, where the endless request fails at once. -/
def curtailed (ask : Provider) (final : Lowering → Lowering) : Provider :=
  { nested ask with
    uses := fun v s ↦ if v == 1 && isWhirling s then .error .exhausted (final s) else lowerUses whirl ask v s }

/-- The endless request is met four levels down, whatever is below. -/
theorem exhausted_of_curtailed (ask : Provider) (final : Lowering → Lowering) : fails (fun e _ ↦ e = .exhausted)
    (lowerFunction whirl (nested (nested (nested (curtailed ask final)))) 0 {}) = true := by
  cbv

theorem lowerFunction_exhausted (depth : Nat) :
    fails (fun e _ ↦ e = .exhausted) (lowerFunction whirl (provider whirl depth) 0 {}) = true := by
  rcases depth with _ | _ | _ | _ | depth
  iterate 4 decide +kernel
  · have hfinal (s : Lowering) :
        ∃ t, isWhirling s = true → lowerUses whirl (provider whirl depth) 1 s = .error .exhausted t := by
      cases hs : isWhirling s with
      | true => exact (uses_exhausted hs (depth + 1)).imp fun _ h _ ↦ h
      | false => exact ⟨s, by simp⟩
    choose final hfinal using hfinal
    have hcurtailed : provider whirl (depth + 1) = curtailed (provider whirl depth) final := by
      refine congrArg (Provider.mk _ _) (funext fun v ↦ funext fun s ↦ ?_)
      split
      · rename_i h
        obtain ⟨hv, hs⟩ := Bool.and_eq_true_iff.1 h
        exact beq_iff_eq.1 hv ▸ hfinal s hs
      · rfl
    have hnested : provider whirl (depth + 4) = nested (nested (nested (provider whirl (depth + 1)))) := rfl
    rw [hnested, hcurtailed]
    exact exhausted_of_curtailed _ final

/-- The stored address is followed to the calls that still have no nodes: the first one hands it to the
parameter, and the second one hands the parameter to itself, without end: no depth of requests is enough. -/
theorem requests_never_end : whirl.Grounded ∧ (∃ t, build whirl "main" {} = .error .exhausted t) ∧
    ∀ depth, ∃ t, lowerFunction whirl (provider whirl depth) 0 {} = .error .exhausted t := by
  have horderly : whirl.OrderlyBy fun _ _ ↦ [] := by decide +kernel
  have hbuild : fails (fun e _ ↦ e = .exhausted) (build whirl "main" {}) = true := by decide +kernel
  refine ⟨Program.grounded_of_check horderly (by decide) (by decide) (by decide), ?_, fun depth ↦ ?_⟩
  · obtain ⟨e, t, ht, he⟩ := error_of_fails hbuild
    exact ⟨t, by rw [ht, of_decide_eq_true he]⟩
  · obtain ⟨e, t, ht, he⟩ := error_of_fails (lowerFunction_exhausted depth)
    exact ⟨t, by rw [ht, of_decide_eq_true he]⟩

end Lower

end PointsTo
