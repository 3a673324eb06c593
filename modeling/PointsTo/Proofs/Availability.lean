import PointsTo.Proofs.Tending

/-!
# Requests that find what they ask for

A request for a value finds it if the value can be supplied.  Uses are followed once the function that
they belong to is explored, so no use is lowered on request that is still to come in its block: it would
need operands that are still to come, too.
-/

namespace PointsTo

namespace Lower

open Stateful Program

variable {prog : Program} {ask : Provider} {s t : Lowering} {f : FuncId} {v w call user param : ValueId}
  {inst : Instruction} {r : FunctionRecord}

/-- What belongs to no function is available, unless it is a global. -/
theorem availableOperand?_ne_none (hrefers : prog.Refers f w) (hhome : prog.home? w = none)
    (hglobal : ∀ g ∈ prog.globals, w ≠ g.value) : availableOperand? prog ask w s ≠ .ok none t := by
  intro h
  obtain ⟨id?, s₁, -, h⟩ := bind_eq_ok_iff.1 h
  cases id? with
  | some id =>
    obtain ⟨_, _, -, h⟩ := bind_eq_ok_iff.1 h
    simp [pure_eq_ok_iff] at h
  | none =>
    obtain ⟨id?, s₂, hconstant, h⟩ := bind_eq_ok_iff.1 h
    cases id? with
    | some id =>
      obtain ⟨_, _, -, h⟩ := bind_eq_ok_iff.1 h
      simp [pure_eq_ok_iff] at h
    | none =>
      obtain ⟨x, _, hvalue, hconstant⟩ := bind_eq_ok_iff.1 hconstant
      obtain ⟨hx, rfl⟩ := lift_eq_ok_iff.1 hvalue
      have hkind := kindAt_of_value hx
      cases hrefers with
      | own hown => simp [hhome] at hown
      | global hg => exact hglobal _ hg rfl
      | function hk =>
        rw [Option.mem_unique hkind hk] at hconstant
        obtain ⟨_, _, -, hconstant⟩ := bind_eq_ok_iff.1 hconstant
        obtain ⟨_, _, -, hconstant⟩ := bind_eq_ok_iff.1 hconstant
        simp [pure_eq_ok_iff] at hconstant
      | null hk | int hk =>
        rw [Option.mem_unique hkind hk] at hconstant
        simp [pure_eq_ok_iff] at hconstant

theorem availableOperand?_finds (hprog : prog.Coherent) (hrefers : prog.Refers f w) :
    Finds (availableOperand? prog ask w) s := by
  have hconstant : Finds (constantNode? prog ask w) s := by
    refine .bind_lift fun x hx ↦ ?_
    split
    case h_6 hexpr => exact absurd (hexpr ▸ kindAt_of_value hx) (hrefers.kindAt_ne_expr hprog _ _)
    all_goals exact Tame.throws _
  refine .next fun id? _ hid ↦ ?_
  obtain ⟨-, rfl⟩ := nodeOf?_eq_ok_iff.1 hid
  cases id? with
  | some id => exact .next fun _ _ _ ↦ .pure
  | none =>
    refine hconstant.bind fun id? _ _ ↦ ?_
    cases id? with
    | some id => exact .next fun _ _ _ ↦ .pure
    | none => exact .pure

/-- What an offered value is computed from is offered, too. -/
theorem offers_of_reaches (hprog : prog.Coherent) (hreg : prog.Regular) (h : s.Offers prog v)
    (hvw : Relation.ReflTransGen prog.Depends v w) : s.Offers prog w := by
  induction hvw with
  | refl => exact h
  | tail _ hdepends ih =>
    obtain ⟨k, hk, hphi, hmem⟩ := hdepends
    obtain ⟨f, hrefers⟩ := ih.refers
    obtain ⟨inst, rfl⟩ := hrefers.instruction_of_mem hprog hk hmem
    exact ih.ready.offers hprog hreg hk (ih.housed _ (home?_of_kindAt hk)) hphi hmem

section

variable (hprog : prog.Coherent) (hreg : prog.Regular) (hask : ask.Sound prog) (hfind : ask.Finding prog)

include hprog hreg hask hfind

/-- Instructions are heeded if what is offered is found. -/
theorem poised_heeds (hcustom : prog.Customary) (hv : prog.kindAt v = some (.instruction inst)) :
    ask.Heeds prog (fun e ↦ ∀ text, e ≠ .rejected (.missingOperand text)) v inst fun s ↦ s.Poised prog v inst where
  coherent := hprog
  sound := hask
  lenient := .finding fun _ ↦ id
  supplied := .inr ⟨hreg.formed hv, hcustom⟩
  instruction := hv
  valid h := h.valid
  recorded h := h.recorded
  serves h hst := h.serves hreg.toOrderly hprog hst
  keeps h hst ht hrecords := h.mono hreg.toOrderly hprog hst ht fun hnone hr ↦ by simp [hrecords, hnone] at hr
  operand h hw := by
    obtain ⟨_, ⟨k, hk, hphi, hmem⟩, hreaches⟩ := Relation.TransGen.head'_iff.1 hw
    obtain rfl := Option.mem_unique hv hk
    have hoffers := offers_of_reaches hprog hreg (h.offers hprog hreg hphi hmem) hreaches
    exact ⟨hoffers.housed, hfind.operand h.valid h.furnished hoffers⟩
  available h hw := by
    obtain ⟨k, hk, -, hmem⟩ := hw
    obtain rfl := Option.mem_unique hv hk
    exact availableOperand?_finds hprog (hreg.refers hv hmem)
  entry h hf hfn hdef := hfind.entry h.valid h.furnished (h.valid.started h.recorded) (h.entering hf hfn hdef)

omit hask in
/-- What a phi of an explored function asks for is found. -/
theorem incoming_finds (h : s.Surveyed prog inst.function) (hv : prog.kindAt v = some (.instruction inst))
    (hw : w ∈ inst.operands) : s.Housed prog w ∧ Finds (ask.operand w) s := by
  have hrefers := hreg.refers hv hw
  exact ⟨Lowering.housed_of_refers hprog hrefers h.recorded,
    hfind.operand h.valid h.furnished (h.explored.offers hprog hreg h.recorded hrefers)⟩

section

variable (hcustom : prog.Customary)

include hcustom

/-- An irrelevant instruction can be lowered on request. -/
theorem lowerDeferred_finds (h : s.Poised prog v inst) (hjudged : s.Judged prog v false) (hnew : s.nodes.get? v = none)
    {followUses : Bool}
    (huses : followUses = true → s.Surveyed prog inst.function ∧ s.Clear prog ∧ prog.Carries v) :
    Finds (lowerDeferred prog ask v followUses) s := by
  have hord := hreg.toOrderly
  refine lowerDeferred_obeys (poised_heeds hprog hreg hask hfind hcustom h.instruction) h hjudged hnew
    (fun {r t _ _} ht _ hr hattached hu hw ↦ ?_) fun hfollow ht _ ↦ ?_
  · -- Phis get their incoming values when every instruction is met.
    have hpoised := h.serves hord hprog ht
    have hsurveyed : t.Surveyed prog inst.function := by
      refine ⟨ht.valid, hpoised.furnished, hpoised.recorded, fun w source hw hf ↦ ?_⟩
      exact (ht.valid.record hr).met hattached (hf ▸ hord.visits hprog hw)
    exact incoming_finds hprog hreg hfind (hsurveyed.serves hu) h.instruction hw
  · obtain ⟨hsurveyed, hclear, hcarries⟩ := huses hfollow
    exact hfind.uses (hsurveyed.serves ht) (hclear.serves hord hprog ht) (home?_of_kindAt h.instruction) hcarries

/-- What is offered is found. -/
theorem operand_finds (hs : s.Valid prog) (hfurnished : s.Furnished prog) (h : s.Offers prog w) :
    Finds (operand prog ask w) s := by
  obtain ⟨f, hrefers⟩ := h.refers
  refine (availableOperand?_finds hprog hrefers).bind fun op? t hop ↦ ?_
  obtain ⟨-, hnone⟩ := availableOperand?_ensures hask hs _ _ hop
  cases op? with
  | some op => exact .pure
  | none =>
    obtain ⟨hnew, rfl⟩ := hnone rfl
    refine .bind_lift fun x hx ↦ ?_
    have hkind := kindAt_of_value hx
    split
    · rename_i inst hinst
      rw [hinst] at hkind
      have : NeverMisses (isRelevant prog w) := Program.Lenient.isRelevant (.finding fun _ ↦ id) hprog
        (lt_of_kindAt hkind)
      refine .next fun relevant t hrelevant ↦ ?_
      obtain ⟨hsettles, hjudged⟩ := isRelevant_eq_ok hrelevant
      have hserves : s.Serves prog t := (Lowering.Evolves.refl hs).step hsettles.step
      have ht := h.mono hserves.toKeeps
      rw [← hsettles.nodes] at hnew
      obtain rfl : relevant = false := hjudged.unique ((ht.met hkind).resolve_left fun hne ↦ hne hnew)
      have hpoised : t.Poised prog w inst := by
        refine ⟨hserves.valid, hfurnished.mono hserves.toKeeps, hkind, ht.housed _ (home?_of_kindAt hkind),
          ht.ready, ?_⟩
        intro g fn hg hfn hdef
        exact .inl (((hjudged.idle_iff hserves.valid.relevance hkind).2 rfl).quiet hkind hg hfn hdef)
      exact lowerDeferred_finds hprog hreg hask hfind hcustom hpoised hjudged hnew (by simp)
    · rename_i g index harg
      rw [harg] at hkind
      exact lowerFormal_obeys hprog (.finding fun _ ↦ id) hkind (h.housed _ (home?_of_kindAt hkind))
    · rename_i hinst harg
      refine absurd hop (availableOperand?_ne_none hrefers ?_ fun g hg heq ↦ hfurnished g hg (heq ▸ hnew))
      · rw [home?_of_kindAt hkind]
        unfold ValueKind.home?
        split
        · exact absurd ‹_› (hinst _)
        · exact absurd ‹_› (harg _ _)
        · rfl

end

/-- What was lowered on request gets its place, and the addresses that were taken are followed. -/
theorem placeAll_finds (hkeeps : prog.KeepsAddresses) (h : s.Surveyed prog f) (hclear : prog.Quiet f ∨ s.Clear prog) :
    Finds (placeAll prog ask f) s := by
  refine placeAll_obeys hprog hask (.finding fun _ ↦ id) h.valid fun {v inst t} hkind hf hop ht ↦ ?_
  rcases hclear with hquiet | hclear
  · obtain ⟨w, hw⟩ := hreg.operand_of_ptrToInt hkind hop
    exact absurd hop (hquiet.ne_ptrToInt hprog hkind hf hw (hkeeps.taken hkind hop hw))
  · exact hfind.uses (h.serves ht) (hclear.serves hreg.toOrderly hprog ht) (hf ▸ home?_of_kindAt hkind)
      (.address hkind hop)

variable (hkeeps : prog.KeepsAddresses)

include hkeeps

/-- A value that carries an address is bound to the formal that it is passed to, and followed there. -/
theorem bindFormal_finds (h : s.Surveyed prog inst.function) (hclear : s.Clear prog)
    (hcall : prog.kindAt call = some (.instruction inst)) (hidle : prog.Idle call inst)
    (hmem : v ∈ inst.operands) (hcarries : prog.Carries v) : Finds (bindFormal prog ask call v) s := by
  have hord := hreg.toOrderly
  have hquiet {f : FuncId} {param : ValueId} (hhands : prog.Hands call v f param) : prog.Quiet f := by
    obtain ⟨hf, _, fn, _, -, hfn, hdef, -⟩ := hhands
    exact hidle.quiet hcall hf hfn hdef
  have hsurveyed {f : FuncId} {param : ValueId} {t : Lowering} (hhands : prog.Hands call v f param)
      (ht : s.Serves prog t) (hf : t.records.get? f ≠ none) : t.Surveyed prog f :=
    ⟨ht.valid, h.furnished.mono ht.toKeeps, hf, hclear.serves hord hprog ht f (hquiet hhands) hf⟩
  refine bindFormal_obeys hprog hask (.finding fun _ ↦ id) h.valid hcall h.recorded (fun _ ↦ ?_)
    (fun ht ↦ incoming_finds hprog hreg hfind (h.serves ht) hcall hmem) (fun hhands ht hf ↦ ?_) fun hhands ht hr _ ↦ ?_
  · exact hfind.entry h.valid h.furnished (h.valid.started h.recorded) (.inr hclear)
  · refine hfind.uses (hsurveyed hhands ht hf) (hclear.serves hord hprog ht) ?_ (.formal hcarries hcall hidle hhands)
    obtain ⟨-, _, fn, _, -, hfn, -, -, hparam⟩ := hhands
    exact home?_of_kindAt (hprog.param (by rw [hfn]; rfl) hparam)
  · exact placeAll_finds hprog hreg hask hfind hkeeps (hsurveyed hhands ht (by simp [hr])) (.inl (hquiet hhands))

variable (hcustom : prog.Customary)

include hcustom

/-- A use of a value is lowered, and what it computes or stores is followed. -/
theorem lowerUse_finds (h : s.Surveyed prog f) (hclear : s.Clear prog) (hv : prog.home? v = some f)
    (hcarries : prog.Carries v) (huser : prog.kindAt user = some (.instruction inst)) (hmem : v ∈ inst.operands) :
    Finds (lowerUse prog ask v user) s := by
  have hord := hreg.toOrderly
  obtain rfl := (hreg.refers huser hmem).home_eq hprog hv
  -- Whatever is relevant has a node by now.
  have hmet {t : Lowering} (ht : s.Serves prog t) := (h.serves ht).explored user inst huser rfl
  refine lowerUse_obeys hprog hask (.finding fun _ ↦ id) h.valid huser (fun {t} ht hrecorded hnew hjudged ↦ ?_)
    (fun {t pointer} _ ht _ hidle hstore hpointer ↦ ?_) fun {t} ht _ _ hidle ↦ ?_
  · have hsurveyed := h.serves ht
    have hclear := hclear.serves hord hprog ht
    have hidle := (hjudged.idle_iff ht.valid.relevance huser).2 rfl
    refine lowerDeferred_finds hprog hreg hask hfind hcustom ⟨ht.valid, hsurveyed.furnished, huser, hrecorded,
      hsurveyed.explored.ready hord huser rfl, fun _ _ _ ↦ .inr hclear⟩ hjudged hnew fun _ ↦ ?_
    exact ⟨hsurveyed, hclear, .result hcarries huser hmem hidle⟩
  · have hhome : prog.home? pointer = some inst.function := by
      obtain ⟨stored, pointer', hops⟩ := hreg.operands_of_store huser hstore
      obtain rfl : pointer' = pointer := by simpa [Instruction.operand?, hops] using hpointer
      have hoperand : v = stored ∨ v = pointer' := by simpa [hops] using hmem
      rcases hoperand with rfl | rfl
      · exact hkeeps.stored huser hstore hidle (by simp [Instruction.operand?, hops]) hcarries hpointer
      · exact hv
    exact hfind.uses (h.serves ht) (hclear.serves hord hprog ht) hhome
      (.memory hcarries huser hmem hidle hstore hpointer)
  · have hidle : prog.Idle user inst := by
      rcases hidle with ⟨hidle, -⟩ | ⟨-, hnew⟩
      · exact hidle
      · have hjudged := (hmet ht).resolve_left fun hne ↦ hne hnew
        exact (hjudged.idle_iff ht.valid.relevance huser).2 rfl
    exact bindFormal_finds hprog hreg hask hfind hkeeps (h.serves ht) (hclear.serves hord hprog ht) huser hidle
      hmem hcarries

theorem lowerUses_finds (h : s.Surveyed prog f) (hclear : s.Clear prog) (hv : prog.home? v = some f)
    (hcarries : prog.Carries v) : Finds (lowerUses prog ask v) s := by
  refine .forM (fun t ↦ s.Serves prog t) (fun user huser t ht ↦ ?_)
    (fun user _ t ht ↦ (lowerUse_ensures hprog hask ht.valid).mono fun _ _ hu ↦ ht.trans hu.1) (.refl h.valid)
  obtain ⟨inst, hkind, hmem⟩ := operand_of_mem_users (List.mem_reverse.1 huser)
  exact lowerUse_finds hprog hreg hask hfind hkeeps hcustom (h.serves ht) (hclear.serves hreg.toOrderly hprog ht) hv
    hcarries hkind hmem

end

end Lower

end PointsTo
