import PointsTo.Proofs.Tending
import PointsTo.Proofs.Traversal

/-!
# Functions and programs

A function is begun, its instructions are lowered in an order in which all that they draw on is met
before, and what is left open is filled in afterwards.  It fails only as allowed if this holds of each
instruction in its turn.  A program consists of its globals and an entry function.
-/

namespace PointsTo

open Stateful Program

/-- The body of the function can be lowered from this state: whatever it asks for fails only as allowed. -/
structure Provider.Backs (prog : Program) (ask : Provider) (E : Failure → Prop) (f : FuncId) (s : Lowering) : Prop where
  visit : ∀ {mine t v inst}, s.Evolves prog mine t → t.records.get? f ≠ none →
    prog.kindAt v = some (.instruction inst) →
    inst.function = f → t.Ready prog v → Lower.Obeys E (Lower.lowerInBlock prog ask v) t
  incoming : ∀ {mine t v w inst}, s.Evolves prog mine t → t.records.get? f ≠ none → t.Explored prog f →
    prog.kindAt v = some (.instruction inst) → inst.function = f → w ∈ inst.operands →
      t.Housed prog w ∧ Lower.Obeys E (ask.operand w) t
  place : ∀ {mine t}, s.Evolves prog mine t → t.records.get? f ≠ none → t.Explored prog f →
    Lower.Obeys E (Lower.placeAll prog ask f) t

namespace Lower

variable {prog : Program} {ask : Provider} {E : Failure → Prop} {s t : Lowering} {f : FuncId} {fn : Function}

section

variable (hprog : prog.Coherent) (hask : ask.Sound prog) (hE : prog.Lenient E)

include hprog hask hE

/-! ## Functions -/

section

variable (hord : prog.Orderly)

include hord

theorem lowerBody_obeys {r₀ : FunctionRecord} {u : Lowering} (hs : s.Valid prog) (hf : s.records.get? f = none)
    (hopens : s.Opens prog f r₀ t) (hopen : r₀.complete = false) (hfn : prog.functions[f]? = some fn)
    (hu : t.Serves prog u) (hbacks : ask.Backs prog E f t) : Obeys E (do
      lowerBlocks prog ask f r₀.entry r₀.formals (← fn.reachableBlocks)
      attachPhis prog ask f
      placeAll prog ask f
      linkBlocks prog f
      complete f
      return r₀.entry) u := by
  have hbare := hopens.bare hs hf hopen
  have hunderway := (Lowering.Underway.refl hopens.valid).serves hu
  refine hE.bind_lift (fun _ ↦ hord.reachableBlocks_answers (List.mem_of_getElem? hfn)) fun blocks hblocks ↦ ?_
  have hvisit : Obeys E (lowerBlocks prog ask f r₀.entry r₀.formals blocks) u := by
    refine lowerBlocks_throws hprog hord hask hbare hfn hblocks (fun {v inst _ _ _ _ _ w} hsplit hinsts hv hvf hw ↦
      ?_) hunderway
    refine hbacks.visit hw.toEvolves (hbare.recorded hw.toKeeps) hv hvf fun x hx ↦ ?_
    exact hw.met (hord.drawn_before hprog hfn hblocks hsplit hinsts hx)
  refine hvisit.bind fun _ u₁ h₁ ↦ ?_
  obtain ⟨hu₁, -⟩ := lowerBlocks_ensures hprog hask hbare blocks (Function.nodup_reachableBlocks hblocks)
    hunderway _ _ h₁
  have hmet {v : ValueId} {inst : Instruction} (hv : prog.Visits f v inst) : u₁.Met prog v :=
    hu₁.met ⟨_, hv.mem hprog hfn hblocks⟩
  have hrecorded := hbare.recorded hu₁.toKeeps
  have hexplored : u₁.Explored prog f := fun _ _ hv hvf ↦ hmet (hvf ▸ hord.visits hprog hv)
  have hattach : Obeys E (attachPhis prog ask f) u₁ := by
    refine attachPhis_throws hprog hask hu₁.valid hrecorded hfn fun {v inst phi w} hkind hvf hw hphi ↦ ?_
    refine attachIncoming_obeys hask hE hw.valid hkind hphi fun {x y} hx hy ↦ ?_
    have hserves := hw.trans hy
    exact hbacks.incoming (hu₁.serves hserves).toEvolves (hserves.recorded hrecorded)
      (hexplored.mono hserves.toKeeps) hkind hvf hx
  refine hattach.bind fun _ u₂ h₂ ↦ ?_
  obtain ⟨hu₂, -⟩ := attachPhis_ensures hprog hask hu₁.valid hrecorded hmet _ _ h₂
  have hlink : Tame E (linkBlocks prog f) := .linkBlocks (List.getElem?_eq_some_iff.1 hfn).1
  exact (hbacks.place (hu₁.serves hu₂).toEvolves (hu₂.recorded hrecorded) (hexplored.mono hu₂.toKeeps)).bind
    fun _ _ _ ↦ Tame.throws _

/-- A function is begun at the first request. -/
theorem lowerFunction_obeys (hs : s.Valid prog) (hglobals : s.globals ≠ none)
    (hfunction : Tame E (liftM (prog.function f) : Lower Function))
    (hbacks : ∀ {s₁ r₀ t}, s.Serves prog s₁ → s₁.records = s.records → s.records.get? f = none → s₁.Opens prog f r₀ t →
      r₀.complete = false → ask.Backs prog E f t) : Obeys E (lowerFunction prog ask f) s := by
  obtain ⟨chain, hchain⟩ := Option.ne_none_iff_exists'.1 hglobals
  refine .after (globalChain_of_some hchain) (.next fun r? _ hrecord ↦ ?_)
  obtain ⟨hnew, rfl⟩ := record?_eq_ok_iff.1 hrecord
  cases r? with
  | some r => exact .pure
  | none =>
    refine .next fun fn _ hok ↦ ?_
    obtain ⟨hlookup, rfl⟩ := lift_eq_ok_iff.1 hok
    have hfn := Query.lookup_eq_ok_iff.1 hlookup
    have hformals : Tame E (lowerFormals prog fn) := .lowerFormals hprog hfn
    have hnote : Tame E (note .debug fun _ ↦ return s!"building subgraph of @{fn.name}") := hE.note fun _ ↦ .pure _
    refine .next fun _ s₁ hnote ↦ .next fun entry s₂ h₂ ↦ .next fun exit s₃ h₃ ↦ .next fun x s₄ h₄ ↦
      .next fun _ s₅ h₅ ↦ ?_
    have hremarks := note_eq_ok hnote
    have hs₁ : s.Serves prog s₁ := (Lowering.Evolves.refl hs).step hremarks.step
    have hsame : s₁.records = s.records ∧ s₁.globals = s.globals := by
      obtain ⟨warnings, journal, rfl⟩ := hremarks
      exact ⟨rfl, rfl⟩
    have hnew₁ : s₁.records.get? f = none := hsame.1 ▸ hnew
    have hopens := opens_of_formals hprog hs₁.valid (hsame.2 ▸ hglobals) hfn hnew₁ h₂ h₃ h₄ h₅
    extract_lets body
    have hbody {u : Lowering} (hu : s₅.Serves prog u) : Obeys E (body ⟨⟩) u := by
      have hobeys := lowerBody_obeys hprog hask hE hord hs₁.valid hnew₁ hopens rfl hfn hu
        (hbacks hs₁ hsame.1 hnew hopens rfl)
      exact hobeys
    split
    · rename_i span hspan
      refine .next fun _ _ h₆ ↦ hbody ?_
      obtain rfl := onGraph_eq_ok_iff.1 h₆
      exact hopens.enter hspan
    · exact .bind_pure (hbody (.refl hopens.valid))

end

/-! ## Programs -/

/-- Globals get their memory first, and then their content. -/
theorem lowerGlobals_obeys (hs : s.Valid prog) (hnew : prog.Scoped → ∀ g ∈ prog.globals, s.nodes.get? g.value = none)
    (hoperand : ∀ {g t}, g ∈ prog.globals → s.Serves prog t → t.Furnished prog → Obeys E (ask.operand g.value) t)
    (hcontent : ∀ {g t id}, g ∈ prog.globals → s.Serves prog t → t.Furnished prog → t.Extends prog id →
      Obeys E (lowerContent prog ask g id) t) : Obeys E (lowerGlobals prog ask) s := by
  have hmemories : Tame E (prog.globals.foldlM (fun chain global ↦ do
      let id ← create fun g ↦ g.create
        { kind := .alloc, pointsTo := .singleton ⟨g.size, .zero⟩, size := prog.layout.allocSize global.ty }
      assign global.value id
      append chain id) (none : Option Span)) := .foldlM (fun _ _ _ ↦ inferInstance) _
  refine .next fun chain t hlowered ↦ ?_
  obtain ⟨ht, -, hfurnished⟩ := lowerMemories_ensures prog.globals hs hprog.nodup_globals
    (fun _ ↦ hprog.kindAt_global) hnew (by simp [Lowering.Chained]) _ _ hlowered
  have hfurnished {u : Lowering} (hu : t.Serves prog u) : u.Furnished prog := fun g hg ↦ hu.isNamed (hfurnished g hg)
  cases chain with
  | none => exact .pure
  | some span =>
    have hnote : Tame E (note .debug fun _ ↦ return s!"built {prog.globals.length} globals") := hE.note fun _ ↦ .pure _
    refine .bind (.foldlM (fun _ u ↦ t.Serves prog u) (fun g hg tail u hu ↦ ?_) (fun g hg tail u hu ↦ ?_)
      (.refl ht.valid)) fun _ _ _ ↦ Tame.throws _
    all_goals obtain ⟨index, hindex⟩ := hprog.kindAt_global hg
    · refine (hoperand hg (ht.trans hu) (hfurnished hu)).bind fun id u₁ h₁ ↦ ?_
      obtain ⟨hu₁, hid⟩ := globalOperand_ensures hask hu.valid hindex _ _ h₁
      have hu₁ := hu.trans hu₁
      exact (hcontent hg (ht.trans hu₁) (hfurnished hu₁) hid).bind fun _ _ _ ↦ .pure
    · refine (globalOperand_ensures hask hu.valid hindex).bind fun id u₁ h₁ ↦ ?_
      refine (lowerContent_ensures hask h₁.1.valid hg h₁.2).bind fun last u₂ h₂ ↦ .pure ?_
      exact (hu.trans h₁.1).trans h₂.1

omit hE in
theorem globalChain_furnishes (hs : s.Valid prog) (hglobals : s.globals = none)
    (hnew : prog.Scoped → ∀ g ∈ prog.globals, s.nodes.get? g.value = none) :
    Ensures (globalChain prog ask) s fun _ t ↦ t.Furnished prog := by
  refine .bind_get ?_
  rw [hglobals]
  refine (lowerGlobals_ensures hask hprog hs hnew).bind fun _ t ⟨_, _, hnamed⟩ ↦ .seq fun _ u hu ↦ .pure ?_
  rw [← modify_eq_ok_iff.1 hu]
  exact hnamed

end

/-- A program is lowered from an empty state: its globals first, and then the entry function. -/
theorem build_obeys (hprog : prog.Coherent) (hE : prog.Lenient E) (entry : String) (journal : Journal)
    (hglobals : ∀ {f}, prog.functionNamed? entry = some f → Obeys E (lowerGlobals prog (Lower.ask prog)) { journal })
    (hentry : ∀ {f s}, prog.functionNamed? entry = some f → Lowering.Serves prog { journal } s → s.globals ≠ none →
      s.Furnished prog → Obeys E (lowerFunction prog (Lower.ask prog) f) s) : Obeys E (build prog entry)
      { journal } := by
  have hask := provider_sound hprog (requestDepth prog)
  have hvalid : ({ journal } : Lowering).Valid prog := .initial prog journal
  unfold build
  split
  · exact hE.reject (by simp)
  · rename_i f hnamed
    have hlt : f < prog.functions.length := (List.findIdx?_eq_some_iff_getElem.1 hnamed).1
    refine hE.bind_lift (fun _ ↦ function_answers hlt) fun fn _ ↦ ?_
    extract_lets finish rest
    have hrest : Obeys E (rest ⟨⟩) { journal } := by
      refine Throws.bind (.bind_get ((hglobals hnamed).bind fun _ _ _ ↦ Tame.throws _)) fun chain s₁ h₁ ↦ ?_
      obtain ⟨hs₁, hchain, -⟩ := globalChain_ensures hask hprog hvalid (fun _ _ _ _ ↦ rfl) _ _ h₁
      have hfurnished := globalChain_furnishes hprog hask hvalid rfl (fun _ _ _ ↦ rfl) _ _ h₁
      refine (hentry hnamed hs₁ (by simp [hchain]) hfurnished).bind fun entry _ _ ↦ ?_
      have hfinish (root : NodeId) {u : Lowering} : Obeys E (finish root) u := by
        refine .next fun _ s _ ↦ .bind_get ?_
        have hnote : Tame E (note .debug fun _ ↦ return s!"built pointer subgraph of `{prog.name}`: " ++
            s!"{s.graph.size} nodes, {s.records.size} functions") := hE.note fun _ ↦ .pure _
        exact Tame.throws _
      cases chain with
      | none => exact .bind_pure (hfinish _)
      | some span => exact .next fun _ _ _ ↦ .bind_pure (hfinish _)
    split
    · exact .bind (hE.reject (by simp)) fun _ _ h ↦ absurd h reject_ne_ok
    · exact hrest

end Lower

end PointsTo
