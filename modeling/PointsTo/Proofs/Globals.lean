import PointsTo.Lowering.Global
import PointsTo.Proofs.Deferral

/-!
# Lowering of globals

Every global gets its memory before the initializers are lowered, which refer to globals, to functions
and to constants made of them.  The chain of the globals can be continued at its end.
-/

namespace PointsTo

theorem Program.Coherent.nodup_globals {prog : Program} (h : prog.Coherent) : (prog.globals.map (·.value)).Nodup := by
  rw [List.nodup_iff_getElem?_ne_getElem?]
  intro i j hij hj heq
  rw [List.getElem?_map, List.getElem?_map] at heq
  obtain ⟨v, hj⟩ : ∃ v, (prog.globals[j]?).map (·.value) = some v := by
    rw [List.getElem?_eq_getElem (by simpa using hj)]
    exact ⟨_, rfl⟩
  have hkind := h.global hj
  rw [h.global (heq.trans hj), Option.some.injEq, ValueKind.global.injEq] at hkind
  exact Nat.ne_of_lt hij hkind

namespace Lowering

variable {prog : Program} {s t : Lowering} {id : NodeId}

/-- A chain that can be continued at its end. -/
def Chained (prog : Program) (s : Lowering) (chain : Option Span) : Prop :=
  ∀ span, chain = some span → span.first < s.graph.size ∧ s.Ends prog span.last

theorem Chained.mono {chain : Option Span} (h : s.Chained prog chain) (hst : s.Keeps prog t) : t.Chained prog chain :=
  fun span hspan ↦ ⟨(h span hspan).1.trans_le hst.size_le, hst.ends (h span hspan).2⟩

/-- Nodes may be put behind a node that is made for nothing else. -/
theorem Valid.extends_of_plain (hs : s.Valid prog)
    (h : s.At (fun _ n ↦ n.kind.isPlain = true ∧ n.kind ≠ .noop ∧ n.kind ≠ .ret) id) : s.Extends prog id :=
  ⟨⟨h.imp fun n hn ↦ n.ends_of_plain hn.1, hs.not_isExit (h.imp fun _ hn ↦ hn.2.1)⟩,
    h.imp fun n hn ↦ n.open_of_ne_ret hn.2.2⟩

end Lowering

namespace Lower

open Stateful

variable {prog : Program} {ask : Provider} {s t : Lowering} {v : ValueId} {id last : NodeId} {chain : Option Span}
  {global : Global}

/-- The globals are lowered once. -/
theorem globalChain_of_some {chain : Option Span} (hs : s.globals = some chain) :
    globalChain prog ask s = .ok chain s := by
  simp only [globalChain, bind_eq_ok_iff, get_eq_ok_iff]
  refine ⟨s, s, ⟨rfl, rfl⟩, ?_⟩
  rw [hs]
  rfl

/-- A node is added to the end of a chain. -/
theorem append_ensures (hs : s.Valid prog) (hchain : s.Chained prog chain) (hstarts : s.Starts prog id) :
    Ensures (append chain id) s fun chain' t ↦ s.Serves prog t ∧ t.nodes = s.nodes ∧
      ∃ span, chain' = some span ∧ span.last = id ∧ (span.first = id ∨ ∃ c, chain = some c ∧ span.first = c.first) := by
  cases chain with
  | none => exact .pure ⟨.refl hs, rfl, _, rfl, rfl, .inl rfl⟩
  | some c =>
    refine .seq fun _ t ht ↦ .pure ?_
    obtain rfl := onGraph_eq_ok_iff.1 ht
    exact ⟨.step (.refl hs) (.successor (hchain c rfl).2 hstarts.accepts), rfl, _, rfl, rfl, .inr ⟨c, rfl, rfl⟩⟩

/-! ## Memory -/

/-- A global gets its memory. -/
theorem lowerMemory_ensures {index : Nat} (hs : s.Valid prog) (hkind : prog.kindAt global.value = some (.global index))
    (hnew : prog.Scoped → s.nodes.get? global.value = none) (hchain : s.Chained prog chain) :
    Ensures (do
      let id ← create fun g ↦ g.create
        { kind := .alloc, pointsTo := .singleton ⟨g.size, .zero⟩, size := prog.layout.allocSize global.ty }
      assign global.value id
      append chain id) s fun chain' t ↦ s.Serves prog t ∧ t.Chained prog chain' ∧ t.nodes.get? global.value ≠ none ∧
        ∀ w, w ≠ global.value → t.nodes.get? w = s.nodes.get? w := by
  refine (create_ensures prog
    { kind := .alloc, pointsTo := .singleton ⟨s.graph.size, .zero⟩, size := prog.layout.allocSize global.ty } [] rfl rfl
    ⟨rfl, rfl, rfl, rfl⟩).bind fun id s₁ h₁ ↦ .seq fun _ s₂ h₂ ↦ ?_
  have hrefl : s.Serves prog s := .refl hs
  have hs₁ := hrefl.step h₁.step
  obtain ⟨hstarts, hends⟩ := h₁.ends hs rfl
  have hs₂ : s.Serves prog s₂ := by
    rw [← assign_eq_ok_iff.1 h₂]
    refine hs₁.assign (fun f hf ↦ ?_) (fun inst hinst ↦ ?_) (fun hscoped ↦ ⟨hnew hscoped, h₁.id_eq.ge⟩) ?_
      (fun _ f hf ↦ ?_) (fun _ {m q call} hm hpair ↦ absurd hpair (h₁.step.not_isPair hm))
      (fun _ {f} hnone hsome ↦ absurd (h₁.step.not_opened hnone) hsome) (.of_kind hkind (by simp))
    · rw [hkind] at hf
      simp at hf
    · rw [hkind] at hinst
      simp at hinst
    · exact ⟨_, hkind, h₁.isNode.imp fun n hn ↦ hn.1⟩
    · rw [Program.home?_of_kindAt hkind] at hf
      contradiction
  have hgraph : s₁.graph.Persists s₂.graph := by
    rw [← assign_eq_ok_iff.1 h₂]
    have hstep : s₁.Step prog { s₁ with graph := s₁.graph.update id fun n ↦
      { n with value := n.value <|> some global.value } } :=
      .value
    exact (hstep.keeps hs₁.valid).graph
  have hrecords : s₂.records = s₁.records := by rw [← assign_eq_ok_iff.1 h₂]
  have hends₂ := hends.of_graph hgraph hrecords
  refine (append_ensures hs₂.valid (hchain.mono hs₂.toKeeps) (hstarts.of_graph hgraph hrecords)).mono
    fun chain' t ⟨ht, hnodes, span, hspan, hlast, hfirst⟩ ↦ ⟨hs₂.trans ht, ?_, ?_, fun w hw ↦ ?_⟩
  · intro span' hspan'
    obtain rfl := Option.mem_unique hspan hspan'
    refine ⟨?_, hlast ▸ ht.ends hends₂⟩
    rcases hfirst with hfirst | ⟨c, rfl, hfirst⟩
    · rw [hfirst]
      exact hends₂.lt_size.trans_le ht.size_le
    · rw [hfirst]
      exact (hchain c rfl).1.trans_le (hs₂.trans ht).size_le
  · rw [hnodes, ← assign_eq_ok_iff.1 h₂, OrderedMap.get?_insert_self]
    simp
  · rw [hnodes, ← assign_eq_ok_iff.1 h₂, OrderedMap.get?_insert_of_ne hw, h₁.nodes]

/-- The globals get their memory one after the other. -/
theorem lowerMemories_ensures (globals : List Global) (hs : s.Valid prog) (hnodup : (globals.map (·.value)).Nodup)
    (hkind : ∀ g ∈ globals, ∃ index, prog.kindAt g.value = some (.global index))
    (hnew : prog.Scoped → ∀ g ∈ globals, s.nodes.get? g.value = none) (hchain : s.Chained prog chain) :
    Ensures (globals.foldlM (fun chain global ↦ do
      let id ← create fun g ↦ g.create
        { kind := .alloc, pointsTo := .singleton ⟨g.size, .zero⟩, size := prog.layout.allocSize global.ty }
      assign global.value id
      append chain id) chain) s fun chain' t ↦ s.Serves prog t ∧ t.Chained prog chain' ∧
        ∀ g ∈ globals, t.nodes.get? g.value ≠ none := by
  induction globals generalizing s chain with
  | nil => exact .pure ⟨.refl hs, hchain, by simp⟩
  | cons g rest ih =>
    obtain ⟨index, hg⟩ := hkind g (by simp)
    rw [List.map_cons, List.nodup_cons] at hnodup
    refine (lowerMemory_ensures hs hg (fun hscoped ↦ hnew hscoped g (by simp)) hchain).bind
      fun chain' t ⟨ht, hchain', hnamed, hnodes⟩ ↦ ?_
    refine (ih ht.valid hnodup.2 (fun g' hg' ↦ hkind g' (by simp [hg'])) (fun hscoped g' hg' ↦ ?_) hchain').mono
      fun _ u ⟨hu, hchain, hrest⟩ ↦ ⟨ht.trans hu, hchain, fun g' hg' ↦ ?_⟩
    · rw [hnodes g'.value fun heq ↦ hnodup.1 (heq ▸ List.mem_map_of_mem hg')]
      exact hnew hscoped g' (by simp [hg'])
    · rcases List.mem_cons.1 hg' with rfl | hg'
      · exact hu.isNamed hnamed
      · exact hrest g' hg'

/-! ## Content -/

/-- A store is put behind a node. -/
theorem insertStore_ensures {ops : List NodeId} (hs : s.Valid prog) (hlast : s.Extends prog last) :
    Ensures (do
      let store ← create (·.createWith { kind := .store } ops)
      onGraph (·.insertAfter last store)
      return store) s fun store t ↦ s.Serves prog t ∧ t.Extends prog store := by
  refine (create_ensures prog { kind := .store } ops rfl rfl ⟨rfl, rfl, rfl, rfl⟩).bind fun store s₁ h₁ ↦
    .seq fun _ t ht ↦ .pure ?_
  obtain rfl := onGraph_eq_ok_iff.1 ht
  have hrefl : s.Serves prog s := .refl hs
  have hs₁ := hrefl.step h₁.step
  obtain ⟨hstarts, hends⟩ := h₁.ends hs rfl
  have hstep : s₁.Step prog { s₁ with graph := s₁.graph.insertAfter last store } :=
    .after (hs₁.extending hlast) hstarts.accepts hends
  refine ⟨hs₁.step hstep, (hstep.keeps hs₁.valid).extending ?_⟩
  exact hs₁.valid.extends_of_plain (h₁.isNode.imp fun n hn ↦ by simp [hn.1, NodeKind.isPlain])

section

variable (hask : ask.Sound prog)

include hask

theorem storeInitial_ensures {offset : Nat} (hs : s.Valid prog) (hv : prog.Scoped → prog.home? v = none)
    (hlast : s.Extends prog last) :
    Ensures (storeInitial ask v id offset last) s fun store t ↦ s.Serves prog t ∧ t.Extends prog store := by
  refine .seq fun op s₁ hop ↦ ?_
  have hs₁ := (hask.operand hs (fun hscoped f hf ↦ by simp [hv hscoped] at hf) hop).toEvolves
  have hstore {target : NodeId} {t : Lowering} (ht : s.Serves prog t) : Ensures (do
      let store ← create (·.createWith { kind := .store } [op, target])
      onGraph (·.insertAfter last store)
      return store) t fun store u ↦ s.Serves prog u ∧ u.Extends prog store :=
    (insertStore_ensures ht.valid (ht.extending hlast)).mono fun _ _ hu ↦ ⟨ht.trans hu.1, hu.2⟩
  dsimp only
  split
  · exact .bind_pure (hstore hs₁)
  · exact (create_ensures prog { kind := .constant, pointsTo := .singleton ⟨id, .ofNat offset⟩ } [] rfl rfl
      ⟨rfl, rfl, rfl, rfl⟩).bind fun target t ht ↦ hstore (hs₁.step ht.step)

theorem lowerInitializer_ensures {budget : Nat} {ty : Ty} {offset : Nat} (hs : s.Valid prog)
    (hv : prog.Scoped → prog.home? v = none) (hlast : s.Extends prog last) :
    Ensures (lowerInitializer prog ask global id budget v ty offset last) s fun last' t ↦
      s.Serves prog t ∧ t.Extends prog last' := by
  have hreject {α : Type} {init : ValueId} {s : Lowering} {Q : α → Lowering → Prop} :
      Ensures (unhandledInitializer prog global init) s Q := .bind_lift fun _ _ _ _ h ↦ absurd h reject_ne_ok
  induction budget generalizing s v ty offset last with
  | zero =>
    intro _ _ h
    contradiction
  | succ budget ih =>
    have hskip : s.Serves prog s ∧ s.Extends prog last := ⟨.refl hs, hlast⟩
    unfold lowerInitializer
    refine .bind_lift fun c? hc ↦ ?_
    split
    · rename_i elems
      refine .foldlM (fun last t ↦ s.Serves prog t ∧ t.Extends prog last) (fun x hx last' t ⟨ht, hlast'⟩ ↦ ?_) hskip
      have hx : prog.Scoped → prog.home? x.1 = none := by
        intro hscoped
        have hkind := Program.constant?_eq_ok_iff.1 hc
        rcases hscoped.operand hkind (List.fst_mem_of_mem_zipIdx hx) with hnone | hsame
        · exact hnone
        · rw [hsame, Program.home?_of_kindAt hkind]
          rfl
      have hafter {last : NodeId} {u : Lowering} (hu : t.Serves prog u ∧ u.Extends prog last) :
          s.Serves prog u ∧ u.Extends prog last := ⟨ht.trans hu.1, hu.2⟩
      dsimp only
      split
      · exact hreject
      · split
        · exact (storeInitial_ensures hask ht.valid hx hlast').mono fun _ _ ↦ hafter
        · refine .bind_lift fun zero _ ↦ ?_
          split
          · exact (ih ht.valid hx hlast').mono fun _ _ ↦ hafter
          · exact .pure ⟨ht, hlast'⟩
    · split
      · exact hreject
      · exact .pure hskip
    · split
      · exact storeInitial_ensures hask hs hv hlast
      · exact .pure hskip
    · split
      · exact storeInitial_ensures hask hs hv hlast
      · exact hreject

theorem lowerContent_ensures (hs : s.Valid prog) (hglobal : global ∈ prog.globals) (hid : s.Extends prog id) :
    Ensures (lowerContent prog ask global id) s fun last t ↦ s.Serves prog t ∧ t.Extends prog last := by
  have hrefl : s.Serves prog s := .refl hs
  unfold lowerContent
  split
  · rename_i init hinit _
    have hhome (hscoped : prog.Scoped) : prog.home? init = none := hscoped.initializer hglobal hinit
    refine .bind_lift fun zero _ ↦ ?_
    split
    · refine .seq fun _ t ht ↦ .pure ?_
      obtain rfl := onGraph_eq_ok_iff.1 ht
      have hstep : s.Step prog { s with graph := s.graph.update id fun n ↦ { n with zeroed := true } } :=
        .adjust (fun _ ↦ ⟨rfl, rfl, rfl, rfl, rfl, fun _ hp ↦ hp⟩) fun _ hv ↦ hv
      exact ⟨hrefl.step hstep, (hstep.keeps hs).extending hid⟩
    · exact lowerInitializer_ensures hask hs hhome hid
  · refine .seq fun _ t hwarn ↦ ?_
    have ht := hrefl.step (warn_eq_ok hwarn).step
    exact (insertStore_ensures ht.valid (ht.extending hid)).mono fun _ _ hu ↦ ⟨ht.trans hu.1, hu.2⟩

/-- A request for a global answers with its memory. -/
theorem globalOperand_ensures {index : Nat} (hs : s.Valid prog) (hkind : prog.kindAt v = some (.global index)) :
    Ensures (ask.operand v) s fun id t ↦ s.Serves prog t ∧ t.Extends prog id := by
  intro id t h
  have hsupplies := hask.operand hs (fun _ f hf ↦ by simp [Program.home?_of_kindAt hkind, ValueKind.home?] at hf) h
  refine ⟨hsupplies.toEvolves, hsupplies.valid.extends_of_plain ?_⟩
  rcases hsupplies.resolves (.inr (by simp [hkind])) with ⟨id', hid', n, hn, hop⟩ | ⟨-, hsentinel⟩
  · obtain ⟨k, hk, m, hm, hfits⟩ := hsupplies.valid.named hid'
    rw [Option.mem_unique hk hkind] at hfits
    have halloc : n.kind = .alloc := Option.mem_unique hm hn ▸ hfits
    obtain rfl : id' = id := by simpa [halloc, NodeKind.isCall] using hop
    exact ⟨n, hn, by simp [halloc, NodeKind.isPlain]⟩
  · simp [Program.sentinel?, hkind] at hsentinel

variable (hprog : prog.Coherent)

include hprog

theorem lowerGlobals_ensures (hs : s.Valid prog)
    (hnew : prog.Scoped → ∀ g ∈ prog.globals, s.nodes.get? g.value = none) :
    Ensures (lowerGlobals prog ask) s fun chain t ↦ s.Serves prog t ∧ t.Chained prog chain ∧
      ∀ g ∈ prog.globals, t.nodes.get? g.value ≠ none := by
  refine (lowerMemories_ensures prog.globals hs hprog.nodup_globals (fun _ ↦ hprog.kindAt_global) hnew
    (by simp [Lowering.Chained])).bind fun chain t ⟨ht, hchain, hnamed⟩ ↦ ?_
  cases chain with
  | none => exact .pure ⟨ht, hchain, hnamed⟩
  | some span =>
    -- The end of the chain moves on if the last global has a content.
    refine .bind (.foldlM (fun tail u ↦ t.Serves prog u ∧ u.Ends prog tail) (fun g hg tail u ⟨hu, htail⟩ ↦ ?_)
      ⟨.refl ht.valid, (hchain span rfl).2⟩) fun tail u ⟨hu, htail⟩ ↦ ?_
    · obtain ⟨index, hindex⟩ := hprog.kindAt_global hg
      refine (globalOperand_ensures hask hu.valid hindex).bind fun id u₁ ⟨h₁, hid⟩ ↦ ?_
      refine (lowerContent_ensures hask h₁.valid hg hid).bind fun last u₂ ⟨h₂, hlast⟩ ↦ .pure ?_
      refine ⟨(hu.trans h₁).trans h₂, ?_⟩
      split
      · exact hlast.1
      · exact h₂.ends (h₁.ends htail)
    · refine .seq fun _ w hnote ↦ .pure ?_
      have hw := hu.step (note_eq_ok hnote).step
      refine ⟨ht.trans hw, fun span' hspan ↦ ?_, fun g hg ↦ hw.isNamed (hnamed g hg)⟩
      obtain rfl := Option.some.inj hspan
      exact ⟨(hchain span rfl).1.trans_le hw.size_le, ((note_eq_ok hnote).step.keeps hu.valid).ends htail⟩

/-- The chain of the globals exists from now on. -/
theorem globalChain_ensures (hs : s.Valid prog)
    (hnew : prog.Scoped → s.globals = none → ∀ g ∈ prog.globals, s.nodes.get? g.value = none) :
    Ensures (globalChain prog ask) s fun chain t ↦ s.Serves prog t ∧ t.globals = some chain ∧ t.Chained prog chain := by
  refine .bind_get ?_
  cases hglobals : s.globals with
  | some chain =>
    refine .pure ⟨.refl hs, hglobals, fun span hspan ↦ hs.globals ?_⟩
    rw [hglobals, hspan]
  | none =>
    refine (lowerGlobals_ensures hask hprog hs fun hscoped ↦ hnew hscoped hglobals).bind
      fun chain t ⟨ht, hchain, _⟩ ↦ .seq fun _ u hu ↦ .pure ?_
    obtain rfl := modify_eq_ok_iff.1 hu
    exact ⟨ht.step (.globals hchain), rfl, hchain⟩

end

end Lower

end PointsTo
