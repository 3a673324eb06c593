import PointsTo.Proofs.Completion

/-!
# Evolution of the state of lowering

What a request does to the state of lowering, seen as a whole: the state grows and stays valid, every
call that is created is joined to its callee, and every function that is opened is completed.  A call
through a pointer leads to its return; only the solver will change that.  In between a call may be open and a value may
be named twice; neither can be seen from outside.

In a scoped program a value keeps its node once it has one.  The reason is that lowering one
instruction of a function never gets round to another one of the same function, unless that one is
irrelevant; and irrelevant calls pass nothing where a pointer is received.
-/

namespace PointsTo

open OrderedMap

/-- The call passes the value to no pointer, and the value receives nothing in the call. -/
def Program.Ignores (prog : Program) (call v : ValueId) : Prop :=
  ∀ f, prog.Calls call f → ¬prog.Passes call f v ∧ ∀ fn, prog.functions[f]? = some fn → v ∉ fn.params

namespace Lowering

variable (prog : Program) (s : Lowering)

/-- A call and its return site, made for a call instruction. -/
def IsPair (m q : NodeId) (call : ValueId) : Prop :=
  q ≠ m ∧ s.At (fun _ n ↦ n.kind = .call ∧ n.paired = some q ∧ n.value = some call) m

/-- A call is joined to its callee.  The return site has the returns of the callee for operands, or
waits for them. -/
structure Joins (m q : NodeId) (call : ValueId) (f : FuncId) (r : FunctionRecord) : Prop where
  record : s.records.get? f = some r
  calls : prog.Calls call f
  defined : ∃ fn, prog.functions[f]? = some fn ∧ fn.isDeclaration = false
  entry : s.graph.successors m = [r.entry]
  exit : q ∈ s.graph.successors r.exit
  returns : r.complete = true → s.At (fun _ n ↦ n.operands = r.returns) q
  awaits : r.complete = false → q ∈ r.awaiting ∧ s.At (fun _ n ↦ n.operands = []) q
  bound : prog.Scoped → s.Bound prog call f

def Joined (m q : NodeId) (call : ValueId) : Prop := ∃ f r, s.Joins prog m q call f r

/-- A call through a pointer and its return. -/
def IsIndirect (c r : NodeId) (call : ValueId) : Prop :=
  s.At (fun _ n ↦ n.kind = .indirectCall ∧ n.paired = some r ∧ n.value = some call) c

/-- Nothing is linked to the call: it leads to its return, which nothing else leads to. -/
structure Unlinked (c r : NodeId) : Prop where
  leads : s.graph.successors c = [r]
  alone : ∀ {x}, r ∈ s.graph.successors x → x = c
  empty : s.At (fun _ n ↦ n.operands = []) r

/-- The state after a request.  Of the instructions of functions that had a record before, only those
in `mine` are lowered, and irrelevant ones. -/
structure Evolves (mine : ValueId → Prop) (t : Lowering) : Prop extends s.Grows prog (· < s.graph.size) t where
  valid : t.Valid prog
  lowers : prog.Scoped → ∀ {v inst}, prog.kindAt v = some (.instruction inst) → s.nodes.get? v = none →
    t.nodes.get? v ≠ none → mine v ∨ t.Judged prog v false ∨ ¬s.Housed prog v
  joined : ∀ {m q call}, s.graph.size ≤ m → t.IsPair m q call → t.Joined prog m q call
  passing : prog.Scoped → ∀ {m q call}, s.graph.size ≤ m → t.IsPair m q call →
    mine call ∨ prog.PassesNothing call ∨ ¬s.Housed prog call
  unlinked : ∀ {c r call}, s.graph.size ≤ c → t.IsIndirect c r call → t.Unlinked c r
  finished : ∀ {f r}, s.records.get? f = none → t.records.get? f = some r → t.Finished prog f r

/-- The state after a part of a request, apart from calls that are not joined yet. -/
structure EvolvesApart (apart : NodeId → Prop) (mine : ValueId → Prop) (t : Lowering) : Prop
    extends s.Grows prog (fun a ↦ a < s.graph.size ∧ ¬apart a) t where
  valid : t.Valid prog
  lowers : prog.Scoped → ∀ {v inst}, prog.kindAt v = some (.instruction inst) → s.nodes.get? v = none →
    t.nodes.get? v ≠ none → mine v ∨ t.Judged prog v false ∨ ¬s.Housed prog v
  joined : ∀ {m q call}, s.graph.size ≤ m → ¬apart m → t.IsPair m q call → t.Joined prog m q call
  passing : prog.Scoped → ∀ {m q call}, s.graph.size ≤ m → ¬apart m → t.IsPair m q call →
    mine call ∨ prog.PassesNothing call ∨ ¬s.Housed prog call
  unlinked : ∀ {c r call}, s.graph.size ≤ c → t.IsIndirect c r call → t.Unlinked c r
  finished : ∀ {f r}, s.records.get? f = none → t.records.get? f = some r → t.Finished prog f r

variable {prog s} {t u : Lowering} {m q c ret id : NodeId} {call v : ValueId} {f : FuncId} {r r' : FunctionRecord}
  {mine mine' : ValueId → Prop} {old apart : NodeId → Prop}

/-! ## Calls -/

/-- The return site of a call. -/
theorem IsPair.site (h : s.IsPair m q call) (hs : s.Valid prog) :
    s.At (fun _ n ↦ n.kind = .callReturn ∧ n.paired = some m ∧ n.value = some call) q := by
  obtain ⟨hne, n, hn, hk, hp, hv⟩ := h
  obtain ⟨call', q', hv', hp', hq⟩ := (hs.node hn).call hk (by simpa [hp] using hne)
  rw [hv, Option.some.injEq] at hv'
  rw [hp, Option.some.injEq] at hp'
  subst hv' hp'
  exact hq

theorem IsPair.mono (h : s.IsPair m q call) (hg : s.graph.Persists t.graph) : t.IsPair m q call :=
  ⟨h.1, h.2.mono hg fun _ _ hnm hn ↦ ⟨hnm.kind.trans hn.1, hnm.paired.trans hn.2.1, hnm.value _ hn.2.2⟩⟩

/-- A call that was there before was the same call. -/
theorem IsPair.of_persists (h : t.IsPair m q call) (hs : s.Valid prog) (hg : s.graph.Persists t.graph)
    (hm : m < s.graph.size) : s.IsPair m q call := by
  obtain ⟨hne, n', hn', hk, hp, hv⟩ := h
  obtain ⟨n, hn⟩ := Graph.exists_node hm
  obtain ⟨l, hl, hnl⟩ := hg.node hn
  obtain rfl := Option.mem_unique hn' hl
  rw [hnl.kind] at hk
  rw [hnl.paired] at hp
  obtain ⟨call', q', hv', hp', -⟩ := (hs.node hn).call hk (by simpa [hp] using hne)
  rw [hnl.value call' hv', Option.some.injEq] at hv
  exact ⟨hne, n, hn, hk, hp, hv ▸ hv'⟩

theorem IsPair.held (h : s.IsPair m q call) : s.At (Node.Held prog) m :=
  h.2.imp fun n hn ↦ .inr (.inl ⟨hn.1, by simpa [hn.2.1] using h.1⟩)

/-- A call stays joined while its edges and the operands of its return site stay. -/
theorem Joins.mono (h : s.Joins prog m q call f r) (hpair : s.IsPair m q call) (hs : s.Valid prog)
    (hst : s.Keeps prog t) (hr' : t.records.get? f = some r') (hpers : r.Persists (fun _ ↦ False) r')
    (hm : t.graph.successors m = s.graph.successors m)
    (hq : ∀ n n', s.graph.nodes[q]? = some n → t.graph.nodes[q]? = some n' → n'.operands = n.operands)
    (hbound : prog.Scoped → t.Bound prog call f) : t.Joins prog m q call f r' := by
  have hops {ops : List NodeId} (hat : s.At (fun _ n ↦ n.operands = ops) q) : t.At (fun _ n ↦ n.operands = ops) q := by
    obtain ⟨n, hn, hops⟩ := hat
    obtain ⟨n', hn', -⟩ := hst.graph.node hn
    exact ⟨n', hn', (hq n n' hn hn').trans hops⟩
  refine ⟨hr', h.calls, h.defined, ?_, ?_, fun hc ↦ ?_, fun hc ↦ ?_, hbound⟩
  · rw [hm, h.entry, hpers.entry]
  · rw [hpers.exit]
    have hsite : s.At (fun _ n ↦ n.kind = .callReturn) q := (hpair.site hs).imp fun _ hn ↦ hn.1
    exact hst.firm (.inr ⟨f, r, h.record, rfl⟩) (.inl (hsite.imp fun _ hn ↦ .inr (.inl hn)))
      (hsite.accepts (by simp)) h.exit
  · rw [hpers.complete] at hc
    rw [hpers.returns hc]
    exact hops (h.returns hc)
  · rw [hpers.complete] at hc
    obtain ⟨new, hnew, -⟩ := hpers.awaiting
    obtain ⟨hmem, hat⟩ := h.awaits hc
    rw [hnew]
    exact ⟨List.mem_append_left _ hmem, hops hat⟩

/-- Calls that are joined stay joined to the same function. -/
theorem Joins.grows (h : s.Joins prog m q call f r) (hpair : s.IsPair m q call) (hs : s.Valid prog)
    (hst : s.Grows prog old t) (ht : t.Valid prog) (hm : old m) (hq : old q) (hexit : old r.exit) :
    ∃ r', t.Joins prog m q call f r' := by
  obtain ⟨r', hr', -⟩ := hst.record h.record
  have hrecord := hs.record h.record
  have hpers := hst.persists h.record hr' hexit
  refine ⟨r', h.mono hpair hs hst.toKeeps hr' (hpers.mono fun _ h ↦ h.elim) ?_ ?_ fun hscoped ↦ ?_⟩
  · apply hst.held hm hpair.held
    rw [h.entry]
    intro y hy
    rw [List.mem_singleton.1 hy]
    exact .inl (hrecord.entry.imp fun n hn ↦ .inl hn)
  · intro n n' hn hn'
    obtain ⟨l, hl, hk, -⟩ := hpair.site hs
    obtain rfl := Option.mem_unique hn hl
    exact hst.operands hq hn (by simp [hk]) hn'
  · exact (h.bound hscoped).mono hst.toKeeps hscoped hs (by simp [h.record]) ht

/-! ## Calls through pointers -/

namespace IsIndirect

theorem returning (h : s.IsIndirect c ret call) (hs : s.Valid prog) :
    s.At (fun _ n ↦ n.kind = .ret ∧ n.paired = some c) ret := by
  obtain ⟨n, hn, hk, hp, -⟩ := h
  obtain ⟨_, ret', -, hp', -, -, hret⟩ := (hs.node hn).indirect hk
  rw [hp, Option.some.injEq] at hp'
  exact hp' ▸ hret

theorem mono (h : s.IsIndirect c ret call) (hg : s.graph.Persists t.graph) : t.IsIndirect c ret call :=
  At.mono hg h fun _ _ hnm hn ↦ ⟨hnm.kind.trans hn.1, hnm.paired.trans hn.2.1, hnm.value _ hn.2.2⟩

theorem of_persists (h : t.IsIndirect c ret call) (hs : s.Valid prog) (hg : s.graph.Persists t.graph)
    (hc : c < s.graph.size) : s.IsIndirect c ret call := by
  obtain ⟨n', hn', hk, hp, hv⟩ := h
  obtain ⟨n, hn⟩ := Graph.exists_node hc
  obtain ⟨l, hl, hnl⟩ := hg.node hn
  obtain rfl := Option.mem_unique hn' hl
  rw [hnl.kind] at hk
  rw [hnl.paired] at hp
  obtain ⟨call', _, hv', -⟩ := (hs.node hn).indirect hk
  rw [hnl.value call' hv', Option.some.injEq] at hv
  exact ⟨n, hn, hk, hp, hv ▸ hv'⟩

end IsIndirect

/-- A call that is not linked stays so while lowering goes on. -/
theorem Unlinked.grows (h : s.Unlinked c ret) (hcall : s.IsIndirect c ret call) (hs : s.Valid prog)
    (hst : s.Grows prog old t) (hc : old c) (hret : old ret) : t.Unlinked c ret where
  leads := by
    rw [hst.held hc (hcall.imp fun _ hn ↦ .inl hn.1), h.leads]
    intro y hy
    rw [h.leads, List.mem_singleton] at hy
    rw [hy]
    exact .inl ((hcall.returning hs).imp fun _ hn ↦ .inr (.inr (.inl ⟨hn.1, by simp [hn.2]⟩)))
  alone hx := h.alone (hst.arrivals hret ((hcall.returning hs).imp fun _ hn ↦ ⟨hn.1, by simp [hn.2]⟩) hx)
  empty := by
    obtain ⟨n, hn, hops⟩ := h.empty
    obtain ⟨l, hl, hk, -⟩ := hcall.returning hs
    obtain ⟨m, hm, -⟩ := hst.graph.node hn
    obtain rfl := Option.mem_unique hl hn
    exact ⟨m, hm, (hst.operands hret hn (by simp [hk]) hm).trans hops⟩

/-! ## Naming -/

/-- Naming a value that the call has nothing to do with. -/
theorem Bound.name (h : s.Bound prog call f) (hcalls : prog.Calls call f) (hignores : prog.Ignores call v) :
    ({ s with nodes := s.nodes.insert v id } : Lowering).Bound prog call f := by
  obtain ⟨hpasses, hparams⟩ := hignores f hcalls
  intro w phi hphi
  have hw : w ≠ v := by
    rintro rfl
    exact hpasses hphi.passes
  have hphi' : s.Receives prog call f w phi := by
    cases hphi with
    | formal hinst hfn hdef hparam harg hpointer hphi =>
      refine .formal hinst hfn hdef hparam harg hpointer ?_
      rw [get?_insert_of_ne] at hphi
      · exact hphi
      · rintro rfl
        exact hparams _ hfn (List.mem_of_getElem? hparam)
    | rest hinst hfn hdef hvariadic hj harg hpointer hr hphi =>
      exact .rest hinst hfn hdef hvariadic hj harg hpointer hr hphi
  exact (h w phi hphi').name hw

/-- A call that passes nothing, or belongs to a function that has no record, has nothing to do with
an instruction whose function has one. -/
theorem ignores_of_passing (hprog : prog.Coherent) (hscoped : prog.Scoped) {inst : Instruction}
    (hv : prog.kindAt v = some (.instruction inst)) (hhoused : s.Housed prog v)
    (hcall : prog.PassesNothing call ∨ ¬s.Housed prog call) : prog.Ignores call v := by
  intro f hcalls
  refine ⟨fun hpasses ↦ ?_, fun fn hfn hparam ↦ ?_⟩
  · rcases hcall with hnothing | hhome
    · exact hnothing f v hcalls hpasses
    · -- What such a call passes is of its own function.
      obtain ⟨k, hk, hmem⟩ := hpasses.mem_operands
      rcases hscoped.operand hk hmem with hnone | hsame
      · rw [Program.home?_of_kindAt hv] at hnone
        contradiction
      · exact hhome fun g hg ↦ hhoused g (hsame.trans hg)
  · obtain ⟨j, hj⟩ := List.mem_iff_getElem?.1 hparam
    have hkind := hprog.param (by rw [hfn]; rfl) hj
    rw [hv] at hkind
    simp at hkind

/-! ## Evolution -/

/-- A name that fits keeps the state valid. -/
theorem Valid.name (hs : s.Valid prog) (hkind : ∀ f, prog.kindAt v ≠ some (.function f)) (hfits : s.Fits prog v id)
    (hhoused : prog.Scoped → s.Housed prog v) (hsourced : s.Sourced prog v) :
    ({ s with nodes := s.nodes.insert v id } : Lowering).Valid prog := by
  have hnamed {w : ValueId} (hw : s.nodes.get? w ≠ none) : (s.nodes.insert v id).get? w ≠ none := by
    by_cases hwv : w = v
    · simp [hwv]
    · simpa [get?_insert_of_ne hwv] using hw
  exact
    { hs with
      node := fun hn ↦
        { hs.node hn with
          function := fun hk ↦ by
            obtain ⟨w, f, hw, hf, ha⟩ := (hs.node hn).function hk
            refine ⟨w, f, hw, hf, get?_insert_eq_some_iff.2 (.inr ⟨?_, ha⟩)⟩
            rintro rfl
            exact hkind f hf }
      named := fun hw ↦ by
        rcases get?_insert_eq_some_iff.1 hw with ⟨rfl, rfl⟩ | ⟨-, hw⟩
        · exact hfits
        · exact hs.named hw
      housed := fun hscoped _ _ hw ↦ by
        rcases get?_insert_eq_some_iff.1 hw with ⟨rfl, rfl⟩ | ⟨-, hw⟩
        · exact hhoused hscoped
        · exact hs.housed hscoped hw
      sourced := fun {w} hw hscoped {_ _} hstems hsource ↦ by
        by_cases hwv : w = v
        · subst hwv
          exact hnamed (hsourced hscoped hstems hsource)
        · rw [get?_insert_of_ne hwv] at hw
          exact hnamed (hs.sourced hw hscoped hstems hsource)
      record := fun hr ↦
        { hs.record hr with
          formal := fun hfn hparam hpointer ↦ hnamed ((hs.record hr).formal hfn hparam hpointer)
          met := fun hattached _ _ hv ↦ ((hs.record hr).met hattached hv).imp_left hnamed }
      block := fun hspan ↦ { hs.block hspan with } }

theorem Evolves.leaving (h : s.Evolves prog mine t) (apart : NodeId → Prop) : s.EvolvesApart prog apart mine t :=
  { h.toGrows.mono fun _ hx ↦ hx.1 with
    valid := h.valid
    lowers := h.lowers
    joined := fun hm _ hpair ↦ h.joined hm hpair
    passing := fun hscoped {_ _ _} hm _ hpair ↦ h.passing hscoped hm hpair
    unlinked := h.unlinked
    finished := h.finished }

namespace EvolvesApart

/-- In the end all calls are joined. -/
theorem evolves (h : s.EvolvesApart prog apart mine t) (hnew : ∀ a, apart a → s.graph.size ≤ a)
    (hjoined : ∀ m q call, apart m → t.IsPair m q call → t.Joined prog m q call ∧ mine call) :
    s.Evolves prog mine t :=
  { h.toGrows.mono fun a ha ↦ ⟨ha, fun hapart ↦ absurd ha (Nat.not_lt.2 (hnew a hapart))⟩ with
    valid := h.valid
    lowers := h.lowers
    joined := fun {m q call} hm hpair ↦ by
      by_cases hapart : apart m
      · exact (hjoined m q call hapart hpair).1
      · exact h.joined hm hapart hpair
    passing := fun hscoped {m q call} hm hpair ↦ by
      by_cases hapart : apart m
      · exact .inl (hjoined m q call hapart hpair).2
      · exact h.passing hscoped hm hapart hpair
    unlinked := h.unlinked
    finished := h.finished }

theorem trans (h : s.EvolvesApart prog apart mine t) (h' : t.EvolvesApart prog apart mine u)
    (hpairs : ∀ m q call, t.IsPair m q call → ¬apart m → ¬apart q) (hexits : ∀ a, t.IsExit a → ¬apart a)
    (hothers : ∀ a, t.At (fun _ n ↦ n.kind = .ret ∨ n.kind = .indirectCall) a → ¬apart a) :
    s.EvolvesApart prog apart mine u :=
  { h.toGrows.trans (h'.toGrows.mono fun _ hx ↦ ⟨hx.1.trans_le h.size_le, hx.2⟩) with
    valid := h'.valid
    lowers := fun hscoped {v inst} hv hnone hsome ↦ by
      by_cases ht : t.nodes.get? v = none
      · refine (h'.lowers hscoped hv ht hsome).imp_right (Or.imp_right fun hnot ↦ ?_)
        exact fun hhoused ↦ hnot (h.housed hhoused)
      · refine (h.lowers hscoped hv hnone ht).imp_right (Or.imp_left fun hjudged ↦ ?_)
        exact hjudged.mono h'.toKeeps
    joined := fun {m q call} hm hapart hpair ↦ by
      rcases Nat.lt_or_ge m t.graph.size with hlt | hge
      · have hpair' := hpair.of_persists h.valid h'.graph hlt
        obtain ⟨f, r, hjoins⟩ := h.joined hm hapart hpair'
        have hsite := (hpair'.site h.valid).lt_size
        have hexit := (h.valid.record hjoins.record).exit.lt_size
        obtain ⟨r', hjoins'⟩ := hjoins.grows hpair' h.valid h'.toGrows h'.valid ⟨hlt, hapart⟩
          ⟨hsite, hpairs m q call hpair' hapart⟩ ⟨hexit, hexits _ ⟨f, r, hjoins.record, rfl⟩⟩
        exact ⟨f, r', hjoins'⟩
      · exact h'.joined hge hapart hpair
    passing := fun hscoped {m q call} hm hapart hpair ↦ by
      rcases Nat.lt_or_ge m t.graph.size with hlt | hge
      · exact h.passing hscoped hm hapart (hpair.of_persists h.valid h'.graph hlt)
      · refine (h'.passing hscoped hge hapart hpair).imp_right (Or.imp_right fun hnot ↦ ?_)
        exact fun hhoused ↦ hnot (h.housed hhoused)
    unlinked := fun {c r call} hc hcall ↦ by
      rcases Nat.lt_or_ge c t.graph.size with hlt | hge
      · have hcall' := hcall.of_persists h.valid h'.graph hlt
        have hret := hcall'.returning h.valid
        exact (h.unlinked hc hcall').grows hcall' h.valid h'.toGrows ⟨hlt, hothers c (hcall'.imp fun _ hn ↦ .inr hn.1)⟩
          ⟨hret.lt_size, hothers r (hret.imp fun _ hn ↦ .inl hn.1)⟩
      · exact h'.unlinked hge hcall
    finished := fun {f r} hnone hsome ↦ by
      cases ht : t.records.get? f with
      | none => exact h'.finished ht hsome
      | some r' =>
        have hexit := (h.valid.record ht).exit.lt_size
        have hpers := h'.persists ht hsome ⟨hexit, hexits _ ⟨f, r', ht, rfl⟩⟩
        refine (h.finished hnone ht).mono h'.toGrows h'.valid (fun a ha ↦ ?_) hpers.complete
        exact ⟨ha.lt_size, hothers a (ha.imp fun _ hn ↦ .inl hn.1)⟩ }

end EvolvesApart

namespace Evolves

theorem refl (hs : s.Valid prog) : s.Evolves prog mine s :=
  { Grows.refl prog (· < s.graph.size) s with
    valid := hs
    lowers := fun _ {_ _} _ hnone hsome ↦ absurd hnone hsome
    joined := fun hm hpair ↦ absurd hpair.2.lt_size (Nat.not_lt.2 hm)
    passing := fun _ {_ _ _} hm hpair ↦ absurd hpair.2.lt_size (Nat.not_lt.2 hm)
    unlinked := fun hc hcall ↦ absurd hcall.lt_size (Nat.not_lt.2 hc)
    finished := fun hnone hsome ↦ by
      rw [hnone] at hsome
      contradiction }

theorem mono (h : s.Evolves prog mine t) (hmine : ∀ v, mine v → mine' v) : s.Evolves prog mine' t :=
  { h with
    lowers := fun hscoped {v _} hv hnone hsome ↦ (h.lowers hscoped hv hnone hsome).imp_left (hmine v)
    passing := fun hscoped {_ _ call} hm hpair ↦ (h.passing hscoped hm hpair).imp_left (hmine call) }

theorem trans (h : s.Evolves prog mine t) (h' : t.Evolves prog mine u) : s.Evolves prog mine u :=
  ((h.leaving fun _ ↦ False).trans (h'.leaving _) (fun _ _ _ _ h ↦ h) (fun _ _ h ↦ h) fun _ _ h ↦ h).evolves
    (fun _ h ↦ h.elim) fun _ _ _ h ↦ h.elim

/-- Lowering an irrelevant instruction lowers nothing that matters. -/
theorem ofIrrelevant (h : s.Evolves prog (· = v) t) (hv : t.Judged prog v false) :
    s.Evolves prog (fun _ ↦ False) t :=
  { h with
    lowers := fun hscoped {w _} hw hnone hsome ↦ by
      rcases h.lowers hscoped hw hnone hsome with rfl | hw | hw
      · exact .inr (.inl hv)
      · exact .inr (.inl hw)
      · exact .inr (.inr hw)
    passing := fun hscoped {_ _ call} hm hpair ↦ by
      rcases h.passing hscoped hm hpair with rfl | hw | hw
      · exact .inr (.inl (hv.passesNothing h.valid))
      · exact .inr (.inl hw)
      · exact .inr (.inr hw) }

/-- Calls that are created in between have nothing to do with an instruction whose function has a
record. -/
theorem ignores (h : s.Evolves prog (fun _ ↦ False) t) (hprog : prog.Coherent) (hscoped : prog.Scoped)
    {inst : Instruction} (hv : prog.kindAt v = some (.instruction inst)) (hhoused : s.Housed prog v)
    (hm : s.graph.size ≤ m) (hpair : t.IsPair m q call) : prog.Ignores call v := by
  rcases h.passing hscoped hm hpair with hfalse | hcall
  · exact hfalse.elim
  · exact ignores_of_passing hprog hscoped hv hhoused hcall

end Evolves

/-! ## Steps -/

namespace Step

/-- A call that a step makes is its own return, and a call through a pointer leads to its return. -/
theorem made {a : NodeId} {n : Node} (h : s.Step prog t) (ha : s.graph.size ≤ a)
    (hn : t.graph.nodes[a]? = some n) : (n.kind = .call → n.paired = some a) ∧
      (n.kind = .indirectCall → s.Valid prog → ∀ ret, n.paired = some ret → t.Unlinked a ret) := by
  have hold {g : Graph} {P : Prop} (hsize : g.size = s.graph.size) (hn : g.nodes[a]? = some n) : P :=
    absurd (Graph.lt_size_of_node hn) (Nat.not_lt.2 (hsize ▸ ha))
  cases h with
  | create ops hkind hblank =>
    have hlt := Graph.lt_size_of_node hn
    rw [Graph.size_createWith] at hlt
    obtain rfl : a = s.graph.size := Nat.le_antisymm (Nat.lt_succ_iff.1 hlt) ha
    rename_i n₀
    have hpers : (s.graph.create n₀).2.Persists (s.graph.createWith n₀ ops).2 := .addOperands
    obtain ⟨l, hl, hnl⟩ := hpers.node Graph.nodes_create_self
    rw [Option.mem_unique hn hl, hnl.kind]
    constructor <;> intro hk <;> rw [hk] at hkind <;> rcases hkind with hkind | hkind <;> contradiction
  | external hkind hblank =>
    rcases Graph.nodes_append_cases hn with hn | ⟨i, rfl, hi⟩
    · exact hold rfl hn
    · rcases i with _ | i
      · obtain rfl := Option.some.inj hi
        exact ⟨fun _ ↦ rfl, fun hk ↦ by rcases hkind with hkind | hkind <;> simp [hkind] at hk⟩
      · simp at hi
  | indirect op =>
    rcases Graph.nodes_indirectCall ha hn with ⟨rfl, hk, hp, -⟩ | ⟨-, hk⟩
    · refine ⟨fun hcall ↦ by simp [hk] at hcall, fun _ hs ret hret ↦ ?_⟩
      obtain rfl := Option.mem_unique hp hret
      refine ⟨Graph.successors_indirectCall, fun {x} hx ↦ ?_, _, Graph.nodes_indirectCall_ret, rfl⟩
      rcases Graph.of_mem_successors_indirectCall hx with hx | hx
      · exact absurd (hs.twoWay.lt_size hx) (Nat.not_lt.2 (Nat.le_succ _))
      · exact hx
    · simp [hk]
  | function =>
    rcases Graph.nodes_append_cases hn with hn | ⟨i, rfl, hi⟩
    · exact hold rfl hn
    · rcases i with _ | i
      · obtain rfl := Option.some.inj hi
        exact ⟨fun hk ↦ by contradiction, fun hk ↦ by contradiction⟩
      · simp at hi
  | adjust => exact hold Graph.size_update hn
  | operand => exact hold Graph.size_addOperand hn
  | successor => exact hold Graph.size_addSuccessor hn
  | after => exact hold Graph.size_spliceAfter hn
  | before => exact hold Graph.size_spliceBefore hn
  | quiet | judge | enlist | alter | block | place | globals | root => exact hold rfl hn

/-- A step creates no call that is to be joined. -/
theorem not_isPair (h : s.Step prog t) (hm : s.graph.size ≤ m) : ¬t.IsPair m q call := by
  rintro ⟨hne, n, hn, hk, hp, -⟩
  exact hne (Option.mem_unique hp ((h.made hm hn).1 hk))

/-- A call through a pointer that a step creates leads to its return. -/
theorem unlinked (h : s.Step prog t) (hs : s.Valid prog) (hc : s.graph.size ≤ c) (hcall : t.IsIndirect c ret call) :
    t.Unlinked c ret := by
  obtain ⟨n, hn, hk, hp, -⟩ := hcall
  exact (h.made hc hn).2 hk hs ret hp

/-- A step names functions only. -/
theorem function_of_named (h : s.Step prog t) (hnone : s.nodes.get? v = none) (hsome : t.nodes.get? v ≠ none) :
    ∃ f, prog.kindAt v = some (.function f) := by
  cases h with
  | function hkind hv =>
    rename_i w f
    by_cases hvw : v = w
    · exact ⟨f, hvw ▸ hkind⟩
    · rw [get?_insert_of_ne hvw] at hsome
      exact absurd hnone hsome
  | _ => exact absurd hnone hsome

/-- A step opens no function. -/
theorem not_opened (h : s.Step prog t) (hnone : s.records.get? f = none) : t.records.get? f = none := by
  cases h with
  | alter hr hpers hvalid =>
    rw [get?_insert_of_ne, hnone]
    rintro rfl
    rw [hr] at hnone
    contradiction
  | _ => exact hnone

theorem evolves (h : s.Step prog t) (hs : s.Valid prog) : s.Evolves prog mine t :=
  { h.grows hs with
    valid := hs.adds (h.adds hs)
    lowers := fun _ {v inst} hv hnone hsome ↦ by
      obtain ⟨f, hf⟩ := h.function_of_named hnone hsome
      rw [hv] at hf
      simp at hf
    joined := fun hm hpair ↦ absurd hpair (h.not_isPair hm)
    passing := fun _ {_ _ _} hm hpair ↦ absurd hpair (h.not_isPair hm)
    unlinked := fun hc hcall ↦ h.unlinked hs hc hcall
    finished := fun hnone hsome ↦ by
      rw [h.not_opened hnone] at hsome
      contradiction }

end Step

theorem Evolves.step (h : s.Evolves prog mine t) (hstep : t.Step prog u) : s.Evolves prog mine u :=
  h.trans (hstep.evolves h.valid)

/-- A node that is made. -/
theorem At.created {n : Node} {ops : List NodeId} : ({ s with graph := (s.graph.createWith n ops).2 } : Lowering).At
    (fun _ m ↦ m.kind = n.kind ∧ m.paired = n.paired ∧ m.value = n.value ∧ m.operands = n.operands ++ ops)
    s.graph.size := by
  have hpers : (s.graph.create n).2.Persists (s.graph.createWith n ops).2 := .addOperands
  have hn : (s.graph.create n).2.nodes[s.graph.size]? = some n := Graph.nodes_create_self
  obtain ⟨m, hm, hnm⟩ := hpers.node hn
  have hvalue : ((s.graph.createWith n ops).2.nodes[s.graph.size]?).map (·.value) =
      ((s.graph.create n).2.nodes[s.graph.size]?).map (·.value) := Graph.value_addOperands
  rw [hm, hn, Option.map_some, Option.map_some, Option.some.injEq] at hvalue
  obtain ⟨l, hl, hops⟩ := Graph.nodes_addOperands hm
  rw [if_pos rfl, Option.mem_unique hl hn] at hops
  exact ⟨m, hm, hnm.kind, hnm.paired, hvalue, hops⟩

/-- A node that has no value gets one. -/
theorem Step.value : s.Step prog { s with graph := s.graph.update id fun n ↦ { n with value := n.value <|> some v } } :=
  .adjust (fun _ ↦ ⟨rfl, rfl, rfl, rfl, rfl, fun _ hp ↦ hp⟩) fun _ hv ↦ by simp [hv]

section

variable (h : s.Evolves prog mine t) (hkind : ∀ f, prog.kindAt v ≠ some (.function f))
  (hmine : ∀ inst, prog.kindAt v = some (.instruction inst) → mine v)
  (hnew : prog.Scoped → s.nodes.get? v = none ∧ s.graph.size ≤ id) (hfits : t.Fits prog v id)
  (hhoused : prog.Scoped → t.Housed prog v)
  (hignores : prog.Scoped → ∀ {m q call}, s.graph.size ≤ m → t.IsPair m q call → prog.Ignores call v)
  (hother : prog.Scoped → ∀ {f}, s.records.get? f = none → t.records.get? f ≠ none →
    prog.home? v ≠ none ∧ prog.home? v ≠ some f) (hsourced : t.Sourced prog v)

include h hkind hmine hnew hfits hhoused hignores hother hsourced

/-- A value gets its node at the end.  It may have got one in between, but it had none before. -/
theorem Evolves.name : s.Evolves prog mine { t with nodes := t.nodes.insert v id } :=
  { h with
    valid := h.valid.name hkind hfits hhoused hsourced
    named := fun {w id₀} hw ↦ by
      by_cases hwv : w = v
      · subst hwv
        refine ⟨id, get?_insert_self, fun hlasting ↦ ?_⟩
        rcases hlasting with hscoped | ⟨f, hf⟩
        · rw [(hnew hscoped).1] at hw
          contradiction
        · exact absurd hf (hkind f)
      · obtain ⟨id', hid', hlasting⟩ := h.named hw
        exact ⟨id', (get?_insert_of_ne hwv).trans hid', hlasting⟩
    recent := fun hscoped {w id₀} hnone hsome ↦ by
      rcases get?_insert_eq_some_iff.1 hsome with ⟨rfl, rfl⟩ | ⟨-, hsome⟩
      · exact (hnew hscoped).2
      · exact h.recent hscoped hnone hsome
    lowers := fun hscoped {w inst} hw hnone hsome ↦ by
      by_cases hwv : w = v
      · subst hwv
        exact .inl (hmine inst hw)
      · rw [get?_insert_of_ne hwv] at hsome
        exact h.lowers hscoped hw hnone hsome
    joined := fun {m q call} hm hpair ↦ by
      obtain ⟨f, r, hjoins⟩ := h.joined hm hpair
      exact ⟨f, r, { hjoins with
        bound := fun hscoped ↦ (hjoins.bound hscoped).name hjoins.calls (hignores hscoped hm hpair) }⟩
    unlinked := fun hc hcall ↦ { h.unlinked hc hcall with }
    finished := fun hnone hsome ↦ (h.finished hnone hsome).name fun hscoped ↦ hother hscoped hnone (by simp [hsome]) }

/-- A node stands for a value from now on. -/
theorem Evolves.assign :
    s.Evolves prog mine { t with
      graph := t.graph.update id fun n ↦ { n with value := n.value <|> some v }
      nodes := t.nodes.insert v id } := by
  have hstep : t.Step prog { t with graph := t.graph.update id fun n ↦
    { n with value := n.value <|> some v } } := .value
  have hgrows := hstep.grows h.valid
  refine (h.step hstep).name hkind hmine hnew (hgrows.fits hfits)
    (fun hscoped ↦ hgrows.housed (hhoused hscoped)) ?_ hother hsourced
  intro hscoped m q call hm hpair
  apply hignores hscoped hm
  apply hpair.of_persists h.valid hgrows.graph
  exact Graph.size_update ▸ hpair.2.lt_size

end

end Lowering

end PointsTo
