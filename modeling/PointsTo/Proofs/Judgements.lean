import PointsTo.Proofs.Binding
import PointsTo.Proofs.Steps
import PointsTo.Proofs.Touches

/-!
# Judgements of relevance

Whether an instruction is relevant depends on the state of lowering only through what is remembered
about callees, and what was found once is never revised.  So a judgement stands for good.  A call that
is judged not to matter passes nothing where a pointer is received.
-/

namespace PointsTo

open Stateful

/-- No allocation function has the name of an intrinsic. -/
theorem Intrinsic.allocator_eq_none {name : String} {i : Intrinsic} (h : ofName? name = some i) :
    Allocator.ofName? name = none := by
  unfold Allocator.ofName?
  split
  case h_5 => rfl
  all_goals
    revert h
    revert i
    decide

/-- The names of intrinsics begin alike. -/
theorem Intrinsic.isIntrinsic {fn : Function} {i : Intrinsic} (h : ofName? fn.name = some i) :
    fn.isIntrinsic = true := by
  have hname : isNameOf i.baseName.toList fn.name.toList = true :=
    List.find?_some (p := fun i ↦ isNameOf (baseName i).toList fn.name.toList) h
  obtain ⟨hbase, -⟩ := Bool.and_eq_true_iff.1 hname
  have hstart : "llvm.".toList <+: i.baseName.toList := by
    rw [← List.isPrefixOf_iff_prefix]
    cases i <;> decide
  exact List.isPrefixOf_iff_prefix.2 (hstart.trans (List.isPrefixOf_iff_prefix.1 hbase))

/-- Only calls have arguments. -/
theorem Instruction.call_of_argument {inst : Instruction} {j : Nat} {v : ValueId} (h : inst.arguments[j]? = some v) :
    inst.opcode = .call := by
  unfold arguments isCall at h
  split at h
  · assumption
  · simp at h

namespace Program

variable {prog : Program} {f : FuncId} {call v w : ValueId}

/-- The call passes nothing where a pointer is received, whatever it may call. -/
def PassesNothing (prog : Program) (call : ValueId) : Prop := ∀ f w, prog.Calls call f → ¬prog.Passes call f w

/-- Inline assembly names no function. -/
theorem isAsmCall_eq_false {asm : Bool}
    (hf : prog.calledFunction? v = .ok (some f)) (h : prog.isAsmCall v = .ok asm) : asm = false := by
  simp only [calledFunction?, Query.bind_eq_ok_iff] at hf
  simp only [isAsmCall, Query.bind_eq_ok_iff] at h
  obtain ⟨callee?, hcallee, hf⟩ := hf
  obtain ⟨_, hcallee', h⟩ := h
  obtain rfl := Except.ok.inj (hcallee.symm.trans hcallee')
  cases callee? with
  | none => exact (Query.pure_eq_ok_iff.1 h).symm
  | some callee =>
    simp only [Query.bind_eq_ok_iff] at hf h
    obtain ⟨x, hx, h⟩ := h
    split at h
    · rename_i hasm
      obtain ⟨base, hbase, y, hy, hf⟩ := hf
      have hsource : prog.castSource? false callee = .ok none := by
        refine Query.bind_eq_ok_iff.2 ⟨x, hx, ?_⟩
        simp only [hasm]
        rfl
      simp only [stripCasts, stripWithin, hsource, Query.bind_eq_ok_iff, Except.ok.injEq, exists_eq_left',
        Query.pure_eq_ok_iff] at hbase
      subst hbase
      obtain rfl := Except.ok.inj (hx.symm.trans hy)
      simp [hasm, Query.pure_eq_ok_iff] at hf
    · exact (Query.pure_eq_ok_iff.1 h).symm

/-- A search that goes over quiet functions finds nothing. -/
theorem search_of_quiet {known : OrderedMap FuncId Bool} {budget : Nat} {stack : List FuncId}
    {visited : OrderedSet FuncId}
    {b : Bool} (hknown : prog.Truthful known) (h : prog.searchPointers known budget stack visited = .ok b)
    (hstack : ∀ g ∈ stack, prog.Quiet g) : b = false := by
  induction budget generalizing stack visited with
  | zero => simp [searchPointers] at h
  | succ budget ih =>
    cases stack with
    | nil => exact (Query.pure_eq_ok_iff.1 h).symm
    | cons f stack =>
      have hrest {g : FuncId} (hg : g ∈ stack) : prog.Quiet g := hstack g (List.mem_cons_of_mem _ hg)
      have hf := hstack f List.mem_cons_self
      rw [searchPointers] at h
      split at h
      · exact ih h fun _ ↦ hrest
      · split at h
        · rename_i htouches
          exact absurd ((hknown f true htouches).2 hf) (by simp)
        · obtain ⟨callees, hcallees, hquiet⟩ := hf.callees
          simp only [Query.bind_eq_ok_iff, hcallees, Except.ok.injEq, exists_eq_left'] at h
          refine ih h fun g hg ↦ ?_
          rcases List.mem_append.1 hg with hg | hg
          · exact hquiet g (List.mem_reverse.1 hg)
          · exact hrest hg

/-- What a search finds can be reached from the stack. -/
theorem reachesPointers_of_search {known : OrderedMap FuncId Bool} {budget : Nat} {stack : List FuncId}
    {visited : OrderedSet FuncId} (hknown : prog.Exact known)
    (h : prog.searchPointers known budget stack visited = .ok true) : ∃ f ∈ stack, prog.ReachesPointers f := by
  induction budget generalizing stack visited with
  | zero => simp [searchPointers] at h
  | succ budget ih =>
    cases stack with
    | nil => simp [searchPointers, Query.pure_eq_ok_iff] at h
    | cons f stack =>
      rw [searchPointers] at h
      split at h
      · obtain ⟨g, hg, hreaches⟩ := ih h
        exact ⟨g, List.mem_cons_of_mem _ hg, hreaches⟩
      · split at h
        · rename_i htouches
          exact ⟨f, List.mem_cons_self, (hknown f true htouches).1 rfl⟩
        · obtain ⟨callees?, hcallees, h⟩ := Query.bind_eq_ok_iff.1 h
          cases callees? with
          | none =>
            obtain ⟨_, -, ⟨-, htouches⟩ | ⟨_, hsome, -⟩⟩ := localCallees_cases hcallees
            · exact ⟨f, List.mem_cons_self, f, .refl, htouches⟩
            · contradiction
          | some callees =>
            obtain ⟨g, hg, g', hreach, htouches⟩ := ih h
            rcases List.mem_append.1 hg with hg | hg
            · have hcalls := (callsDirectly_of_localCallees hcallees).2 g (List.mem_reverse.1 hg)
              exact ⟨f, List.mem_cons_self, g', .head hcalls hreach, htouches⟩
            · exact ⟨g, List.mem_cons_of_mem _ hg, g', hreach, htouches⟩

/-- A search that finds nothing goes over every function that can be reached from the stack. -/
theorem quiet_of_search {known : OrderedMap FuncId Bool} {budget : Nat} {stack : List FuncId}
    {visited : OrderedSet FuncId} (h : prog.searchPointers known budget stack visited = .ok false)
    (hvisited : ∀ g ∈ visited, ∃ callees, prog.localCallees g = .ok (some callees) ∧
    ∀ h ∈ callees, h ∈ visited ∨ h ∈ stack) : ∀ g, g ∈ visited ∨ g ∈ stack → prog.Quiet g := by
  induction budget generalizing stack visited with
  | zero => simp [searchPointers] at h
  | succ budget ih =>
    cases stack with
    | nil =>
      refine fun g hg ↦ ⟨(· ∈ visited), by simpa using hg, fun g hg ↦ ?_⟩
      obtain ⟨callees, hcallees, hclosed⟩ := hvisited g hg
      exact ⟨callees, hcallees, fun h hh ↦ by simpa using hclosed h hh⟩
    | cons f stack =>
      rw [searchPointers] at h
      split at h
      · rename_i hf
        have hf : f ∈ visited := OrderedSet.contains_iff.1 hf
        have hrest {g : FuncId} (hg : g ∈ visited ∨ g ∈ f :: stack) : g ∈ visited ∨ g ∈ stack := by
          rcases hg with hg | hg
          · exact .inl hg
          · rcases List.mem_cons.1 hg with rfl | hg
            · exact .inl hf
            · exact .inr hg
        refine fun g hg ↦ ih h (fun g hg ↦ ?_) g (hrest hg)
        obtain ⟨callees, hcallees, hclosed⟩ := hvisited g hg
        exact ⟨callees, hcallees, fun k hk ↦ hrest (hclosed k hk)⟩
      · split at h
        · simp [Query.pure_eq_ok_iff] at h
        · obtain ⟨callees?, hcallees, h⟩ := Query.bind_eq_ok_iff.1 h
          cases callees? with
          | none => simp [Query.pure_eq_ok_iff] at h
          | some callees =>
            have hmore {g : FuncId} (hg : g ∈ visited ∨ g ∈ f :: stack) :
                g ∈ visited.insert f ∨ g ∈ callees.reverse ++ stack := by
              rw [OrderedSet.mem_insert, List.mem_append]
              rcases hg with hg | hg
              · exact .inl (.inr hg)
              · rcases List.mem_cons.1 hg with rfl | hg
                · exact .inl (.inl rfl)
                · exact .inr (.inr hg)
            refine fun g hg ↦ ih h (fun g hg ↦ ?_) g (hmore hg)
            rcases OrderedSet.mem_insert.1 hg with rfl | hg
            · exact ⟨callees, hcallees, fun k hk ↦ .inr (by simp [hk])⟩
            · obtain ⟨callees', hcallees', hclosed⟩ := hvisited g hg
              exact ⟨callees', hcallees', fun k hk ↦ hmore (hclosed k hk)⟩

end Program

namespace Lowering

variable {prog : Program} {s t : Lowering} {v call : ValueId} {f : FuncId} {b : Bool}

theorem Judged.unique {b' : Bool} (h : s.Judged prog v b) (h' : s.Judged prog v b') : b = b' :=
  (EStateM.Result.ok.inj ((h s id).symm.trans (h' s id))).1

/-- Something may be found out about functions, nothing else changes. -/
structure Settles (prog : Program) (s t : Lowering) : Prop where
  same : { s with relevance := t.relevance } = t
  recalls : s.Recalls t
  found : prog.Truthful s.relevance → prog.Truthful t.relevance
  exact : prog.Exact s.relevance → prog.Exact t.relevance

namespace Settles

variable {u : Lowering}

theorem refl (prog : Program) (s : Lowering) : s.Settles prog s := ⟨rfl, id, id, id⟩

theorem trans (h : s.Settles prog t) (h' : t.Settles prog u) : s.Settles prog u where
  same := by
    rw [← h'.same, ← h.same]
  recalls hf := h'.recalls (h.recalls hf)
  found hs := h'.found (h.found hs)
  exact hs := h'.exact (h.exact hs)

theorem step (h : s.Settles prog t) : s.Step prog t := h.same ▸ .judge h.recalls h.found

end Settles

end Lowering

namespace Lower

variable {prog : Program} {s t : Lowering} {v call : ValueId} {f : FuncId} {b : Bool} {α β : Type}

/-- The computation at most finds something out about functions, and answers the same again once it is
known. -/
def Stable (prog : Program) (x : Lower α) : Prop :=
  ∀ s a t, x s = .ok a t → s.Settles prog t ∧ ∀ u, t.Recalls u → x u = .ok a u

theorem touchesPointers_eq_ok (h : touchesPointers prog f s = .ok b t) :
    s.Settles prog t ∧ t.relevance.get? f = some b := by
  simp only [touchesPointers, bind_eq_ok_iff, get_eq_ok_iff] at h
  obtain ⟨_, _, ⟨rfl, rfl⟩, h⟩ := h
  cases hknown : s.relevance.get? f with
  | some b' =>
    simp only [hknown, pure_eq_ok_iff] at h
    obtain ⟨rfl, rfl⟩ := h
    exact ⟨.refl prog s, hknown⟩
  | none =>
    simp only [hknown, bind_eq_ok_iff, lift_eq_ok_iff, modify_eq_ok_iff,
      pure_eq_ok_iff] at h
    obtain ⟨found, _, ⟨hsearch, rfl⟩, _, _, rfl, rfl, rfl⟩ := h
    have hquiet : found = false → prog.Quiet f := by
      rintro rfl
      exact Program.quiet_of_search hsearch (fun _ hg ↦ absurd hg OrderedSet.not_mem_empty) _ (.inr List.mem_cons_self)
    refine ⟨⟨rfl, fun {g b'} hg ↦ ?_, fun hs g b' hg ↦ ?_, fun hs g b' hg ↦ ?_⟩, OrderedMap.get?_insert_self⟩
    · refine OrderedMap.get?_insert_eq_some_iff.2 (.inr ⟨?_, hg⟩)
      rintro rfl
      rw [hknown] at hg
      contradiction
    all_goals rcases OrderedMap.get?_insert_eq_some_iff.1 hg with ⟨rfl, rfl⟩ | ⟨-, hg⟩
    · exact ⟨hquiet, fun hquiet ↦ Program.search_of_quiet hs hsearch (by simpa using hquiet)⟩
    · exact hs g b' hg
    · refine ⟨?_, fun hreaches ↦ (Bool.eq_false_or_eq_true _).resolve_right fun hfalse ↦ ?_⟩
      · rintro rfl
        simpa using Program.reachesPointers_of_search hs hsearch
      · exact (hquiet hfalse).not_reachesPointers hreaches
    · exact hs g b' hg

namespace Stable

theorem pure {a : α} : Stable prog (pure a : Lower α) := by
  intro s b t h
  obtain ⟨rfl, rfl⟩ := pure_eq_ok_iff.1 h
  exact ⟨.refl prog s, fun _ _ ↦ rfl⟩

theorem lift {q : Query α} : Stable prog (liftM q : Lower α) := by
  intro s a t h
  obtain ⟨hq, rfl⟩ := lift_eq_ok_iff.1 h
  exact ⟨.refl prog s, fun _ _ ↦ lift_eq_ok_iff.2 ⟨hq, rfl⟩⟩

theorem bind {x : Lower α} {next : α → Lower β} (hx : Stable prog x) (hnext : ∀ a, Stable prog (next a)) :
    Stable prog (x >>= next) := by
  intro s b u h
  obtain ⟨a, t, ha, h⟩ := bind_eq_ok_iff.1 h
  obtain ⟨hst, hagain⟩ := hx s a t ha
  obtain ⟨htu, hagain'⟩ := hnext a t b u h
  refine ⟨hst.trans htu, fun w hw ↦ bind_eq_ok_iff.2 ⟨a, w, hagain w fun hf ↦ ?_, hagain' w hw⟩⟩
  exact hw (htu.recalls hf)

theorem reject {cause : Rejection} : Stable prog (reject cause : Lower α) :=
  fun _ _ _ h ↦ absurd h reject_ne_ok

theorem touchesPointers : Stable prog (touchesPointers prog f) := by
  intro s b t h
  obtain ⟨hst, hknown⟩ := touchesPointers_eq_ok h
  refine ⟨hst, fun u hu ↦ bind_eq_ok_iff.2 ⟨u, u, rfl, ?_⟩⟩
  simp only [hu hknown]
  rfl

theorem isRelevantCall : Stable prog (isRelevantCall prog call) := by
  refine lift.bind fun asm ↦ ?_
  split
  · exact pure
  · refine lift.bind fun f? ↦ ?_
    cases f? with
    | none => exact pure
    | some f =>
      refine lift.bind fun fn ↦ ?_
      split
      · exact lift
      · refine lift.bind fun pointer ↦ ?_
        split
        · exact pure
        · refine lift.bind fun passes ↦ ?_
          split
          · exact pure
          · exact touchesPointers

theorem isRelevant : Stable prog (isRelevant prog v) := by
  refine lift.bind fun inst? ↦ ?_
  cases inst? with
  | none => exact pure
  | some inst =>
    dsimp only
    split
    · split
      · exact lift
      · exact pure
    · exact lift
    · exact lift
    · exact lift
    · exact lift
    · exact isRelevantCall
    all_goals try exact pure
    refine lift.bind fun pointer ↦ ?_
    split
    · exact lift.bind fun _ ↦ reject.bind fun _ ↦ pure
    · exact pure

end Stable

theorem isRelevant_eq_ok (h : isRelevant prog v s = .ok b t) : s.Settles prog t ∧ t.Judged prog v b :=
  Stable.isRelevant s b t h

end Lower

namespace Lowering

variable {prog : Program} {s : Lowering} {v : ValueId}

/-- What is known of a call. -/
theorem Judged.call {inst : Instruction} {b : Bool} (h : s.Judged prog v b)
    (hinst : prog.kindAt v = some (.instruction inst))
    (hcall : inst.opcode = .call) : Lower.isRelevantCall prog v s = .ok b s := by
  have hrel := h s id
  simp only [Lower.isRelevant, bind_eq_ok_iff, lift_eq_ok_iff,
    Program.instruction?_eq_ok_iff.2 hinst, Except.ok.injEq] at hrel
  obtain ⟨_, _, ⟨rfl, rfl⟩, hrel⟩ := hrel
  simpa only [hcall] using hrel

/-- A call of a defined function does not matter if it neither passes nor returns pointers and the
function touches none. -/
theorem Judged.of_call {inst : Instruction} {f : FuncId} {fn : Function} (h : s.Judged prog v false)
    (hinst : prog.kindAt v = some (.instruction inst)) (hcall : inst.opcode = .call)
    (hf : prog.calledFunction? v = .ok (some f)) (hfn : prog.functions[f]? = some fn)
    (hdef : fn.isDeclaration = false) :
    s.relevance.get? f = some false ∧ ∀ w ∈ inst.arguments, prog.isPointer w = .ok false := by
  have hrel := h.call hinst hcall
  simp only [Lower.isRelevantCall, bind_eq_ok_iff, lift_eq_ok_iff] at hrel
  obtain ⟨asm, _, ⟨hasm, rfl⟩, hrel⟩ := hrel
  obtain rfl := Program.isAsmCall_eq_false hf hasm
  simp only [Bool.false_eq_true, if_false, bind_eq_ok_iff, lift_eq_ok_iff, hf, Except.ok.injEq] at hrel
  obtain ⟨_, _, ⟨rfl, rfl⟩, hrel⟩ := hrel
  simp only [bind_eq_ok_iff, lift_eq_ok_iff, Program.function, Query.lookup_eq_ok_iff.2 hfn,
    Except.ok.injEq] at hrel
  obtain ⟨_, _, ⟨rfl, rfl⟩, hrel⟩ := hrel
  simp only [hdef, Bool.false_eq_true, if_false, bind_eq_ok_iff, lift_eq_ok_iff] at hrel
  obtain ⟨pointer, _, ⟨-, rfl⟩, hrel⟩ := hrel
  cases pointer with
  | true => simp [pure_eq_ok_iff] at hrel
  | false =>
    simp only [Bool.false_eq_true, if_false, bind_eq_ok_iff, lift_eq_ok_iff] at hrel
    obtain ⟨passes, _, ⟨hargs, rfl⟩, hrel⟩ := hrel
    cases passes with
    | true => simp [pure_eq_ok_iff] at hrel
    | false =>
      refine ⟨(Lower.touchesPointers_eq_ok hrel).2, fun w hw ↦ ?_⟩
      obtain ⟨args, hargs', hany⟩ := Query.bind_eq_ok_iff.1 hargs
      obtain rfl := Program.arguments_unique hinst hargs'
      exact Query.not_of_anyM hany w hw

/-- A call that does not name a function matters. -/
theorem Judged.calledFunction? {inst : Instruction} (h : s.Judged prog v false)
    (hinst : prog.kindAt v = some (.instruction inst)) (hcall : inst.opcode = .call) :
    prog.calledFunction? v ≠ .ok none := by
  intro hnone
  have hrel := h.call hinst hcall
  simp only [Lower.isRelevantCall, bind_eq_ok_iff, lift_eq_ok_iff] at hrel
  obtain ⟨asm, _, ⟨-, rfl⟩, hrel⟩ := hrel
  cases asm with
  | true => simp [pure_eq_ok_iff] at hrel
  | false =>
    simp only [Bool.false_eq_true, if_false, bind_eq_ok_iff, lift_eq_ok_iff, hnone, Except.ok.injEq] at hrel
    obtain ⟨_, _, ⟨rfl, rfl⟩, hrel⟩ := hrel
    simp [pure_eq_ok_iff] at hrel

/-- A call that is judged not to matter passes nothing where a pointer is received. -/
theorem Judged.passesNothing (h : s.Judged prog v false) (hs : s.Valid prog) : prog.PassesNothing v := by
  intro f w hcalls hpasses
  cases hpasses with
  | formal hinst hfn hdef hparam harg hpointer =>
    have hcall := Instruction.call_of_argument harg
    have hf := hcalls.2.resolve_right (h.calledFunction? hinst hcall)
    have hquiet := (hs.relevance _ _ (h.of_call hinst hcall hf hfn hdef).1).1 rfl
    exact hquiet.not_touchesPointers (.takes ⟨_, hfn, _, List.mem_of_getElem? hparam, hpointer⟩)
  | rest hinst hfn hdef _ _ harg hpointer =>
    have hcall := Instruction.call_of_argument harg
    have hf := hcalls.2.resolve_right (h.calledFunction? hinst hcall)
    simpa [hpointer] using (h.of_call hinst hcall hf hfn hdef).2 _ (List.mem_of_getElem? harg)

/-- Calls that fill memory are irrelevant. -/
theorem Judged.not_fills (h : s.Judged prog v true) : ¬prog.Fills v := by
  rintro ⟨f, fn, hf, hfn, hdecl, hname⟩
  obtain ⟨inst, hinst, hcall⟩ := Program.call_of_calledFunction? hf
  have hrel := h.call hinst hcall
  simp only [Lower.isRelevantCall, bind_eq_ok_iff, lift_eq_ok_iff] at hrel
  obtain ⟨asm, _, ⟨hasm, rfl⟩, hrel⟩ := hrel
  obtain rfl := Program.isAsmCall_eq_false hf hasm
  simp only [Bool.false_eq_true, if_false, bind_eq_ok_iff, lift_eq_ok_iff, hf, Except.ok.injEq] at hrel
  obtain ⟨_, _, ⟨rfl, rfl⟩, hrel⟩ := hrel
  have hfn := Query.lookup_eq_ok_iff.2 hfn
  simp only [bind_eq_ok_iff, lift_eq_ok_iff, Program.function, hfn, Except.ok.injEq] at hrel
  obtain ⟨_, _, ⟨rfl, rfl⟩, hrel⟩ := hrel
  simp only [hdecl, if_true, lift_eq_ok_iff, Program.isRelevantDeclaration, Program.function, hfn,
    Query.bind_eq_ok_iff, Except.ok.injEq, exists_eq_left', Intrinsic.allocator_eq_none hname, Option.isSome_none,
    Bool.false_eq_true, if_false, Intrinsic.isIntrinsic hname, hname, Query.pure_eq_ok_iff] at hrel
  exact absurd hrel.1 (by decide)

end Lowering

end PointsTo
