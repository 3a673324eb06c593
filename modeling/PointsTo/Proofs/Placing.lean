import PointsTo.Lowering.Placement
import PointsTo.Proofs.Calls

/-!
# Placing what was lowered on request

A formal is placed at the end of the chain of the formals, and the chain of an instruction before the
next instruction of its block that has its place, or at the end of the block.  A block that ends with
a return is never extended: the return has its place by then, so it is next at the latest.
-/

namespace PointsTo

/-- Behind an instruction that is not the last one there is one that has its place, if the last one
has. -/
theorem Lower.nextPlaced?_ne_none {placed : OrderedMap ValueId NodeId} {insts : List ValueId} {v w : ValueId}
    (hv : v ∈ insts) (hw : insts.getLast? = some w) (hne : v ≠ w) (hplaced : placed.get? w ≠ none) :
    Lower.nextPlaced? placed insts v ≠ none := by
  have hmem : w ∈ (insts.dropWhile (· != v)).tail := by
    induction insts with
    | nil => contradiction
    | cons x rest ih =>
      rw [List.dropWhile_cons]
      by_cases hx : x = v
      · subst hx
        simp only [bne_self_eq_false, Bool.false_eq_true, if_false, List.tail_cons]
        cases rest with
        | nil =>
          rw [List.getLast?_singleton, Option.some.injEq] at hw
          exact absurd hw hne
        | cons y rest => exact List.mem_of_getLast? (List.getLast?_cons_cons ▸ hw)
      · rw [if_pos (by simpa using hx)]
        have hv' : v ∈ rest := (List.mem_cons.1 hv).resolve_left (Ne.symm hx)
        cases rest with
        | nil => contradiction
        | cons y rest => exact ih hv' (List.getLast?_cons_cons ▸ hw)
  intro hnone
  exact hplaced (List.findSome?_eq_none_iff.1 hnone w hmem)

namespace Lowering

variable {prog : Program} {s t : Lowering} {id : NodeId} {f : FuncId} {r : FunctionRecord} {span : Span}

/-- The chain of an instruction that waits for its place. -/
def Loose (prog : Program) (s : Lowering) (f : FuncId) (x : ValueId × Span) : Prop :=
  s.Starts prog x.2.first ∧ s.Extends prog x.2.last ∧
    ∃ inst, prog.kindAt x.1 = some (.instruction inst) ∧ inst.function = f ∧ inst.opcode ≠ .ret

theorem Loose.mono {x : ValueId × Span} (h : s.Loose prog f x) (hst : s.Keeps prog t) : t.Loose prog f x :=
  ⟨hst.starts h.1, hst.extending h.2.1, h.2.2⟩

/-- Nodes may be put behind a formal. -/
theorem Valid.extends_phi (hs : s.Valid prog) (h : s.At (fun _ n ↦ n.kind = .phi) id) : s.Extends prog id := by
  refine ⟨⟨h.imp fun n hn ↦ n.ends_of_plain (by rw [hn]; rfl), hs.not_isExit (h.imp fun n hn ↦ ?_)⟩,
    h.imp fun n hn ↦ ?_⟩
  · simp [hn]
  · exact n.open_of_ne_ret (by simp [hn])

/-- The end of the formals, or the entry if there are none. -/
theorem Valid.extends_formals (hs : s.Valid prog) (hr : s.records.get? f = some r) :
    s.Extends prog ((r.formals.map (·.last)).getD r.entry) := by
  cases hformals : r.formals with
  | some span => exact hs.extends_phi ((hs.record hr).formals hformals).2
  | none =>
    have hentry := (hs.record hr).entry
    refine ⟨⟨hentry.imp fun n hn ↦ ?_, hs.not_isExit (hentry.imp fun n hn ↦ ?_)⟩, hentry.imp fun n hn ↦ ?_⟩
    · exact ⟨by simp [hn], by simp [hn], by simp [hn]⟩
    · simp [hn]
    · exact n.open_of_ne_ret (by simp [hn])

theorem Valid.starts_nextPlaced (hs : s.Valid prog) {insts : List ValueId} {v : ValueId}
    (h : Lower.nextPlaced? s.placed insts v = some id) : s.Starts prog id := by
  obtain ⟨w, -, hw⟩ := List.exists_of_findSome?_eq_some h
  exact hs.placed hw

/-- The chain of the formals ends with another formal. -/
theorem Step.formals (hs : s.Valid prog) (hr : s.records.get? f = some r)
    (hfirst : s.At (fun _ n ↦ n.kind = .phi) span.first) (hlast : s.At (fun _ n ↦ n.kind = .phi) span.last) :
    s.Step prog { s with records := s.records.modify f fun r ↦ { r with formals := some span } } := by
  rw [OrderedMap.modify_of_get? hr]
  refine .alter hr { FunctionRecord.Persists.refl _ r with } { hs.record hr with formals := fun hspan ↦ ?_ }
  obtain rfl := Option.some.inj hspan
  exact ⟨hfirst, hlast⟩

end Lowering

namespace Lower

open Stateful

variable {prog : Program} {s : Lowering} {v : ValueId} {f : FuncId} {id : NodeId} {span : Span}

theorem placeFormal_ensures (hs : s.Valid prog) (hid : s.At (fun _ n ↦ n.kind = .phi) id) :
    Ensures (placeFormal f id) s fun _ t ↦ s.Serves prog t := by
  refine .seq fun r? _ h ↦ ?_
  obtain ⟨hr, rfl⟩ := record?_eq_ok_iff.1 h
  split
  · exact .pure (.refl hs)
  · rename_i r
    split
    rename_i first after heq
    have hplace : s.At (fun _ n ↦ n.kind = .phi) first ∧ s.Extends prog after := by
      have hafter := hs.extends_formals hr
      cases hformals : r.formals with
      | some span =>
        simp only [hformals, Prod.mk.injEq] at heq
        rw [hformals] at hafter
        exact ⟨heq.1 ▸ ((hs.record hr).formals hformals).1, heq.2 ▸ hafter⟩
      | none =>
        simp only [hformals, Prod.mk.injEq] at heq
        rw [hformals] at hafter
        exact ⟨heq.1 ▸ hid, heq.2 ▸ hafter⟩
    refine .seq fun _ s₁ h₁ ↦ .seq fun _ s₂ h₂ ↦ ?_
    have hstep₁ : s.Step prog s₁ := by
      rw [← alterRecord_eq_ok_iff.1 h₁]
      exact .formals hs hr hplace.1 hid
    have hs₁ : s.Serves prog s₁ := hstep₁.evolves hs
    have hphi := hid.mono_kind hs₁.graph
    have hid₁ := hs₁.valid.extends_phi hphi
    have hstep₂ : s₁.Step prog s₂ := by
      rw [← onGraph_eq_ok_iff.1 h₂]
      exact .after (hs₁.extending hplace.2) (hphi.accepts (by simp)) hid₁.1
    have hs₂ := hs₁.step hstep₂
    have hid₂ := (hstep₂.keeps hs₁.valid).extending hid₁
    refine .seq fun span? _ h ↦ ?_
    obtain ⟨hspan, rfl⟩ := blockSpan?_eq_ok_iff.1 h
    split
    · split
      · rename_i span _ _
        intro _ t ht
        obtain rfl := setBlockSpan_eq_ok_iff.1 ht
        refine hs₂.step (.block fun span' hspan' ↦ ?_)
        obtain rfl := Option.some.inj hspan'
        exact ⟨(hs₂.valid.block hspan).first, hid₂.1, .inl hid₂.2⟩
      · exact .pure hs₂
    · exact .pure hs₂

/-- The chain of an instruction is put into its block. -/
theorem placeSequence_ensures (hprog : prog.Coherent) (hs : s.Valid prog) (hloose : s.Loose prog f (v, span)) :
    Ensures (placeSequence prog f v span) s fun _ t ↦ s.Serves prog t := by
  obtain ⟨hstarts, hextends, inst, hv, rfl, hret⟩ := hloose
  refine .bind_lift fun inst? hinst ↦ ?_
  cases inst? with
  | none => exact .pure (.refl hs)
  | some inst' =>
    obtain rfl := Program.instruction_unique hv (Program.instruction?_eq_ok_iff.1 hinst)
    refine .seq fun block? _ h ↦ ?_
    obtain ⟨hblock, rfl⟩ := blockSpan?_eq_ok_iff.1 h
    have hrefl : s.Serves prog s := .refl hs
    have hplaced {t : Lowering} (ht : s.Serves prog t) :
        Ensures (setPlaced v span.first) t fun _ u ↦ s.Serves prog u := by
      intro _ u hu
      obtain rfl := setPlaced_eq_ok_iff.1 hu
      exact ht.step (.place v (ht.starts hstarts))
    split
    · refine .bind_lift fun _ _ _ t hwarn ↦ ?_
      exact hrefl.step (warn_eq_ok hwarn).step
    · rename_i block
      have hvalid := hs.block hblock
      refine .bind_lift fun fn hfn ↦ .bind_lift fun blk hblk ↦ .bind_get ?_
      rw [← Program.instsOf_of_block hfn hblk]
      split
      · rename_i next hnext
        refine .seq fun _ t ht ↦ ?_
        have hstep : s.Step prog t := by
          rw [← onGraph_eq_ok_iff.1 ht]
          exact .before (hs.starts_nextPlaced hnext) hstarts.accepts hextends.1
        have ht := hrefl.step hstep
        split
        · refine .seq fun _ u hu ↦ hplaced ?_
          obtain rfl := setBlockSpan_eq_ok_iff.1 hu
          refine ht.step (.block fun span' hspan ↦ ?_)
          obtain rfl := Option.some.inj hspan
          exact { ht.blockValid hvalid with first := ht.accepts hstarts.accepts }
        · exact hplaced ht
      · rename_i hnext
        refine .seq fun _ t ht ↦ .seq fun _ u hu ↦ hplaced ?_
        have hopen : s.At (fun _ n ↦ n.Open prog) block.last := by
          refine hvalid.closed.resolve_right ?_
          rintro ⟨w, ⟨inst, hw, hret', -⟩, hlast, hplaced⟩
          refine nextPlaced?_ne_none (hprog.placed hv) hlast (fun hvw ↦ ?_) hplaced hnext
          rw [hvw, hw] at hv
          obtain rfl := ValueKind.instruction.inj (Option.some.inj hv)
          exact hret hret'
        have hstep : s.Step prog t := by
          rw [← onGraph_eq_ok_iff.1 ht]
          exact .after ⟨hvalid.last, hopen⟩ hstarts.accepts hextends.1
        have ht := hrefl.step hstep
        obtain rfl := setBlockSpan_eq_ok_iff.1 hu
        refine ht.step (.block fun span' hspan ↦ ?_)
        obtain rfl := Option.some.inj hspan
        have hextends := ht.extending hextends
        exact ⟨(ht.blockValid hvalid).first, hextends.1, .inl hextends.2⟩
    · -- A block without nodes consists of the chain from now on.
      have hblocked {t : Lowering} (ht : s.Serves prog t) :
          Ensures (setBlockSpan inst.function inst.block (some span)) t fun _ u ↦ s.Serves prog u := by
        intro _ u hu
        obtain rfl := setBlockSpan_eq_ok_iff.1 hu
        refine ht.step (.block fun span' hspan ↦ ?_)
        obtain rfl := Option.some.inj hspan
        have hextends := ht.extending hextends
        exact ⟨(ht.starts hstarts).accepts, hextends.1, .inl hextends.2⟩
      refine .seq fun r? _ h ↦ ?_
      obtain ⟨hr, rfl⟩ := record?_eq_ok_iff.1 h
      split
      · rename_i r
        split
        · refine .seq fun _ t ht ↦ ?_
          have hstep : s.Step prog t := by
            rw [← onGraph_eq_ok_iff.1 ht]
            exact .after (hs.extends_formals hr) hstarts.accepts hextends.1
          exact (hblocked (hrefl.step hstep)).bind fun _ _ hu ↦ hplaced hu
        · exact (hblocked hrefl).bind fun _ _ hu ↦ hplaced hu
      · exact (hblocked hrefl).bind fun _ _ hu ↦ hplaced hu

end Lower

end PointsTo
