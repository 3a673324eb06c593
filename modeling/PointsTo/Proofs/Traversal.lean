import PointsTo.Proofs.Failures
import PointsTo.Proofs.Functions
import PointsTo.Proofs.Regularity

/-!
# The way through a function

The blocks of a function are visited one after the other, and in each block its instructions.  Visiting
them fails only where an instruction does, so what is known of the failures of every instruction in its
turn is known of the whole function.  The same holds for the phis that get their incoming values.
-/

namespace PointsTo

/-- Control stays in the function. -/
theorem Program.Orderly.lt_of_visited {prog : Program} {f : FuncId} {fn : Function} {b : BlockId}
    {blocks : List BlockId}
    (h : prog.Orderly) (hfn : prog.functions[f]? = some fn) (hblocks : fn.reachableBlocks = .ok blocks)
    (hb : b ∈ blocks) : b < fn.blocks.length := by
  obtain ⟨before, after, hsplit⟩ := List.append_of_mem hb
  obtain ⟨past, harrives, -⟩ := Function.arrives_of_visited hblocks hsplit
  cases harrives with
  | entry =>
    have hdef := Function.defined_of_reachable hblocks hb
    cases hlist : fn.blocks with
    | nil => simp [Function.isDeclaration, hlist] at hdef
    | cons => simp
  | next _ hsucc => exact h.flows (List.mem_of_getElem? hfn) hsucc

namespace Lower

open Stateful

variable {prog : Program} {ask : Provider} {s t : Lowering} {f : FuncId} {r : FunctionRecord} {fn : Function}
  {blocks : List BlockId} {E : Failure → Lowering → Prop}

section

variable (hprog : prog.Coherent) (hord : prog.Orderly) (hask : ask.Sound prog) (hbare : s.Bare prog f r)
  (hfn : prog.functions[f]? = some fn) (hblocks : fn.reachableBlocks = .ok blocks)
  (hinst : ∀ {v inst b before after front back t}, blocks = before ++ b :: after →
    prog.instsOf f b = front ++ v :: back → prog.kindAt v = some (.instruction inst) → inst.function = f →
      s.Underway prog (fun v ↦ (∃ c ∈ before, v ∈ prog.instsOf f c) ∨ v ∈ front) t →
      Throws (lowerInBlock prog ask v) t E)

include hprog hask hbare hblocks hinst

/-- The instructions of a block, each after those that come before it. -/
theorem lowerInsts_throws {b : BlockId} {before after : List BlockId} (hsplit : blocks = before ++ b :: after)
    (rest front : List ValueId) (hinsts : prog.instsOf f b = front ++ rest) {chain : Option Span}
    (hst : s.Underway prog (fun v ↦ (∃ c ∈ before, v ∈ prog.instsOf f c) ∨ v ∈ front) t)
    (hchain : ∀ span, chain = some span → t.ChainValid prog (prog.instsOf f b) span) :
    Throws (rest.foldlM (fun nodes v ↦ do
      match ← lowerInBlock prog ask v with
      | none => return nodes
      | some span =>
        setPlaced v span.first
        match nodes with
        | none => return some span
        | some (chain : Span) =>
          onGraph (·.addSuccessor chain.last span.first)
          return some ⟨chain.first, span.last⟩) chain) t E := by
  induction rest generalizing t front chain with
  | nil => exact .pure
  | cons v rest ih =>
    have hmem : v ∈ prog.instsOf f b := by simp [hinsts]
    obtain ⟨inst, hv, hf, -⟩ := hprog.inst hmem
    have hdone : ¬((∃ c ∈ before, v ∈ prog.instsOf f c) ∨ v ∈ front) := by
      rintro (⟨c, hc, hvc⟩ | hfront)
      · have hnodup := Function.nodup_reachableBlocks hblocks
        rw [hsplit, List.nodup_append] at hnodup
        exact hnodup.2.2 c hc b (by simp) (hprog.block_unique hvc hmem).2
      · have hnodup := hprog.nodup f b
        rw [hinsts, List.nodup_append] at hnodup
        exact hnodup.2.2 v hfront v (by simp) rfl
    refine .bind ((hinst hsplit hinsts hv hf hst).bind fun span? _ _ ↦ ?_) fun chain' u hu ↦ ?_
    · cases span? with
      | none => exact .pure
      | some span =>
        refine .bind .modify fun _ _ _ ↦ ?_
        cases chain with
        | none => exact .pure
        | some chain => exact .bind .modify fun _ _ _ ↦ .pure
    · obtain ⟨hunderway, -, hchain'⟩ := lowerNext_ensures hprog hask hbare hst hv hf hdone hmem hchain _ _ hu
      exact ih (front ++ [v]) (by simp [hinsts]) (hunderway.congr fun w ↦ by simp [or_assoc]) hchain'

include hord hfn

theorem lowerBlock_throws {b : BlockId} {before after : List BlockId} (hsplit : blocks = before ++ b :: after)
    (hst : s.Underway prog (fun v ↦ ∃ c ∈ before, v ∈ prog.instsOf f c) t) : Throws (lowerBlock prog ask f b) t E := by
  have hlt := hord.lt_of_visited hfn hblocks (b := b) (by simp [hsplit])
  refine .bind_lift (fun e he ↦ ?_) fun fn' hlookup ↦ .bind_lift (fun e he ↦ ?_) fun block hblock ↦ ?_
  · simp [Program.function, Query.lookup_eq_ok_iff.2 hfn] at he
  · obtain rfl := Option.mem_unique hfn (Query.lookup_eq_ok_iff.1 hlookup)
    have hfound : fn.block b = .ok fn.blocks[b] := Query.lookup_eq_ok_iff.2 (List.getElem?_eq_getElem hlt)
    simp [hfound] at he
  · have hinsts := Program.instsOf_of_block hlookup hblock
    refine (lowerInsts_throws hprog hask hbare hblocks hinst hsplit block.insts [] hinsts (hst.congr (by simp))
      (by simp)).bind fun _ _ _ ↦ .bind .modify fun _ _ _ ↦ .pure

/-- Blocks are visited after all those through which control can arrive. -/
theorem lowerRest_throws (rest before : List BlockId) (hsplit : blocks = before ++ rest)
    (hst : s.Underway prog (fun v ↦ ∃ c ∈ before, v ∈ prog.instsOf f c) t) :
    Throws (rest.forM fun b ↦ do let _ ← lowerBlock prog ask f b) t E := by
  induction rest generalizing t before with
  | nil => exact .pure
  | cons b rest ih =>
    have hthrows := lowerBlock_throws hprog hord hask hbare hfn hblocks hinst hsplit hst
    refine .bind (hthrows.bind fun _ _ _ ↦ .pure) fun _ u hu ↦ ?_
    obtain ⟨_, _, hblock, hpure⟩ := bind_eq_ok_iff.1 hu
    obtain ⟨-, rfl⟩ := pure_eq_ok_iff.1 hpure
    have hdone : ∀ v ∈ prog.instsOf f b, ¬∃ c ∈ before, v ∈ prog.instsOf f c := by
      rintro v hv ⟨c, hc, hvc⟩
      have hnodup := Function.nodup_reachableBlocks hblocks
      rw [hsplit, List.nodup_append] at hnodup
      exact hnodup.2.2 c hc b (by simp) (hprog.block_unique hvc hv).2
    obtain ⟨hunderway, -⟩ := lowerBlock_ensures hprog hask hbare hdone hst _ _ hblock
    exact ih (before ++ [b]) (by simp [hsplit]) (hunderway.congr fun v ↦ by simp [or_and_right, exists_or])

/-- If each instruction fails as it should in its turn, so do all blocks together. -/
theorem lowerBlocks_throws (hst : s.Underway prog (fun _ ↦ False) t) :
    Throws (lowerBlocks prog ask f r.entry r.formals blocks) t E := by
  cases hlist : blocks with
  | nil => exact .pure
  | cons first rest =>
    have hthrows := lowerBlock_throws hprog hord hask hbare hfn hblocks hinst
      (show blocks = [] ++ first :: rest from hlist) (hst.congr (by simp))
    refine hthrows.bind fun span? u hu ↦ ?_
    obtain ⟨hunderway, -, -, haccepts⟩ := lowerBlock_ensures hprog hask hbare (by simp) hst _ _ hu
    have hrest {w : Lowering} (hw : u.Serves prog w) :
        Throws (rest.forM fun b ↦ do let _ ← lowerBlock prog ask f b) w E := by
      refine lowerRest_throws hprog hord hask hbare hfn hblocks hinst rest [first] hlist ?_
      exact (hunderway.serves hw).congr (by simp)
    cases span? with
    | some span =>
      refine .bind .modify fun _ w hw ↦ hrest ?_
      obtain rfl := onGraph_eq_ok_iff.1 hw
      exact hbare.leads hunderway.toEvolves (haccepts span rfl)
    | none =>
      refine .bind .modify fun _ w hw ↦ hrest ?_
      obtain rfl := setBlockSpan_eq_ok_iff.1 hw
      exact hbare.represents hunderway.toEvolves first

end

/-- If each phi that has a node fails as it should, so do all phis together. -/
theorem attachPhis_throws (hprog : prog.Coherent) (hask : ask.Sound prog) (hs : s.Valid prog)
    (hf : s.records.get? f ≠ none) (hfn : prog.functions[f]? = some fn)
    (hphis : ∀ {v inst phi t}, prog.kindAt v = some (.instruction inst) → inst.function = f → s.Serves prog t →
      t.At (fun _ n ↦ n.kind = .phi) phi → Throws (attachIncoming prog ask v phi) t E) :
    Throws (attachPhis prog ask f) s E := by
  have hinst {x : Block × Nat} (hx : x ∈ fn.blocks.zipIdx) {v : ValueId} (hv : v ∈ x.1.insts) :
      ∃ inst, prog.kindAt v = some (.instruction inst) ∧ inst.function = f := by
    have hinsts : prog.instsOf f x.2 = x.1.insts := by
      simp [Program.instsOf, Function.instsAt, hfn, List.mem_zipIdx_iff_getElem?.1 hx]
    exact (hprog.inst (hinsts ▸ hv)).imp fun _ h ↦ ⟨h.1, h.2.1⟩
  refine .bind_lift (fun e he ↦ ?_) fun fn' hlookup ↦ ?_
  · simp [Program.function, Query.lookup_eq_ok_iff.2 hfn] at he
  · obtain rfl := Option.mem_unique hfn (Query.lookup_eq_ok_iff.1 hlookup)
    refine .bind (.forM (fun t ↦ s.Serves prog t) (fun x hx t ht ↦ .bind_get ?_) (fun x hx t ht ↦
      .bind_get ?_) (.refl hs)) fun _ _ _ ↦ .modify
    · split
      · refine .forM (fun u ↦ s.Serves prog u) (fun v hv u hu ↦ ?_) (fun v hv u hu ↦ ?_) ht
        all_goals obtain ⟨inst, hkind, rfl⟩ := hinst hx hv
        · refine .bind_lift (fun e he ↦ ?_) fun inst? hinst ↦ ?_
          · simp [Program.instruction?_eq_ok_iff.2 hkind] at he
          obtain rfl := Except.ok.inj ((Program.instruction?_eq_ok_iff.2 hkind).symm.trans hinst)
          dsimp only
          split
          · rename_i hphi
            refine .bind (.bind .get fun _ _ _ ↦ .pure) fun phi? _ hnodeOf ↦ ?_
            obtain ⟨hnode, rfl⟩ := nodeOf?_eq_ok_iff.1 hnodeOf
            cases phi? with
            | none => exact .pure
            | some phi => exact hphis hkind rfl hu (isPhi_of_nodes hu.valid hkind hphi hnode)
          · exact .pure
        · exact (attachPhi_ensures hask hu hkind hf).mono fun _ _ hw ↦ hu.trans hw.1
      · exact .pure
    · split
      · refine .forM (fun u ↦ s.Serves prog u) (fun v hv u hu ↦ ?_) ht
        obtain ⟨inst, hkind, rfl⟩ := hinst hx hv
        exact (attachPhi_ensures hask hu hkind hf).mono fun _ _ hw ↦ hu.trans hw.1
      · exact .pure ht

end Lower

end PointsTo
