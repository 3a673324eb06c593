import PointsTo.Lowering.State

/-!
# Placing lazily lowered values

What was lowered on request is put into control flow afterwards: formals at the end of the argument
chain, instructions before the next placed instruction of their block.
-/

namespace PointsTo.Lower

variable (prog : Program)

/-- Appends a formal to the argument chain. -/
def placeFormal (f : FuncId) (id : NodeId) : Lower Unit := do
  match ← record? f with
  | none => pure ()
  | some r =>
    let (first, after) :=
      match r.formals with
      | some span => (span.first, span.last)
      | none => (id, r.entry)
    alterRecord f fun r ↦ { r with formals := some ⟨first, id⟩ }
    onGraph (·.insertAfter after id)
    -- An entry block without nodes is represented by the argument chain.
    match ← blockSpan? f 0 with
    | some (some span) => if span.last = after then setBlockSpan f 0 (some ⟨span.first, id⟩)
    | _ => pure ()

/-- The first node of the first placed instruction behind `v`. -/
def nextPlaced? (placed : OrderedMap ValueId NodeId) (insts : List ValueId) (v : ValueId) :
    Option NodeId :=
  (insts.dropWhile (· != v)).tail.findSome? placed.get?

/-- Puts the chain of an instruction into its block, before the next placed instruction or at the
end. -/
def placeSequence (f : FuncId) (v : ValueId) (span : Span) : Lower Unit := do
  match ← prog.instruction? v with
  | none => pure ()
  | some inst =>
    match ← blockSpan? f inst.block with
    | none => warn (.unplacedValue (← prog.describe v))
    | some (some block) =>
      let insts := (← (← prog.function f).block inst.block).insts
      match nextPlaced? (← get).placed insts v with
      | some next =>
        onGraph (·.spliceBefore next span.first span.last)
        if next = block.first then setBlockSpan f inst.block (some ⟨span.first, block.last⟩)
      | none =>
        onGraph (·.spliceAfter block.last span.first span.last)
        setBlockSpan f inst.block (some ⟨block.first, span.last⟩)
      setPlaced v span.first
    | some none =>
      match ← record? f with
      | some r =>
        if r.complete then
          -- The blocks are linked already: the chain goes onto the way from the entry.
          let after := (r.formals.map (·.last)).getD r.entry
          onGraph (·.spliceAfter after span.first span.last)
      | none => pure ()
      setBlockSpan f inst.block (some span)
      setPlaced v span.first

end PointsTo.Lower
