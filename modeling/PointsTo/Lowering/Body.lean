import PointsTo.Lowering.Deferred
import PointsTo.Lowering.Global
import PointsTo.Program.Blocks

/-!
# Function bodies

A function is lowered once, on the first request.  Its record exists before its body does, so that
recursive calls find it.  Blocks are visited in breadth-first order; the operands of phis are
attached, values lowered on request placed, and blocks linked when all blocks are visited.
-/

namespace PointsTo

/-- Finds the nodes at which control arrives from a block, looking through blocks without nodes.
`first?` is the first node of a block, `pending` the blocks still to look at, `found` those looked
at. -/
def bridge (succs : BlockId → List BlockId) (first? : BlockId → Option NodeId) :
    (budget : Nat) → (pending : List BlockId) → (found : OrderedSet BlockId) → List NodeId
  | 0, _, _ => []
  | _ + 1, [], _ => []
  | budget + 1, b :: pending, found =>
    if found.contains b then bridge succs first? budget pending found
    else
      match first? b with
      | some id => id :: bridge succs first? budget pending (found.insert b)
      | none => bridge succs first? budget (succs b ++ pending) (found.insert b)

/-- The number of control edges between the blocks of a function. -/
def Function.edgeCount (f : Function) : Nat := f.blocks.foldl (fun count b ↦ count + b.succs.length) 0

namespace Lower

variable (prog : Program) (ask : Provider)

/-- One phi per formal that is a pointer, in order, and one for what is passed beyond the
parameters. -/
def lowerFormals (f : Function) : Lower (Option Span × Option NodeId) := do
  let chain ← f.params.foldlM (fun chain param ↦ do
    if ← prog.isPointer param then append chain (← createFor param (·.create { kind := .phi }))
    else return chain) none
  if f.variadic then
    let variadic ← create (·.create { kind := .phi })
    return (← append chain variadic, some variadic)
  return (chain, none)

/-- The nodes of an instruction in its block, if it gets any there. -/
def lowerInBlock (v : ValueId) : Lower (Option Span) := do
  if ← isRelevant prog v then return some (← lowerInstruction prog ask v)
  if ← isMemset prog v then return ← lowerMemset prog ask v
  return none

def lowerBlock (f : FuncId) (b : BlockId) : Lower (Option Span) := do
  let block ← (← prog.function f).block b
  let nodes ← block.insts.foldlM (fun nodes v ↦ do
    match ← lowerInBlock prog ask v with
    | none => return nodes
    | some span =>
      setPlaced v span.first
      match nodes with
      | none => return some span
      | some (chain : Span) =>
        onGraph (·.addSuccessor chain.last span.first)
        return some ⟨chain.first, span.last⟩) none
  setBlockSpan f b nodes
  return nodes

/-- Visits the blocks.  An entry block without nodes is represented by the argument chain, or by the
entry node. -/
def lowerBlocks (f : FuncId) (entry : NodeId) (formals : Option Span) : List BlockId → Lower Unit
  | [] => pure ()
  | first :: rest => do
    match ← lowerBlock prog ask f first with
    | some span => onGraph (·.addSuccessor ((formals.map (·.last)).getD entry) span.first)
    | none => setBlockSpan f first (some (formals.getD (.only entry)))
    rest.forM fun b ↦ do
      let _ ← lowerBlock prog ask f b

/-- Attaches the incoming values of every phi of the function that has a node. -/
def attachPhis (f : FuncId) : Lower Unit := do
  (← prog.function f).blocks.zipIdx.forM fun (block, b) ↦ do
    if (← get).blocks.contains (f, b) then
      block.insts.forM fun v ↦ do
        match ← prog.instruction? v with
        | none => pure ()
        | some inst =>
          if inst.isPhi then
            match ← nodeOf? v with
            | some phi => attachIncoming prog ask v phi
            | none => pure ()
  alterRecord f fun r ↦ { r with phisAttached := true }

/-- Adds the control edges between blocks. -/
def linkBlocks (f : FuncId) : Lower Unit := do
  let function ← prog.function f
  let blocks := (← get).blocks
  let first? := fun b ↦ ((blocks.get? (f, b)).join).map (·.first)
  (List.range function.blocks.length).forM fun b ↦
    match (blocks.get? (f, b)).join with
    | none => pure ()
    | some span =>
      (bridge function.successors first? (2 * function.edgeCount + 1) (function.successors b) ∅).forM
        fun id ↦ onGraph (·.addSuccessor span.last id)

/-- Leads the returns to the exit and hands them to the call sites that wait for them. -/
def complete (f : FuncId) : Lower Unit := do
  match ← record? f with
  | none => pure ()
  | some r =>
    alterRecord f fun r ↦ { r with complete := true, awaiting := [] }
    r.returns.forM fun id ↦ onGraph (·.addSuccessor id r.exit)
    r.awaiting.forM fun site ↦ onGraph (·.addOperands site r.returns)

/-- The entry node of a function, lowered on the first request. -/
def lowerFunction (f : FuncId) : Lower NodeId := do
  -- The globals come before every function, so they are there already if `f` has a record.
  let _ ← globalChain prog ask
  match ← record? f with
  | some r => return r.entry
  | none =>
    let function ← prog.function f
    note .debug fun _ ↦ return s!"building subgraph of @{function.name}"
    let entry ← create (·.create { kind := .entry })
    let exit ← create (·.create { kind := .noop })
    let (formals, variadic) ← lowerFormals prog function
    modify fun s ↦
      { s with
        records := s.records.insert f { entry, exit, formals, variadic }
        callGraph := s.callGraph.addFunction f }
    match formals with
    | some span => onGraph (·.addSuccessor entry span.first)
    | none => pure ()
    lowerBlocks prog ask f entry formals (← function.reachableBlocks)
    attachPhis prog ask f
    placeAll prog ask f
    linkBlocks prog f
    complete f
    return entry

end Lower

end PointsTo
