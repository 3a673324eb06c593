import PointsTo.Lowering.Placement
import PointsTo.Lowering.Sequence

/-!
# Values lowered on request

Values without pointers that are still needed as operands, such as integers that carry addresses and
formals that are no pointers, are lowered when they are first asked for.
-/

namespace PointsTo.Lower

variable (prog : Program) (ask : Provider)

/-- Lowers an instruction on request, and its uses too if `followUses`. -/
def lowerDeferred (v : ValueId) (followUses : Bool) : Lower NodeId := do
  let inst ← instruction prog v
  let span ← lowerInstruction prog ask v
  note .trace fun _ ↦ return s!"lazily built {← prog.describe v}"
  updateRecord prog inst.function v fun r ↦ { r with unplaced := r.unplaced ++ [(v, span)] }
  setNodeOf v span.last
  let r ← record prog inst.function v
  if r.phisAttached && inst.isPhi then attachIncoming prog ask v span.last
  if followUses then ask.uses v
  returnSite span.last

/-- Lowers a formal that is no pointer. -/
def lowerFormal (v : ValueId) : Lower NodeId := do
  match (← prog.value v).kind with
  | .argument f _ =>
    let id ← create (·.create { kind := .phi })
    assign v id
    updateRecord prog f v fun r ↦ { r with unplacedFormals := r.unplacedFormals ++ [id] }
    let text ← prog.describe v
    warn (.irrelevantArgument s!"{text} of @{(← prog.function f).name}")
    return id
  | _ => missing prog v

/-- The node of a value, lowered if need be. -/
def operand (v : ValueId) : Lower NodeId := do
  match ← availableOperand? prog ask v with
  | some id => return id
  | none =>
    match (← prog.value v).kind with
    | .instruction _ => if ← isRelevant prog v then missing prog v else lowerDeferred prog ask v false
    | .argument .. => lowerFormal prog v
    | _ => missing prog v

/-- Places all that was lowered on request for a function so far. -/
def placeAll (f : FuncId) : Lower Unit := do
  match ← record? f with
  | none => pure ()
  | some r =>
    alterRecord f fun r ↦ { r with addresses := [] }
    r.addresses.forM ask.uses
  match ← record? f with
  | none => pure ()
  | some r =>
    alterRecord f fun r ↦ { r with unplacedFormals := [], unplaced := [] }
    r.unplacedFormals.forM (placeFormal f)
    r.unplaced.forM fun (v, span) ↦ placeSequence prog f v span

/-- Binds `v`, an argument of `call`, to the formal that it is passed to. -/
def bindFormal (call v : ValueId) : Lower Unit := do
  match ← prog.calledFunction? call with
  | none => pure ()
  | some f =>
    let callee ← prog.function f
    if callee.isDeclaration then return
    let arguments ← prog.callArguments call
    match (arguments.findIdx? (· == v)).bind (callee.params[·]?) with
    | none => pure ()
    | some param =>
      let _ ← ask.entry f
      let formal ←
        match ← nodeOf? param with
        | some formal => pure formal
        | none => lowerFormal prog param
      let op ← ask.operand v
      onGraph (·.addOperand formal op)
      ask.uses param
      match ← record? f with
      | some r => if r.complete then placeAll prog ask f
      | none => pure ()

/-- Lowers one use of `v`, and follows it through stores into memory and through calls into
callees. -/
def lowerUse (v user : ValueId) : Lower Unit := do
  if (← get).nodes.contains user then return
  match ← prog.instruction? user with
  | none => pure ()
  | some inst =>
    if !inst.opcode.isLowerable || !(← get).records.contains inst.function then return
    if !(← isRelevant prog user) then
      let _ ← lowerDeferred prog ask user true
      if inst.isStore then
        match inst.operand? 1 with
        | some pointer => ask.uses pointer
        | none => pure ()
    if inst.isCall then bindFormal prog ask user v

/-- Lowers the uses of a value that have no nodes yet, the last one first. -/
def lowerUses (v : ValueId) : Lower Unit := (prog.users v).reverse.forM (lowerUse prog ask v)

end PointsTo.Lower
