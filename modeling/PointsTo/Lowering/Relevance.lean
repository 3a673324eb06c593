import PointsTo.Lowering.State
import PointsTo.Program.KnownFunction

/-!
# Which instructions matter

An instruction is relevant if it may create, move or return pointers; relevant instructions get their
nodes when their block is lowered.  A call of a defined function is relevant if a pointer is passed
or returned, or if some function reachable from the callee by direct calls touches pointers.
-/

namespace PointsTo

namespace Program

variable (prog : Program)

/-- Whether a call of a declaration may create or return pointers. -/
def isRelevantDeclaration (f : FuncId) (call : ValueId) : Query Bool := do
  let callee ← prog.function f
  if (Allocator.ofName? callee.name).isSome then return true
  if callee.isIntrinsic then
    match Intrinsic.ofName? callee.name with
    | some intrinsic => return intrinsic.isRelevant
    | none => return false
  prog.isPointer call

/-- What one instruction says about its function: it touches pointers, it depends on a callee, or
nothing. -/
inductive Touch where
  | pointers
  | callee (f : FuncId)
  | nothing
  deriving DecidableEq, Inhabited

def touchOf (v : ValueId) : Query Touch := do
  match ← prog.instruction? v with
  | none => return .nothing
  | some inst =>
    if ← prog.isPointer v then return .pointers
    if !inst.isCall then
      return if ← inst.operands.anyM prog.isPointer then .pointers else .nothing
    if ← prog.isAsmCall v then return .pointers
    if ← inst.arguments.anyM prog.isPointer then return .pointers
    match ← prog.calledFunction? v with
    | none => return .pointers
    | some f =>
      if (← prog.function f).isDeclaration then
        return if ← prog.isRelevantDeclaration f v then .pointers else .nothing
      return .callee f

/-- The defined callees of the instructions, or nothing if one of them touches pointers. -/
def calleesOf : List ValueId → Query (Option (List FuncId))
  | [] => return some []
  | v :: rest => do
    match ← prog.touchOf v with
    | .pointers => return none
    | .callee f => return (← calleesOf rest).map (f :: ·)
    | .nothing => calleesOf rest

/-- The defined functions that `f` calls directly, or nothing if `f` itself touches pointers. -/
def localCallees (f : FuncId) : Query (Option (List FuncId)) := do
  let function ← prog.function f
  if function.returnTy.isPointer then return none
  if ← function.params.anyM prog.isPointer then return none
  prog.calleesOf (function.blocks.flatMap (·.insts))

/-- Searches the functions on the stack and their callees for one that touches pointers. -/
def searchPointers (known : OrderedMap FuncId Bool) :
    (budget : Nat) → (stack : List FuncId) → (visited : OrderedSet FuncId) → Query Bool
  | 0, _, _ => .error .exhausted
  | _ + 1, [], _ => return false
  | budget + 1, f :: stack, visited => do
    if visited.contains f then searchPointers known budget stack visited
    else if known.get? f = some true then return true
    else
      match ← prog.localCallees f with
      | none => return true
      | some callees => searchPointers known budget (callees.reverse ++ stack) (visited.insert f)

/-- Whether a call has a pointer among its arguments. -/
def passesPointer (call : ValueId) : Query Bool := do
  (← prog.callArguments call).anyM prog.isPointer

def instructionCount : Nat :=
  prog.functions.foldl (fun count f ↦ f.blocks.foldl (fun count b ↦ count + b.insts.length) count) 0

end Program

namespace Lower

variable (prog : Program)

/-- Whether a function, or one that it reaches by direct calls, touches pointers.  The answer is
remembered. -/
def touchesPointers (f : FuncId) : Lower Bool := do
  let known := (← get).relevance
  match known.get? f with
  | some relevant => return relevant
  | none =>
    let relevant ← prog.searchPointers known (prog.instructionCount + 2) [f] ∅
    modify fun s ↦ { s with relevance := s.relevance.insert f relevant }
    return relevant

def isRelevantCall (call : ValueId) : Lower Bool := do
  if ← prog.isAsmCall call then return true
  match ← prog.calledFunction? call with
  | none => return true
  | some f =>
    if (← prog.function f).isDeclaration then return ← prog.isRelevantDeclaration f call
    if ← prog.isPointer call then return true
    if ← prog.passesPointer call then return true
    touchesPointers prog f

/-- Whether an instruction gets its nodes when its block is lowered.  A pointer from an instruction
that is not understood rejects the program. -/
def isRelevant (v : ValueId) : Lower Bool := do
  match ← prog.instruction? v with
  | none => return false
  | some inst =>
    match inst.opcode with
    | .store =>
      match inst.operand? 0 with
      | some stored => prog.isPointer stored
      | none => return false
    | .extractValue _ | .load | .select | .phi => prog.isPointer v
    | .call => isRelevantCall prog v
    | .alloca _ | .getElementPtr _ | .ret => return true
    | .cast .bitcast | .cast .ptrToInt | .cast .intToPtr => return true
    | opcode =>
      if ← prog.isPointer v then reject (.unhandledInstruction opcode.name (← prog.describe v))
      return false

end Lower

/-- Whether lowering knows what to do with the opcode. -/
def Opcode.isLowerable : Opcode → Bool
  | .icmp | .br | .unreachable | .other _ => false
  | _ => true

end PointsTo
