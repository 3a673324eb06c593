import PointsTo.Lowering.State

/-!
# Constants as operands

Null and zero are the null target, other integers and undefined values are unknown memory, and a
constant expression over addresses is folded to a single pointer.
-/

namespace PointsTo.Lower

variable (prog : Program) (ask : Provider)

/-- A signed amount of bytes; negative amounts are not tracked. -/
def signedOffset (amount : Int) : Offset := if 0 ≤ amount then .ofNat amount.toNat else .unknown

/-- The constant offset of an element address, unknown if it is not constant or does not fit a
pointer. -/
def elementOffset (v : ValueId) (source : Ty) (indices : List ValueId) : Lower Offset := do
  match ← prog.constantOffset? source indices with
  | none => return .unknown
  | some offset =>
    if prog.layout.fitsPointer offset then return .ofNat offset.toNat
    if 0 < offset then
      warn (.offsetOverflow prog.layout.pointerBits (← prog.describe v))
    return .unknown

/-- The one pointer of a constant operand, unknown if it has none or several. -/
def constantPointer (v : ValueId) : Lower Pointer := do
  let id ← ask.operand v
  match (← node id).pointsTo.toList with
  | [p] => return p
  | _ => return .unknown

def constantOperand (v : ValueId) (operands : List ValueId) (index : Nat) : Lower ValueId :=
  match operands[index]? with
  | some op => return op
  | none => missing prog v

/-- The pointer that a constant expression denotes. -/
def foldConstant (v : ValueId) (opcode : Opcode) (operands : List ValueId) : Lower Pointer := do
  match opcode with
  | .getElementPtr source =>
    let base ← constantOperand prog v operands 0
    let p ← constantPointer ask base
    return p.shift (← elementOffset prog v source operands.tail)
  | .cast .bitcast | .cast .zext | .cast .sext | .cast .ptrToInt =>
    constantPointer ask (← constantOperand prog v operands 0)
  | .cast .intToPtr =>
    let source ← constantOperand prog v operands 0
    if (← prog.intConstant? source).isSome then
      warn (.intToPtrConstant (← prog.describe v))
      return .unknown
    constantPointer ask source
  | .binary .add =>
    let lhs ← constantOperand prog v operands 0
    let rhs ← constantOperand prog v operands 1
    match ← prog.signedConstant? lhs with
    | some amount => return (← constantPointer ask rhs).shift (signedOffset amount)
    | none =>
      match ← prog.signedConstant? rhs with
      | some amount => return (← constantPointer ask lhs).shift (signedOffset amount)
      | none => return (← constantPointer ask lhs).shift .unknown
  | .binary .sub | .binary .mul | .binary .sdiv =>
    let lhs ← constantOperand prog v operands 0
    let rhs ← constantOperand prog v operands 1
    let source := if (← prog.intConstant? lhs).isSome then rhs else lhs
    return (← constantPointer ask source).shift .unknown
  | .cast .trunc | .binary .and | .binary .or | .binary .xor
  | .binary .shl | .binary .lshr | .binary .ashr => return .unknown
  | opcode => reject (.unsupportedConstant opcode.name (← prog.describe v))

/-- The node of a constant operand, none if the value is no constant. -/
def constantNode? (v : ValueId) : Lower (Option NodeId) := do
  match (← prog.value v).kind with
  | .constant .null | .constant .zero => return some nullTarget
  | .constant (.int n) => return some (if n = 0 then nullTarget else unknownTarget)
  | .constant .undef | .asm => return some unknownTarget
  | .constant (.expr opcode operands) =>
    let p ← foldConstant prog ask v opcode operands
    let id ← create (·.createConstant p)
    assign v id
    return some id
  | .function _ =>
    let id ← create (·.createFunction)
    assign v id
    return some id
  | _ => return none

/-- The node of a value that is lowered already or constant. -/
def availableOperand? (v : ValueId) : Lower (Option NodeId) := do
  match ← nodeOf? v with
  | some id => return some (← returnSite id)
  | none =>
    match ← constantNode? prog ask v with
    | some id => return some (← returnSite id)
    | none => return none

/-- The node of the first of two values that is available. -/
def eitherOperand? (lhs rhs : ValueId) : Lower (Option NodeId) := do
  match ← availableOperand? prog ask lhs with
  | some id => return some id
  | none => availableOperand? prog ask rhs

end PointsTo.Lower
