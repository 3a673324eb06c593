import PointsTo.Lowering.Call

/-!
# The nodes of one instruction
-/

namespace PointsTo.Lower

variable (prog : Program) (ask : Provider)

/-- Lowers an instruction to a chain of nodes. -/
def lowerInstruction (v : ValueId) : Lower Span := do
  let inst ← instruction prog v
  note .trace fun _ ↦ return s!"building {← prog.describe v}"
  match inst.opcode with
  | .alloca ty => return .only (← lowerAlloc v (prog.layout.allocSize ty))
  | .store => return .only (← lowerStore prog ask v)
  | .load => return .only (← lowerLoad ask v (← nthOperand prog v 0))
  | .getElementPtr source => return .only (← lowerGep prog ask v source inst.operands.tail)
  | .extractValue _ => lowerExtract prog ask v
  | .select => return .only (← lowerSelect prog ask v)
  | .phi => return .only (← createFor v (·.create { kind := .phi }))
  | .cast .bitcast | .cast .zext | .cast .sext => return .only (← lowerCast prog ask v)
  | .cast .ptrToInt => return .only (← lowerPtrToInt prog ask v)
  | .cast .intToPtr => return .only (← lowerIntToPtr prog ask v)
  | .cast .trunc | .binary .and | .binary .or | .binary .xor
  | .binary .shl | .binary .lshr | .binary .ashr => return .only (← lowerUnknown v)
  | .binary .add => return .only (← lowerAdd prog ask v)
  | .binary _ => return .only (← lowerArithmetic prog ask v)
  | .ret => return .only (← lowerReturn prog ask v)
  | .call => lowerCall prog ask v
  | opcode => reject (.unhandledInstruction opcode.name (← prog.describe v))

/-- Whether a value is defined in a block that was never visited. -/
def isUnvisited (v : ValueId) : Lower Bool := do
  match ← prog.instruction? v with
  | none => return false
  | some inst => return !(← get).blocks.contains (inst.function, inst.block)

/-- Attaches the incoming values of a phi to its node. -/
def attachIncoming (v : ValueId) (phi : NodeId) : Lower Unit := do
  match ← prog.instruction? v with
  | none => pure ()
  | some inst =>
    inst.operands.forM fun incoming ↦ do
      if !(← isUnvisited prog incoming) then
        let op ← ask.operand incoming
        onGraph (·.addOperand phi op)

end PointsTo.Lower
