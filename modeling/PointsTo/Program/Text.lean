import PointsTo.Program

/-!
# Values as text

The one-line renderings of values that warnings, rejections and the journal show.
-/

namespace PointsTo

def ValueId.render (v : ValueId) : String := s!"v{v}"

namespace Program

variable (prog : Program)

/-- How a value is written as an operand. -/
def operandText (v : ValueId) : Query String := do
  let value ← prog.value v
  match value.kind with
  | .function f => return "@" ++ (← prog.function f).name
  | .global g => return "@" ++ (← prog.global g).name
  | .constant (.int n) => return toString n
  | .constant .null => return "null"
  | .constant .undef => return "undef"
  | .constant .zero => return "zeroinitializer"
  | .constant _ => return s!"const.{v}"
  | .asm => return "asm"
  | _ =>
    match value.name with
    | some name => return "%" ++ name
    | none => return s!"%{v}"

def operationText (opcode : Opcode) (operands : List ValueId) : Query String := do
  let texts ← operands.mapM prog.operandText
  return opcode.name ++ " " ++ ", ".intercalate texts

/-- A value with its operation, as far as it has one. -/
def describe (v : ValueId) : Query String := do
  match (← prog.value v).kind with
  | .instruction inst =>
    let text ← prog.operationText inst.opcode inst.operands
    let name ← prog.operandText v
    return s!"{name} = {text} (in @{(← prog.function inst.function).name})"
  | .constant (.expr opcode operands) =>
    return "constexpr " ++ (← prog.operationText opcode operands)
  | _ => prog.operandText v

end Program

end PointsTo
