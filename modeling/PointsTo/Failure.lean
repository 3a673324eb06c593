/-!
# Why no answer is given

A program is *rejected* for one of the causes in `Rejection`; what was built before stays.  An id
that names nothing and a search that exceeds its budget end a computation altogether.
-/

namespace PointsTo

/-- Fatal properties of the analyzed program.  `value` is the rendering of the offending value. -/
inductive Rejection where
  | unsupportedConstant (opcode value : String)
  | unhandledInstruction (opcode value : String)
  | unhandledIntrinsic (name value : String)
  | missingOperand (value : String)
  | unhandledInitializer (global value : String)
  | missingEntry (name : String)
  | entryIsDeclaration (name : String)
  deriving DecidableEq, Inhabited

namespace Rejection

def message : Rejection → String
  | unsupportedConstant opcode value => s!"unsupported constant expression `{opcode}`: {value}"
  | unhandledInstruction opcode value => s!"unhandled pointer-typed instruction `{opcode}`: {value}"
  | unhandledIntrinsic name value => s!"unhandled intrinsic `{name}`: {value}"
  | missingOperand value => s!"did not find an operand: {value}"
  | unhandledInitializer global value => s!"unhandled initializer of global `{global}`: {value}"
  | missingEntry name => s!"entry function `{name}` not found in module"
  | entryIsDeclaration name => s!"entry function `{name}` has no body"

end Rejection

inductive Failure where
  | rejected (cause : Rejection)
  /-- An id that names no value, function, block or node was looked up. -/
  | dangling
  /-- The budget of a search was used up. -/
  | exhausted
  deriving DecidableEq, Inhabited

/-- A query that may meet an id that names nothing. -/
abbrev Query := Except Failure

/-- Looks up an id in the table that it indexes. -/
def lookup {α : Type} (table : List α) (id : Nat) : Query α :=
  match table[id]? with
  | some a => .ok a
  | none => .error .dangling

instance {σ : Type} : MonadLift Query (EStateM Failure σ) where
  monadLift
    | .ok a => pure a
    | .error e => throw e

end PointsTo
