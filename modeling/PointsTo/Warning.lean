import PointsTo.Journal

/-!
# Warnings

A warning says where the analysis went on with an unknown approximation.  Each distinct warning is
recorded, and journaled, once.
-/

namespace PointsTo

inductive Warning where
  | inlineAssembly
  | nonZeroMemset (inst : String)
  | intToPtrConstant (inst : String)
  | offsetOverflow (bits : Nat) (inst : String)
  | stackSave (inst : String)
  | irrelevantArgument (arg : String)
  | unresolvedVarArg (inst : String)
  | uninitializedGlobal (global : String)
  | unplacedValue (inst : String)
  | storeToUnknown (node : String)
  deriving DecidableEq, Inhabited

def Warning.message : Warning → String
  | inlineAssembly => "inline assembly found, analysis may be unsound"
  | nonZeroMemset inst =>
    s!"memset with a non-zero value, memory assumed to hold unknown pointers: {inst}"
  | intToPtrConstant inst => s!"inttoptr of a constant, pointer assumed unknown: {inst}"
  | offsetOverflow bits inst =>
    s!"offset does not fit {bits}-bit pointer, using unknown offset: {inst}"
  | stackSave inst => s!"saving the stack may yield unsound results: {inst}"
  | irrelevantArgument arg => s!"built a non-pointer formal argument: {arg}"
  | unresolvedVarArg inst => s!"cannot resolve the vararg memory of va_start: {inst}"
  | uninitializedGlobal global =>
    s!"global `{global}` has no known initializer, assumed to hold unknown pointers"
  | unplacedValue inst => s!"cannot place lazily built value into its block: {inst}"
  | storeToUnknown node => s!"store through an unknown pointer is ignored: {node}"

/-- Distinct warnings in the order in which they were first given. -/
structure Warnings where
  toList : List Warning := []
  deriving Inhabited

namespace Warnings

def isEmpty (ws : Warnings) : Bool := ws.toList.isEmpty

/-- Records a warning; the answer is false if it was recorded before. -/
def record (ws : Warnings) (w : Warning) : Bool × Warnings :=
  if ws.toList.contains w then (false, ws) else (true, ⟨ws.toList ++ [w]⟩)

/-- Records a warning and journals it if it is new. -/
def report (ws : Warnings) (j : Journal) (w : Warning) : Bool × Warnings × Journal :=
  match ws.record w with
  | (true, ws) => (true, ws, j.note .warn fun _ ↦ s!"PTA: {w.message}")
  | (false, ws) => (false, ws, j)

end Warnings

end PointsTo
