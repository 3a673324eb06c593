import PointsTo.Lowering.Body

/-!
# Lowering a program

`Lower.provider` answers the requests that lowering makes of itself, down to a given depth of nested
requests.  `Lower.build` lowers the globals and an entry function; `Lower.linkCall` joins a function
to a call through a function pointer once the solver has found it.
-/

namespace PointsTo

namespace Lower

variable (prog : Program)

/-- Requests nested at most `depth` deep. -/
def provider : (depth : Nat) → Provider
  | 0 =>
    { operand := fun _ ↦ throw .exhausted
      entry := fun _ ↦ throw .exhausted
      uses := fun _ ↦ throw .exhausted }
  | depth + 1 =>
    { operand := fun v ↦ operand prog (provider depth) v
      entry := fun f ↦ lowerFunction prog (provider depth) f
      uses := fun v ↦ lowerUses prog (provider depth) v }

/-- Nested requests repeat without progress before they exceed this depth: there are at most as many
different requests as the first factor says, and as many ways to make progress as the second. -/
def requestDepth : Nat :=
  let blocks := prog.functions.foldl (fun count f ↦ count + f.blocks.length) 0
  (2 * prog.values.length + prog.functions.length + 1) *
    (2 * prog.values.length + 6 * prog.functions.length + blocks + 2)

def ask : Provider := provider prog (requestDepth prog)

/-- Lowers the globals and then the function named `entry`.  The root is the first global, or the
entry node of the function if there are no globals. -/
def build (entry : String) : Lower NodeId := do
  match prog.functionNamed? entry with
  | none => reject (.missingEntry entry)
  | some f =>
    if (← prog.function f).isDeclaration then reject (.entryIsDeclaration entry)
    let globals ← globalChain prog (ask prog)
    let entryNode ← lowerFunction prog (ask prog) f
    let root ←
      match globals with
      | none => pure entryNode
      | some span =>
        onGraph (·.addSuccessor span.last entryNode)
        pure span.first
    onGraph (·.setRoot root)
    let s ← get
    note .debug fun _ ↦ return s!"built pointer subgraph of `{prog.name}`: " ++
      s!"{s.graph.size} nodes, {s.records.size} functions"
    return root

/-- The function that a node stands for. -/
def functionOf? (id : NodeId) : Lower (Option FuncId) := do
  match (← node id).value with
  | none => return none
  | some v =>
    match (← prog.value v).kind with
    | .function f => return some f
    | _ => return none

/-- Joins the function of a node to a call through a function pointer.  The answer is false if the
function cannot be called there. -/
def linkCall (callSite function : NodeId) : Lower Bool := do
  match ← functionOf? prog function with
  | none => return false
  | some f =>
    let site ← node callSite
    match site.value, site.paired with
    | some call, some ret =>
      match ← prog.instruction? call with
      | none => return false
      | some inst =>
        let callee ← prog.function f
        if !callee.variadic && inst.arguments.length != callee.params.length then
          note .debug fun _ ↦ return s!"not linking @{callee.name} with incompatible prototype: " ++
            (← prog.describe call)
          return false
        modify fun s ↦
          { s with callGraph := s.callGraph.addCall inst.function f ⟨.indirect, callSite⟩ }
        if callee.isDeclaration then
          onGraph (·.addOperand ret unknownTarget)
          return true
        let span ← callFunction prog (ask prog) call f
        onGraph (·.addOperand ret span.last)
        -- Until the first link the call goes straight to its return.
        if (← node callSite).singleSuccessor? = some ret then onGraph (·.redirect callSite span.first)
        else onGraph (·.addSuccessor callSite span.first)
        onGraph (·.addSuccessor span.last ret)
        note .debug fun _ ↦ return s!"linked @{callee.name} into " ++ (← prog.describe call)
        return true
    | _, _ => return false

end Lower

namespace Lowering

variable (s : Lowering)

/-- What a value may point to; a call answers with its return site. -/
def pointsTo? (v : ValueId) : Option PointerSet := do
  let id ← s.nodes.get? v
  let n ← s.graph.nodes[id]?
  let site := if n.kind.isCall then n.paired.getD id else id
  return (← s.graph.nodes[site]?).pointsTo

end Lowering

end PointsTo
