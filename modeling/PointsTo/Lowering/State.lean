import PointsTo.CallGraph
import PointsTo.Graph
import PointsTo.Order.Map
import PointsTo.Program.Inspect
import PointsTo.Program.Text
import PointsTo.Warning

/-!
# The state of lowering

Lowering turns a program into a pointer graph, function by function and on request.  `Lowering` is
what has been built so far.  It outlives a failure: what was built before the failure stays.
-/

namespace PointsTo

/-- A chain of nodes, by its two ends. -/
structure Span where
  first : NodeId
  last : NodeId
  deriving DecidableEq, Inhabited

/-- The span of a single node. -/
def Span.only (n : NodeId) : Span := ⟨n, n⟩

structure FunctionRecord where
  entry : NodeId
  /-- The node to which every return of the function leads. -/
  exit : NodeId
  /-- The chain of the formal arguments. -/
  formals : Option Span
  /-- What is passed beyond the parameters. -/
  variadic : Option NodeId
  returns : List NodeId := []
  /-- Return sites of calls that were lowered before the function was complete. -/
  awaiting : List NodeId := []
  /-- Lazily lowered instructions that have no place in their block yet. -/
  unplaced : List (ValueId × Span) := []
  unplacedFormals : List NodeId := []
  /-- Addresses taken as integers, whose uses are lowered once the body exists. -/
  addresses : List ValueId := []
  /-- Phis that are lowered from now on get their operands at once. -/
  phisAttached : Bool := false
  complete : Bool := false
  deriving DecidableEq, Inhabited

structure Lowering where
  graph : Graph := .sentinels
  /-- The node of each lowered value. -/
  nodes : OrderedMap ValueId NodeId := ∅
  records : OrderedMap FuncId FunctionRecord := ∅
  /-- The chain of each visited block, none for a block without nodes. -/
  blocks : OrderedMap (FuncId × BlockId) (Option Span) := ∅
  /-- The first node of each instruction that has its place in a block. -/
  placed : OrderedMap ValueId NodeId := ∅
  /-- The chain of the globals, once it is built. -/
  globals : Option (Option Span) := none
  /-- Which functions were found to touch pointers, and which not. -/
  relevance : OrderedMap FuncId Bool := ∅
  callGraph : CallGraph := {}
  warnings : Warnings := {}
  journal : Journal := {}
  deriving Inhabited

/-- A step of lowering. -/
abbrev Lower := EStateM Failure Lowering

namespace Lower

def reject {α : Type} (cause : Rejection) : Lower α := throw (.rejected cause)

/-- Creates a node and answers with its id. -/
def create (f : Graph → NodeId × Graph) : Lower NodeId :=
  modifyGet fun s ↦
    let (id, graph) := f s.graph
    (id, { s with graph })

def onGraph (f : Graph → Graph) : Lower Unit := modify fun s ↦ { s with graph := f s.graph }

def node (id : NodeId) : Lower Node := do (← get).graph.node id

/-- Journals a line, whose text is computed only if it is kept. -/
def note (severity : Severity) (text : Unit → Query String) : Lower Unit := do
  if (← get).journal.keeps severity then
    let line ← text ()
    modify fun s ↦ { s with journal := s.journal.note severity fun _ ↦ line }

def warn (w : Warning) : Lower Unit :=
  modify fun s ↦
    let (_, warnings, journal) := s.warnings.report s.journal w
    { s with warnings, journal }

def nodeOf? (v : ValueId) : Lower (Option NodeId) := return (← get).nodes.get? v

def setNodeOf (v : ValueId) (id : NodeId) : Lower Unit :=
  modify fun s ↦ { s with nodes := s.nodes.insert v id }

/-- Makes a node stand for a value.  The node keeps a value that it stood for before. -/
def assign (v : ValueId) (id : NodeId) : Lower Unit := do
  setNodeOf v id
  onGraph fun g ↦ g.update id fun n ↦ { n with value := n.value <|> some v }

def setValue (id : NodeId) (v : ValueId) : Lower Unit :=
  onGraph fun g ↦ g.update id fun n ↦ { n with value := some v }

def record? (f : FuncId) : Lower (Option FunctionRecord) := return (← get).records.get? f

def alterRecord (f : FuncId) (change : FunctionRecord → FunctionRecord) : Lower Unit :=
  modify fun s ↦ { s with records := s.records.modify f change }

def blockSpan? (f : FuncId) (b : BlockId) : Lower (Option (Option Span)) :=
  return (← get).blocks.get? (f, b)

def setBlockSpan (f : FuncId) (b : BlockId) (span : Option Span) : Lower Unit :=
  modify fun s ↦ { s with blocks := s.blocks.insert (f, b) span }

def setPlaced (v : ValueId) (first : NodeId) : Lower Unit :=
  modify fun s ↦ { s with placed := s.placed.insert v first }

/-- A call stands for the pointers that it returns, so its operand is its return site. -/
def returnSite (id : NodeId) : Lower NodeId := do
  let n ← node id
  return if n.kind.isCall then n.paired.getD id else id

/-- Adds a node to the end of a chain. -/
def append (chain : Option Span) (id : NodeId) : Lower (Option Span) := do
  match chain with
  | none => return some (.only id)
  | some span =>
    onGraph (·.addSuccessor span.last id)
    return some ⟨span.first, id⟩

variable (prog : Program)

/-- Rejects the program because something about `v` was not found. -/
def missing {α : Type} (v : ValueId) : Lower α := do
  reject (.missingOperand (← prog.describe v))

/-- The instruction that a value is. -/
def instruction (v : ValueId) : Lower Instruction := do
  match ← prog.instruction? v with
  | some inst => return inst
  | none => missing prog v

def nthOperand (v : ValueId) (index : Nat) : Lower ValueId := do
  match ← prog.instruction? v with
  | none => missing prog v
  | some inst =>
    match inst.operand? index with
    | some op => return op
    | none => missing prog v

/-- The record of a function; on behalf of `v`, which is to blame if there is none. -/
def record (f : FuncId) (v : ValueId) : Lower FunctionRecord := do
  match ← record? f with
  | some r => return r
  | none => missing prog v

/-- Changes the record of a function on behalf of `v`. -/
def updateRecord (f : FuncId) (v : ValueId) (change : FunctionRecord → FunctionRecord) :
    Lower Unit := do
  let _ ← record prog f v
  alterRecord f change

end Lower

/-- What lowering asks of itself. -/
structure Provider where
  /-- The node of a value, lowered if need be. -/
  operand : ValueId → Lower NodeId
  /-- The entry node of a function, lowered if need be. -/
  entry : FuncId → Lower NodeId
  /-- Lowers the integer uses of a value. -/
  uses : ValueId → Lower Unit

end PointsTo
