import PointsTo.Solver.Transfer
import PointsTo.Warning
import PointsTo.Worklist

/-!
# The fixpoint solver

A round processes every node at least once.  A node whose set or memory changed queues its
successors, its users and the node it is paired with; nodes that linking a call creates are queued
too.  Rounds repeat until one changes nothing.

The solver works on the graph of a host, which can be extended when the target of a call through a
function pointer is found.
-/

namespace PointsTo

/-- The owner of a graph that is being solved. -/
structure CallLinker (σ : Type) where
  graph : σ → Graph
  onGraph : (Graph → Graph) → σ → σ
  onJournal : (Journal → Journal) → σ → σ
  /-- Joins the function of a node to a call site.  The answer is false if it cannot be called. -/
  link : (callSite function : NodeId) → EStateM Failure σ Bool

/-- A graph that nobody extends. -/
structure LoneGraph where
  graph : Graph := .sentinels
  journal : Journal := {}
  deriving Inhabited

/-- A graph on its own never links calls. -/
def LoneGraph.linker : CallLinker LoneGraph where
  graph := (·.graph)
  onGraph f s := { s with graph := f s.graph }
  onJournal f s := { s with journal := f s.journal }
  link _ _ := return false

structure SolverStats where
  rounds : Nat := 0
  processed : Nat := 0
  changed : Nat := 0
  linked : Nat := 0
  deriving DecidableEq, Inhabited

structure Solver (μ : Type) where
  memory : μ
  maxOffset : Nat
  /-- The pairs of call site and target that were looked at. -/
  linked : OrderedSet (NodeId × NodeId) := ∅
  warnings : Warnings := {}
  stats : SolverStats := {}

def Solver.fresh (μ : Type) [MemoryModel μ] (maxOffset : Nat) : Solver μ :=
  { memory := MemoryModel.fresh, maxOffset }

/-- A solver and the host of the graph that it works on. -/
structure Solving (μ σ : Type) where
  solver : Solver μ
  host : σ

/-- A step of solving. -/
abbrev Solve (μ σ : Type) := EStateM Failure (Solving μ σ)

namespace Solve

variable {μ σ : Type} (L : CallLinker σ)

def graph : Solve μ σ Graph := return L.graph (← get).host

def onGraph (f : Graph → Graph) : Solve μ σ Unit :=
  modify fun s ↦ { s with host := L.onGraph f s.host }

def onSolver (f : Solver μ → Solver μ) : Solve μ σ Unit :=
  modify fun s ↦ { s with solver := f s.solver }

def count (f : SolverStats → SolverStats) : Solve μ σ Unit :=
  onSolver fun s ↦ { s with stats := f s.stats }

def setMemory (memory : μ) : Solve μ σ Unit := onSolver fun s ↦ { s with memory }

def onHost {α : Type} (x : EStateM Failure σ α) : Solve μ σ α := fun s ↦
  match x s.host with
  | .ok a host => .ok a { s with host }
  | .error e host => .error e { s with host }

def note (severity : Severity) (text : Unit → String) : Solve μ σ Unit :=
  modify fun s ↦ { s with host := L.onJournal (·.note severity text) s.host }

/-- Records a warning of the solver, and journals it if it is new. -/
def warn (w : Warning) : Solve μ σ Unit := do
  let (isNew, warnings) := (← get).solver.warnings.record w
  if isNew then
    note L .warn fun _ ↦ s!"PTA: {w.message}"
    onSolver fun s ↦ { s with warnings }

/-- The points-to set of a node in full, for the journal. -/
def setText (s : PointerSet) : String :=
  let items := s.toList.map fun p ↦
    s!"Pointer \x7b target: NodeId({p.target}), offset: Offset({p.offset.toWord}) \x7d"
  "\x7b" ++ ", ".intercalate items ++ "\x7d"

/-- Adds pointers to the set of a node; the answer tells whether any were new. -/
def gain (id : NodeId) (n : Node) (gained : PointerSet) : Solve μ σ Bool := do
  let (grew, pointsTo) := n.pointsTo.absorb gained
  if grew then
    onGraph L fun g ↦ g.update id fun n ↦ { n with pointsTo }
    note L .trace fun _ ↦ s!"{id.render} {n.kind.label}: {setText pointsTo}"
  return grew

/-- Links one target of a call through a function pointer, unless it was looked at before.  A call of
unknown memory returns unknown. -/
def linkTarget (callSite : NodeId) (p : Pointer) : Solve μ σ Bool := do
  if p.isNull || (← get).solver.linked.contains (callSite, p.target) then return false
  onSolver fun s ↦ { s with linked := s.linked.insert (callSite, p.target) }
  if p.isUnknown then
    match (← (← graph L).node callSite).paired with
    | none => return false
    | some ret =>
      onGraph L (·.addOperand ret unknownTarget)
      return true
  if (← (← graph L).node p.target).kind != .function then return false
  if ← onHost (L.link callSite p.target) then
    count fun s ↦ { s with linked := s.linked + 1 }
    return true
  return false

def linkTargets (callSite : NodeId) (n : Node) : Solve μ σ Bool := do
  match n.operand? 0 with
  | none => return false
  | some callee =>
    (← (← graph L).pointsTo callee).toList.foldlM (fun changed p ↦
      return (← linkTarget L callSite p) || changed) false

variable [MemoryModel μ]

/-- Processes a node.  The answer tells whether its set, its memory or its callees changed. -/
def visit (id : NodeId) : Solve μ σ Bool := do
  let g ← graph L
  setMemory (← MemoryModel.enter g id (← get).solver.memory)
  let n ← g.node id
  if ← Transfer.strays g n then warn L (.storeToUnknown id.render)
  let s := (← get).solver
  let effect ← Transfer.effect g s.maxOffset id n s.memory
  setMemory effect.memory
  let grew ← gain L id n effect.gained
  let linked ← if n.kind = .indirectCall then linkTargets L id n else pure false
  let (left, memory) := MemoryModel.leave id (← get).solver.memory
  setMemory memory
  return effect.wrote || grew || linked || left

/-- The nodes that wait in a round, and whether the round has changed anything. -/
structure Round where
  queue : Worklist NodeId
  changed : Bool := false

/-- Every node waits when a round starts. -/
def Round.start (g : Graph) : Round := { queue := ({} : Worklist NodeId).extend g.ids }

/-- Takes the next node of a round and processes it; nothing is left to do if none waits. -/
def advance (r : Round) : Solve μ σ (Option Round) := do
  match r.queue.pop with
  | none => return none
  | some (id, queue) =>
    let size := (← graph L).size
    let changed ← visit L id
    count fun s ↦ { s with processed := s.processed + 1 }
    let g ← graph L
    let queue := queue.extend (List.range' size (g.size - size))
    if changed || size < g.size then
      count fun s ↦ { s with changed := s.changed + 1 }
      let n ← g.node id
      let queue := ((queue.extend n.successors).extend n.users).extend n.paired.toList
      return some { queue, changed := true }
    return some { r with queue }

/-- Processes nodes until none waits, within the budget. -/
def drain : (budget : Nat) → Round → Solve μ σ Bool
  | 0, _ => throw .exhausted
  | budget + 1, r => do
    match ← advance L r with
    | none => return r.changed
    | some r => drain budget r

/-- One round; the answer tells whether it changed anything.  The budget bounds the number of nodes
processed. -/
def round (budget : Nat) : Solve μ σ Bool := do
  let changed ← drain L budget (.start (← graph L))
  count fun s ↦ { s with rounds := s.rounds + 1 }
  let rounds := (← get).solver.stats.rounds
  note L .debug fun _ ↦ s!"PTA: round {rounds} done, changed: {changed}"
  return changed

def rounds (budget : Nat) : Nat → Solve μ σ Unit
  | 0 => throw .exhausted
  | more + 1 => do
    if ← round L budget then rounds budget more

/-- Runs rounds until one of them changes nothing.  The budget bounds the number of rounds and the
number of nodes processed in each. -/
def run (budget : Nat) : Solve μ σ SolverStats := do
  rounds L budget budget
  let s := (← get).solver.stats
  note L .info fun _ ↦ s!"PTA: fixpoint after {s.rounds} rounds, " ++
    s!"{s.processed} nodes processed, {s.linked} calls linked"
  return s

end Solve

end PointsTo
