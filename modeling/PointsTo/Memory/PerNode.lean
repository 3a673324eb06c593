import PointsTo.Memory.Object

/-!
# A memory per node

The flow-sensitive model: the memory of a node is recomputed from the memories of its predecessors
each time the node is processed, and strong updates replace what was there.
-/

namespace PointsTo

structure NodeMemory where
  /-- The memory after each node. -/
  maps : OrderedMap NodeId MemoryMap := ∅
  /-- The node being processed and its memory so far. -/
  current : Option (NodeId × MemoryMap) := none
  deriving DecidableEq, Inhabited

namespace NodeMemory

/-- The memory that enters a node: all that its predecessors leave. -/
def incoming (m : NodeMemory) (predecessors : List NodeId) : MemoryMap :=
  predecessors.foldl (fun merged p ↦
    match m.maps.get? p with
    | some map => MemoryMap.merge merged map
    | none => merged) ∅

def enter (g : Graph) (node : NodeId) (m : NodeMemory) : Query NodeMemory := do
  return { m with current := some (node, m.incoming (← g.node node).predecessors) }

/-- The memory of the node while it is being processed. -/
def currentAt? (m : NodeMemory) (node : NodeId) : Option MemoryMap :=
  match m.current with
  | some (current, map) => if current = node then some map else none
  | none => none

def stateAt? (m : NodeMemory) (node : NodeId) : Option MemoryMap :=
  match m.currentAt? node with
  | some map => some map
  | none => m.maps.get? node

/-- Zeroed memory reads null until something is written there. -/
def load (g : Graph) (node : NodeId) (p : Pointer) (m : NodeMemory) : Query PointerSet := do
  let o := ((m.stateAt? node).getD ∅ : MemoryMap).object p.target
  let values := o.read p.offset
  let zeroed := (← g.node p.target).zeroed
  return if zeroed && (p.offset.isUnknown || !o.hasEntry p.offset) then values.insert .null
    else values

/-- Only the node being processed is written.  Whether its memory changed is told by `leave`. -/
def store (node : NodeId) (p : Pointer) (values : PointerSet) (strong : Bool) (m : NodeMemory) :
    NodeMemory :=
  match m.currentAt? node with
  | none => m
  | some map =>
    let o := map.object p.target
    let o := if strong && !p.offset.isUnknown then (o.overwrite p.offset values).2
      else (o.write p.offset values).2
    { m with current := some (node, map.insert p.target o) }

def copy (g : Graph) (node : NodeId) (src dest : Pointer) (length : Offset) (m : NodeMemory) :
    Query NodeMemory := do
  match m.currentAt? node with
  | none => return m
  | some map =>
    let entries := map.transfer (← g.node src.target).zeroed src dest length
    let o := ((map.object dest.target).writeAll entries).2
    return { m with current := some (node, map.insert dest.target o) }

/-- Keeps the memory of the processed node; the answer tells whether it differs from before. -/
def leave (node : NodeId) (m : NodeMemory) : Bool × NodeMemory :=
  match m.currentAt? node with
  | none => (false, { m with current := none })
  | some map =>
    if m.maps.get? node = some map then (false, { m with current := none })
    else (true, { maps := m.maps.insert node map, current := none })

instance : MemoryModel NodeMemory where
  fresh := {}
  enter := enter
  load := load
  store node p values strong m := (false, store node p values strong m)
  copy g node src dest length m := return (false, ← copy g node src dest length m)
  leave := leave
  mapAt? m node := m.maps.get? node

end NodeMemory

end PointsTo
