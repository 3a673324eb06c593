import PointsTo.Program

/-!
# Control flow between basic blocks

Blocks are visited in breadth-first order: in the order of a queue, where a block counts as seen as soon as
it is queued.  The functions of a call graph are visited in the same way.
-/

namespace PointsTo

namespace BreadthFirst

/-- Queues the vertices that were not seen yet, in order. -/
def discover (found queue seen : List Nat) : List Nat × List Nat :=
  found.foldl (fun (queue, seen) v ↦
    if seen.contains v then (queue, seen) else (queue ++ [v], v :: seen)) (queue, seen)

/-- Visits at most `budget` vertices. -/
def visit (next : Nat → List Nat) : (budget : Nat) → (queue seen : List Nat) → List Nat
  | 0, _, _ => []
  | _ + 1, [], _ => []
  | budget + 1, v :: queue, seen =>
    let (queue, seen) := discover (next v) queue seen
    v :: visit next budget queue seen

/-- The vertices reachable from `root`, in a graph of `size` vertices. -/
def order (size : Nat) (next : Nat → List Nat) (root : Nat) : List Nat :=
  visit next size [root] [root]

end BreadthFirst

namespace Function

/-- The successors of every block, in order and with repetitions. -/
def flowGraph (f : Function) : Query (List (List BlockId)) :=
  if f.blocks.all fun b ↦ b.succs.all (· < f.blocks.length) then .ok (f.blocks.map (·.succs))
  else .error .dangling

def successors (f : Function) (b : BlockId) : List BlockId := ((f.blocks[b]?).getD {}).succs

/-- The blocks reachable from the entry block, in breadth-first order. -/
def reachableBlocks (f : Function) : Query (List BlockId) := do
  if f.isDeclaration then return []
  let _ ← f.flowGraph
  return BreadthFirst.order f.blocks.length f.successors 0

end Function

end PointsTo
