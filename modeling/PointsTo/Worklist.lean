import PointsTo.Order.Set

/-!
# Duplicate-free first-in first-out worklists

A worklist holds each waiting item once.  Items leave in the order in which they were accepted, and
an item that has left may be queued again.  The items lie in two lists, the second one in reverse,
beside the set of all that wait; `Worklist.toList` is the queue that they represent.
-/

namespace PointsTo

structure Worklist (α : Type) [TotalOrder α] where
  front : List α := []
  back : List α := []
  waiting : OrderedSet α := ∅

namespace Worklist

variable {α : Type} [TotalOrder α]

instance : Inhabited (Worklist α) := ⟨{}⟩

def toList (q : Worklist α) : List α := q.front ++ q.back.reverse

def size (q : Worklist α) : Nat := q.front.length + q.back.length

def isEmpty (q : Worklist α) : Bool := q.front.isEmpty && q.back.isEmpty

/-- Queues an item; the answer is false if it is waiting already. -/
def push (q : Worklist α) (a : α) : Bool × Worklist α :=
  if q.waiting.contains a then (false, q)
  else (true, { q with back := a :: q.back, waiting := q.waiting.insert a })

/-- Queues the items one after the other. -/
def extend (q : Worklist α) (items : List α) : Worklist α :=
  items.foldl (fun q a ↦ (q.push a).2) q

/-- Takes the item that has waited longest. -/
def pop (q : Worklist α) : Option (α × Worklist α) :=
  match q.front with
  | a :: front => some (a, { q with front, waiting := q.waiting.erase a })
  | [] =>
    match q.back.reverse with
    | a :: front => some (a, { front, back := [], waiting := q.waiting.erase a })
    | [] => none

end Worklist

end PointsTo
