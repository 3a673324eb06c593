import PointsTo.Graph
import PointsTo.Order.Map

/-!
# Memory objects and models of memory

A memory object says what may be stored at each offset.  Its entry at the unknown offset holds what
was written somewhere in the object, and is seen by every read.

A memory model keeps the memory objects for the solver.  Before a node is processed the solver lets
the model `enter` it, afterwards `leave` it; in between it loads, stores and copies on behalf of the
node.  Answers tell whether what other nodes see has changed.
-/

namespace PointsTo

structure MemoryObject where
  cells : OrderedMap Offset PointerSet := ∅
  deriving DecidableEq, Inhabited

namespace MemoryObject

variable (o : MemoryObject)

def hasEntry (offset : Offset) : Bool := o.cells.contains offset

def entry (offset : Offset) : PointerSet := (o.cells.get? offset).getD ∅

/-- What may be read at an offset: the entry there and the entry of unknown writes, or everything if
the offset is unknown. -/
def read (offset : Offset) : PointerSet :=
  if offset.isUnknown then o.cells.values.foldl (· ∪ ·) ∅
  else o.entry offset ∪ o.entry .unknown

/-- A weak update: adds to the entry.  The answer tells whether anything was added. -/
def write (offset : Offset) (values : PointerSet) : Bool × MemoryObject :=
  if values.isEmpty then (false, o)
  else
    let (grew, entry) := (o.entry offset).absorb values
    (grew, ⟨o.cells.insert offset entry⟩)

/-- A strong update: the entry holds exactly `values` afterwards.  The answer tells whether it held
anything else before.  Writing nothing changes nothing. -/
def overwrite (offset : Offset) (values : PointerSet) : Bool × MemoryObject :=
  if values.isEmpty then (false, o)
  else if o.cells.get? offset = some values then (false, o)
  else (true, ⟨o.cells.insert offset values⟩)

/-- Writes entries one after the other. -/
def writeAll (entries : List (Offset × PointerSet)) : Bool × MemoryObject :=
  entries.foldl (fun (changed, o) (offset, values) ↦
    let (grew, o) := o.write offset values
    (changed || grew, o)) (false, o)

def merge (other : MemoryObject) : Bool × MemoryObject := o.writeAll other.cells.entries

/-- Where a copy of `length` bytes from `src` to `dest` puts an entry, if it copies it.  What has no
exact place lands at the unknown offset. -/
def copiedTo? (src length dest offset : Offset) : Option Offset :=
  match src, offset, dest with
  | .known src _, .known offset _, .known dest _ =>
    if offset < src then none
    else
      match length with
      | .known length _ => if length ≤ offset - src then none else some (.ofNat (dest + (offset - src)))
      | .unknown => some (.ofNat (dest + (offset - src)))
  | _, _, _ => some .unknown

/-- The entries that a copy of `length` bytes from `src` moves, at their places relative to `dest`. -/
def copiedEntries (src length dest : Offset) : List (Offset × PointerSet) :=
  o.cells.entries.filterMap fun (offset, values) ↦
    (copiedTo? src length dest offset).map fun place ↦ (place, values)

end MemoryObject

/-- Memory objects by the node that allocated them. -/
abbrev MemoryMap := OrderedMap NodeId MemoryObject

namespace MemoryMap

/-- The object of a target, empty if there is none yet. -/
def object (m : MemoryMap) (target : NodeId) : MemoryObject := (m.get? target).getD {}

/-- Adds everything that the second map holds to the first. -/
def merge (m other : MemoryMap) : MemoryMap :=
  other.entries.foldl (fun m (target, o) ↦ m.insert target ((m.object target).merge o).2) m

end MemoryMap

class MemoryModel (μ : Type) where
  fresh : μ
  enter (g : Graph) (node : NodeId) (m : μ) : Query μ
  /-- What the node may read through the pointer. -/
  load (g : Graph) (node : NodeId) (p : Pointer) (m : μ) : Query PointerSet
  /-- Writes through the pointer.  A strong write may replace what was there. -/
  store (node : NodeId) (p : Pointer) (values : PointerSet) (strong : Bool) (m : μ) : Bool × μ
  /-- Copies `length` bytes from `src` to `dest`. -/
  copy (g : Graph) (node : NodeId) (src dest : Pointer) (length : Offset) (m : μ) :
    Query (Bool × μ)
  leave (node : NodeId) (m : μ) : Bool × μ
  /-- The memory after a node, if the model keeps one per node. -/
  mapAt? (m : μ) (node : NodeId) : Option MemoryMap

/-- What a copy of `length` bytes moves from an object to `dest`.  Zeroed bytes may land anywhere. -/
def MemoryMap.transfer (m : MemoryMap) (zeroed : Bool) (src dest : Pointer) (length : Offset) :
    List (Offset × PointerSet) :=
  (m.object src.target).copiedEntries src.offset length dest.offset ++
    if zeroed then [(.unknown, .singleton .null)] else []

end PointsTo
