import PointsTo.Memory.Object

/-!
# One memory for the whole program

The flow-insensitive model: every node reads and writes the same objects, and all updates are weak.
-/

namespace PointsTo

structure SharedMemory where
  objects : MemoryMap := ∅
  deriving DecidableEq, Inhabited

namespace SharedMemory

def load (g : Graph) (p : Pointer) (m : SharedMemory) : Query PointerSet := do
  let values := (m.objects.object p.target).read p.offset
  return if (← g.node p.target).zeroed then values.insert .null else values

def store (p : Pointer) (values : PointerSet) (m : SharedMemory) : Bool × SharedMemory :=
  let (changed, o) := (m.objects.object p.target).write p.offset values
  (changed, ⟨m.objects.insert p.target o⟩)

def copy (g : Graph) (src dest : Pointer) (length : Offset) (m : SharedMemory) :
    Query (Bool × SharedMemory) := do
  let entries := m.objects.transfer (← g.node src.target).zeroed src dest length
  let (changed, o) := (m.objects.object dest.target).writeAll entries
  return (changed, ⟨m.objects.insert dest.target o⟩)

instance : MemoryModel SharedMemory where
  fresh := {}
  enter _ _ m := .ok m
  load g _ p m := load g p m
  store _ p values _ m := store p values m
  copy g _ src dest length m := copy g src dest length m
  leave _ m := (false, m)
  mapAt? _ _ := none

end SharedMemory

end PointsTo
