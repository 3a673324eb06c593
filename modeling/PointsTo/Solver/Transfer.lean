import PointsTo.Memory.Object

/-!
# Transfer functions

What one node does: casts, phis and returns collect the sets of their operands, `gep` shifts its
base, loads read memory, stores and copies write it.  All other kinds of nodes do nothing here.
-/

namespace PointsTo

/-- A known offset past the end of its target, or past `maxOffset` if the size is not known, becomes
unknown. -/
def Offset.bound (maxOffset size : Nat) : Offset → Offset
  | .known n h =>
    if (0 < size ∧ size ≤ n) ∨ (size = 0 ∧ maxOffset < n) then .unknown else .known n h
  | .unknown => .unknown

/-- What processing a node yields: pointers for its set, the memory afterwards, and whether that
changed for others. -/
structure Effect (μ : Type) where
  gained : PointerSet := ∅
  memory : μ
  wrote : Bool := false

namespace Transfer

variable {μ : Type} [MemoryModel μ] (g : Graph)

/-- The sets of the operands, together. -/
def collect (n : Node) : Query PointerSet :=
  n.operands.foldlM (fun out op ↦ return out ∪ (← g.pointsTo op)) ∅

/-- A shifted pointer, bounded by its target's size. -/
def shiftBounded (maxOffset : Nat) (p : Pointer) (amount : Offset) : Query Pointer := do
  if p.isSentinel then return p
  match p.offset + amount with
  | .unknown => return ⟨p.target, .unknown⟩
  | offset => return ⟨p.target, offset.bound maxOffset (← g.node p.target).size⟩

def gep (maxOffset : Nat) (n : Node) : Query PointerSet := do
  match n.operand? 0 with
  | none => return ∅
  | some base =>
    return .ofList (← (← g.pointsTo base).toList.mapM (shiftBounded g maxOffset · n.offset))

/-- Nothing is read through null, and anything through unknown memory. -/
def load (id : NodeId) (n : Node) (m : μ) : Query PointerSet := do
  match n.operand? 0 with
  | none => return ∅
  | some pointer =>
    (← g.pointsTo pointer).toList.foldlM (fun out p ↦ do
      if p.isNull then return out
      if p.isUnknown then return out.insert .unknown
      return out ∪ (← MemoryModel.load g id p m)) ∅

/-- A strong update needs a single target outside the heap, at a known offset. -/
def isStrong (single : Bool) (p : Pointer) : Query Bool := do
  if single && !p.offset.isUnknown then return !(← g.node p.target).heap
  return false

/-- Writes the values through every target that is no sentinel. -/
def store (id : NodeId) (n : Node) (m : μ) : Query (Bool × μ) := do
  match n.operand? 0, n.operand? 1 with
  | some value, some pointer =>
    let values ← g.pointsTo value
    let targets ← g.pointsTo pointer
    targets.toList.foldlM (fun (changed, m) p ↦ do
      if p.isSentinel then return (changed, m)
      let strong ← isStrong g (targets.size == 1) p
      let (wrote, m) := MemoryModel.store id p values strong m
      return (changed || wrote, m)) (false, m)
  | _, _ => return (false, m)

/-- Copies from one source to one destination, neither of them null. -/
def copyOne (id : NodeId) (n : Node) (src dest : Pointer) (m : μ) : Query (Bool × μ) :=
  if dest.isUnknown then return (false, m)
  else if src.isUnknown then return MemoryModel.store id dest (.singleton .unknown) false m
  else MemoryModel.copy g id ⟨src.target, src.offset + n.offset⟩ dest n.length m

/-- Copies from every source to every destination. -/
def memcpy (id : NodeId) (n : Node) (m : μ) : Query (Bool × μ) := do
  match n.operand? 0, n.operand? 1 with
  | some src, some dest =>
    let sources ← g.pointsTo src
    let dests ← g.pointsTo dest
    sources.toList.foldlM (fun (changed, m) src ↦ do
      if src.isNull then return (changed, m)
      dests.toList.foldlM (fun (changed, m) dest ↦ do
        if dest.isNull then return (changed, m)
        let (wrote, m) ← copyOne g id n src dest m
        return (changed || wrote, m)) (changed, m)) (false, m)
  | _, _ => return (false, m)

/-- Whether a node writes something through an unknown pointer. -/
def strays (n : Node) : Query Bool := do
  match n.kind, n.operand? 0, n.operand? 1 with
  | .store, some value, some pointer =>
    return (← g.pointsTo pointer).toList.any (·.isUnknown) && !(← g.pointsTo value).isEmpty
  | .memcpy, some src, some dest =>
    return (← g.pointsTo dest).toList.any (·.isUnknown) &&
      (← g.pointsTo src).toList.any (!·.isNull)
  | _, _, _ => return false

def effect (maxOffset : Nat) (id : NodeId) (n : Node) (m : μ) : Query (Effect μ) := do
  match n.kind with
  | .cast | .phi | .ret | .callReturn => return { gained := ← collect g n, memory := m }
  | .gep => return { gained := ← gep g maxOffset n, memory := m }
  | .load => return { gained := ← load g id n m, memory := m }
  | .store =>
    let (wrote, memory) ← store g id n m
    return { memory, wrote }
  | .memcpy =>
    let (wrote, memory) ← memcpy g id n m
    return { memory, wrote }
  | _ => return { memory := m }

end Transfer

end PointsTo
