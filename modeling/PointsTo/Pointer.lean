import PointsTo.Offset
import PointsTo.Order.Set

/-!
# Abstract pointers

A pointer is a target node of the pointer graph and an offset into it.  Two targets are sentinels:
the null target, which is never read or written, and unknown memory, which may be anything.
-/

namespace PointsTo

/-- Nodes of the pointer graph are numbered in order of creation. -/
abbrev NodeId := Nat

def nullTarget : NodeId := 0

def unknownTarget : NodeId := 1

def NodeId.render (n : NodeId) : String := s!"n{n}"

structure Pointer where
  target : NodeId
  offset : Offset
  deriving DecidableEq, Inhabited

namespace Pointer

def null : Pointer := ⟨nullTarget, .zero⟩

def unknown : Pointer := ⟨unknownTarget, .unknown⟩

/-- Null is told by the target alone. -/
def isNull (p : Pointer) : Bool := p.target == nullTarget

/-- Unknown memory is told by the target alone. -/
def isUnknown (p : Pointer) : Bool := p.target == unknownTarget

def isSentinel (p : Pointer) : Bool := p.isNull || p.isUnknown

/-- Pointer arithmetic; a pointer to a sentinel stays what it is. -/
def shift (p : Pointer) (amount : Offset) : Pointer :=
  if p.isSentinel then p else ⟨p.target, p.offset + amount⟩

def render (p : Pointer) : String :=
  if p.isNull then "null"
  else if p.isUnknown then "unknown"
  else s!"{p.target.render} + {p.offset.render}"

/-- Pointers are ordered by target, then by offset. -/
instance : TotalOrder Pointer where
  lt a b := TotalOrder.lt (a.target, a.offset) (b.target, b.offset)
  lt_irrefl _ := TotalOrder.lt_irrefl _
  lt_trans := TotalOrder.lt_trans
  lt_connected := by
    rintro ⟨t, o⟩ ⟨u, q⟩ hab hba
    have := TotalOrder.lt_connected hab hba
    simp_all

end Pointer

/-- What a value may point to. -/
abbrev PointerSet := OrderedSet Pointer

/-- Adds the second set to the first and tells whether that made it larger. -/
def PointerSet.absorb (s t : PointerSet) : Bool × PointerSet :=
  let u := s ∪ t
  (u.size != s.size, u)

end PointsTo
