/-!
# Types of the analyzed program
-/

namespace PointsTo

inductive Ty where
  | void
  | int (bits : Nat)
  | float (bits : Nat)
  | ptr
  | array (elem : Ty) (length : Nat)
  | struct (fields : List Ty)
  deriving Inhabited

namespace Ty

def isPointer : Ty → Bool
  | ptr => true
  | _ => false

def isAggregate : Ty → Bool
  | array .. => true
  | struct _ => true
  | _ => false

def isSized : Ty → Bool
  | void => false
  | _ => true

mutual

/-- Whether the type is a pointer or, at any depth, holds one. -/
def containsPointer : Ty → Bool
  | ptr => true
  | array elem _ => elem.containsPointer
  | struct fields => anyContainsPointer fields
  | _ => false

def anyContainsPointer : List Ty → Bool
  | [] => false
  | field :: rest => field.containsPointer || anyContainsPointer rest

end

mutual

/-- How deeply aggregates are nested in the type. -/
def depth : Ty → Nat
  | array elem _ => elem.depth + 1
  | struct fields => maxDepth fields + 1
  | _ => 0

def maxDepth : List Ty → Nat
  | [] => 0
  | field :: rest => max field.depth (maxDepth rest)

end

end Ty

end PointsTo
