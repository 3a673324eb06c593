/-!
# Functions known by name

Allocation functions and intrinsics are declarations that the analysis understands by their names.
-/

namespace PointsTo

inductive Allocator where
  | malloc
  | calloc
  | alloca
  | realloc
  deriving DecidableEq, Inhabited

def Allocator.ofName? : String → Option Allocator
  | "malloc" => some malloc
  | "calloc" => some calloc
  | "alloca" => some alloca
  | "realloc" => some realloc
  | _ => none

inductive Intrinsic where
  | memcpy
  | memmove
  | memset
  | vaStart
  | stackSave
  | stackRestore
  deriving DecidableEq, Inhabited

namespace Intrinsic

def baseName : Intrinsic → String
  | memcpy => "llvm.memcpy"
  | memmove => "llvm.memmove"
  | memset => "llvm.memset"
  | vaStart => "llvm.va_start"
  | stackSave => "llvm.stacksave"
  | stackRestore => "llvm.stackrestore"

/-- A base name may be followed by a point and a non-empty suffix on the same line. -/
def isNameOf (base name : List Char) : Bool :=
  base.isPrefixOf name &&
    match name.drop base.length with
    | [] => true
    | '.' :: suffix => !suffix.isEmpty && !suffix.contains '\n'
    | _ => false

def ofName? (name : String) : Option Intrinsic :=
  [memcpy, memmove, memset, vaStart, stackSave, stackRestore].find? fun i ↦
    isNameOf i.baseName.toList name.toList

/-- Calls of `memset` are lowered where they stand in their block and never as relevant calls. -/
def isRelevant (i : Intrinsic) : Bool := i != memset

end Intrinsic

end PointsTo
