import PointsTo.Offset
import PointsTo.Ty

/-!
# Data layout

Sizes, alignments and element offsets in bytes.  A value is stored in whole bytes; in memory it is
padded to a multiple of its alignment.  Sizes saturate at the largest word.
-/

namespace PointsTo

structure DataLayout where
  pointerBits : Nat := 64
  deriving DecidableEq, Inhabited

structure StructLayout where
  offsets : List Nat
  size : Nat
  align : Nat
  deriving DecidableEq, Inhabited

/-- The least multiple of `align` that is not below `n`; no alignment below 2 moves anything. -/
def alignTo (n align : Nat) : Nat :=
  if align ≤ 1 then n else (n + align - 1) / align * align

/-- Whole bytes that hold `bits`. -/
def bytesOfBits (bits : Nat) : Nat := (bits + 7) / 8

/-- The least power of two, at most 8, that is not below the bytes of the scalar. -/
def scalarAlign (bits : Nat) : Nat :=
  let bytes := bytesOfBits bits
  if bytes ≤ 1 then 1 else if bytes ≤ 2 then 2 else if bytes ≤ 4 then 4 else 8

namespace DataLayout

variable (dl : DataLayout)

def pointerSize : Nat := bytesOfBits dl.pointerBits

mutual

def align : Ty → Nat
  | .void => 1
  | .int bits => scalarAlign bits
  | .float bits => scalarAlign bits
  | .ptr => dl.pointerSize
  | .array elem _ => align elem
  | .struct fields => (maxAlign? fields).getD 1

/-- The largest alignment of the fields, if there are any. -/
def maxAlign? : List Ty → Option Nat
  | [] => none
  | field :: rest =>
    match maxAlign? rest with
    | none => some (align field)
    | some a => some (max (align field) a)

end

/-- Adds the tail padding of a type to its stored size. -/
def pad (ty : Ty) (size : Nat) : Nat := if ty.isSized then alignTo size (dl.align ty) else 0

mutual

def storeSize : Ty → Nat
  | .void => 0
  | .int bits => bytesOfBits bits
  | .float bits => bytesOfBits bits
  | .ptr => dl.pointerSize
  | .array elem length => min (dl.pad elem (storeSize elem) * length) wordMax
  | .struct fields => (layoutFrom fields 0 1).size

/-- Places the fields one after the other from offset `start` on, below a struct whose alignment is
`align` so far. -/
def layoutFrom : List Ty → (start align : Nat) → StructLayout
  | [], start, align => ⟨[], alignTo start align, align⟩
  | field :: rest, start, align =>
    let fieldAlign := dl.align field
    let offset := alignTo start fieldAlign
    let layout :=
      layoutFrom rest (min (offset + dl.pad field (storeSize field)) wordMax) (max align fieldAlign)
    { layout with offsets := offset :: layout.offsets }

end

/-- Size in memory, tail padding included; zero for unsized types. -/
def allocSize (ty : Ty) : Nat := dl.pad ty (dl.storeSize ty)

def structLayout (fields : List Ty) : StructLayout := dl.layoutFrom fields 0 1

/-- Byte offset and type of an element of an aggregate. -/
def element? (ty : Ty) (index : Nat) : Option (Nat × Ty) :=
  match ty with
  | .struct fields =>
    match fields[index]?, (dl.structLayout fields).offsets[index]? with
    | some field, some offset => some (offset, field)
    | _, _ => none
  | .array elem length =>
    let offset := dl.allocSize elem * index
    if index < length ∧ offset ≤ wordMax then some (offset, elem) else none
  | _ => none

/-- Whether an offset is an unsigned number of the width of a pointer. -/
def fitsPointer (offset : Int) : Bool := 0 ≤ offset && offset < Nat.pow 2 (Nat.min dl.pointerBits 64)

end DataLayout

end PointsTo
