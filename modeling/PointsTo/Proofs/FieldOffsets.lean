import Mathlib.Order.CompletePartialOrder
import Mathlib.Order.Interval.Set.Disjoint
import PointsTo.Lowering.Build
import PointsTo.Proofs.Coherence
import PointsTo.Proofs.Packing

/-!
# Where fields are

A field of a type is selected by indices, one for each level of nesting.  Its offset is the sum of the
element offsets on the way, and that is what an element address with these indices computes.  Fields lie
inside of the type, and the bytes of different pointers do not overlap.

An initializer is stored field by field at the same offsets.  So an element address of a pointer field
meets the store of that field, and no other store of the initializer.
-/

namespace PointsTo

namespace DataLayout

variable {dl : DataLayout} {ty elem elem' leaf field field' : Ty} {fields : List Ty} {offsets path path' : List Nat}
  {start stop offset offset' sum sum' i j : Nat}

/-- The element that the indices lead to, and the sum of the element offsets on the way. -/
def descend? (dl : DataLayout) : Ty → (path : List Nat) → Option (Nat × Ty)
  | ty, [] => some (0, ty)
  | ty, index :: path =>
    match dl.element? ty index with
    | none => none
    | some (offset, elem) => (descend? dl elem path).map fun x ↦ (offset + x.1, x.2)

/-- The bytes of a pointer. -/
def pointerBytes (dl : DataLayout) (offset : Nat) : Set Nat := Set.Ico offset (offset + dl.allocSize .ptr)

theorem descend?_cons_eq_some_iff : dl.descend? ty (i :: path) = some (sum, leaf) ↔ ∃ offset elem rest,
    dl.element? ty i = some (offset, elem) ∧ dl.descend? elem path = some (rest, leaf) ∧ sum = offset + rest := by
  cases helem : dl.element? ty i with
  | none => simp [descend?, helem]
  | some x =>
    rw [descend?, helem, Option.map_eq_some_iff]
    constructor
    · rintro ⟨y, hrest, hy⟩
      obtain ⟨rfl, rfl⟩ := Prod.mk.inj hy
      exact ⟨x.1, x.2, y.1, rfl, hrest, rfl⟩
    · rintro ⟨_, _, rest, hx, hrest, rfl⟩
      obtain rfl := Option.some.inj hx
      exact ⟨(rest, leaf), hrest, rfl⟩

/-! ## Elements -/

namespace Packed

theorem le (h : dl.Packed start fields offsets stop) : start ≤ stop := by
  induction h with
  | nil => exact Nat.le_refl _
  | cons hoffset _ ih => exact (hoffset.1.1.trans (Nat.le_add_right _ _)).trans ih

/-- A field lies between the two ends. -/
theorem within (h : dl.Packed start fields offsets stop) (hfield : fields[i]? = some field)
    (hoffset : offsets[i]? = some offset) : start ≤ offset ∧ offset + dl.allocSize field ≤ stop := by
  induction h generalizing i with
  | nil => simp at hfield
  | cons hleast hrest ih =>
    cases i with
    | zero =>
      obtain rfl : _ = field := by simpa using hfield
      obtain rfl : _ = offset := by simpa using hoffset
      exact ⟨hleast.1.1, hrest.le⟩
    | succ i =>
      obtain ⟨hle, hstop⟩ := ih (by simpa using hfield) (by simpa using hoffset)
      exact ⟨(hleast.1.1.trans (Nat.le_add_right _ _)).trans hle, hstop⟩

/-- A field ends before the fields behind it begin. -/
theorem before (h : dl.Packed start fields offsets stop) (hij : i < j) (hfield : fields[i]? = some field)
    (hoffset : offsets[i]? = some offset) (hfield' : fields[j]? = some field') (hoffset' : offsets[j]? = some offset') :
    offset + dl.allocSize field ≤ offset' := by
  induction h generalizing i j with
  | nil => simp at hfield
  | cons _ hrest ih =>
    obtain ⟨j, rfl⟩ := Nat.exists_eq_add_one_of_ne_zero (Nat.ne_of_gt (Nat.zero_lt_of_lt hij))
    simp only [List.getElem?_cons_succ] at hfield' hoffset'
    cases i with
    | zero =>
      obtain rfl : _ = field := by simpa using hfield
      obtain rfl : _ = offset := by simpa using hoffset
      exact (hrest.within hfield' hoffset').1
    | succ i =>
      exact ih (Nat.lt_of_succ_lt_succ hij) (by simpa using hfield) (by simpa using hoffset) hfield' hoffset'

end Packed

theorem element?_struct_eq_some_iff : dl.element? (.struct fields) i = some (offset, elem) ↔
    fields[i]? = some elem ∧ (dl.structLayout fields).offsets[i]? = some offset := by
  cases hfield : fields[i]? with
  | none => simp [element?, hfield]
  | some field =>
    cases hoffset : (dl.structLayout fields).offsets[i]? with
    | none => simp [element?, hfield, hoffset]
    | some o => simp [element?, hfield, hoffset, and_comm]

theorem element?_array_eq_some_iff {item : Ty} {length : Nat} :
    dl.element? (.array item length) i = some (offset, elem) ↔
      (i < length ∧ dl.allocSize item * i ≤ wordMax) ∧ dl.allocSize item * i = offset ∧ item = elem := by
  simp [element?]

/-- Only structs and arrays have elements. -/
theorem element?_cases (h : dl.element? ty i = some (offset, elem)) :
    (∃ fields, ty = .struct fields) ∨ ∃ length, ty = .array elem length := by
  cases ty with
  | struct fields => exact .inl ⟨fields, rfl⟩
  | array item length =>
    obtain ⟨-, -, rfl⟩ := element?_array_eq_some_iff.1 h
    exact .inr ⟨length, rfl⟩
  | void | int | float | ptr => simp [element?] at h

/-- An element lies inside of its aggregate. -/
theorem Bounded.element (h : dl.Bounded ty) (helem : dl.element? ty i = some (offset, elem)) :
    dl.Bounded elem ∧ offset + dl.allocSize elem ≤ dl.allocSize ty := by
  rcases element?_cases helem with ⟨fields, rfl⟩ | ⟨length, rfl⟩
  · obtain ⟨hfield, hoffset⟩ := element?_struct_eq_some_iff.1 helem
    obtain ⟨stop, hpacked, hsize⟩ := h.structLayout_packed
    refine ⟨h.field (List.mem_of_getElem? hfield), ?_⟩
    rw [h.allocSize_struct, hsize]
    exact (hpacked.within hfield hoffset).2.trans (le_alignTo _ _)
  · obtain ⟨⟨hlt, -⟩, rfl, -⟩ := element?_array_eq_some_iff.1 helem
    refine ⟨h.elem, ?_⟩
    rw [h.allocSize_array, ← Nat.mul_succ]
    exact Nat.mul_le_mul_left _ hlt

/-- An element ends before the next ones begin. -/
theorem Bounded.element_before (h : dl.Bounded ty) (hij : i < j) (hi : dl.element? ty i = some (offset, elem))
    (hj : dl.element? ty j = some (offset', elem')) : offset + dl.allocSize elem ≤ offset' := by
  rcases element?_cases hi with ⟨fields, rfl⟩ | ⟨length, rfl⟩
  · obtain ⟨stop, hpacked, -⟩ := h.structLayout_packed
    obtain ⟨hfield, hoffset⟩ := element?_struct_eq_some_iff.1 hi
    obtain ⟨hfield', hoffset'⟩ := element?_struct_eq_some_iff.1 hj
    exact hpacked.before hij hfield hoffset hfield' hoffset'
  · obtain ⟨-, rfl, -⟩ := element?_array_eq_some_iff.1 hi
    obtain ⟨-, rfl, -⟩ := element?_array_eq_some_iff.1 hj
    rw [← Nat.mul_succ]
    exact Nat.mul_le_mul_left _ hij

/-! ## Fields at any depth -/

theorem Bounded.descend (h : dl.Bounded ty) (hpath : dl.descend? ty path = some (sum, leaf)) :
    sum + dl.allocSize leaf ≤ dl.allocSize ty := by
  induction path generalizing ty sum with
  | nil =>
    obtain ⟨rfl, rfl⟩ : 0 = sum ∧ ty = leaf := by simpa [descend?] using hpath
    rw [Nat.zero_add]
  | cons i path ih =>
    obtain ⟨offset, elem, rest, helem, hrest, rfl⟩ := descend?_cons_eq_some_iff.1 hpath
    obtain ⟨hbounded, hle⟩ := h.element helem
    calc
      offset + rest + dl.allocSize leaf = offset + (rest + dl.allocSize leaf) := Nat.add_assoc ..
      _ ≤ offset + dl.allocSize elem := Nat.add_le_add_left (ih hbounded hrest) offset
      _ ≤ dl.allocSize ty := hle

theorem descend?_ptr (h : dl.descend? .ptr path = some (sum, leaf)) : path = [] ∧ sum = 0 := by
  cases path with
  | nil => exact ⟨rfl, by simpa [descend?, eq_comm] using congrArg (Option.map Prod.fst) h⟩
  | cons i path => simp [descend?, element?] at h

/-- A pointer ends before the other begins, unless the indices lead to the same one. -/
theorem Bounded.apart (h : dl.Bounded ty) (hpath : dl.descend? ty path = some (sum, .ptr))
    (hpath' : dl.descend? ty path' = some (sum', .ptr)) (hne : path ≠ path') :
    sum + dl.allocSize .ptr ≤ sum' ∨ sum' + dl.allocSize .ptr ≤ sum := by
  induction path generalizing ty sum path' sum' with
  | nil =>
    obtain rfl : ty = .ptr := by simpa [descend?] using congrArg (Option.map Prod.snd) hpath
    exact absurd (descend?_ptr hpath').1.symm hne
  | cons i path ih =>
    cases path' with
    | nil =>
      obtain rfl : ty = .ptr := by simpa [descend?] using congrArg (Option.map Prod.snd) hpath'
      exact absurd (descend?_ptr hpath).1 hne
    | cons j path' =>
      obtain ⟨offset, elem, rest, helem, hrest, rfl⟩ := descend?_cons_eq_some_iff.1 hpath
      obtain ⟨offset', elem', rest', helem', hrest', rfl⟩ := descend?_cons_eq_some_iff.1 hpath'
      have hin := (h.element helem).1.descend hrest
      have hin' := (h.element helem').1.descend hrest'
      rcases Nat.lt_trichotomy i j with hij | rfl | hji
      · have hbefore := h.element_before hij helem helem'
        omega
      · obtain ⟨rfl, rfl⟩ := Prod.mk.inj (Option.mem_unique helem helem')
        have hrests := ih (h.element helem).1 hrest hrest' fun heq ↦ hne (by rw [heq])
        omega
      · have hbefore := h.element_before hji helem' helem
        omega

theorem Bounded.disjoint (h : dl.Bounded ty) (hpath : dl.descend? ty path = some (sum, .ptr))
    (hpath' : dl.descend? ty path' = some (sum', .ptr)) (hne : path ≠ path') :
    Disjoint (dl.pointerBytes sum) (dl.pointerBytes sum') := by
  rw [Set.disjoint_left]
  rintro x ⟨hle, hlt⟩ ⟨hle', hlt'⟩
  have hapart := h.apart hpath hpath' hne
  omega

theorem allocSize_ptr : dl.allocSize .ptr = dl.pointerSize := alignTo_of_dvd fun _ ↦ Nat.dvd_refl _

/-- Pointers have bytes of their own. -/
theorem mem_pointerBytes_self (h : 1 ≤ dl.pointerBits) : offset ∈ dl.pointerBytes offset := by
  have hpos : 0 < dl.pointerSize := Nat.div_pos (by omega) (by decide)
  refine ⟨Nat.le_refl _, ?_⟩
  rw [allocSize_ptr]
  omega

theorem Bounded.descend_lt (h : dl.Bounded ty) (hbits : 1 ≤ dl.pointerBits)
    (hpath : dl.descend? ty path = some (sum, .ptr)) : sum < wordMax := by
  have hself : sum < sum + dl.allocSize .ptr := (mem_pointerBytes_self hbits).2
  have hle := h.descend hpath
  have hsize := h.allocSize_eq ▸ h.exactSize_le
  omega

end DataLayout

/-! ## Element addresses -/

namespace Program

variable {prog : Program} {ty leaf : Ty} {v first : ValueId} {indices : List ValueId} {path : List Nat} {n sum : Nat}

/-- The value is an integer constant of 64 bits. -/
def IsWord (prog : Program) (v : ValueId) (n : Nat) : Prop :=
  ∃ x, prog.value v = .ok x ∧ x.kind = .constant (.int n) ∧ x.ty = .int 64

theorem IsWord.intConstant? (h : prog.IsWord v n) : prog.intConstant? v = .ok (some n) := by
  obtain ⟨x, hx, hkind, -⟩ := h
  have hv : prog.constant? v = .ok (some (.int n)) := constant?_eq_ok_iff.2 (hkind ▸ kindAt_of_value hx)
  simp only [Program.intConstant?, hv]
  rfl

theorem IsWord.signedConstant? (h : prog.IsWord v n) :
    prog.signedConstant? v = .ok (some (Int.bmod n (Nat.pow 2 64))) := by
  obtain ⟨x, hx, -, hty⟩ := id h
  simp only [Program.signedConstant?, h.intConstant?, hx]
  change Except.ok (some (Int.bmod n (Nat.pow 2 (signWidth x.ty)))) = _
  rw [hty]
  rfl

/-- An index into an array is read as a signed number, but is never so large that this matters. -/
theorem bmod_mul_allocSize {dl : DataLayout} {elem : Ty} {length i : Nat} (h : dl.Bounded (.array elem length))
    (hi : i < length) : Int.bmod i (Nat.pow 2 64) * (dl.allocSize elem : Int) = (dl.allocSize elem * i : Nat) := by
  rcases Nat.eq_zero_or_pos (dl.allocSize elem) with hzero | hpos
  · simp [hzero]
  · have hlt : i < Nat.pow 2 63 :=
      calc
        i < length := hi
        _ ≤ dl.allocSize elem * length := Nat.le_mul_of_pos_left length hpos
        _ = dl.exactSize (.array elem length) := by rw [← h.allocSize_array, h.allocSize_eq]
        _ < Nat.pow 2 63 := h.exactSize_lt
    have hmod : Int.bmod i (Nat.pow 2 64) = i := by
      change i < 9223372036854775808 at hlt
      change Int.bmod i 18446744073709551616 = i
      rw [Int.bmod_def]
      omega
    rw [hmod, Int.natCast_mul, Int.mul_comm]

/-- The indices add up to the offset of the field. -/
theorem indexedOffset?_eq (hty : prog.layout.Bounded ty) (hpath : prog.layout.descend? ty path = some (sum, leaf))
    (hindices : List.Forall₂ prog.IsWord indices path) (offset : Int) :
    prog.indexedOffset? ty offset indices = .ok (some (offset + sum)) := by
  induction hindices generalizing ty sum offset with
  | nil =>
    obtain ⟨rfl, -⟩ : 0 = sum ∧ ty = leaf := by simpa [DataLayout.descend?] using hpath
    simp [indexedOffset?, pure, Except.pure]
  | @cons index i indices path hindex _ ih =>
    obtain ⟨elemOffset, elem, rest, helem, hrest, rfl⟩ := DataLayout.descend?_cons_eq_some_iff.1 hpath
    have hrest := ih (hty.element helem).1 hrest (offset + elemOffset)
    rw [Int.add_assoc, ← Int.natCast_add] at hrest
    rcases DataLayout.element?_cases helem with ⟨fields, rfl⟩ | ⟨length, rfl⟩
    · refine Query.bind_eq_ok_iff.2 ⟨_, hindex.intConstant?, ?_⟩
      simpa only [helem] using hrest
    · obtain ⟨⟨hlt, -⟩, rfl, -⟩ := DataLayout.element?_array_eq_some_iff.1 helem
      refine Query.bind_eq_ok_iff.2 ⟨_, hindex.signedConstant?, ?_⟩
      dsimp only
      rw [bmod_mul_allocSize hty hlt]
      exact hrest

theorem constantOffset?_eq (hty : prog.layout.Bounded ty) (hpath : prog.layout.descend? ty path = some (sum, leaf))
    (hfirst : prog.IsWord first 0) (hindices : List.Forall₂ prog.IsWord indices path) :
    prog.constantOffset? ty (first :: indices) = .ok (some sum) := by
  refine Query.bind_eq_ok_iff.2 ⟨_, hfirst.signedConstant?, ?_⟩
  simpa using indexedOffset?_eq hty hpath hindices 0

/-! ## Initializers -/

/-- The value is not zero as a whole. -/
abbrev Nonzero (prog : Program) (v : ValueId) : Prop := prog.isZero v = .ok false

/-- The leaf is what an initializer of the type holds for the pointer that the indices lead to.  A zero
of any type stands for all its pointers.  Aggregates among the elements are looked into if they satisfy
the condition. -/
inductive Leaf (prog : Program) (inside : ValueId → Prop) : ValueId → Ty → (path : List Nat) → ValueId → Prop
  | pointer {init : ValueId} : Leaf prog inside init .ptr [] init
  | zero {init : ValueId} {ty : Ty} {path : List Nat} {sum : Nat} (hinit : prog.kindAt init = some (.constant .zero))
      (hpath : prog.layout.descend? ty path = some (sum, .ptr)) : Leaf prog inside init ty path init
  | element {init elem leaf : ValueId} {elems : List ValueId} {ty elemTy : Ty} {index offset : Nat} {path : List Nat}
      (hinit : prog.kindAt init = some (.constant (.aggregate elems))) (helem : elems[index]? = some elem)
      (hty : prog.layout.element? ty index = some (offset, elemTy)) (hinside : elemTy.isPointer = false → inside elem)
      (hleaf : Leaf prog inside elem elemTy path leaf) : Leaf prog inside init ty (index :: path) leaf

/-- A pointer field of an initialized global: the indices that lead to it, its offset and its value. -/
structure PointerField where
  path : List Nat
  offset : Nat
  value : ValueId

/-- The field as one of an aggregate that has it in the element of that index. -/
def PointerField.under (index : Nat) (x : PointerField) : PointerField := { x with path := index :: x.path }

/-- The fields are those that the initializer has leaves for, one after the other, and each of them at the
right place behind an offset.  Elements that are zero as a whole are not looked into. -/
structure Lists (prog : Program) (init : ValueId) (ty : Ty) (offset : Nat) (fields : List PointerField) : Prop where
  leaf : ∀ x ∈ fields, prog.Leaf prog.Nonzero init ty x.path x.value
  offset : ∀ x ∈ fields, ∃ sum, prog.layout.descend? ty x.path = some (sum, .ptr) ∧
    x.offset = min (offset + sum) wordMax
  all : ∀ path leaf, prog.Leaf prog.Nonzero init ty path leaf → ∃ x ∈ fields, x.path = path ∧ x.value = leaf
  sorted : (fields.map (·.path)).Pairwise (· < ·)

theorem Lists.nodup {init : ValueId} {offset : Nat} {fields : List PointerField}
    (h : prog.Lists init ty offset fields) : (fields.map (·.path)).Nodup :=
  h.sorted.imp (S := (· ≠ ·)) fun hlt heq ↦ List.lt_irrefl _ (heq ▸ hlt)

variable {inside : ValueId → Prop} {init value : ValueId} {offset : Nat} {elems : List ValueId}

theorem Leaf.descend (h : prog.Leaf inside init ty path value) :
    ∃ sum, prog.layout.descend? ty path = some (sum, .ptr) := by
  induction h with
  | pointer => exact ⟨0, rfl⟩
  | zero _ hpath => exact ⟨_, hpath⟩
  | element _ _ hty _ _ ih =>
    obtain ⟨rest, hrest⟩ := ih
    exact ⟨_, DataLayout.descend?_cons_eq_some_iff.2 ⟨_, _, rest, hty, hrest, rfl⟩⟩

/-- A pointer is its own leaf. -/
theorem Leaf.eq_of_ptr (h : prog.Leaf inside init .ptr path value) : path = [] ∧ value = init := by
  obtain ⟨sum, hsum⟩ := h.descend
  obtain ⟨rfl, -⟩ := DataLayout.descend?_ptr hsum
  cases h with
  | pointer | zero => exact ⟨rfl, rfl⟩

theorem isZero_of_zero (hv : prog.kindAt v = some (.constant .zero)) : prog.isZero v = .ok true := by
  simp only [isZero, isZeroWithin, constant?_eq_ok_iff.2 hv]
  rfl

/-- Only aggregates and zeros hold pointers without being one. -/
theorem Leaf.eq_ptr (h : prog.Leaf inside init ty path value)
    (hinit : ∀ elems, prog.kindAt init ≠ some (.constant (.aggregate elems))) (hzero : prog.isZero init = .ok false) :
    ty = .ptr := by
  cases h with
  | pointer => rfl
  | zero hkind => simp [isZero_of_zero hkind] at hzero
  | element hkind => exact absurd hkind (hinit _)

theorem Leaf.isPointer_or_isAggregate (h : prog.Leaf inside init ty path value) :
    ty.isPointer = true ∨ ty.isAggregate = true := by
  obtain ⟨sum, hsum⟩ := h.descend
  cases path with
  | nil =>
    obtain rfl : ty = .ptr := by simpa [DataLayout.descend?] using congrArg (Option.map Prod.snd) hsum
    exact .inl rfl
  | cons i path =>
    obtain ⟨_, _, _, helem, -⟩ := DataLayout.descend?_cons_eq_some_iff.1 hsum
    rcases DataLayout.element?_cases helem with ⟨fields, rfl⟩ | ⟨length, rfl⟩
    · exact .inr rfl
    · exact .inr rfl

theorem Lists.pointer (hoffset : offset ≤ wordMax) : prog.Lists init .ptr offset [⟨[], offset, init⟩] where
  leaf x hx := by
    obtain rfl := List.mem_singleton.1 hx
    exact .pointer
  offset x hx := by
    obtain rfl := List.mem_singleton.1 hx
    exact ⟨0, rfl, (Nat.min_eq_left hoffset).symm⟩
  all path leaf h := by
    obtain ⟨rfl, rfl⟩ := h.eq_of_ptr
    exact ⟨_, List.mem_singleton_self _, rfl, rfl⟩
  sorted := List.pairwise_singleton _ _

theorem Lists.empty (h : ∀ path leaf, ¬prog.Leaf prog.Nonzero init ty path leaf) :
    prog.Lists init ty offset [] where
  leaf := by simp
  offset := by simp
  all path leaf hleaf := absurd hleaf (h path leaf)
  sorted := .nil

/-- The fields are those of one element of an aggregate. -/
def ListsElement (prog : Program) (ty : Ty) (offset : Nat) (x : ValueId × Nat) (fields : List PointerField) : Prop :=
  ∃ elemOffset elemTy inner, prog.layout.element? ty x.2 = some (elemOffset, elemTy) ∧
    fields = inner.map (PointerField.under x.2) ∧
    ((elemTy.isPointer = false → prog.Nonzero x.1) → prog.Lists x.1 elemTy (min (offset + elemOffset) wordMax) inner) ∧
    (¬(elemTy.isPointer = false → prog.Nonzero x.1) → inner = [])

/-- The fields are those of the elements, one after the other. -/
inductive ListsElements (prog : Program) (ty : Ty) (offset : Nat) : List (ValueId × Nat) → List PointerField → Prop
  | nil : ListsElements prog ty offset [] []
  | cons {x : ValueId × Nat} {xs : List (ValueId × Nat)} {fields rest : List PointerField}
      (hfirst : prog.ListsElement ty offset x fields) (hrest : ListsElements prog ty offset xs rest) :
      ListsElements prog ty offset (x :: xs) (fields ++ rest)

variable {fields : List PointerField} {x : ValueId × Nat} {xs : List (ValueId × Nat)} {y : PointerField}

namespace ListsElement

theorem path_eq (h : prog.ListsElement ty offset x fields) (hy : y ∈ fields) : ∃ path, y.path = x.2 :: path := by
  obtain ⟨_, _, inner, -, rfl, -⟩ := h
  obtain ⟨z, -, rfl⟩ := List.mem_map.1 hy
  exact ⟨z.path, rfl⟩

theorem sorted (h : prog.ListsElement ty offset x fields) : (fields.map (·.path)).Pairwise (· < ·) := by
  obtain ⟨_, elemTy, inner, -, rfl, hlists, hempty⟩ := h
  by_cases hinside : elemTy.isPointer = false → prog.Nonzero x.1
  · have hpaths : (inner.map (PointerField.under x.2)).map (·.path) = (inner.map (·.path)).map (x.2 :: ·) := by
      simp [PointerField.under]
    rw [hpaths, List.pairwise_map]
    exact (hlists hinside).sorted.imp fun hlt ↦ List.cons_lt_cons_iff.2 (.inr ⟨rfl, hlt⟩)
  · simp [hempty hinside]

variable (h : prog.ListsElement ty offset x fields) (hinit : prog.kindAt init = some (.constant (.aggregate elems)))
  (hx : elems[x.2]? = some x.1)

include h

include hinit hx in
theorem sound (hy : y ∈ fields) : prog.Leaf prog.Nonzero init ty y.path y.value ∧
    ∃ sum, prog.layout.descend? ty y.path = some (sum, .ptr) ∧ y.offset = min (offset + sum) wordMax := by
  obtain ⟨elemOffset, elemTy, inner, hty, rfl, hlists, hempty⟩ := h
  obtain ⟨z, hz, rfl⟩ := List.mem_map.1 hy
  by_cases hinside : elemTy.isPointer = false → prog.Nonzero x.1
  · obtain ⟨sum, hsum, hoffset⟩ := (hlists hinside).offset z hz
    refine ⟨.element hinit hx hty hinside ((hlists hinside).leaf z hz), elemOffset + sum,
      DataLayout.descend?_cons_eq_some_iff.2 ⟨_, _, sum, hty, hsum, rfl⟩, ?_⟩
    change z.offset = _
    omega
  · simp [hempty hinside] at hz

theorem complete {elemOffset : Nat} {elemTy : Ty} (hty : prog.layout.element? ty x.2 = some (elemOffset, elemTy))
    (hinside : elemTy.isPointer = false → prog.Nonzero x.1)
    (hleaf : prog.Leaf prog.Nonzero x.1 elemTy path value) :
    ∃ y ∈ fields, y.path = x.2 :: path ∧ y.value = value := by
  obtain ⟨_, _, inner, hty', rfl, hlists, -⟩ := h
  obtain ⟨rfl, rfl⟩ := Prod.mk.inj (Option.mem_unique hty hty')
  obtain ⟨z, hz, rfl, rfl⟩ := (hlists hinside).all path value hleaf
  exact ⟨_, List.mem_map_of_mem hz, rfl, rfl⟩

end ListsElement

namespace ListsElements

theorem exists_of_mem (h : prog.ListsElements ty offset xs fields) (hy : y ∈ fields) :
    ∃ x ∈ xs, ∃ part, prog.ListsElement ty offset x part ∧ y ∈ part := by
  induction h with
  | nil => contradiction
  | cons hfirst _ ih =>
    rcases List.mem_append.1 hy with hy | hy
    · exact ⟨_, List.mem_cons_self, _, hfirst, hy⟩
    · obtain ⟨x, hx, hpart⟩ := ih hy
      exact ⟨x, List.mem_cons_of_mem _ hx, hpart⟩

theorem exists_part (h : prog.ListsElements ty offset xs fields) (hx : x ∈ xs) :
    ∃ part, prog.ListsElement ty offset x part ∧ part ⊆ fields := by
  induction h with
  | nil => contradiction
  | cons hfirst _ ih =>
    rcases List.mem_cons.1 hx with rfl | hx
    · exact ⟨_, hfirst, List.subset_append_left _ _⟩
    · obtain ⟨part, hpart, hsub⟩ := ih hx
      exact ⟨part, hpart, List.subset_append_of_subset_right _ hsub⟩

/-- Paths of different elements differ in their first index. -/
theorem sorted (h : prog.ListsElements ty offset xs fields) (hxs : (xs.map (·.2)).Pairwise (· < ·)) :
    (fields.map (·.path)).Pairwise (· < ·) := by
  induction h with
  | nil => exact .nil
  | cons hfirst hrest ih =>
    rw [List.map_cons, List.pairwise_cons] at hxs
    rw [List.map_append, List.pairwise_append]
    refine ⟨hfirst.sorted, ih hxs.2, ?_⟩
    intro path hpath path' hpath'
    obtain ⟨y, hy, rfl⟩ := List.mem_map.1 hpath
    obtain ⟨y', hy', rfl⟩ := List.mem_map.1 hpath'
    obtain ⟨x, hx, part, hpart, hmem⟩ := hrest.exists_of_mem hy'
    obtain ⟨_, hy⟩ := hfirst.path_eq hy
    obtain ⟨_, hy'⟩ := hpart.path_eq hmem
    rw [hy, hy', List.cons_lt_cons_iff]
    exact .inl (hxs.1 x.2 (List.mem_map_of_mem hx))

end ListsElements

/-- The fields of an aggregate are those of its elements. -/
theorem Lists.aggregate (hinit : prog.kindAt init = some (.constant (.aggregate elems))) (hzero : prog.Nonzero init)
    (h : prog.ListsElements ty offset elems.zipIdx fields) : prog.Lists init ty offset fields := by
  have hsound (y : PointerField) (hy : y ∈ fields) :
      prog.Leaf prog.Nonzero init ty y.path y.value ∧
        ∃ sum, prog.layout.descend? ty y.path = some (sum, .ptr) ∧ y.offset = min (offset + sum) wordMax := by
    obtain ⟨x, hx, part, hpart, hmem⟩ := h.exists_of_mem hy
    exact hpart.sound hinit (List.mem_zipIdx_iff_getElem?.1 hx) hmem
  refine ⟨fun y hy ↦ (hsound y hy).1, fun y hy ↦ (hsound y hy).2, fun path leaf hleaf ↦ ?_, h.sorted ?_⟩
  · cases hleaf with
    | pointer =>
      -- No pointer has elements, and an aggregate without elements is zero.
      cases elems with
      | nil =>
        have htrue : prog.isZero init = .ok true := by
          simp only [isZero, isZeroWithin, constant?_eq_ok_iff.2 hinit]
          rfl
        exact absurd (hzero.symm.trans htrue) (by simp)
      | cons elem elems =>
        cases h with
        | cons hfirst _ =>
          obtain ⟨_, _, _, hty, -⟩ := hfirst
          contradiction
    | zero hkind => simp [hinit] at hkind
    | @element _ elem _ elems' _ _ index _ _ hkind helem hty hinside hleaf =>
      obtain rfl : elems = elems' := by simpa [hinit] using hkind
      obtain ⟨part, hpart, hsub⟩ := h.exists_part (List.mk_mem_zipIdx_iff_getElem?.2 helem)
      obtain ⟨y, hy, hyz⟩ := hpart.complete hty hinside hleaf
      exact ⟨y, hsub hy, hyz⟩
  · rw [List.zipIdx_map_snd]
    exact List.pairwise_lt_range'

end Program

namespace Lower

open Stateful Program

variable {prog : Program} {ask : Provider} {global : Global} {id last : NodeId} {s : Lowering} {ty : Ty}
  {init : ValueId} {offset : Nat}

theorem unhandledInitializer_ensures {α : Type} {Q : α → Lowering → Prop} :
    Ensures (unhandledInitializer prog global init) s Q :=
  .bind_lift fun _ _ _ _ h ↦ by contradiction

/-- What is stored for the elements of an aggregate is stored for one after the other. -/
theorem storeElements (prog : Program) (ty : Ty) (offset : Nat) {store : NodeId → ValueId × Nat → Lower NodeId}
    {xs : List (ValueId × Nat)} (hstep : ∀ x ∈ xs, ∀ last s, Ensures (store last x) s fun last' t ↦
      ∃ fields, prog.ListsElement ty offset x fields ∧
        fields.foldlM (fun last y ↦ storeInitial ask y.value id y.offset last) last s = .ok last' t) :
    Ensures (xs.foldlM store last) s fun last' t ↦ ∃ fields, prog.ListsElements ty offset xs fields ∧
      fields.foldlM (fun last y ↦ storeInitial ask y.value id y.offset last) last s = .ok last' t := by
  induction xs generalizing last s with
  | nil => exact fun last' t h ↦ ⟨[], .nil, h⟩
  | cons x xs ih =>
    rw [List.foldlM_cons]
    refine (hstep x List.mem_cons_self last s).bind fun middle u ⟨fields, hfields, hstores⟩ ↦ ?_
    refine (ih fun x hx ↦ hstep x (List.mem_cons_of_mem _ hx)).mono fun last' t ⟨rest, hrest, hstores'⟩ ↦ ?_
    refine ⟨fields ++ rest, .cons hfields hrest, ?_⟩
    rw [List.foldlM_append, bind_eq_ok_iff]
    exact ⟨middle, u, hstores, hstores'⟩

/-- An initializer that is not zero is stored field by field. -/
theorem lowerInitializer_stores {budget : Nat} (hzero : prog.Nonzero init) (hoffset : offset ≤ wordMax) :
    Ensures (lowerInitializer prog ask global id budget init ty offset last) s fun last' t ↦
      ∃ fields, prog.Lists init ty offset fields ∧
        fields.foldlM (fun last y ↦ storeInitial ask y.value id y.offset last) last s = .ok last' t := by
  induction budget generalizing init ty offset last s with
  | zero =>
    intro _ _ h
    contradiction
  | succ budget ih =>
    -- What is no aggregate is stored as a whole, or holds no pointers.
    have hscalar {init : ValueId} {ty : Ty} {offset : Nat} {s : Lowering} {last : NodeId} (hoffset : offset ≤ wordMax)
        (hty : ty.isPointer = true) : Ensures (storeInitial ask init id offset last) s fun last' t ↦
          ∃ fields, prog.Lists init ty offset fields ∧
            fields.foldlM (fun last y ↦ storeInitial ask y.value id y.offset last) last s = .ok last' t := by
      obtain rfl : ty = .ptr := by cases ty <;> simp_all [Ty.isPointer]
      intro last' t h
      refine ⟨_, .pointer hoffset, ?_⟩
      rw [List.foldlM_cons, bind_eq_ok_iff]
      exact ⟨last', t, h, rfl⟩
    have hskip (hnot : ∀ elems, prog.kindAt init ≠ some (.constant (.aggregate elems))) (hty : ¬ty.isPointer = true) :
        ∃ fields, prog.Lists init ty offset fields ∧
          fields.foldlM (fun last y ↦ storeInitial ask y.value id y.offset last) last s = .ok last s :=
      ⟨[], .empty fun path leaf hleaf ↦ hty (by rw [hleaf.eq_ptr hnot hzero]; rfl), rfl⟩
    unfold lowerInitializer
    refine .bind_lift fun c? hc ↦ ?_
    split
    · rename_i elems
      have hinit := constant?_eq_ok_iff.1 hc
      refine (storeElements prog ty offset fun x _ last s ↦ ?_).mono
        fun last' t ⟨fields, hfields, hstores⟩ ↦ ⟨fields, .aggregate hinit hzero hfields, hstores⟩
      dsimp only
      split
      · exact unhandledInitializer_ensures
      rename_i elemOffset elemTy hty
      have hplace : min (offset + elemOffset) wordMax ≤ wordMax := Nat.min_le_right _ _
      -- The paths of the element's own fields get the index of the element in front.
      have hdone {inner : List PointerField} {last' : NodeId} {t : Lowering}
          (hinner : (elemTy.isPointer = false → prog.Nonzero x.1) →
            prog.Lists x.1 elemTy (min (offset + elemOffset) wordMax) inner)
          (hempty : ¬(elemTy.isPointer = false → prog.Nonzero x.1) → inner = [])
          (hstores : inner.foldlM (fun last y ↦ storeInitial ask y.value id y.offset last) last s = .ok last' t) :
          ∃ fields, prog.ListsElement ty offset x fields ∧
            fields.foldlM (fun last y ↦ storeInitial ask y.value id y.offset last) last s = .ok last' t :=
        ⟨_, ⟨elemOffset, elemTy, inner, hty, rfl, hinner, hempty⟩, by rw [List.foldlM_map]; exact hstores⟩
      split
      · rename_i hpointer
        exact (hscalar hplace hpointer).mono fun last' t ⟨inner, hinner, hstores⟩ ↦
          hdone (fun _ ↦ hinner) (fun hnot ↦ absurd (by simp [hpointer]) hnot) hstores
      · rename_i hpointer
        refine .bind_lift fun zero helem ↦ ?_
        split
        · rename_i hlook
          obtain ⟨-, rfl⟩ : _ ∧ zero = false := by simpa using hlook
          exact (ih helem hplace).mono fun last' t ⟨inner, hinner, hstores⟩ ↦
            hdone (fun _ ↦ hinner) (fun hnot ↦ absurd (fun _ ↦ helem) hnot) hstores
        · rename_i hlook
          refine .pure (hdone (fun hinside ↦ .empty fun path leaf hleaf ↦ ?_) (fun _ ↦ rfl) rfl)
          -- An element that is not zero is passed over only if it is no aggregate.
          have hnonzero : zero = false := Except.ok.inj (helem.symm.trans (hinside (by simpa using hpointer)))
          rcases hleaf.isPointer_or_isAggregate with h | h
          · exact hpointer h
          · exact hlook (by simp [h, hnonzero])
    · split
      · exact unhandledInitializer_ensures
      · rename_i hty
        exact .pure (hskip (by simp [constant?_eq_ok_iff.1 hc]) hty)
    · rename_i c hnot _
      split
      · rename_i hty
        exact hscalar hoffset hty
      · rename_i hty
        refine .pure (hskip (fun elems hkind ↦ ?_) hty)
        obtain rfl : Constant.aggregate elems = c := by simpa [constant?_eq_ok_iff.2 hkind] using hc
        exact hnot elems rfl
    · split
      · rename_i hty
        exact hscalar hoffset hty
      · exact unhandledInitializer_ensures

/-- The lowered offset of a constant element address. -/
theorem elementOffset_eq {v : ValueId} {indices : List ValueId} {sum : Nat}
    (h : prog.constantOffset? ty indices = .ok (some sum)) (hfits : prog.layout.fitsPointer sum = true) :
    Ensures (elementOffset prog v ty indices) s fun o t ↦ o = .ofNat sum ∧ t = s := by
  refine .bind_lift fun sum? hsum ↦ ?_
  obtain rfl := Except.ok.inj (h.symm.trans hsum)
  dsimp only
  rw [if_pos hfits]
  exact .pure ⟨rfl, rfl⟩

/-- Element addresses with constant indices agree with the layout of initializers: the indices of a field
add up to its offset, which is in bounds; different pointers share no bytes; and of all stores of an
initializer exactly the one for the field that the indices select meets the address. -/
theorem element_addresses_meet_fields (prog : Program) (ty : Ty) (hbits : 1 ≤ prog.layout.pointerBits)
    (hty : prog.layout.Bounded ty) :
    (∀ path sum leaf, prog.layout.descend? ty path = some (sum, leaf) →
      sum + prog.layout.allocSize leaf ≤ prog.layout.allocSize ty ∧
      ∀ first indices, prog.IsWord first 0 → List.Forall₂ prog.IsWord indices path →
        prog.constantOffset? ty (first :: indices) = .ok (some sum)) ∧
    (∀ path path' sum sum', prog.layout.descend? ty path = some (sum, .ptr) →
      prog.layout.descend? ty path' = some (sum', .ptr) → path ≠ path' →
        Disjoint (prog.layout.pointerBytes sum) (prog.layout.pointerBytes sum')) ∧
    ∀ ask global id budget init last s last' t, prog.Nonzero init →
      lowerInitializer prog ask global id budget init ty 0 last s = .ok last' t → ∃ fields : List PointerField,
        fields.foldlM (fun last x ↦ storeInitial ask x.value id x.offset last) last s = .ok last' t ∧
        (fields.map (·.path)).Nodup ∧
        (∀ path value, prog.Leaf prog.Nonzero init ty path value ↔
          ∃ x ∈ fields, x.path = path ∧ x.value = value) ∧
        ∀ path sum, prog.layout.descend? ty path = some (sum, .ptr) → ∀ x ∈ fields,
          (x.path = path ↔ ¬Disjoint (prog.layout.pointerBytes x.offset) (prog.layout.pointerBytes sum)) ∧
          ∀ first indices v u o u', prog.IsWord first 0 → List.Forall₂ prog.IsWord indices path →
            prog.layout.fitsPointer sum = true → elementOffset prog v ty (first :: indices) u = .ok o u' →
              (x.path = path ↔ Offset.ofNat x.offset = o) := by
  refine ⟨fun path sum leaf hpath ↦ ⟨hty.descend hpath, fun first indices ↦ constantOffset?_eq hty hpath⟩,
    fun path path' sum sum' ↦ hty.disjoint, ?_⟩
  intro ask global id budget init last s last' t hzero h
  obtain ⟨fields, hlists, hstores⟩ := lowerInitializer_stores hzero (Nat.zero_le _) last' t h
  refine ⟨fields, hstores, hlists.nodup, fun path value ↦ ⟨hlists.all path value, ?_⟩, ?_⟩
  · rintro ⟨x, hx, rfl, rfl⟩
    exact hlists.leaf x hx
  · intro path sum hpath x hx
    obtain ⟨place, hplace, hoffset⟩ := hlists.offset x hx
    have hlt := hty.descend_lt hbits hplace
    rw [Nat.zero_add, Nat.min_eq_left hlt.le] at hoffset
    -- Fields at the same offset share a byte, so they are the same.
    have hsame : x.path = path ↔ x.offset = sum := by
      constructor
      · rintro rfl
        rw [hoffset]
        exact congrArg Prod.fst (Option.mem_unique hplace hpath)
      · intro heq
        by_contra hne
        have hmem : sum ∈ prog.layout.pointerBytes sum := DataLayout.mem_pointerBytes_self hbits
        exact (hty.disjoint hplace hpath hne).ne_of_mem (by rwa [← hoffset, heq]) hmem rfl
    refine ⟨⟨fun heq ↦ ?_, fun hmeets ↦ ?_⟩, fun first indices v u o u' hfirst hindices hfits ho ↦ ?_⟩
    · rw [hsame.1 heq]
      exact Set.not_disjoint_iff.2 ⟨sum, DataLayout.mem_pointerBytes_self hbits, DataLayout.mem_pointerBytes_self hbits⟩
    · by_contra hne
      exact hmeets (hoffset ▸ hty.disjoint hplace hpath hne)
    · obtain ⟨rfl, -⟩ := elementOffset_eq (constantOffset?_eq hty hpath hfirst hindices) hfits o u' ho
      have hsum : sum < Offset.limit := hty.descend_lt hbits hpath
      have hx : x.offset < Offset.limit := hoffset ▸ hlt
      simp only [hsame, Offset.ofNat, hsum, hx, dif_pos, Offset.known.injEq]

/-- Pointers of three bytes in an array of structs and behind it. -/
def shelfTy : Ty := .struct [.int 8, .array (.struct [.int 16, .ptr]) 2, .ptr]

/-- A global of that type, with an initializer for each of its pointers. -/
def shelf : Program :=
  { Program.assembled
      [.constant (.int 0) (.int 64), .constant (.int 1) (.int 64), .constant (.int 2) (.int 64),
        .global "shelf" shelfTy,
        .constant (.int 7) (.int 16), .constant (.aggregate [4, 3]) (.struct [.int 16, .ptr]), .constant .null .ptr,
        .constant (.aggregate [4, 6]) (.struct [.int 16, .ptr]),
        .constant (.aggregate [5, 7]) (.array (.struct [.int 16, .ptr]) 2), .constant (.int 1) (.int 8),
        .constant (.aggregate [9, 8, 3]) shelfTy] with layout := ⟨24⟩ }

/-- The memory of the global is there already. -/
def shelfMemory : Lowering :=
  { graph := (Graph.sentinels.createObject .alloc).2, nodes := (∅ : OrderedMap ValueId NodeId).insert 3 2 }

theorem element_addresses_meet_fields_shelf : shelf.layout.Bounded shelfTy ∧
    shelf.constantOffset? shelfTy [0, 1, 1, 1] = .ok (some 12) ∧
    Disjoint (shelf.layout.pointerBytes 6) (shelf.layout.pointerBytes 12) ∧
    ∃ last t, ∃ fields : List PointerField,
      fields.foldlM (fun last x ↦ storeInitial (provider shelf 2) x.value 2 x.offset last) 2 shelfMemory = .ok last t ∧
      ∃ x ∈ fields, x.path = [1, 1, 1] ∧ x.value = 6 ∧
        ¬Disjoint (shelf.layout.pointerBytes x.offset) (shelf.layout.pointerBytes 12) := by
  have hbounded : shelf.layout.Bounded shelfTy := by decide
  obtain ⟨hoffsets, hdisjoint, hstores⟩ := element_addresses_meet_fields shelf shelfTy (by decide) hbounded
  have hword (i : Nat) (hi : i < 2) : shelf.IsWord i i := by
    rcases Nat.lt_succ_iff_lt_or_eq.1 hi with hi | rfl
    · obtain rfl := Nat.lt_one_iff.1 hi
      exact ⟨_, rfl, rfl, rfl⟩
    · exact ⟨_, rfl, rfl, rfl⟩
  have hone : shelf.IsWord 1 1 := hword 1 (by decide)
  have hrun : succeeds (fun _ _ ↦ true)
      (lowerInitializer shelf (provider shelf 2) default 2 4 10 shelfTy 0 2 shelfMemory) = true := by decide +kernel
  obtain ⟨last, t, hrun, -⟩ := ok_of_succeeds hrun
  obtain ⟨fields, hfold, -, hleaves, hmeets⟩ := hstores _ _ _ _ _ _ _ _ _ rfl hrun
  have hrow : shelf.layout.element? shelfTy 1 = some (3, .array (.struct [.int 16, .ptr]) 2) := rfl
  have hpair : shelf.layout.element? (.array (.struct [.int 16, .ptr]) 2) 1 = some (6, .struct [.int 16, .ptr]) := rfl
  have hptr : shelf.layout.element? (.struct [.int 16, .ptr]) 1 = some (3, .ptr) := rfl
  have hleaf : shelf.Leaf shelf.Nonzero 10 shelfTy [1, 1, 1] 6 :=
    .element (show shelf.kindAt 10 = some (.constant (.aggregate [9, 8, 3])) from rfl) rfl hrow (fun _ ↦ rfl) <|
      .element (show shelf.kindAt 8 = some (.constant (.aggregate [5, 7])) from rfl) rfl hpair (fun _ ↦ rfl) <|
        .element (show shelf.kindAt 7 = some (.constant (.aggregate [4, 6])) from rfl) rfl hptr
          (fun h ↦ absurd h (by decide)) .pointer
  obtain ⟨x, hx, hpath, hvalue⟩ := (hleaves [1, 1, 1] 6).1 hleaf
  exact ⟨hbounded,
    (hoffsets [1, 1, 1] 12 .ptr rfl).2 0 [1, 1, 1] (hword 0 (by decide)) (.cons hone (.cons hone (.cons hone .nil))),
    hdisjoint [1, 0, 1] [1, 1, 1] 6 12 rfl rfl (by decide), last, t, fields, hfold, x, hx, hpath, hvalue,
    (hmeets [1, 1, 1] 12 rfl x hx).1.1 hpath⟩

end Lower

end PointsTo
