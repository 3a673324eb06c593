import Mathlib.Order.Bounds.Basic
import PointsTo.Ty.Layout

/-!
# How types are laid out in memory

The fields of a struct follow each other, each at the least offset that its alignment allows, and the
whole struct is padded to its own alignment.  The elements of an array follow each other without gaps,
because every type is padded to its alignment already.

Sizes saturate at the largest word.  Types whose sizes in numbers without a bound stay below half of
that are laid out as if there were no bound.
-/

namespace PointsTo

/-! ## Rounding up -/

theorem le_alignTo (n a : Nat) : n ≤ alignTo n a := by
  unfold alignTo
  split
  · exact Nat.le_refl n
  · have hlt : n + a - 1 < (n + a - 1) / a * a + a := Nat.lt_div_mul_add (by omega)
    omega

theorem dvd_alignTo {n a : Nat} (ha : 1 < a) : a ∣ alignTo n a := by
  rw [alignTo, if_neg (Nat.not_le.2 ha)]
  exact Nat.dvd_mul_left a _

/-- No multiple in between is passed over. -/
theorem alignTo_isLeast (n a : Nat) : IsLeast {m | n ≤ m ∧ (1 < a → a ∣ m)} (alignTo n a) := by
  refine ⟨⟨le_alignTo n a, dvd_alignTo⟩, fun m hm ↦ ?_⟩
  obtain ⟨hle, hdvd⟩ := hm
  unfold alignTo
  split
  · exact hle
  · rename_i ha
    obtain ⟨k, rfl⟩ := hdvd (Nat.lt_of_not_le ha)
    rw [Nat.mul_comm a k]
    refine Nat.mul_le_mul_right a (Nat.le_of_lt_succ ((Nat.div_lt_iff_lt_mul (by omega)).2 ?_))
    rw [Nat.succ_mul, Nat.mul_comm k a]
    omega

/-- What is a multiple already stays where it is. -/
theorem alignTo_of_dvd {n a : Nat} (h : 1 < a → a ∣ n) : alignTo n a = n :=
  Nat.le_antisymm ((alignTo_isLeast n a).2 ⟨Nat.le_refl n, h⟩) (le_alignTo n a)

theorem alignTo_max_one (n a : Nat) : alignTo n (max 1 a) = alignTo n a := by
  by_cases ha : a ≤ 1
  · simp [alignTo, ha]
  · rw [Nat.max_eq_right (by omega)]

/-! ## Types inside of types -/

/-- A property of all types follows from what it says about the parts of each. -/
@[elab_as_elim]
theorem Ty.inductionOn {P : Ty → Prop} (ty : Ty) (void : P .void) (int : ∀ bits, P (.int bits))
    (float : ∀ bits, P (.float bits)) (ptr : P .ptr) (array : ∀ elem length, P elem → P (.array elem length))
    (struct : ∀ fields, (∀ field ∈ fields, P field) → P (.struct fields)) : P ty :=
  @Ty.rec P (fun fields ↦ ∀ field ∈ fields, P field) void int float ptr array struct
    (fun _ h ↦ by simp at h) (fun _ _ hfield hfields ↦ List.forall_mem_cons.2 ⟨hfield, hfields⟩) ty

namespace Ty

mutual

/-- The type and all types that occur in it, at any depth. -/
def parts : Ty → List Ty
  | array elem length => array elem length :: elem.parts
  | struct fields => struct fields :: partsOfAll fields
  | ty => [ty]

def partsOfAll : List Ty → List Ty
  | [] => []
  | field :: rest => field.parts ++ partsOfAll rest

end

theorem self_mem_parts (ty : Ty) : ty ∈ ty.parts := by
  cases ty <;> simp [parts]

theorem mem_partsOfAll {part field : Ty} {fields : List Ty} (hpart : part ∈ field.parts) (hfield : field ∈ fields) :
    part ∈ partsOfAll fields := by
  induction fields with
  | nil => contradiction
  | cons first rest ih =>
    rw [partsOfAll, List.mem_append]
    rcases List.mem_cons.1 hfield with rfl | hfield
    · exact .inl hpart
    · exact .inr (ih hfield)

end Ty

namespace DataLayout

variable (dl : DataLayout)

mutual

/-- The stored size in numbers without a bound. -/
def exactStore : Ty → Nat
  | .void => 0
  | .int bits => bytesOfBits bits
  | .float bits => bytesOfBits bits
  | .ptr => dl.pointerSize
  | .array elem length => dl.pad elem (exactStore elem) * length
  | .struct fields => (exactFrom fields 0 1).size

/-- The layout of fields in numbers without a bound. -/
def exactFrom : List Ty → (start align : Nat) → StructLayout
  | [], start, align => ⟨[], alignTo start align, align⟩
  | field :: rest, start, align =>
    let fieldAlign := dl.align field
    let offset := alignTo start fieldAlign
    let layout := exactFrom rest (offset + dl.pad field (exactStore field)) (max align fieldAlign)
    { layout with offsets := offset :: layout.offsets }

end

/-- The size in memory in numbers without a bound. -/
def exactSize (ty : Ty) : Nat := dl.pad ty (dl.exactStore ty)

/-- The type and all types in it are smaller than half of the memory that words can address. -/
def Bounded (ty : Ty) : Prop := ∀ part ∈ ty.parts, dl.exactSize part < Nat.pow 2 63

instance (ty : Ty) : Decidable (dl.Bounded ty) := List.decidableBAll _ _

/-- Each field has the least offset that its alignment allows behind the field before it, the first
behind `start`, and the last one ends at `stop`. -/
inductive Packed : (start : Nat) → List Ty → (offsets : List Nat) → (stop : Nat) → Prop
  | nil {start : Nat} : Packed start [] [] start
  | cons {start stop offset : Nat} {field : Ty} {fields : List Ty} {offsets : List Nat}
      (hoffset : IsLeast {m | start ≤ m ∧ (1 < dl.align field → dl.align field ∣ m)} offset)
      (hrest : Packed (offset + dl.allocSize field) fields offsets stop) :
      Packed start (field :: fields) (offset :: offsets) stop

variable {dl} {ty item : Ty} {fields : List Ty} {offsets : List Nat} {length start stop a : Nat}

/-! ## Sizes below the bound -/

theorem Bounded.elem (h : dl.Bounded (.array item length)) : dl.Bounded item :=
  fun part hpart ↦ h part (by simp [Ty.parts, hpart])

theorem Bounded.field {field : Ty} (h : dl.Bounded (.struct fields)) (hfield : field ∈ fields) : dl.Bounded field :=
  fun part hpart ↦ h part (by simp [Ty.parts, Ty.mem_partsOfAll hpart hfield])

theorem Bounded.exactSize_lt (h : dl.Bounded ty) : dl.exactSize ty < Nat.pow 2 63 := h ty ty.self_mem_parts

theorem Bounded.exactSize_le (h : dl.Bounded ty) : dl.exactSize ty ≤ wordMax := h.exactSize_lt.le.trans (by decide)

theorem le_exactFrom_size : start ≤ (dl.exactFrom fields start a).size := by
  induction fields generalizing start a with
  | nil => exact le_alignTo start a
  | cons field rest ih => exact ((le_alignTo start _).trans (Nat.le_add_right _ _)).trans ih

/-- Fields that end before the largest word are laid out as if there were none. -/
theorem layoutFrom_eq_exactFrom (hfields : ∀ field ∈ fields, dl.storeSize field = dl.exactStore field)
    (hsize : (dl.exactFrom fields start a).size ≤ wordMax) :
    dl.layoutFrom fields start a = dl.exactFrom fields start a := by
  induction fields generalizing start a with
  | nil => rfl
  | cons field rest ih =>
    rw [List.forall_mem_cons] at hfields
    have hstop : alignTo start (dl.align field) + dl.pad field (dl.exactStore field) ≤ wordMax :=
      le_exactFrom_size.trans hsize
    simp only [layoutFrom, exactFrom, hfields.1, Nat.min_eq_left hstop, ih hfields.2 hsize]

theorem le_exactSize (h : ty.isSized = true) : dl.exactStore ty ≤ dl.exactSize ty := by
  simp only [exactSize, pad, h, if_true]
  exact le_alignTo _ _

theorem Bounded.storeSize_eq (h : dl.Bounded ty) : dl.storeSize ty = dl.exactStore ty := by
  induction ty using Ty.inductionOn with
  | void | int | float | ptr => rfl
  | array elem length ih =>
    have hle : dl.pad elem (dl.exactStore elem) * length ≤ wordMax := (le_exactSize rfl).trans h.exactSize_le
    simp only [storeSize, exactStore, ih h.elem, Nat.min_eq_left hle]
  | struct fields ih =>
    have hle : (dl.exactFrom fields 0 1).size ≤ wordMax := (le_exactSize rfl).trans h.exactSize_le
    simp only [storeSize, exactStore, layoutFrom_eq_exactFrom (fun field hfield ↦ ih field hfield (h.field hfield)) hle]

theorem Bounded.allocSize_eq (h : dl.Bounded ty) : dl.allocSize ty = dl.exactSize ty := by
  rw [allocSize, exactSize, h.storeSize_eq]

theorem Bounded.structLayout_eq (h : dl.Bounded (.struct fields)) : dl.structLayout fields = dl.exactFrom fields 0 1 :=
  layoutFrom_eq_exactFrom (fun _ hfield ↦ (h.field hfield).storeSize_eq) ((le_exactSize rfl).trans h.exactSize_le)

/-! ## Structs and arrays -/

theorem exactFrom_align : (dl.exactFrom fields start a).align = max a ((dl.maxAlign? fields).getD 0) := by
  induction fields generalizing start a with
  | nil => simp [exactFrom, maxAlign?]
  | cons field rest ih =>
    simp only [exactFrom, ih, maxAlign?]
    cases dl.maxAlign? rest with
    | none => simp
    | some b => simp [Nat.max_assoc]

/-- The fields are packed, and padded at the end. -/
theorem exactFrom_packed (h : ∀ field ∈ fields, dl.Bounded field) : ∃ stop,
    dl.Packed start fields (dl.exactFrom fields start a).offsets stop ∧
      (dl.exactFrom fields start a).size = alignTo stop (dl.exactFrom fields start a).align := by
  induction fields generalizing start a with
  | nil => exact ⟨start, .nil, rfl⟩
  | cons field rest ih =>
    rw [List.forall_mem_cons] at h
    obtain ⟨stop, hpacked, hsize⟩ := @ih (alignTo start (dl.align field) + dl.pad field (dl.exactStore field))
      (max a (dl.align field)) h.2
    refine ⟨stop, .cons (alignTo_isLeast start _) ?_, hsize⟩
    rw [h.1.allocSize_eq]
    exact hpacked

theorem align_struct : max 1 (dl.align (.struct fields)) = max 1 ((dl.maxAlign? fields).getD 0) := by
  rw [align]
  cases dl.maxAlign? fields <;> rfl

theorem Bounded.structLayout_align (h : dl.Bounded (.struct fields)) :
    (dl.structLayout fields).align = max 1 (dl.align (.struct fields)) := by
  rw [h.structLayout_eq, exactFrom_align, align_struct]

theorem Bounded.structLayout_packed (h : dl.Bounded (.struct fields)) : ∃ stop,
    dl.Packed 0 fields (dl.structLayout fields).offsets stop ∧
      (dl.structLayout fields).size = alignTo stop (dl.structLayout fields).align := by
  rw [h.structLayout_eq]
  exact exactFrom_packed fun _ ↦ h.field

theorem dvd_allocSize (h : 1 < dl.align ty) : dl.align ty ∣ dl.allocSize ty := by
  unfold allocSize pad
  split
  · exact dvd_alignTo h
  · exact Nat.dvd_zero _

/-- A struct needs no padding behind that of its layout. -/
theorem Bounded.allocSize_struct (h : dl.Bounded (.struct fields)) :
    dl.allocSize (.struct fields) = (dl.structLayout fields).size := by
  obtain ⟨stop, -, hsize⟩ := h.structLayout_packed
  refine alignTo_of_dvd fun halign ↦ ?_
  change _ ∣ (dl.structLayout fields).size
  rw [hsize, h.structLayout_align, alignTo_max_one]
  exact dvd_alignTo halign

/-- Elements are padded already, so the array is not padded any further. -/
theorem Bounded.allocSize_array (h : dl.Bounded (.array item length)) :
    dl.allocSize (.array item length) = dl.allocSize item * length := by
  have hle : dl.allocSize item * length ≤ wordMax := by
    rw [h.elem.allocSize_eq]
    exact (le_exactSize rfl).trans h.exactSize_le
  have hstore : dl.storeSize (.array item length) = dl.allocSize item * length := by
    rw [storeSize, ← allocSize, Nat.min_eq_left hle]
  change alignTo (dl.storeSize (.array item length)) (dl.align item) = _
  rw [hstore]
  exact alignTo_of_dvd fun halign ↦ Nat.dvd_mul_right_of_dvd (dvd_allocSize halign) length

/-- Structs are packed and padded as little as their alignments allow, every size is a multiple of the
alignment, and arrays have no padding of their own. -/
theorem packed_tightly (dl : DataLayout) (ty : Ty) (hty : dl.Bounded ty) :
    (∀ fields, ty = .struct fields → ∃ stop, dl.Packed 0 fields (dl.structLayout fields).offsets stop ∧
      (dl.structLayout fields).align = max 1 (dl.align ty) ∧
      IsLeast {m | stop ≤ m ∧ (dl.structLayout fields).align ∣ m} (dl.structLayout fields).size ∧
      dl.allocSize ty = (dl.structLayout fields).size) ∧
    (1 < dl.align ty → dl.align ty ∣ dl.allocSize ty) ∧
    ∀ elem length, ty = .array elem length → dl.allocSize ty = length * dl.allocSize elem := by
  refine ⟨?_, dvd_allocSize, ?_⟩
  · rintro fields rfl
    obtain ⟨stop, hpacked, hsize⟩ := hty.structLayout_packed
    refine ⟨stop, hpacked, hty.structLayout_align, ?_, hty.allocSize_struct⟩
    have hleast := alignTo_isLeast stop (dl.structLayout fields).align
    have halign : 1 ≤ (dl.structLayout fields).align := by simp [hty.structLayout_align]
    rw [hsize]
    refine ⟨⟨le_alignTo _ _, ?_⟩, fun m hm ↦ hleast.2 ⟨hm.1, fun _ ↦ hm.2⟩⟩
    rcases halign.eq_or_lt with hone | hlt
    · simp [← hone]
    · exact dvd_alignTo hlt
  · rintro elem length rfl
    rw [hty.allocSize_array, Nat.mul_comm]

/-- Pointers of three bytes stand between scalars of other alignments. -/
def uneven : Ty := .struct [.int 8, .ptr, .array (.struct [.int 24, .float 80]) 2]

theorem packed_tightly_uneven : (⟨24⟩ : DataLayout).Bounded uneven ∧ ∃ stop,
    (⟨24⟩ : DataLayout).Packed 0 [.int 8, .ptr, .array (.struct [.int 24, .float 80]) 2] [0, 3, 8] stop ∧
      IsLeast {m | stop ≤ m ∧ 8 ∣ m} 56 := by
  have hbounded : (⟨24⟩ : DataLayout).Bounded uneven := by decide
  obtain ⟨stop, hpacked, -, hleast, -⟩ := (packed_tightly ⟨24⟩ uneven hbounded).1 _ rfl
  exact ⟨hbounded, stop, hpacked, hleast⟩

end DataLayout

end PointsTo
