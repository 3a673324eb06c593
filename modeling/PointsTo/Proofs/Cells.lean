import PointsTo.Memory.Object
import PointsTo.Proofs.Sets

/-!
# What memory objects hold

Each operation on a memory object is described by the pointers that it leaves in each entry, and
each of its answers by whether those pointers are new.
-/

namespace PointsTo

namespace MemoryObject

variable {o other : MemoryObject} {offset place : Offset} {values : PointerSet} {p : Pointer}

theorem mem_entry_iff : p ∈ o.entry offset ↔ ∃ s, o.cells.get? offset = some s ∧ p ∈ s := by
  rw [entry]
  cases o.cells.get? offset with
  | none => simp
  | some s => simp

@[simp] theorem not_mem_entry_empty : ¬p ∈ ({} : MemoryObject).entry offset :=
  OrderedSet.not_mem_empty

theorem entry_insert_self {s : PointerSet} : (⟨o.cells.insert offset s⟩ : MemoryObject).entry offset = s := by
  simp [entry]

theorem entry_insert_of_ne {s : PointerSet} (h : place ≠ offset) :
    (⟨o.cells.insert offset s⟩ : MemoryObject).entry place = o.entry place := by
  simp [entry, OrderedMap.get?_insert_of_ne h]

/-- A weak update adds the values to one entry. -/
theorem mem_entry_write :
    p ∈ (o.write offset values).2.entry place ↔ p ∈ o.entry place ∨ (place = offset ∧ p ∈ values) := by
  rw [write]
  split
  · rename_i hempty
    simp [OrderedSet.isEmpty_iff.1 hempty p]
  · by_cases h : place = offset
    · subst h
      simp [entry_insert_self]
    · simp [entry_insert_of_ne h, h]

theorem write_fst_eq_false : (o.write offset values).1 = false ↔ values ⊆ o.entry offset := by
  rw [write]
  split
  · rename_i hempty
    simp [OrderedSet.subset_def, OrderedSet.isEmpty_iff.1 hempty]
  · exact PointerSet.absorb_fst_eq_false

/-- A strong update of an entry by values replaces it. -/
theorem entry_overwrite_self (h : ∃ q, q ∈ values) :
    (o.overwrite offset values).2.entry offset = values := by
  rw [overwrite, if_neg (by simpa using OrderedSet.isEmpty_eq_false_iff.2 h)]
  split
  · rename_i hsame
    simp [entry, hsame]
  · exact entry_insert_self

theorem entry_overwrite_of_ne (h : place ≠ offset) :
    (o.overwrite offset values).2.entry place = o.entry place := by
  rw [overwrite]
  split
  · rfl
  · split
    · rfl
    · exact entry_insert_of_ne h

theorem overwrite_of_empty (h : ∀ q, ¬q ∈ values) : (o.overwrite offset values).2 = o := by
  rw [overwrite, if_pos (OrderedSet.isEmpty_iff.2 h)]

theorem mem_entry_of_mem_overwrite (h : p ∈ (o.overwrite offset values).2.entry place) :
    p ∈ o.entry place ∨ (place = offset ∧ p ∈ values) := by
  by_cases hne : place = offset
  · by_cases hvalues : ∃ q, q ∈ values
    · rw [hne, entry_overwrite_self hvalues] at h
      exact .inr ⟨hne, h⟩
    · rw [overwrite_of_empty (by simpa using hvalues)] at h
      exact .inl h
  · rw [entry_overwrite_of_ne hne] at h
    exact .inl h

/-! ## Many writes -/

/-- The answer accumulates from the front, so the first write can be split off. -/
theorem foldl_write_eq (entries : List (Offset × PointerSet)) (changed : Bool) (o : MemoryObject) :
    entries.foldl (fun (changed, o) (offset, values) ↦
      let (grew, o) := o.write offset values
      (changed || grew, o)) (changed, o) = (changed || (o.writeAll entries).1, (o.writeAll entries).2) := by
  induction entries generalizing changed o with
  | nil => simp [writeAll]
  | cons e rest ih =>
    simp only [writeAll, List.foldl_cons]
    rw [ih, ih (false || (o.write e.1 e.2).1)]
    simp [Bool.or_assoc]

theorem writeAll_cons (e : Offset × PointerSet) (entries : List (Offset × PointerSet)) :
    o.writeAll (e :: entries) =
      ((o.write e.1 e.2).1 || ((o.write e.1 e.2).2.writeAll entries).1,
        ((o.write e.1 e.2).2.writeAll entries).2) := by
  rw [writeAll, List.foldl_cons, foldl_write_eq]
  simp

theorem mem_entry_writeAll {entries : List (Offset × PointerSet)} :
    p ∈ (o.writeAll entries).2.entry place ↔
      p ∈ o.entry place ∨ ∃ s, (place, s) ∈ entries ∧ p ∈ s := by
  refine (foldl_iff (P := fun acc : Bool × MemoryObject ↦ p ∈ acc.2.entry place)
    (Q := fun e ↦ place = e.1 ∧ p ∈ e.2) (fun _ _ ↦ ?_) entries (false, o)).trans (or_congr_right ?_)
  · exact mem_entry_write
  · constructor
    · rintro ⟨⟨_, s⟩, he, rfl, hp⟩
      exact ⟨s, he, hp⟩
    · rintro ⟨s, hs, hp⟩
      exact ⟨(place, s), hs, rfl, hp⟩

/-- If no write reports anything new, all that was written was there before. -/
theorem mem_entry_of_writeAll_fst {entries : List (Offset × PointerSet)} {s : PointerSet}
    (h : (o.writeAll entries).1 = false) (hs : (place, s) ∈ entries) : s ⊆ o.entry place := by
  induction entries generalizing o with
  | nil => simp at hs
  | cons e rest ih =>
    rw [writeAll_cons, Bool.or_eq_false_iff] at h
    have hfirst : e.2 ⊆ o.entry e.1 := write_fst_eq_false.1 h.1
    rcases List.mem_cons.1 hs with rfl | hs
    · exact hfirst
    · intro q hq
      rcases mem_entry_write.1 (ih h.2 hs q hq) with hold | ⟨rfl, hnew⟩
      · exact hold
      · exact hfirst q hnew

theorem writeAll_fst_of_subset {entries : List (Offset × PointerSet)}
    (h : ∀ e ∈ entries, e.2 ⊆ o.entry e.1) : (o.writeAll entries).1 = false := by
  induction entries generalizing o with
  | nil => rfl
  | cons e rest ih =>
    rw [writeAll_cons, Bool.or_eq_false_iff]
    refine ⟨write_fst_eq_false.2 (h e List.mem_cons_self), ih fun d hd q hq ↦ ?_⟩
    exact mem_entry_write.2 (.inl (h d (List.mem_cons_of_mem _ hd) q hq))

theorem mem_entry_merge :
    p ∈ (o.merge other).2.entry place ↔ p ∈ o.entry place ∨ p ∈ other.entry place := by
  simp only [merge, mem_entry_writeAll, OrderedMap.mem_entries_iff]
  rw [mem_entry_iff (o := other)]

/-! ## Reading and copying -/

theorem mem_foldl_union {l : List PointerSet} {s : PointerSet} :
    p ∈ l.foldl (· ∪ ·) s ↔ p ∈ s ∨ ∃ t ∈ l, p ∈ t :=
  foldl_iff (P := (p ∈ ·)) (Q := (p ∈ ·)) (fun _ _ ↦ OrderedSet.mem_union) l s

theorem isUnknown_iff : offset.isUnknown = true ↔ offset = .unknown := by
  cases offset <;> simp [Offset.isUnknown]

/-- A read sees the entry, the entry of unknown writes, and everything if its offset is unknown. -/
theorem mem_read :
    p ∈ o.read offset ↔
      p ∈ o.entry offset ∨ p ∈ o.entry .unknown ∨ (offset = .unknown ∧ ∃ place, p ∈ o.entry place) := by
  rw [read]
  split
  · rename_i hunknown
    obtain rfl := isUnknown_iff.1 hunknown
    simp only [mem_foldl_union, OrderedSet.not_mem_empty, false_or, OrderedMap.mem_values_iff,
      mem_entry_iff, true_and]
    constructor
    · rintro ⟨s, ⟨k, hk⟩, hp⟩
      exact .inr (.inr ⟨k, s, hk, hp⟩)
    · rintro (⟨s, hk, hp⟩ | ⟨s, hk, hp⟩ | ⟨k, s, hk, hp⟩) <;> exact ⟨s, ⟨_, hk⟩, hp⟩
  · rename_i hunknown
    have hne : offset ≠ .unknown := fun e ↦ hunknown (isUnknown_iff.2 e)
    simp [hne]

theorem mem_copiedEntries {src length dest : Offset} {s : PointerSet} :
    (place, s) ∈ o.copiedEntries src length dest ↔
      ∃ offset, o.cells.get? offset = some s ∧ copiedTo? src length dest offset = some place := by
  simp only [copiedEntries, List.mem_filterMap, Prod.exists, Option.map_eq_some_iff, Prod.mk.injEq,
    OrderedMap.mem_entries_iff]
  constructor
  · rintro ⟨offset, t, hoffset, place', hplace, rfl, rfl⟩
    exact ⟨offset, hoffset, hplace⟩
  · rintro ⟨offset, hoffset, hplace⟩
    exact ⟨offset, s, hoffset, place, hplace, rfl, rfl⟩

end MemoryObject

namespace MemoryMap

variable {m other : MemoryMap} {t u : NodeId} {place : Offset} {p : Pointer}

theorem object_of_get? {o : MemoryObject} (h : m.get? t = some o) : m.object t = o := by
  simp [object, h]

@[simp] theorem object_empty : (∅ : MemoryMap).object t = {} := rfl

@[simp] theorem object_insert_self {o : MemoryObject} : object (m.insert t o) t = o := by
  simp [object]

theorem object_insert_of_ne {o : MemoryObject} (h : u ≠ t) : object (m.insert t o) u = m.object u := by
  simp [object, OrderedMap.get?_insert_of_ne h]

/-- Updating one object adds to memory what the update adds to the object. -/
theorem mem_entry_insert {o : MemoryObject} :
    p ∈ (object (m.insert t o) u).entry place ↔
      if u = t then p ∈ o.entry place else p ∈ (m.object u).entry place := by
  by_cases h : u = t
  · subst h
    simp
  · simp [object_insert_of_ne h, h]

theorem mem_entry_object : p ∈ (m.object t).entry place ↔ ∃ o, m.get? t = some o ∧ p ∈ o.entry place := by
  cases ho : m.get? t with
  | none => simp [object, ho]
  | some o => simp [object, ho]

theorem mem_entry_merge :
    p ∈ ((merge m other).object t).entry place ↔
      p ∈ (m.object t).entry place ∨ p ∈ (other.object t).entry place := by
  refine (foldl_iff (P := fun m : MemoryMap ↦ p ∈ (m.object t).entry place)
    (Q := fun e ↦ t = e.1 ∧ p ∈ e.2.entry place) (fun m e ↦ ?_) other.entries m).trans (or_congr_right ?_)
  · rw [mem_entry_insert]
    split
    · rename_i h
      rw [MemoryObject.mem_entry_merge, h]
      simp
    · rename_i h
      simp [h]
  · rw [OrderedMap.exists_mem_entries_iff (Q := fun o : MemoryObject ↦ p ∈ o.entry place), mem_entry_object]

/-- What a copy moves: the entries in its window, and null from zeroed memory. -/
theorem mem_transfer {zeroed : Bool} {src dest : Pointer} {length : Offset} :
    (∃ s, (place, s) ∈ m.transfer zeroed src dest length ∧ p ∈ s) ↔
      (∃ offset, MemoryObject.copiedTo? src.offset length dest.offset offset = some place ∧
        p ∈ (m.object src.target).entry offset) ∨
      (zeroed = true ∧ place = .unknown ∧ p = .null) := by
  simp only [transfer, List.mem_append, MemoryObject.mem_copiedEntries, MemoryObject.mem_entry_iff]
  constructor
  · rintro ⟨s, ⟨offset, hs, hplace⟩ | hzero, hp⟩
    · exact .inl ⟨offset, hplace, s, hs, hp⟩
    · cases zeroed with
      | false => simp at hzero
      | true =>
        simp only [if_true, List.mem_singleton, Prod.mk.injEq] at hzero
        obtain ⟨rfl, rfl⟩ := hzero
        exact .inr ⟨rfl, rfl, by simpa using hp⟩
  · rintro (⟨offset, hplace, s, hs, hp⟩ | ⟨rfl, rfl, rfl⟩)
    · exact ⟨s, .inl ⟨offset, hs, hplace⟩, hp⟩
    · exact ⟨.singleton .null, .inr (by simp), by simp⟩

end MemoryMap

end PointsTo
