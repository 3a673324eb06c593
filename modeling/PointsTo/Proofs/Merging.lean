import PointsTo.Proofs.Growth

/-!
# Merging memory

Memory objects without empty entries are known by what they hold.  So the answers of the operations on them are
exact: an operation answers that it changed the object if and only if the object is another one afterwards.  Merging
is the join of such objects, and a list of memory maps is merged to the same map in whatever order the maps come and
however often.  In particular the memory that enters a node does not depend on the order of its predecessors.
-/

namespace PointsTo

theorem OrderedMap.insert_eq_self {κ α : Type} [TotalOrder κ] {m : OrderedMap κ α} {k : κ} {a : α}
    (h : m.get? k = some a) : m.insert k a = m := by
  refine ext_get? fun j ↦ ?_
  by_cases hj : j = k
  · rw [hj, get?_insert_self, h]
  · exact get?_insert_of_ne hj

namespace MemoryObject

variable {o other third : MemoryObject} {offset place : Offset} {values : PointerSet}
  {entries : List (Offset × PointerSet)}

/-! ## Answers -/

theorem write_eq_self (h : values ⊆ o.entry offset) : (o.write offset values).2 = o := by
  unfold write
  split
  · rfl
  · rename_i hvalues
    obtain ⟨p, hp⟩ := OrderedSet.isEmpty_eq_false_iff.1 (Bool.not_eq_true _ ▸ hvalues)
    obtain ⟨s, hs, -⟩ := mem_entry_iff.1 (h p hp)
    have hentry : o.entry offset ∪ values = s := by simpa [entry, hs] using OrderedSet.union_eq_left h
    change (⟨o.cells.insert offset (o.entry offset ∪ values)⟩ : MemoryObject) = o
    rw [hentry, OrderedMap.insert_eq_self hs]

theorem writeAll_fst_iff : (o.writeAll entries).1 = true ↔ (o.writeAll entries).2 ≠ o := by
  rw [ne_eq, ← Bool.not_eq_false, not_iff_not]
  constructor
  · intro h
    induction entries with
    | nil => rfl
    | cons e rest ih =>
      rw [writeAll_cons, Bool.or_eq_false_iff] at h
      rw [writeAll_cons, write_eq_self (write_fst_eq_false.1 h.1)]
      exact ih (write_eq_self (write_fst_eq_false.1 h.1) ▸ h.2)
  · intro h
    refine writeAll_fst_of_subset fun e he p hp ↦ ?_
    have hmem : p ∈ (o.writeAll entries).2.entry e.1 := mem_entry_writeAll.2 (.inr ⟨e.2, he, hp⟩)
    rwa [h] at hmem

theorem write_fst_iff : (o.write offset values).1 = true ↔ (o.write offset values).2 ≠ o := by
  have h : (o.writeAll [(offset, values)]).1 = true ↔ (o.writeAll [(offset, values)]).2 ≠ o := writeAll_fst_iff
  rw [writeAll_cons] at h
  simpa [writeAll] using h

theorem overwrite_fst_iff : (o.overwrite offset values).1 = true ↔ (o.overwrite offset values).2 ≠ o := by
  unfold overwrite
  split
  · simp
  · split
    · simp
    · rename_i hnew
      refine ⟨fun _ heq ↦ hnew ?_, fun _ ↦ rfl⟩
      rw [← congrArg (·.cells.get? offset) heq]
      exact OrderedMap.get?_insert_self

/-! ## Joins -/

theorem entry_merge (o other : MemoryObject) (place : Offset) :
    (o.merge other).2.entry place = o.entry place ∪ other.entry place := by
  ext p
  rw [mem_entry_merge, OrderedSet.mem_union]

theorem Tidy.hasEntry_iff (ho : o.Tidy) : o.hasEntry place = true ↔ ∃ p, p ∈ o.entry place := by
  rw [hasEntry, OrderedMap.contains, Option.isSome_iff_exists]
  constructor
  · rintro ⟨s, hs⟩
    exact (ho place s hs).imp fun p hp ↦ mem_entry_iff.2 ⟨s, hs, hp⟩
  · rintro ⟨p, hp⟩
    exact (mem_entry_iff.1 hp).imp fun s hs ↦ hs.1

theorem Tidy.merge (ho : o.Tidy) (other : MemoryObject) : (o.merge other).2.Tidy := ho.writeAll _

theorem Tidy.hasEntry_merge (ho : o.Tidy) (hother : other.Tidy) (place : Offset) :
    (o.merge other).2.hasEntry place = (o.hasEntry place || other.hasEntry place) := by
  rw [Bool.eq_iff_iff, Bool.or_eq_true, (ho.merge other).hasEntry_iff, ho.hasEntry_iff, hother.hasEntry_iff]
  simp only [mem_entry_merge, exists_or]

/-- Merging is the join of a semilattice. -/
structure Joins (merge : MemoryObject → MemoryObject → MemoryObject) (o other third : MemoryObject) : Prop where
  idem : merge o o = o
  comm : merge o other = merge other o
  assoc : merge (merge o other) third = merge o (merge other third)

theorem Tidy.joins (ho : o.Tidy) (hother : other.Tidy) : Joins (fun a b ↦ (a.merge b).2) o other third where
  idem := (ho.merge o).ext ho fun place p ↦ by simp [mem_entry_merge]
  comm := (ho.merge other).ext (hother.merge o) fun place p ↦ by simp only [mem_entry_merge, or_comm]
  assoc := ((ho.merge other).merge third).ext (ho.merge _) fun place p ↦ by simp only [mem_entry_merge, or_assoc]

end MemoryObject

/-! ## Lists of maps -/

namespace MemoryMap

variable {m other : MemoryMap} {maps maps' : List MemoryMap} {t : NodeId}

/-- The objects of a merged map are tidy, whatever is merged into it. -/
theorem tidy_merge (hm : ∀ t o, m.get? t = some o → o.Tidy) :
    ∀ t o, (merge m other).get? t = some o → o.Tidy := by
  refine List.foldlRecOn (motive := fun m : MemoryMap ↦ ∀ t o, m.get? t = some o → o.Tidy) other.entries _ hm
    fun m hm e _ t o ho ↦ ?_
  rcases OrderedMap.get?_insert_eq_some_iff.1 ho with ⟨-, rfl⟩ | ⟨-, ho⟩
  · refine MemoryObject.Tidy.merge ?_ _
    unfold object
    cases hobject : m.get? e.1 with
    | none => exact .empty
    | some o => exact hm _ o hobject
  · exact hm t o ho

theorem tidy_foldl_merge (maps : List MemoryMap) :
    ∀ t o, (maps.foldl merge ∅).get? t = some o → o.Tidy :=
  List.foldlRecOn (motive := fun m : MemoryMap ↦ ∀ t o, m.get? t = some o → o.Tidy) maps _
    (fun _ _ h ↦ by simp at h) fun _ hm _ _ ↦ tidy_merge hm

theorem contains_foldl_merge : (maps.foldl merge ∅).contains t = true ↔ ∃ m ∈ maps, m.contains t = true :=
  (foldl_iff (P := fun m : MemoryMap ↦ m.contains t = true) (Q := fun m : MemoryMap ↦ m.contains t = true)
    (fun _ _ ↦ contains_merge) maps ∅).trans (or_iff_right (by simp [OrderedMap.contains]))

theorem mem_entry_foldl_merge {place : Offset} {p : Pointer} :
    p ∈ ((maps.foldl merge ∅).object t).entry place ↔ ∃ m ∈ maps, p ∈ (m.object t).entry place :=
  (foldl_iff (P := fun m : MemoryMap ↦ p ∈ (m.object t).entry place)
    (Q := fun m : MemoryMap ↦ p ∈ (m.object t).entry place)
    (fun _ _ ↦ mem_entry_merge) maps ∅).trans (or_iff_right (by simp))

theorem foldl_merge_grows (h : ∀ m ∈ maps, m ∈ maps') : (maps.foldl merge ∅).Grows (maps'.foldl merge ∅) where
  objects t ht := by
    obtain ⟨m, hm, hmt⟩ := contains_foldl_merge.1 ht
    exact contains_foldl_merge.2 ⟨m, h m hm, hmt⟩
  contents t place p hp := by
    obtain ⟨m, hm, hmp⟩ := mem_entry_foldl_merge.1 hp
    exact mem_entry_foldl_merge.2 ⟨m, h m hm, hmp⟩

theorem foldl_merge_congr (h : ∀ m, m ∈ maps ↔ m ∈ maps') : maps.foldl merge ∅ = maps'.foldl merge ∅ :=
  (foldl_merge_grows fun m ↦ (h m).1).eq_of_tidy (foldl_merge_grows fun m ↦ (h m).2) (tidy_foldl_merge maps)
    (tidy_foldl_merge maps')

end MemoryMap

theorem NodeMemory.incoming_eq (m : NodeMemory) (predecessors : List NodeId) :
    m.incoming predecessors = (predecessors.filterMap m.maps.get?).foldl MemoryMap.merge ∅ := by
  rw [incoming, List.foldl_filterMap]
  congr 1
  funext merged p
  cases m.maps.get? p <;> rfl

/-- Memory objects without empty entries are joined exactly: the operations keep them so, answer that they changed
the object if and only if they did, and merging takes the union at every offset.  Maps are merged in whatever order and
however often they come, as are the memories that predecessors leave. -/
theorem merges_exactly {o other third : MemoryObject} {maps maps' : List MemoryMap}
    {predecessors predecessors' : List NodeId} (ho : o.Tidy) (hother : other.Tidy) (hmaps : ∀ m, m ∈ maps ↔ m ∈ maps')
    (hpredecessors : ∀ p, p ∈ predecessors ↔ p ∈ predecessors') :
    (∀ offset values, (o.write offset values).2.Tidy ∧
      ((o.write offset values).1 = true ↔ (o.write offset values).2 ≠ o)) ∧
    (∀ offset values, (o.overwrite offset values).2.Tidy ∧
      ((o.overwrite offset values).1 = true ↔ (o.overwrite offset values).2 ≠ o)) ∧
    ((o.merge other).2.Tidy ∧ ((o.merge other).1 = true ↔ (o.merge other).2 ≠ o)) ∧
    (∀ place, (o.merge other).2.entry place = o.entry place ∪ other.entry place ∧
      (o.merge other).2.hasEntry place = (o.hasEntry place || other.hasEntry place)) ∧
    MemoryObject.Joins (fun a b ↦ (a.merge b).2) o other third ∧
    maps.foldl MemoryMap.merge ∅ = maps'.foldl MemoryMap.merge ∅ ∧
    ∀ m : NodeMemory, m.incoming predecessors = m.incoming predecessors' := by
  refine ⟨fun _ _ ↦ ⟨ho.write, MemoryObject.write_fst_iff⟩, fun _ _ ↦ ⟨ho.overwrite, MemoryObject.overwrite_fst_iff⟩,
    ⟨ho.merge other, MemoryObject.writeAll_fst_iff⟩, fun place ↦
    ⟨o.entry_merge other place, ho.hasEntry_merge hother place⟩,
    ho.joins hother, MemoryMap.foldl_merge_congr hmaps, fun m ↦ ?_⟩
  rw [m.incoming_eq, m.incoming_eq]
  refine MemoryMap.foldl_merge_congr fun map ↦ ?_
  simp only [List.mem_filterMap, hpredecessors]

/-- An object with an entry at a known offset, and one with an entry at the unknown offset. -/
theorem merges_exactly_twice :
    let a : MemoryObject := (({} : MemoryObject).write .zero (.singleton ⟨4, .zero⟩)).2
    let b : MemoryObject := (({} : MemoryObject).write .unknown (.singleton .null)).2
    let m : MemoryMap := OrderedMap.insert ∅ 4 a
    let n : MemoryMap := OrderedMap.insert (OrderedMap.insert ∅ 4 b) 5 {}
    (a.merge b).1 = true ∧ (a.merge b).2 ≠ a ∧ (b.merge a).2 = (a.merge b).2 ∧
      (a.merge b).2.entry .zero = a.entry .zero ∪ b.entry .zero ∧ [m, n, m].foldl MemoryMap.merge ∅ =
      [n, m].foldl MemoryMap.merge ∅ := by
  intro a b m n
  have ha : a.Tidy := MemoryObject.Tidy.empty.write
  have hb : b.Tidy := MemoryObject.Tidy.empty.write
  have hmaps : ∀ x, x ∈ [m, n, m] ↔ x ∈ [n, m] := by
    intro x
    simp only [List.mem_cons, List.not_mem_nil, or_false]
    tauto
  obtain ⟨-, -, ⟨-, hchanged⟩, hentries, hjoins, hfold, -⟩ :=
    @merges_exactly a b b [m, n, m] [n, m] [] [] ha hb hmaps fun _ ↦ Iff.rfl
  have htrue : (a.merge b).1 = true := by decide
  exact ⟨htrue, hchanged.1 htrue, hjoins.comm.symm, (hentries .zero).1, hfold⟩

end PointsTo
