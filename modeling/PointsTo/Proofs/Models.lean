import PointsTo.Proofs.Facts

/-!
# What the memory models do

The operations of the two models, in terms of what memory holds before and after.  Shared memory only
ever gains; the memory of a node loses an entry when a strong update replaces it.
-/

namespace PointsTo

open Query

namespace SharedMemory

/-! ## Writes

A write adds to what memory holds, and answers false if and only if it adds nothing new. -/

/-- The second memory holds in addition what is added; the answer is false if all of that is old, and
only then. -/
structure Adds (added : Contents) (m : SharedMemory) (wrote : Bool) (m' : SharedMemory) : Prop where
  contents : ∀ t o, m'.objects.contents t o = m.objects.contents t o ∪ added t o
  quiet : wrote = false → ∀ t o, added t o ⊆ m.objects.contents t o
  noticed : (∀ t o, added t o ⊆ m.objects.contents t o) → wrote = false

variable {m m' : SharedMemory} {added : Contents} {wrote : Bool}

theorem Adds.contents_eq (h : Adds added m wrote m') (hquiet : wrote = false) :
    m'.objects.contents = m.objects.contents := by
  funext t o
  rw [h.contents, Set.union_eq_left.2 (h.quiet hquiet t o)]

/-- Writing into one object. -/
theorem adds_insert {t : NodeId} {o : MemoryObject} (new : Offset → Set Pointer)
    (hnew : ∀ place q, q ∈ o.entry place ↔ q ∈ (m.objects.object t).entry place ∨ q ∈ new place)
    (hquiet : wrote = false → ∀ place q, q ∈ new place → q ∈ (m.objects.object t).entry place)
    (hnoticed : (∀ place q, q ∈ new place → q ∈ (m.objects.object t).entry place) → wrote = false) :
    Adds (fun u place ↦ {q | u = t ∧ q ∈ new place}) m wrote ⟨m.objects.insert t o⟩ where
  contents u place := by
    ext q
    change q ∈ (MemoryMap.object (m.objects.insert t o) u).entry place ↔ _ ∨ (u = t ∧ _)
    rw [MemoryMap.mem_entry_insert]
    split
    · rename_i hu
      subst hu
      simp only [hnew, true_and]
      rfl
    · rename_i hu
      simp only [hu, false_and, or_false]
      rfl
  quiet hw u place := by
    rintro q ⟨rfl, hq⟩
    exact hquiet hw place q hq
  noticed hold := hnoticed fun place _ hq ↦ hold t place ⟨rfl, hq⟩

theorem store_adds (p : Pointer) (values : PointerSet) (m : SharedMemory) :
    Adds (fun u place ↦ {q | u = p.target ∧ place = p.offset ∧ q ∈ values}) m (store p values m).1
      (store p values m).2 := by
  refine adds_insert (fun place ↦ {q | place = p.offset ∧ q ∈ values})
    (fun place q ↦ MemoryObject.mem_entry_write) (fun hw place q ↦ ?_) fun hold ↦ ?_
  · rintro ⟨rfl, hq⟩
    exact MemoryObject.write_fst_eq_false.1 hw q hq
  · exact MemoryObject.write_fst_eq_false.2 fun q hq ↦ hold p.offset q ⟨rfl, hq⟩

theorem copy_adds {g : Graph} {src dest : Pointer} {length : Offset}
    (h : copy g src dest length m = .ok (wrote, m')) :
    Adds (fun u place ↦ {q | u = dest.target ∧ q ∈ g.moves m.objects.contents src dest length place}) m wrote
      m' := by
  simp only [copy, bind_eq_ok_iff, pure_eq_ok_iff, Graph.node_eq_ok_iff, Prod.mk.injEq] at h
  obtain ⟨n, hn, rfl, rfl⟩ := h
  refine adds_insert (g.moves m.objects.contents src dest length) (fun place q ↦ ?_) (fun hw place q hq ↦ ?_)
    fun hold ↦ ?_
  · rw [MemoryObject.mem_entry_writeAll, MemoryMap.mem_transfer_iff hn]
  · obtain ⟨s, hs, hq⟩ := (MemoryMap.mem_transfer_iff hn).2 hq
    exact MemoryObject.mem_entry_of_writeAll_fst hw hs q hq
  · refine MemoryObject.writeAll_fst_of_subset fun ⟨place, s⟩ hs q hq ↦ ?_
    exact hold place q ((MemoryMap.mem_transfer_iff hn).1 ⟨s, hs, hq⟩)

theorem mem_load {g : Graph} {id : NodeId} {p q : Pointer} {read : PointerSet}
    (h : MemoryModel.load g id p m = .ok read) : q ∈ read ↔ q ∈ g.reads m.objects.contents p := by
  change load g p m = _ at h
  simp only [load, bind_eq_ok_iff, pure_eq_ok_iff, Graph.node_eq_ok_iff] at h
  obtain ⟨t, ht, rfl⟩ := h
  rw [Graph.mem_reads_iff, Graph.Zeroed.iff_of_node ht]
  cases t.zeroed with
  | false => simp
  | true => simp [or_comm]

end SharedMemory

namespace NodeMemory

variable {m m' : NodeMemory} {g : Graph} {id t : NodeId} {map : MemoryMap} {place : Offset} {q : Pointer}

theorem currentAt?_eq_some_iff : m.currentAt? id = some map ↔ m.current = some (id, map) := by
  unfold currentAt?
  split
  · rename_i j other hcurrent
    by_cases h : j = id
    · simp [h, hcurrent]
    · simp [h, hcurrent]
  · rename_i hcurrent
    simp [hcurrent]

/-- The memory of a node while it is processed, before anything is written. -/
def entered (m : NodeMemory) (id : NodeId) (n : Node) : NodeMemory :=
  { m with current := some (id, m.incoming n.predecessors) }

theorem enter_eq_ok_iff :
    MemoryModel.enter g id m = .ok m' ↔ ∃ n, g.nodes[id]? = some n ∧ m.entered id n = m' := by
  change enter g id m = _ ↔ _
  simp only [enter, bind_eq_ok_iff, pure_eq_ok_iff, Graph.node_eq_ok_iff]
  rfl

/-- What enters a node is what the maps of its predecessors hold. -/
theorem mem_incoming {predecessors : List NodeId} :
    q ∈ ((m.incoming predecessors).object t).entry place ↔
      ∃ p ∈ predecessors, ∃ map, m.maps.get? p = some map ∧ q ∈ (map.object t).entry place := by
  refine (foldl_iff (P := fun map : MemoryMap ↦ q ∈ (map.object t).entry place)
    (Q := fun p ↦ ∃ map, m.maps.get? p = some map ∧ q ∈ (map.object t).entry place) (fun merged p ↦ ?_)
    predecessors ∅).trans (or_iff_right (by simp))
  cases hp : m.maps.get? p with
  | none => simp
  | some map => simp [MemoryMap.mem_entry_merge]

/-- The memory of a node after a write through a pointer. -/
def written (map : MemoryMap) (p : Pointer) (values : PointerSet) (strong : Bool) : MemoryMap :=
  map.insert p.target
    (if strong && !p.offset.isUnknown then ((map.object p.target).overwrite p.offset values).2
      else ((map.object p.target).write p.offset values).2)

/-- The memory of a node after a copy. -/
def copied (map : MemoryMap) (zeroed : Bool) (src dest : Pointer) (length : Offset) : MemoryMap :=
  map.insert dest.target ((map.object dest.target).writeAll (map.transfer zeroed src dest length)).2

theorem store_of_current {p : Pointer} {values : PointerSet} {strong : Bool} (h : m.current = some (id, map)) :
    (MemoryModel.store id p values strong m : Bool × NodeMemory) =
      (false, { m with current := some (id, written map p values strong) }) := by
  change (false, store id p values strong m) = _
  rw [store, currentAt?_eq_some_iff.2 h]
  rfl

theorem copy_of_not_current {src dest : Pointer} {length : Offset} {w : Bool} (h : m.currentAt? id = none)
    (hcopy : MemoryModel.copy g id src dest length m = .ok (w, m')) : m' = m := by
  change (do return (false, ← copy g id src dest length m) : Query (Bool × NodeMemory)) = _ at hcopy
  simp only [copy, h, bind_eq_ok_iff, pure_eq_ok_iff, Prod.mk.injEq] at hcopy
  obtain ⟨_, rfl, -, rfl⟩ := hcopy
  rfl

theorem copy_of_current {src dest : Pointer} {length : Offset} {w : Bool} (h : m.current = some (id, map))
    (hcopy : MemoryModel.copy g id src dest length m = .ok (w, m')) :
    ∃ n, g.nodes[src.target]? = some n ∧
      m' = { m with current := some (id, copied map n.zeroed src dest length) } := by
  change (do return (false, ← copy g id src dest length m) : Query (Bool × NodeMemory)) = _ at hcopy
  simp only [copy, currentAt?_eq_some_iff.2 h, bind_eq_ok_iff, pure_eq_ok_iff, Prod.mk.injEq,
    Graph.node_eq_ok_iff] at hcopy
  obtain ⟨_, ⟨n, hn, rfl⟩, -, rfl⟩ := hcopy
  exact ⟨n, hn, rfl⟩

theorem wrote_of_copy {src dest : Pointer} {length : Offset} {w : Bool}
    (hcopy : MemoryModel.copy g id src dest length m = .ok (w, m')) : w = false := by
  change (do return (false, ← copy g id src dest length m) : Query (Bool × NodeMemory)) = _ at hcopy
  simp only [bind_eq_ok_iff, pure_eq_ok_iff, Prod.mk.injEq] at hcopy
  obtain ⟨_, -, rfl, -⟩ := hcopy
  rfl

theorem leave_of_current (h : m.current = some (id, map)) (hleft : (MemoryModel.leave id m).1 = false) :
    m.maps.get? id = some map ∧ (MemoryModel.leave id m).2.maps = m.maps := by
  change (leave id m).1 = false at hleft
  change _ ∧ (leave id m).2.maps = _
  rw [leave, currentAt?_eq_some_iff.2 h] at hleft ⊢
  dsimp only at hleft ⊢
  split at hleft
  · rename_i hsame
    rw [if_pos hsame]
    exact ⟨hsame, rfl⟩
  · contradiction

/-- Writes add to memory, unless they are strong and replace the entry that they write. -/
theorem mem_written {p : Pointer} {values : PointerSet} {strong : Bool}
    (h : q ∈ (map.object t).entry place)
    (hkeep : strong = true → p.offset.isUnknown = false → t = p.target → place = p.offset →
      (∃ v, v ∈ values) → q ∈ values) :
    q ∈ ((written map p values strong).object t).entry place := by
  rw [written, MemoryMap.mem_entry_insert]
  split
  · rename_i ht
    subst ht
    split
    · rename_i hstrong
      rw [Bool.and_eq_true, Bool.not_eq_true'] at hstrong
      by_cases hplace : place = p.offset
      · subst hplace
        by_cases hvalues : ∃ v, v ∈ values
        · rw [MemoryObject.entry_overwrite_self hvalues]
          exact hkeep hstrong.1 hstrong.2 rfl rfl hvalues
        · rw [MemoryObject.overwrite_of_empty (by simpa using hvalues)]
          exact h
      · rw [MemoryObject.entry_overwrite_of_ne hplace]
        exact h
    · exact MemoryObject.mem_entry_write.2 (.inl h)
  · exact h

theorem of_mem_written {p : Pointer} {values : PointerSet} {strong : Bool}
    (h : q ∈ ((written map p values strong).object t).entry place) :
    q ∈ (map.object t).entry place ∨ (t = p.target ∧ place = p.offset ∧ q ∈ values) := by
  rw [written, MemoryMap.mem_entry_insert] at h
  split at h
  · rename_i ht
    subst ht
    split at h
    · exact (MemoryObject.mem_entry_of_mem_overwrite h).imp id fun hnew ↦ ⟨rfl, hnew⟩
    · exact (MemoryObject.mem_entry_write.1 h).imp id fun hnew ↦ ⟨rfl, hnew⟩
  · exact .inl h

theorem mem_written_self {p : Pointer} {values : PointerSet} {strong : Bool} (hq : q ∈ values) :
    q ∈ ((written map p values strong).object p.target).entry p.offset := by
  rw [written, MemoryMap.object_insert_self]
  split
  · rw [MemoryObject.entry_overwrite_self ⟨q, hq⟩]
    exact hq
  · exact MemoryObject.mem_entry_write.2 (.inr ⟨rfl, hq⟩)

theorem mem_copied {zeroed : Bool} {src dest : Pointer} {length : Offset} :
    q ∈ ((copied map zeroed src dest length).object t).entry place ↔
      q ∈ (map.object t).entry place ∨
        (t = dest.target ∧ ∃ s, (place, s) ∈ map.transfer zeroed src dest length ∧ q ∈ s) := by
  rw [copied, MemoryMap.mem_entry_insert]
  split
  · rename_i ht
    subst ht
    rw [MemoryObject.mem_entry_writeAll, and_iff_right rfl]
  · rename_i ht
    simp [ht]

/-- A node reads from the memory that it has, and null from zeroed memory at most. -/
theorem mem_reads_of_load {p : Pointer} {read : PointerSet} (h : MemoryModel.load g id p m = .ok read)
    (hq : q ∈ read) : q ∈ g.reads ((m.stateAt? id).getD ∅ : MemoryMap).contents p := by
  change load g id p m = _ at h
  simp only [load, bind_eq_ok_iff, pure_eq_ok_iff, Graph.node_eq_ok_iff] at h
  obtain ⟨n, hn, rfl⟩ := h
  split at hq
  · rename_i hz
    rw [Bool.and_eq_true] at hz
    rcases OrderedSet.mem_insert.1 hq with rfl | hq
    · exact Graph.mem_reads_iff.2 (.inr ⟨(Graph.Zeroed.iff_of_node hn).2 hz.1, rfl⟩)
    · exact Graph.mem_reads_iff.2 (.inl hq)
  · exact Graph.mem_reads_iff.2 (.inl hq)

/-- All that stands at the place is read. -/
theorem mem_load_of_current {p : Pointer} {read : PointerSet} (h : m.current = some (id, map))
    (hload : MemoryModel.load g id p m = .ok read) (hq : q ∈ (map.object p.target).read p.offset) :
    q ∈ read := by
  change load g id p m = _ at hload
  simp only [load, stateAt?, currentAt?_eq_some_iff.2 h, Option.getD_some, bind_eq_ok_iff,
    pure_eq_ok_iff, Graph.node_eq_ok_iff] at hload
  obtain ⟨n, hn, rfl⟩ := hload
  split
  · exact OrderedSet.mem_insert.2 (.inr hq)
  · exact hq

end NodeMemory

end PointsTo
