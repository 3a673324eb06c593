import PointsTo.Proofs.Passage

/-!
# Maps that hold more

`MemoryMap.Grows` compares what two memory maps hold.  The maps that arise in a run are tidy: their
targets are nodes, and no entry of an object is empty.  Tidy maps that hold the same are equal, and
there are finitely many of them that point into a given graph.

Once the operands of a store point somewhere, what a node passes on grows with the graph and with what
enters it: a store that becomes a strong update later is the only node that may pass on less.
-/

namespace PointsTo

open OrderedMap OrderedSet

/-- No entry of the object is empty. -/
def MemoryObject.Tidy (o : MemoryObject) : Prop := ∀ place s, o.cells.get? place = some s → ∃ p, p ∈ s

namespace MemoryObject.Tidy

variable {o o' : MemoryObject} {offset : Offset} {values : PointerSet}

theorem empty : ({} : MemoryObject).Tidy := fun _ _ h ↦ by contradiction

theorem insert (ho : o.Tidy) (hvalues : ∃ p, p ∈ values) : (⟨o.cells.insert offset values⟩ : MemoryObject).Tidy := by
  intro place s hs
  by_cases hplace : place = offset
  · subst hplace
    rw [get?_insert_self, Option.some.injEq] at hs
    exact hs ▸ hvalues
  · rw [get?_insert_of_ne hplace] at hs
    exact ho place s hs

theorem write (ho : o.Tidy) : (o.write offset values).2.Tidy := by
  unfold MemoryObject.write
  split
  · exact ho
  · rename_i hvalues
    obtain ⟨p, hp⟩ := isEmpty_eq_false_iff.1 (by simpa using hvalues)
    exact ho.insert ⟨p, mem_union.2 (.inr hp)⟩

theorem overwrite (ho : o.Tidy) : (o.overwrite offset values).2.Tidy := by
  unfold MemoryObject.overwrite
  split
  · exact ho
  · rename_i hvalues
    split
    · exact ho
    · exact ho.insert (isEmpty_eq_false_iff.1 (by simpa using hvalues))

theorem writeAll (ho : o.Tidy) (entries : List (Offset × PointerSet)) : (o.writeAll entries).2.Tidy := by
  induction entries generalizing o with
  | nil => exact ho
  | cons e rest ih =>
    rw [writeAll_cons]
    exact ih ho.write

/-- A tidy object is known by what it holds. -/
theorem ext (ho : o.Tidy) (ho' : o'.Tidy) (h : ∀ place p, p ∈ o.entry place ↔ p ∈ o'.entry place) : o = o' := by
  have hget {a b : MemoryObject} (ha : a.Tidy) (hab : ∀ place p, p ∈ a.entry place ↔ p ∈ b.entry place)
      {place : Offset} {s : PointerSet} (hs : a.cells.get? place = some s) : b.cells.get? place = some s := by
    obtain ⟨p, hp⟩ := ha place s hs
    obtain ⟨t, ht, -⟩ := mem_entry_iff.1 ((hab place p).1 (mem_entry_iff.2 ⟨s, hs, hp⟩))
    have hst : s = t := OrderedSet.ext fun q ↦ by simpa [MemoryObject.entry, hs, ht] using hab place q
    rw [ht, hst]
  have hcells : o.cells = o'.cells := ext_get? fun place ↦ Option.ext fun s ↦
    ⟨hget ho h, hget ho' fun place p ↦ (h place p).symm⟩
  cases o
  cases o'
  exact congrArg MemoryObject.mk hcells

end MemoryObject.Tidy

namespace MemoryMap

variable {m m' other : MemoryMap} {size : Nat} {t u : NodeId} {o : MemoryObject}

/-- The objects are those of nodes, and tidy. -/
def Tidy (size : Nat) (m : MemoryMap) : Prop := ∀ t o, m.get? t = some o → t < size ∧ o.Tidy

/-- The second map has all objects of the first, and they hold all that they held. -/
structure Grows (m m' : MemoryMap) : Prop where
  objects : ∀ t, m.contains t = true → m'.contains t = true
  contents : ∀ t o, m.contents t o ⊆ m'.contents t o

theorem contains_iff : m.contains t = true ↔ ∃ o, m.get? t = some o := Option.isSome_iff_exists

theorem contains_insert : (m.insert t o).contains u = true ↔ u = t ∨ m.contains u = true := by
  rw [contains_iff, contains_iff]
  by_cases h : u = t
  · subst h
    simp
  · simp [get?_insert_of_ne h, h]

theorem contains_merge : (merge m other).contains t = true ↔ m.contains t = true ∨ other.contains t = true := by
  refine (foldl_iff (P := fun m : MemoryMap ↦ m.contains t = true) (Q := fun e ↦ t = e.1 ∧ True)
    (fun m e ↦ ?_) other.entries m).trans (or_congr_right ?_)
  · rw [contains_insert, and_true, or_comm]
  · rw [exists_mem_entries_iff (Q := fun _ ↦ True), contains_iff]
    simp only [and_true]

namespace Tidy

theorem empty : Tidy size ∅ := fun _ _ h ↦ by simp at h

theorem object (hm : m.Tidy size) (t : NodeId) : (m.object t).Tidy := by
  unfold MemoryMap.object
  cases ho : m.get? t with
  | none => exact .empty
  | some o => exact (hm t o ho).2

theorem insert (hm : m.Tidy size) (ht : t < size) (ho : o.Tidy) : Tidy size (m.insert t o) := by
  intro u o' ho'
  by_cases h : u = t
  · subst h
    rw [get?_insert_self, Option.some.injEq] at ho'
    exact ⟨ht, ho' ▸ ho⟩
  · rw [get?_insert_of_ne h] at ho'
    exact hm u o' ho'

theorem merge (hm : m.Tidy size) (hother : other.Tidy size) : Tidy size (merge m other) := by
  refine List.foldlRecOn other.entries _ hm fun m hm e he ↦ ?_
  exact hm.insert (hother e.1 e.2 (mem_entries_iff.1 he)).1 ((hm.object e.1).writeAll _)

end Tidy

namespace Grows

theorem refl (m : MemoryMap) : m.Grows m := ⟨fun _ h ↦ h, fun _ _ _ h ↦ h⟩

theorem trans (h : m.Grows m') (h' : m'.Grows other) : m.Grows other :=
  ⟨fun t ht ↦ h'.objects t (h.objects t ht), fun t o _ hp ↦ h'.contents t o (h.contents t o hp)⟩

/-- Maps of tidy objects that hold the same are equal. -/
theorem eq_of_tidy (h : m.Grows m') (h' : m'.Grows m) (hm : ∀ t o, m.get? t = some o → o.Tidy)
    (hm' : ∀ t o, m'.get? t = some o → o.Tidy) : m = m' := by
  have hget {a b : MemoryMap} (ha : ∀ t o, a.get? t = some o → o.Tidy) (hb : ∀ t o, b.get? t = some o → o.Tidy)
      (hab : a.Grows b) (hba : b.Grows a) {t : NodeId} {o : MemoryObject} (ho : a.get? t = some o) :
      b.get? t = some o := by
    obtain ⟨o', ho'⟩ := contains_iff.1 (hab.objects t (contains_iff.2 ⟨o, ho⟩))
    have hsame : o = o' := (ha t o ho).ext (hb t o' ho') fun place p ↦ by
      rw [← object_of_get? ho, ← object_of_get? ho']
      exact ⟨fun hp ↦ hab.contents t place hp, fun hp ↦ hba.contents t place hp⟩
    rw [ho', hsame]
  exact ext_get? fun t ↦ Option.ext fun o ↦ ⟨hget hm hm' h h', hget hm' hm h' h⟩

theorem antisymm (h : m.Grows m') (h' : m'.Grows m) (hm : m.Tidy size) (hm' : m'.Tidy size) : m = m' :=
  h.eq_of_tidy h' (fun t o ho ↦ (hm t o ho).2) fun t o ho ↦ (hm' t o ho).2

/-- Steps that only add, over more elements, end with more. -/
theorem foldl {α : Type} {l l' : List α} {f f' : MemoryMap → α → MemoryMap} (hl : l.Sublist l')
    (hstep : ∀ a ∈ l, ∀ m m', m.Grows m' → (f m a).Grows (f' m' a))
    (hadd : ∀ a ∈ l', ∀ m : MemoryMap, m.Grows (f' m a)) (h : m.Grows m') : (l.foldl f m).Grows (l'.foldl f' m') := by
  induction hl generalizing m m' with
  | slnil => exact h
  | cons a _ ih =>
    exact ih hstep (fun b hb ↦ hadd b (List.mem_cons_of_mem _ hb)) (h.trans (hadd a List.mem_cons_self m'))
  | cons_cons a _ ih =>
    exact ih (fun b hb ↦ hstep b (List.mem_cons_of_mem _ hb)) (fun b hb ↦ hadd b (List.mem_cons_of_mem _ hb))
      (hstep a List.mem_cons_self m m' h)

end Grows

/-- There are finitely many tidy maps that hold only pointers into a graph. -/
theorem finite_tidy (size : Nat) :
    {m : MemoryMap | m.Tidy size ∧ ∀ t o, ∀ p ∈ m.contents t o, p.target < size}.Finite := by
  have hobjects : {o : MemoryObject | ∀ place s, o.cells.get? place = some s → ∀ p ∈ s, p.target < size}.Finite := by
    have hcells : {cells : OrderedMap Offset PointerSet | ∀ place s, cells.get? place = some s →
        place ∈ (Set.univ : Set Offset) ∧ s ∈ {s : PointerSet | ∀ p ∈ s, p ∈ {p : Pointer | p.target < size}}}.Finite :=
      finite_of_entries Set.finite_univ (finite_of_members (Pointer.finite_lt size))
    refine (hcells.preimage (f := MemoryObject.cells) ?_).subset fun o ho place s hs ↦ ⟨trivial, ho place s hs⟩
    rintro ⟨a⟩ - ⟨b⟩ - hab
    exact congrArg MemoryObject.mk hab
  refine (finite_of_entries (Set.finite_lt_nat size) hobjects).subset ?_
  rintro m ⟨htidy, hrange⟩ t o ho
  refine ⟨(htidy t o ho).1, fun place s hs p hp ↦ hrange t place p ?_⟩
  change p ∈ (MemoryMap.object m t).entry place
  rw [object_of_get? ho]
  exact MemoryObject.mem_entry_iff.2 ⟨s, hs, hp⟩

end MemoryMap

namespace NodeMemory

variable {m m' : NodeMemory} {map map' : MemoryMap} {size : Nat} {p : Pointer} {values values' : PointerSet}
  {strong : Bool}

/-! ## Writes and copies -/

theorem written_tidy (hmap : map.Tidy size) (hp : p.target < size) : (written map p values strong).Tidy size := by
  unfold written
  split
  · exact hmap.insert hp (hmap.object _).overwrite
  · exact hmap.insert hp (hmap.object _).write

theorem copied_tidy (hmap : map.Tidy size) {dest : Pointer} (hdest : dest.target < size) {zeroed : Bool}
    {src : Pointer} {length : Offset} : (copied map zeroed src dest length).Tidy size :=
  hmap.insert hdest ((hmap.object _).writeAll _)

theorem contains_written {t : NodeId} :
    (written map p values strong).contains t = true ↔ t = p.target ∨ map.contains t = true :=
  MemoryMap.contains_insert

/-- A write that does not replace anything only adds. -/
theorem grows_written (h : strong = true → ∀ v, ¬v ∈ values) : map.Grows (written map p values strong) := by
  refine ⟨fun t ht ↦ contains_written.2 (.inr ht), fun t o q hq ↦ mem_written hq fun hstrong _ _ _ hvalues ↦ ?_⟩
  obtain ⟨v, hv⟩ := hvalues
  exact absurd hv (h hstrong v)

theorem written_grows (h : map.Grows map') (hvalues : values ⊆ values') :
    (written map p values strong).Grows (written map' p values' false) := by
  refine ⟨fun t ht ↦ contains_written.2 ((contains_written.1 ht).imp id (h.objects t)), fun t o q hq ↦ ?_⟩
  rcases of_mem_written hq with hold | ⟨rfl, rfl, hnew⟩
  · exact mem_written (h.contents t o hold) fun hfalse ↦ by contradiction
  · exact mem_written_self (hvalues q hnew)

/-- Both replace the entry, the second by more. -/
theorem overwritten_grows (h : map.Grows map') (hvalues : values ⊆ values') (hv : ∃ v, v ∈ values) :
    (written map p values true).Grows (written map' p values' true) := by
  refine ⟨fun t ht ↦ contains_written.2 ((contains_written.1 ht).imp id (h.objects t)), fun t o q hq ↦ ?_⟩
  rcases of_mem_written hq with hold | ⟨rfl, rfl, hnew⟩
  · refine mem_written (h.contents t o hold) fun _ hknown ht ho _ ↦ hvalues q ?_
    subst ht ho
    change q ∈ ((written map p values true).object p.target).entry p.offset at hq
    rw [written, MemoryMap.object_insert_self, if_pos (by simp [hknown]),
      MemoryObject.entry_overwrite_self hv] at hq
    exact hq
  · exact mem_written_self (hvalues q hnew)

section

variable {zeroed : Bool} {src dest : Pointer} {length : Offset}

theorem contains_copied {t : NodeId} :
    (copied map zeroed src dest length).contains t = true ↔ t = dest.target ∨ map.contains t = true :=
  MemoryMap.contains_insert

theorem grows_copied : map.Grows (copied map zeroed src dest length) :=
  ⟨fun _ ht ↦ contains_copied.2 (.inr ht), fun _ _ _ hq ↦ mem_copied.2 (.inl hq)⟩

theorem copied_grows (h : map.Grows map') :
    (copied map zeroed src dest length).Grows (copied map' zeroed src dest length) := by
  refine ⟨fun t ht ↦ contains_copied.2 ((contains_copied.1 ht).imp id (h.objects t)), fun t o q hq ↦ ?_⟩
  rcases mem_copied.1 hq with hold | ⟨ht, hnew⟩
  · exact mem_copied.2 (.inl (h.contents t o hold))
  · refine mem_copied.2 (.inr ⟨ht, MemoryMap.mem_transfer.2 ?_⟩)
    rcases MemoryMap.mem_transfer.1 hnew with ⟨offset, hplace, hmem⟩ | hnull
    · exact .inl ⟨offset, hplace, h.contents _ _ hmem⟩
    · exact .inr hnull

end

/-! ## Incoming memory -/

theorem incoming_tidy (hmaps : ∀ j map, m.maps.get? j = some map → map.Tidy size) (predecessors : List NodeId) :
    (m.incoming predecessors).Tidy size := by
  refine List.foldlRecOn predecessors _ MemoryMap.Tidy.empty fun merged hmerged j _ ↦ ?_
  split
  · rename_i map hmap
    exact hmerged.merge (hmaps j map hmap)
  · exact hmerged

theorem contains_incoming {predecessors : List NodeId} {t : NodeId} :
    (m.incoming predecessors).contains t = true ↔
      ∃ j ∈ predecessors, ∃ map, m.maps.get? j = some map ∧ map.contains t = true := by
  refine (foldl_iff (P := fun map : MemoryMap ↦ map.contains t = true)
    (Q := fun j ↦ ∃ map, m.maps.get? j = some map ∧ map.contains t = true) (fun merged j ↦ ?_) predecessors ∅).trans
    (or_iff_right (by simp [OrderedMap.contains]))
  cases hj : m.maps.get? j with
  | none => simp
  | some map => simp [MemoryMap.contains_merge]

/-- More enters a node when its predecessors leave more. -/
theorem incoming_grows {predecessors : List NodeId} (h : ∀ j ∈ predecessors, ∀ map, m.maps.get? j = some map →
    ∃ map', m'.maps.get? j = some map' ∧ map.Grows map') :
    (m.incoming predecessors).Grows (m'.incoming predecessors) := by
  constructor
  · intro t ht
    obtain ⟨j, hj, map, hmap, ht⟩ := contains_incoming.1 ht
    obtain ⟨map', hmap', hgrows⟩ := h j hj map hmap
    exact contains_incoming.2 ⟨j, hj, map', hmap', hgrows.objects t ht⟩
  · intro t o q hq
    obtain ⟨j, hj, map, hmap, hq⟩ := mem_incoming.1 hq
    obtain ⟨map', hmap', hgrows⟩ := h j hj map hmap
    exact mem_incoming.2 ⟨j, hj, map', hmap', hgrows.contents t o hq⟩

end NodeMemory

/-! ## More in, more out -/

namespace Graph

variable {g h : Graph} {id : NodeId} {n n' : Node} {map map' : MemoryMap}
  {values values' targets targets' sources sources' dests dests' : PointerSet}

/-- Both operands of the node point somewhere. -/
def Ready (g : Graph) (n : Node) : Prop :=
  ∃ s t, Transfer.Operands g n s t ∧ (∃ v, v ∈ s) ∧ ∃ p, p ∈ t

theorem ready_iff : g.Ready n ↔ (g.operandSets? n).any (fun ops ↦ !ops.1.isEmpty && !ops.2.isEmpty) = true := by
  simp only [Ready, ← operandSets?_eq_some_iff, Option.any_eq_true, Bool.and_eq_true, Bool.not_eq_eq_eq_not,
    Bool.not_true, isEmpty_eq_false_iff, Prod.exists]

instance (g : Graph) (n : Node) : Decidable (g.Ready n) := decidable_of_iff _ ready_iff.symm

theorem Precedes.operands (hgh : g.Precedes h) (hn : n.Embeds n') (hops : Transfer.Operands g n values targets) :
    ∃ values' targets', Transfer.Operands h n' values' targets' ∧ values ⊆ values' ∧ targets ⊆ targets' := by
  obtain ⟨a, b, ha, hb, hvalues, htargets⟩ := hops
  obtain ⟨values', hvalues', hsub⟩ := hgh.pointsTo_later hvalues
  obtain ⟨targets', htargets', hsub'⟩ := hgh.pointsTo_later htargets
  exact ⟨values', targets', ⟨a, b, hn.operand? ha, hn.operand? hb, hvalues', htargets'⟩, hsub, hsub'⟩

theorem Ready.later (hgh : g.Precedes h) (hn : n.Embeds n') (hready : g.Ready n) : h.Ready n' := by
  obtain ⟨s, t, hops, ⟨v, hv⟩, p, hp⟩ := hready
  obtain ⟨s', t', hops', hs, ht⟩ := hgh.operands hn hops
  exact ⟨s', t', hops', ⟨v, hs v hv⟩, p, ht p hp⟩

theorem Precedes.strongAt_eq (hgh : g.Precedes h) (single : Bool) (p : Pointer) :
    g.strongAt single p = h.strongAt single p := by
  rw [strongAt, strongAt, hgh.embeds.map_eq fun _ _ hnm ↦ hnm.heap]

theorem Precedes.zeroedAt_eq (hgh : g.Precedes h) (t : NodeId) : g.zeroedAt t = h.zeroedAt t := by
  rw [zeroedAt, zeroedAt, hgh.embeds.map_eq fun _ _ hnm ↦ hnm.zeroed]

theorem stored_grows (hgh : g.Precedes h) (hvalues : values ⊆ values') (htargets : targets ⊆ targets')
    (hv : ∃ v, v ∈ values) (hp : ∃ p, p ∈ targets) (hmap : map.Grows map') :
    (g.stored values targets map).Grows (h.stored values' targets' map') := by
  by_cases hstrong : ∃ p ∈ targets', h.strongAt (targets'.size == 1) p = true
  · -- Both have one target only, and replace what stands there.
    obtain ⟨p, hp', hstrong⟩ := hstrong
    have hsize : targets'.size = 1 := by
      simp only [strongAt, Bool.and_eq_true, beq_iff_eq] at hstrong
      exact hstrong.1.1
    obtain rfl : targets' = .singleton p := eq_singleton_of_size hsize hp'
    obtain rfl : targets = .singleton p := by
      obtain ⟨q, hq⟩ := hp
      obtain rfl := mem_singleton.1 (htargets q hq)
      exact ext fun r ↦ ⟨htargets r, fun hr ↦ mem_singleton.1 hr ▸ hq⟩
    change MemoryMap.Grows (if p.isSentinel then map else NodeMemory.written map p values _)
      (if p.isSentinel then map' else NodeMemory.written map' p values' _)
    rw [hgh.strongAt_eq, hstrong]
    split
    · exact hmap
    · exact NodeMemory.overwritten_grows hmap hvalues hv
  · have hweak : ∀ p ∈ targets', h.strongAt (targets'.size == 1) p = false := by simpa using hstrong
    refine .foldl (sublist_of_subset htargets) (fun p hp m m' hm ↦ ?_) (fun p hp m ↦ ?_) hmap
    · rw [hweak p (htargets p hp)]
      split
      · exact hm
      · exact NodeMemory.written_grows hm hvalues
    · rw [hweak p hp]
      split
      · exact .refl m
      · exact NodeMemory.grows_written fun hfalse ↦ by contradiction

theorem copiedOne_grows (hgh : g.Precedes h) (hn : n.Embeds n') {src dest : Pointer} (hmap : map.Grows map') :
    (g.copiedOne n src dest map).Grows (h.copiedOne n' src dest map') := by
  unfold copiedOne
  rw [hgh.zeroedAt_eq, hn.offset, hn.length]
  split
  · exact hmap
  · split
    · exact NodeMemory.written_grows hmap (subset_refl _)
    · exact NodeMemory.copied_grows hmap

theorem grows_copiedOne {src dest : Pointer} : map.Grows (g.copiedOne n src dest map) := by
  unfold copiedOne
  split
  · exact .refl _
  · split
    · exact NodeMemory.grows_written fun hfalse ↦ by contradiction
    · exact NodeMemory.grows_copied

theorem grows_copiedAll : map.Grows (g.copiedAll n sources dests map) := by
  refine List.foldlRecOn sources.toList _ (.refl map) fun m hm src _ ↦ ?_
  split
  · exact hm
  · refine List.foldlRecOn dests.toList _ hm fun m hm dest _ ↦ ?_
    split
    · exact hm
    · exact hm.trans grows_copiedOne

theorem copiedAll_grows (hgh : g.Precedes h) (hn : n.Embeds n') (hsources : sources ⊆ sources')
    (hdests : dests ⊆ dests') (hmap : map.Grows map') :
    (g.copiedAll n sources dests map).Grows (h.copiedAll n' sources' dests' map') := by
  refine .foldl (sublist_of_subset hsources) (fun src _ m m' hm ↦ ?_) (fun src _ m ↦ ?_) hmap
  · split
    · exact hm
    · refine .foldl (sublist_of_subset hdests) (fun dest _ m m' hm ↦ ?_) (fun dest _ m ↦ ?_) hm
      · split
        · exact hm
        · exact copiedOne_grows hgh hn hm
      · split
        · exact .refl m
        · exact grows_copiedOne
  · split
    · exact .refl m
    · refine List.foldlRecOn dests'.toList _ (.refl m) fun m₁ hm dest _ ↦ ?_
      split
      · exact hm
      · exact hm.trans grows_copiedOne

/-- A node passes on more in a later graph and from more, unless it is a store that may become a strong
update in between. -/
theorem passed_grows (hgh : g.Precedes h) (hn : n.Embeds n') (hready : n.kind = .store → g.Ready n)
    (hmap : map.Grows map') : (g.passed n map).Grows (h.passed n' map') := by
  by_cases hstore : n.kind = .store
  · obtain ⟨values, targets, hops, hv, hp⟩ := hready hstore
    obtain ⟨values', targets', hops', hvalues, htargets⟩ := hgh.operands hn hops
    rw [passed_of_store hstore hops, passed_of_store (hn.kind ▸ hstore) hops']
    exact stored_grows hgh hvalues htargets hv hp hmap
  by_cases hmemcpy : n.kind = .memcpy
  · cases hops : g.operandSets? n with
    | none =>
      have hnone : g.passed n map = map := passed_of_no_operands (fun s t hst ↦ by
        rw [operandSets?_eq_some_iff.2 hst] at hops
        contradiction) map
      rw [hnone, passed, ← hn.kind, hmemcpy]
      split
      · contradiction
      · exact hmap.trans grows_copiedAll
      · exact hmap
    | some sets =>
      have hops := operandSets?_eq_some_iff.1 hops
      obtain ⟨sources', dests', hops', hsources, hdests⟩ := hgh.operands hn hops
      rw [passed_of_memcpy hmemcpy hops, passed_of_memcpy (hn.kind ▸ hmemcpy) hops']
      exact copiedAll_grows hgh hn hsources hdests hmap
  · rw [passed_of_other hstore hmemcpy, passed_of_other (hn.kind ▸ hstore) (hn.kind ▸ hmemcpy)]
    exact hmap

end Graph

end PointsTo
