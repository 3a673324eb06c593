import PointsTo.Proofs.Passage

/-!
# Memory at rest

A node that is processed without a change may still touch memory: a store of nothing makes an object
that holds nothing.  After that the node finds memory as it leaves it, and it does so again whenever
other nodes have been processed without a change in between.
-/

namespace PointsTo

open Query

/-- The steps of a fold that answer nothing and lead back to where they started. -/
theorem Query.foldlM_idle {α β : Type} {f : β → α → Query β} {l : List α} {b : β} (h : ∀ a ∈ l, f b a = .ok b) :
    l.foldlM f b = .ok b := by
  induction l with
  | nil => rfl
  | cons a rest ih =>
    rw [List.foldlM_cons]
    exact bind_eq_ok_iff.2 ⟨b, h a List.mem_cons_self, ih fun x hx ↦ h x (List.mem_cons_of_mem _ hx)⟩

namespace MemoryObject

variable {o : MemoryObject} {offset : Offset} {values : PointerSet}

/-- A write that adds nothing leaves the object as it is. -/
theorem write_of_subset (h : values ⊆ o.entry offset) : o.write offset values = (false, o) := by
  refine Prod.ext (write_fst_eq_false.2 h) ?_
  rw [write]
  split
  · rfl
  · rename_i hempty
    obtain ⟨p, hp⟩ := OrderedSet.isEmpty_eq_false_iff.1 (by simpa using hempty)
    obtain ⟨s, hs, -⟩ := mem_entry_iff.1 (h p hp)
    have hentry : o.entry offset = s := by simp [entry, hs]
    have hcells : o.cells.insert offset s = o.cells := by
      refine OrderedMap.ext_get? fun place ↦ ?_
      by_cases hplace : place = offset
      · rw [hplace, OrderedMap.get?_insert_self, hs]
      · exact OrderedMap.get?_insert_of_ne hplace
    change MemoryObject.mk (o.cells.insert offset (o.entry offset ∪ values)) = o
    rw [OrderedSet.union_eq_left h, hentry, hcells]

theorem writeAll_of_subset {entries : List (Offset × PointerSet)} (h : ∀ e ∈ entries, e.2 ⊆ o.entry e.1) :
    o.writeAll entries = (false, o) := by
  induction entries with
  | nil => rfl
  | cons e rest ih =>
    have hrest := ih fun d hd ↦ h d (List.mem_cons_of_mem _ hd)
    rw [writeAll_cons, write_of_subset (h e List.mem_cons_self), hrest]
    rfl

end MemoryObject

namespace SharedMemory

variable {m m' M : SharedMemory} {p : Pointer} {values : PointerSet}

/-- The second memory has the objects of the first, and objects that hold nothing besides. -/
structure Pads (m M : SharedMemory) : Prop where
  object : ∀ t, M.objects.object t = m.objects.object t
  isThere : ∀ t, m.objects.get? t ≠ none → M.objects.get? t ≠ none

theorem Pads.refl (m : SharedMemory) : Pads m m := ⟨fun _ ↦ rfl, fun _ ht ↦ ht⟩

theorem Pads.trans (h : Pads m m') (h' : Pads m' M) : Pads m M :=
  ⟨fun t ↦ (h'.object t).trans (h.object t), fun t ht ↦ h'.isThere t (h.isThere t ht)⟩

/-- Putting an object back where it is read from makes at most an object that holds nothing. -/
theorem Pads.insert (m : SharedMemory) (t : NodeId) : Pads m ⟨m.objects.insert t (m.objects.object t)⟩ where
  object u := by
    by_cases hu : u = t
    · rw [hu, MemoryMap.object_insert_self]
    · exact MemoryMap.object_insert_of_ne hu
  isThere u hne := by
    by_cases hu : u = t
    · simp [hu]
    · rwa [OrderedMap.get?_insert_of_ne hu]

theorem insert_object {t : NodeId} (h : M.objects.get? t ≠ none) :
    M.objects.insert t (M.objects.object t) = M.objects := by
  obtain ⟨o, ho⟩ := Option.ne_none_iff_exists'.1 h
  refine OrderedMap.ext_get? fun u ↦ ?_
  by_cases hu : u = t
  · rw [hu, OrderedMap.get?_insert_self, MemoryMap.object_of_get? ho, ho]
  · exact OrderedMap.get?_insert_of_ne hu

/-- A store that adds nothing, and what it does when it is repeated later. -/
theorem store_idle (h : (store p values m).1 = false) :
    Pads m (store p values m).2 ∧ ∀ M, Pads (store p values m).2 M → store p values M = (false, M) := by
  have hsub : values ⊆ (m.objects.object p.target).entry p.offset := MemoryObject.write_fst_eq_false.1 h
  have hstore : (store p values m).2 = ⟨m.objects.insert p.target (m.objects.object p.target)⟩ := by
    rw [store, MemoryObject.write_of_subset hsub]
  have hpads : Pads m (store p values m).2 := hstore ▸ .insert m p.target
  refine ⟨hpads, fun M hM ↦ ?_⟩
  have hthere : M.objects.get? p.target ≠ none := hM.isThere _ (by simp [hstore])
  rw [store, MemoryObject.write_of_subset ((hpads.trans hM).object p.target ▸ hsub)]
  exact congrArg (fun objects ↦ (false, SharedMemory.mk objects)) (insert_object hthere)

/-- The same for a copy. -/
theorem copy_idle {g : Graph} {src dest : Pointer} {length : Offset} (h : copy g src dest length m = .ok (false, m')) :
    Pads m m' ∧ ∀ M, Pads m' M → copy g src dest length M = .ok (false, M) := by
  simp only [copy, bind_eq_ok_iff, pure_eq_ok_iff, Prod.mk.injEq] at h
  obtain ⟨n, hn, hquiet, rfl⟩ := h
  have hsub : ∀ e ∈ m.objects.transfer n.zeroed src dest length, e.2 ⊆ (m.objects.object dest.target).entry e.1 :=
    fun _ he ↦ MemoryObject.mem_entry_of_writeAll_fst hquiet he
  rw [MemoryObject.writeAll_of_subset hsub]
  refine ⟨.insert m dest.target, fun M hM ↦ ?_⟩
  have hobject := ((Pads.insert m dest.target).trans hM).object
  have htransfer : M.objects.transfer n.zeroed src dest length = m.objects.transfer n.zeroed src dest length := by
    rw [MemoryMap.transfer, MemoryMap.transfer, hobject]
  have hthere : M.objects.get? dest.target ≠ none := hM.isThere _ (by simp)
  refine bind_eq_ok_iff.2 ⟨n, hn, ?_⟩
  dsimp only
  rw [htransfer, hobject, MemoryObject.writeAll_of_subset hsub, ← hobject]
  exact congrArg (fun objects ↦ Except.ok (false, SharedMemory.mk objects)) (insert_object hthere)

theorem load_eq_of_pads {g : Graph} {id : NodeId} (h : Pads m M) :
    (MemoryModel.load g id p M : Query PointerSet) = MemoryModel.load g id p m := by
  change load g p M = load g p m
  rw [load, load, h.object]

end SharedMemory

namespace Transfer

open SharedMemory

variable {g : Graph} {maxOffset : Nat} {id : NodeId} {n : Node} {m m' M : SharedMemory}

theorem store_idle (h : store g id n m = .ok (false, m')) :
    Pads m m' ∧ ∀ M, Pads m' M → store g id n M = .ok (false, M) := by
  have hfold := store_induction (P := fun c m₁ ↦ c = false → Pads m m₁)
    (R := fun p c m₁ ↦ c = false → ∀ values targets, Operands g n values targets → ∀ M, Pads m₁ M →
      SharedMemory.store p values M = (false, M)) ?_ h fun _ ↦ .refl m
  · refine ⟨hfold.1 rfl, fun M hM ↦ ?_⟩
    rcases store_cases h with ⟨-, -, hnone⟩ | ⟨values, targets, hops, hok⟩
    · unfold store
      split
      · rename_i value pointer hvalue hpointer
        unfold store at h
        simp only [hvalue, hpointer, bind_eq_ok_iff] at h
        obtain ⟨values, hvalues, targets, htargets, -⟩ := h
        exact absurd ⟨value, pointer, hvalue, hpointer, hvalues, htargets⟩ (hnone values targets)
      · rfl
    · have ⟨value, pointer, hvalue, hpointer, hvalues, htargets⟩ := hops
      unfold store
      simp only [hvalue, hpointer]
      refine bind_eq_ok_iff.2 ⟨values, hvalues, bind_eq_ok_iff.2 ⟨targets, htargets, ?_⟩⟩
      refine foldlM_idle fun p hp ↦ ?_
      dsimp only
      split
      · rfl
      · rename_i hproper
        obtain ⟨c, d, hstep⟩ := ok_of_foldlM hok p hp
        rw [if_neg hproper] at hstep
        obtain ⟨strong, hstrong, -⟩ := bind_eq_ok_iff.1 hstep
        refine bind_eq_ok_iff.2 ⟨strong, hstrong, ?_⟩
        have hidle := hfold.2 values targets hops p hp (by simpa using hproper) rfl values targets hops M hM
        change pure (false || (SharedMemory.store p values M).1, (SharedMemory.store p values M).2) = _
        rw [hidle]
        rfl
  · intro values targets hops p hp hproper strong _ c m₁ hpads
    refine ⟨fun hc ↦ ?_, fun hc values' targets' hops' M hM ↦ ?_, fun q _ hq hc values' targets' hops' M hM ↦ ?_⟩
    all_goals obtain ⟨hc, hw⟩ := Bool.or_eq_false_iff.1 hc
    · exact (hpads hc).trans (SharedMemory.store_idle hw).1
    · obtain ⟨rfl, -⟩ := hops.unique hops'
      exact (SharedMemory.store_idle hw).2 M hM
    · exact hq hc values' targets' hops' M ((SharedMemory.store_idle hw).1.trans hM)

theorem copyOne_idle {src dest : Pointer} (h : copyOne g id n src dest m = .ok (false, m')) :
    Pads m m' ∧ ∀ M, Pads m' M → copyOne g id n src dest M = .ok (false, M) := by
  unfold copyOne
  rcases copyOne_cases h with ⟨hdest, -, rfl⟩ | ⟨hdest, hsrc, hstore⟩ | ⟨hdest, hsrc, hcopy⟩
  · refine ⟨.refl m', fun M _ ↦ ?_⟩
    rw [if_pos hdest]
    rfl
  · change SharedMemory.store dest (.singleton .unknown) m = (false, m') at hstore
    obtain ⟨hpads, hidle⟩ := SharedMemory.store_idle (congrArg Prod.fst hstore)
    rw [hstore] at hpads hidle
    refine ⟨hpads, fun M hM ↦ ?_⟩
    rw [if_neg (by simp [hdest]), if_pos hsrc]
    exact congrArg Except.ok (hidle M hM)
  · obtain ⟨hpads, hidle⟩ := SharedMemory.copy_idle hcopy
    refine ⟨hpads, fun M hM ↦ ?_⟩
    rw [if_neg (by simp [hdest]), if_neg (by simp [hsrc])]
    exact hidle M hM

theorem memcpy_idle (h : memcpy g id n m = .ok (false, m')) :
    Pads m m' ∧ ∀ M, Pads m' M → memcpy g id n M = .ok (false, M) := by
  have hfold := memcpy_induction (P := fun c m₁ ↦ c = false → Pads m m₁)
    (R := fun src dest c m₁ ↦ c = false → ∀ M, Pads m₁ M → copyOne g id n src dest M = .ok (false, M)) ?_ h
    fun _ ↦ .refl m
  · refine ⟨hfold.1 rfl, fun M hM ↦ ?_⟩
    unfold memcpy
    split
    · rename_i src dest hsrc hdest
      unfold memcpy at h
      simp only [hsrc, hdest, bind_eq_ok_iff] at h
      obtain ⟨sources, hsources, dests, hdests, -⟩ := h
      have hops : Operands g n sources dests := ⟨src, dest, hsrc, hdest, hsources, hdests⟩
      refine bind_eq_ok_iff.2 ⟨sources, hsources, bind_eq_ok_iff.2 ⟨dests, hdests, ?_⟩⟩
      refine foldlM_idle fun p hp ↦ ?_
      dsimp only
      split
      · rfl
      · rename_i hpnull
        refine foldlM_idle fun q hq ↦ ?_
        dsimp only
        split
        · rfl
        · rename_i hqnull
          have hidle := hfold.2 sources dests hops p hp (by simpa using hpnull) q hq (by simpa using hqnull) rfl M hM
          exact bind_eq_ok_iff.2 ⟨(false, M), hidle, rfl⟩
    · rfl
  · intro sources dests _ p _ _ q _ _ c m₁ w m₂ hpads hcopy
    refine ⟨fun hc ↦ ?_, fun hc M hM ↦ ?_, fun src _ dest _ hidle hc M hM ↦ ?_⟩
    all_goals
      obtain ⟨hold, hw⟩ := Bool.or_eq_false_iff.1 hc
      subst hw
    · exact (hpads hold).trans (copyOne_idle hcopy).1
    · exact (copyOne_idle hcopy).2 M hM
    · exact hidle hold M ((copyOne_idle hcopy).1.trans hM)

theorem load_eq_of_pads (h : Pads m M) : load g id n M = load g id n m := by
  have hload : (fun p ↦ (MemoryModel.load g id p M : Query PointerSet)) = fun p ↦ MemoryModel.load g id p m :=
    funext fun _ ↦ SharedMemory.load_eq_of_pads h
  unfold load
  cases n.operand? 0 with
  | none => rfl
  | some pointer =>
    dsimp only
    simp only [fun p ↦ congrFun hload p]

/-- A node that is processed without a write finds memory at rest from then on. -/
theorem effect_idle {e : Effect SharedMemory} (h : effect g maxOffset id n m = .ok e) (hquiet : e.wrote = false) :
    Pads m e.memory ∧ ∀ M, Pads e.memory M → effect g maxOffset id n M = .ok { e with memory := M } := by
  have hstill (hmem : e.memory = m) (heffect : ∀ M, Pads m M → effect g maxOffset id n M = .ok { e with memory := M }) :
      Pads m e.memory ∧ ∀ M, Pads e.memory M → effect g maxOffset id n M = .ok { e with memory := M } := by
    rw [hmem]
    exact ⟨.refl m, heffect⟩
  obtain ⟨gained, memory, wrote⟩ := e
  obtain rfl : wrote = false := hquiet
  rcases effect_cases h with ⟨hkind, h, hmem, -⟩ | ⟨hkind, h, hmem, -⟩ | ⟨hkind, h, hmem, -⟩ | ⟨hkind, h, hgained⟩ |
    ⟨hkind, h, hgained⟩ | ⟨hkind, hmem, -, hgained⟩
  · refine hstill hmem fun M _ ↦ ?_
    unfold effect
    rcases hkind with hkind | hkind | hkind | hkind
    all_goals
      rw [hkind]
      exact bind_eq_ok_iff.2 ⟨gained, h, rfl⟩
  · refine hstill hmem fun M _ ↦ ?_
    unfold effect
    rw [hkind]
    exact bind_eq_ok_iff.2 ⟨gained, h, rfl⟩
  · refine hstill hmem fun M hM ↦ ?_
    unfold effect
    rw [hkind]
    exact bind_eq_ok_iff.2 ⟨gained, (load_eq_of_pads hM).trans h, rfl⟩
  · obtain rfl : gained = ∅ := hgained
    obtain ⟨hpads, hidle⟩ := store_idle h
    refine ⟨hpads, fun M hM ↦ ?_⟩
    unfold effect
    rw [hkind]
    exact bind_eq_ok_iff.2 ⟨(false, M), hidle M hM, rfl⟩
  · obtain rfl : gained = ∅ := hgained
    obtain ⟨hpads, hidle⟩ := memcpy_idle h
    refine ⟨hpads, fun M hM ↦ ?_⟩
    unfold effect
    rw [hkind]
    exact bind_eq_ok_iff.2 ⟨(false, M), hidle M hM, rfl⟩
  · obtain rfl : gained = ∅ := hgained
    refine hstill hmem fun M _ ↦ ?_
    obtain ⟨hcollects, hgep, hload, hstore, hmemcpy⟩ := hkind
    unfold effect
    cases hkind : n.kind with
    | cast | phi | ret | callReturn => simp [NodeKind.Collects, hkind] at hcollects
    | gep => exact absurd hkind hgep
    | load => exact absurd hkind hload
    | store => exact absurd hkind hstore
    | memcpy => exact absurd hkind hmemcpy
    | _ => rfl

end Transfer

/-! ## Both models -/

/-- A memory model in which a node that was processed without a change finds memory as it leaves it,
also after others were processed without a change. -/
class Quiescent (μ : Type) [MemoryModel μ] where
  /-- The second memory comes of the first by processing nodes without a change. -/
  Later : μ → μ → Prop
  refl (m : μ) : Later m m
  trans {m m' M : μ} : Later m m' → Later m' M → Later m M
  quiet {g : Graph} {maxOffset : Nat} {id : NodeId} {n : Node} {m m' : μ} {e : Effect μ} :
    g.nodes[id]? = some n → MemoryModel.enter g id m = .ok m' → Transfer.effect g maxOffset id n m' = .ok e →
    e.wrote = false → (MemoryModel.leave id e.memory).1 = false →
    Later m (MemoryModel.leave id e.memory).2 ∧ ∀ M, Later (MemoryModel.leave id e.memory).2 M →
      ∃ M' f, MemoryModel.enter g id M = .ok M' ∧ Transfer.effect g maxOffset id n M' = .ok f ∧
        f.wrote = false ∧ f.gained = e.gained ∧ MemoryModel.leave id f.memory = (false, M)

instance : Quiescent SharedMemory where
  Later := SharedMemory.Pads
  refl := .refl
  trans := .trans
  quiet _ henter heffect hwrote _ := by
    obtain rfl := Except.ok.inj henter
    obtain ⟨hpads, hidle⟩ := Transfer.effect_idle heffect hwrote
    exact ⟨hpads, fun M hM ↦ ⟨M, _, rfl, hidle M hM, hwrote, rfl, rfl⟩⟩

instance : Quiescent NodeMemory where
  Later m M := M.maps = m.maps ∧ (m.current = none → M.current = none)
  refl _ := ⟨rfl, fun h ↦ h⟩
  trans h h' := ⟨h'.1.trans h.1, fun hm ↦ h'.2 (h.2 hm)⟩
  quiet {g maxOffset id n m m' e} hn henter heffect hwrote hleft := by
    obtain ⟨n', hn', rfl⟩ := NodeMemory.enter_eq_ok_iff.1 henter
    obtain rfl := Option.mem_unique hn' hn
    have hout : e.memory = { m with current := some (id, m.remade g n') } := (Transfer.effect_passed rfl heffect).1
    have hsame : m.maps.get? id = some (m.remade g n') := by
      have hcurrent : e.memory.current = some (id, m.remade g n') := by rw [hout]
      have hmap := (NodeMemory.leave_of_current hcurrent hleft).1
      rwa [hout] at hmap
    have hleave : (MemoryModel.leave id e.memory : Bool × NodeMemory) = (false, { m with current := none }) := by
      change NodeMemory.leave id e.memory = _
      rw [hout, NodeMemory.leave, NodeMemory.currentAt?_eq_some_iff.2 rfl]
      exact if_pos hsame
    rw [hleave]
    refine ⟨⟨rfl, fun _ ↦ rfl⟩, fun M hM ↦ ?_⟩
    obtain rfl : M = { m with current := none } := by
      obtain ⟨maps, current⟩ := M
      obtain ⟨hmaps, hcurrent⟩ : maps = m.maps ∧ current = none := ⟨hM.1, hM.2 rfl⟩
      rw [hmaps, hcurrent]
    exact ⟨m.entered id n', e, NodeMemory.enter_eq_ok_iff.2 ⟨n', hn, rfl⟩, heffect, hwrote, rfl, hleave⟩

end PointsTo
