import Mathlib.Data.List.MinMax
import PointsTo.Proofs.Attainable
import PointsTo.Proofs.Growth
import PointsTo.Proofs.SharedConvergence

/-!
# How far copies carry offsets

Pointer arithmetic stays in bounds, so a write through a pointer adds an entry at an offset that the
graph bounds at the start.  Copies are another matter: an entry keeps its distance to the start of the
window, and where the copy puts it no size is looked at.  Every entry of shared memory can be traced
back to a write, through copies each of which may carry it further up.  As long as no copies carry an
entry back to its own object at a higher offset, it is enough to count every copying node once.
-/

namespace PointsTo

/-! ## Entries -/

namespace SharedMemory

variable {m m' : SharedMemory} {t : NodeId} {x : Nat}

/-- The object of the target has an entry at the known offset. -/
def HasKey (m : SharedMemory) (t : NodeId) (x : Nat) : Prop :=
  ∃ h, (m.objects.object t).hasEntry (.known x h) = true

/-- No entry of any object is empty. -/
def Tidy (m : SharedMemory) : Prop := ∀ t, (m.objects.object t).Tidy

theorem Tidy.insert {o : MemoryObject} (hm : m.Tidy) (ho : o.Tidy) : Tidy ⟨m.objects.insert t o⟩ := by
  intro u
  by_cases hu : u = t
  · subst hu
    rwa [MemoryMap.object_insert_self]
  · rw [MemoryMap.object_insert_of_ne hu]
    exact hm u

theorem Tidy.store (hm : m.Tidy) (p : Pointer) (values : PointerSet) : (store p values m).2.Tidy :=
  hm.insert (hm p.target).write

theorem Tidy.copy {g : Graph} {src dest : Pointer} {length : Offset} {wrote : Bool} (hm : m.Tidy)
    (h : copy g src dest length m = .ok (wrote, m')) : m'.Tidy := by
  simp only [SharedMemory.copy, Query.bind_eq_ok_iff, Query.pure_eq_ok_iff, Prod.mk.injEq] at h
  obtain ⟨n, -, -, rfl⟩ := h
  exact hm.insert ((hm dest.target).writeAll _)

theorem hasKey_of_mem {h : x < Offset.limit} {p : Pointer} (hp : p ∈ m.objects.contents t (.known x h)) :
    m.HasKey t x := by
  obtain ⟨s, hs, -⟩ := MemoryObject.mem_entry_iff.1 hp
  exact ⟨h, by simp [MemoryObject.hasEntry, OrderedMap.contains, hs]⟩

theorem Tidy.exists_mem (hm : m.Tidy) (h : m.HasKey t x) : ∃ hx p, p ∈ m.objects.contents t (.known x hx) := by
  obtain ⟨hx, h⟩ := h
  obtain ⟨s, hs⟩ := Option.isSome_iff_exists.1 h
  obtain ⟨p, hp⟩ := hm t _ s hs
  exact ⟨hx, p, MemoryObject.mem_entry_iff.2 ⟨s, hs, hp⟩⟩

/-- Shared memory keeps its entries. -/
theorem Tidy.hasKey_of_adds {added : Contents} {wrote : Bool} (hm : m.Tidy) (hadds : Adds added m wrote m')
    (h : m.HasKey t x) : m'.HasKey t x := by
  obtain ⟨hx, p, hp⟩ := hm.exists_mem h
  exact hasKey_of_mem (by rw [hadds.contents]; exact .inl hp)

end SharedMemory

/-! ## What copies carry -/

namespace Graph

variable {g h : Graph} {m m' : SharedMemory} {c t u : NodeId} {cs : List NodeId} {x y ahead : Nat} {p : Pointer}

/-- The node copies what stands at the offset, `ahead` bytes after the start of its window. -/
def CopiesFrom (g : Graph) (c t : NodeId) (x ahead : Nat) : Prop :=
  ∃ n sources dests p s h, g.nodes[c]? = some n ∧ n.kind = .memcpy ∧ Transfer.Operands g n sources dests ∧ p ∈ sources ∧
    p.isSentinel = false ∧ p.target = t ∧ p.offset + n.offset = .known s h ∧ x = s + ahead ∧
    ∀ l hl, n.length = .known l hl → ahead < l

/-- The node copies the start of its window to the offset. -/
def CopiesTo (g : Graph) (c t : NodeId) (x : Nat) : Prop :=
  ∃ n sources dests h, g.nodes[c]? = some n ∧ n.kind = .memcpy ∧ Transfer.Operands g n sources dests ∧
    ⟨t, .known x h⟩ ∈ dests ∧ Pointer.isSentinel ⟨t, .known x h⟩ = false

/-- The node copies what stands at the first place to the second. -/
def Copies (g : Graph) (c : NodeId) (place place' : NodeId × Nat) : Prop :=
  ∃ ahead start, g.CopiesFrom c place.1 place.2 ahead ∧ g.CopiesTo c place'.1 start ∧ place'.2 = start + ahead

/-- Copies, one after the other, carry what stands at the first place to the second. -/
def Carries (g : Graph) : NodeId × Nat → NodeId × Nat → Prop := Relation.TransGen fun place place' ↦
    ∃ c, g.Copies c place place'

/-- No copies carry an entry of an object back to the object, to a higher offset. -/
def Level (g : Graph) (m : SharedMemory) : Prop :=
  ∀ ⦃t x y⦄, m.HasKey t x → g.Carries (t, x) (t, y) → y ≤ x

/-- Every copying node copies to offsets that are no higher than where its windows start. -/
def copiesDown (g : Graph) : Bool :=
  g.nodes.all fun n ↦ n.kind != .memcpy || (g.operandSets? n).all fun (sources, dests) ↦
    sources.toList.all fun p ↦ dests.toList.all fun q ↦ q.offset.toWord ≤ (p.offset + n.offset).toWord

/-- The entry at the offset was written there, or copied by the nodes from one that was written. -/
inductive Traced (g : Graph) (m : SharedMemory) : List NodeId → NodeId → Nat → Prop
  | written {id t : NodeId} {n : Node} {x : Nat} {h : x < Offset.limit} :
    g.nodes[id]? = some n → ⟨t, .known x h⟩ ∈ n.pointsTo → m.HasKey t x → g.Traced m [] t x
  | copied {c t u : NodeId} {cs : List NodeId} {x y : Nat} :
    g.Traced m cs t x → g.Copies c (t, x) (u, y) → m.HasKey u y → g.Traced m (c :: cs) u y

theorem CopiesFrom.ahead_le (h : g.CopiesFrom c t x ahead) : ahead ≤ x := by
  obtain ⟨_, _, _, _, _, _, _, _, _, _, _, _, _, hx, _⟩ := h
  omega

theorem level_of_copiesDown (hg : g.copiesDown = true) (m : SharedMemory) : g.Level m := by
  have hdown {c : NodeId} {place place' : NodeId × Nat} (hcopies : g.Copies c place place') : place'.2 ≤ place.2 := by
    obtain ⟨ahead, start, hfrom, ⟨n, sources, dests, hstart, hn, hkind, hops, hq, -⟩, hplace'⟩ := hcopies
    obtain ⟨n', sources', dests', p, s, hs, hn', -, hops', hp, -, -, hoffset, hplace, -⟩ := hfrom
    obtain rfl := Option.mem_unique hn hn'
    obtain ⟨rfl, rfl⟩ := hops.unique hops'
    have hnode := List.all_eq_true.1 hg n (List.mem_of_getElem? hn)
    rw [hkind, operandSets?_eq_some_iff.2 hops] at hnode
    simp only [bne_self_eq_false, Bool.false_or, Option.all_some, List.all_eq_true, decide_eq_true_eq] at hnode
    have hle := hnode p hp _ hq
    rw [hoffset] at hle
    change start ≤ s at hle
    omega
  intro t x y _ hcarries
  have hle : ∀ place, g.Carries (t, x) place → place.2 ≤ x := fun place h ↦ by
    induction h with
    | single hstep => exact hdown hstep.choose_spec
    | tail _ hstep ih => exact (hdown hstep.choose_spec).trans ih
  exact hle _ hcarries

theorem Precedes.copiesFrom (hgh : g.Precedes h) (hc : g.CopiesFrom c t x ahead) : h.CopiesFrom c t x ahead := by
  obtain ⟨n, sources, dests, p, s, hs, hn, hkind, hops, hp, hproper, htarget, hstart, hx, hlength⟩ := hc
  obtain ⟨n', hn', hnn'⟩ := hgh.later hn
  obtain ⟨sources', dests', hops', hsources, -⟩ := hgh.operands hnn'.toEmbeds hops
  exact ⟨n', sources', dests', p, s, hs, hn', hnn'.kind ▸ hkind, hops', hsources p hp, hproper, htarget,
    hnn'.offset ▸ hstart, hx, hnn'.length ▸ hlength⟩

theorem Precedes.copiesTo (hgh : g.Precedes h) (hc : g.CopiesTo c t x) : h.CopiesTo c t x := by
  obtain ⟨n, sources, dests, hx, hn, hkind, hops, hmem, hproper⟩ := hc
  obtain ⟨n', hn', hnn'⟩ := hgh.later hn
  obtain ⟨sources', dests', hops', -, hdests⟩ := hgh.operands hnn'.toEmbeds hops
  exact ⟨n', sources', dests', hx, hn', hnn'.kind ▸ hkind, hops', hdests _ hmem, hproper⟩

/-- What is traced stays so while pointers and entries are added. -/
theorem Traced.later (ht : g.Traced m cs t x) (hgh : g.Precedes h) (hm : ∀ t x, m.HasKey t x → m'.HasKey t x) :
    h.Traced m' cs t x := by
  induction ht with
  | written hn hp hkey =>
    obtain ⟨n', hn', hnn'⟩ := hgh.later hn
    exact .written hn' (hnn'.pointsTo _ hp) (hm _ _ hkey)
  | copied _ hcopies hkey ih =>
    obtain ⟨ahead, start, hfrom, hto, hy⟩ := hcopies
    exact .copied ih ⟨ahead, start, hgh.copiesFrom hfrom, hgh.copiesTo hto, hy⟩ (hm _ _ hkey)

/-- Where a node copied first, and how the entry went on from there. -/
theorem Traced.first (ht : g.Traced m cs t x) (hc : c ∈ cs) : ∃ cs' u y place, g.Traced m cs' u y ∧ c ∉ cs' ∧ cs' ⊆ cs ∧
    g.Copies c (u, y) place ∧ m.HasKey place.1 place.2 ∧
    Relation.ReflTransGen (fun place place' ↦ ∃ c, g.Copies c place place') place (t, x) := by
  induction ht with
  | written => simp at hc
  | @copied d t u cs x y ht hcopies hkey ih =>
    by_cases hearlier : c ∈ cs
    · obtain ⟨cs', v, z, place, hfirst, hnew, hsub, hcopy, hplace, hcarries⟩ := ih hearlier
      exact ⟨cs', v, z, place, hfirst, hnew, fun _ h ↦ List.mem_cons_of_mem _ (hsub h), hcopy, hplace,
        hcarries.tail ⟨d, hcopies⟩⟩
    · obtain rfl : c = d := (List.mem_cons.1 hc).resolve_right hearlier
      exact ⟨cs, t, x, (u, y), ht, hearlier, fun _ h ↦ List.mem_cons_of_mem _ h, hcopies, hkey, .refl⟩

/-- A node that copies a second time finds nothing further up in its window than the first time: it could
copy what it finds now to where it copied then, which is no higher if the copies are level. -/
theorem Traced.ahead_le (ht : g.Traced m cs t x) (hlevel : g.Level m) (hfrom : g.CopiesFrom c t x ahead) :
    ∃ cs' u y, g.Traced m cs' u y ∧ c ∉ cs' ∧ cs' ⊆ cs ∧ ahead ≤ y := by
  by_cases hc : c ∈ cs
  · obtain ⟨cs', u, y, place, hfirst, hnew, hsub, ⟨ahead', start, hfrom', hto, hplace⟩, hkey, hcarries⟩ := ht.first hc
    have hback : g.Carries (place.1, place.2) (place.1, start + ahead) :=
      .tail' hcarries ⟨c, ahead, start, hfrom, hto, rfl⟩
    have hle := hlevel hkey hback
    have hahead := hfrom'.ahead_le
    exact ⟨cs', u, y, hfirst, hnew, hsub, by dsimp only at hahead; omega⟩
  · exact ⟨cs, t, x, ht, hc, fun _ h ↦ h, hfrom.ahead_le⟩

/-- If the pointers of the graph stay below a bound, each node that copied adds at most this bound. -/
theorem Traced.le {bound : Nat} (hlevel : g.Level m)
    (hbound : ∀ (id : NodeId) (n : Node) (t : NodeId) (x : Nat) (h : x < Offset.limit), g.nodes[id]? = some n →
      ⟨t, .known x h⟩ ∈ n.pointsTo → x ≤ bound)
    (copying : Finset NodeId) (ht : g.Traced m cs t x) (hcs : ∀ c ∈ cs, c ∈ copying) :
    x ≤ (copying.card + 1) * bound := by
  induction copying using Finset.strongInduction generalizing cs t x with
  | H copying ih =>
    cases ht with
    | written hn hp _ => exact (hbound _ _ _ _ _ hn hp).trans (Nat.le_mul_of_pos_left _ (Nat.succ_pos _))
    | @copied c t u cs y x ht hcopies _ =>
      obtain ⟨ahead, start, hfrom, ⟨n, sources, dests, hstart, -, -, ⟨-, b, -, -, -, hdests⟩, hdest, -⟩, hx⟩ := hcopies
      obtain ⟨cs', v, z, hfirst, hnew, hsub, hahead⟩ := ht.ahead_le hlevel hfrom
      have hc : c ∈ copying := hcs c (by simp)
      have hfewer : ∀ d ∈ cs', d ∈ copying.erase c := fun d hd ↦
        Finset.mem_erase.2 ⟨fun h ↦ hnew (h ▸ hd), hcs d (List.mem_cons_of_mem _ (hsub hd))⟩
      have hz : z ≤ copying.card * bound := by
        have := ih _ (Finset.erase_ssubset hc) hfirst hfewer
        rwa [Finset.card_erase_add_one hc] at this
      obtain ⟨dest, hdestNode, rfl⟩ := pointsTo_eq_ok_iff.1 hdests
      have hle := hbound _ _ _ _ _ hdestNode hdest
      dsimp only at hx
      calc x = start + ahead := hx
        _ ≤ bound + copying.card * bound := Nat.add_le_add hle (hahead.trans hz)
        _ = (copying.card + 1) * bound := by rw [Nat.succ_mul, Nat.add_comm]

/-! ## The bounds of a graph -/

/-- The nodes that copy. -/
def copyNodes (g : Graph) : List NodeId := (List.range g.size).filter fun id ↦ (g.nodes[id]?).any (·.kind == .memcpy)

/-- The largest size of a node. -/
def largestSize (g : Graph) : Nat := (g.nodes.map (·.size)).foldr max 0

/-- The largest known offset of a pointer. -/
def largestOffset (g : Graph) : Nat :=
  ((g.nodes.flatMap (·.pointsTo.toList)).filterMap (·.offset.value?)).foldr max 0

/-- No pointer that solving comes across has a larger known offset. -/
def offsetBound (g : Graph) (maxOffset : Nat) : Nat := maxOffset + g.largestSize + g.largestOffset

theorem mem_copyNodes {n : Node} (hn : g.nodes[c]? = some n) (hkind : n.kind = .memcpy) : c ∈ g.copyNodes := by
  simp [copyNodes, hn, hkind, lt_size_of_node hn]

theorem Traced.mem_copyNodes (ht : h.Traced m cs t x) (hgh : g.Precedes h) (hc : c ∈ cs) : c ∈ g.copyNodes := by
  induction ht with
  | written => simp at hc
  | copied _ hcopies _ ih =>
    rcases List.mem_cons.1 hc with rfl | hc
    · obtain ⟨-, -, ⟨n, -, -, -, -, -, hn, hkind, -⟩, -⟩ := hcopies
      obtain ⟨n₀, hn₀, hnn⟩ := hgh.earlier hn
      exact Graph.mem_copyNodes hn₀ (hnn.kind ▸ hkind)
    · exact ih hc

theorem sizeAt_le_largestSize (g : Graph) (t : NodeId) : g.sizeAt t ≤ g.largestSize := by
  unfold sizeAt
  cases hn : g.nodes[t]? with
  | none => exact Nat.zero_le _
  | some n => exact List.le_max_of_le (List.mem_map.2 ⟨n, List.mem_of_getElem? hn, rfl⟩) le_rfl

theorem le_largestOffset {id : NodeId} {n : Node} {hx : x < Offset.limit} (hn : g.nodes[id]? = some n)
    (hp : ⟨t, .known x hx⟩ ∈ n.pointsTo) : x ≤ g.largestOffset := by
  refine List.le_max_of_le (List.mem_filterMap.2 ⟨⟨t, .known x hx⟩, ?_, rfl⟩) le_rfl
  exact List.mem_flatMap.2 ⟨n, List.mem_of_getElem? hn, hp⟩

theorem Attainable.le_offsetBound {maxOffset : Nat} {hx : x < Offset.limit}
    (h : g.Attainable maxOffset ⟨t, .known x hx⟩) : x ≤ g.offsetBound maxOffset := by
  unfold offsetBound
  generalize hp : (⟨t, .known x hx⟩ : Pointer) = p at h
  cases h with
  | initial hn hmem =>
    subst hp
    have := le_largestOffset hn hmem
    omega
  | null =>
    obtain ⟨-, hoffset⟩ := Pointer.mk.inj hp
    obtain rfl := Offset.known.inj hoffset
    omega
  | unknown =>
    obtain ⟨-, hoffset⟩ := Pointer.mk.inj hp
    contradiction
  | inside _ _ hinside =>
    subst hp
    have hsize := g.sizeAt_le_largestSize t
    obtain ⟨hsized, hunsized⟩ := hinside
    dsimp only at hsized hunsized
    rcases Nat.eq_zero_or_pos (g.sizeAt t) with hzero | hpos
    · have := hunsized hzero
      omega
    · have := hsized hpos
      omega

end Graph

/-! ## Reached states -/

/-- All entries of shared memory can be traced back, and none is empty. -/
structure Graph.Accounts (g : Graph) (m : SharedMemory) : Prop where
  tidy : m.Tidy
  traced : ∀ {t x}, m.HasKey t x → ∃ cs, g.Traced m cs t x

namespace Graph.Accounts

variable {g h : Graph} {m m' : SharedMemory} {id : NodeId} {n : Node} {w : Bool} {maxOffset : Nat}

theorem fresh (g : Graph) : g.Accounts {} where
  tidy _ := .empty
  traced h := by
    obtain ⟨_, h⟩ := h
    contradiction

theorem later (hm : g.Accounts m) (hgh : g.Precedes h) : h.Accounts m where
  tidy := hm.tidy
  traced hkey := (hm.traced hkey).imp fun _ ht ↦ ht.later hgh fun _ _ hkey ↦ hkey

/-- An entry that is new has to be traced to the old ones. -/
theorem of_adds {added : Contents} (hm : g.Accounts m) (htidy : m'.Tidy) (hadds : SharedMemory.Adds added m w m')
    (hnew : ∀ {t x h p}, p ∈ added t (.known x h) → m'.HasKey t x → ∃ cs, g.Traced m' cs t x) : g.Accounts m' where
  tidy := htidy
  traced {t x} hkey := by
    obtain ⟨hx, p, hp⟩ := htidy.exists_mem hkey
    rw [hadds.contents] at hp
    rcases hp with hold | hadded
    · obtain ⟨cs, ht⟩ := hm.traced (SharedMemory.hasKey_of_mem hold)
      exact ⟨cs, ht.later (.refl g) fun _ _ ↦ hm.tidy.hasKey_of_adds hadds⟩
    · exact hnew hadded hkey

/-- A write through a pointer of the graph. -/
theorem store {p : Pointer} {values : PointerSet} (hm : g.Accounts m) (hn : g.nodes[id]? = some n)
    (hp : p ∈ n.pointsTo) : g.Accounts (SharedMemory.store p values m).2 := by
  refine hm.of_adds (hm.tidy.store p values) (SharedMemory.store_adds p values m) ?_
  rintro t x hx q ⟨rfl, hoffset, -⟩ hkey
  have hp : ⟨p.target, .known x hx⟩ ∈ n.pointsTo := hoffset ▸ hp
  exact ⟨[], .written hn hp hkey⟩

/-- A copy from one source to one destination. -/
theorem copy {sources dests : PointerSet} {p q : Pointer} (hm : g.Accounts m) (hn : g.nodes[id]? = some n)
    (hkind : n.kind = .memcpy)
    (hops : Transfer.Operands g n sources dests) (hp : p ∈ sources) (hpproper : p.isSentinel = false) (hq : q ∈ dests)
    (hqproper : q.isSentinel = false) (hcopy : SharedMemory.copy g ⟨p.target, p.offset + n.offset⟩ q n.length m =
    .ok (w, m')) : g.Accounts m' := by
  have hadds := SharedMemory.copy_adds hcopy
  refine hm.of_adds (hm.tidy.copy hcopy) hadds ?_
  rintro t y hy v ⟨rfl, ⟨offset, hlands, hv⟩ | ⟨-, hunknown, -⟩⟩ hkey
  · generalize hplace : Offset.known y hy = place at hlands
    cases hlands with
    | @inside s o d hs ho hd hsrc hdest hle hlength =>
      obtain ⟨cs, ht⟩ := hm.traced (SharedMemory.hasKey_of_mem hv)
      have hdest : ⟨q.target, .known d hd⟩ = q := by rw [← hdest]
      have hfrom : g.CopiesFrom id p.target o (o - s) :=
        ⟨n, sources, dests, p, s, hs, hn, hkind, hops, hp, hpproper, rfl, hsrc, by omega, hlength⟩
      have hto : g.CopiesTo id q.target d := ⟨n, sources, dests, hd, hn, hkind, hops, hdest.symm ▸ hq,
        hdest.symm ▸ hqproper⟩
      have hy : y = d + (o - s) := Offset.eq_of_known_eq_ofNat hplace
      exact ⟨id :: cs, .copied (ht.later (.refl g) fun _ _ ↦ hm.tidy.hasKey_of_adds hadds) ⟨_, _, hfrom, hto, hy⟩ hkey⟩
    | anywhere => contradiction
  · contradiction

/-- Processing a node. -/
theorem effect {e : Effect SharedMemory} (hm : g.Accounts m) (hn : g.nodes[id]? = some n)
    (he : Transfer.effect g maxOffset id n m = .ok e) : g.Accounts e.memory := by
  rcases Transfer.effect_cases he with ⟨-, -, hmem, -⟩ | ⟨-, -, hmem, -⟩ | ⟨-, -, hmem, -⟩ | ⟨hkind, h,
    -⟩ | ⟨hkind, h, -⟩ | ⟨-, hmem, -⟩
  case inr.inr.inr.inl =>
    refine (Transfer.store_induction (P := fun _ m ↦ g.Accounts m) (R := fun _ _ _ ↦ True) ?_ h hm).1
    rintro values targets ⟨_, pointer, -, -, -, htargets⟩ p hp - strong - c m₁ hm₁
    obtain ⟨l, hl, rfl⟩ := pointsTo_eq_ok_iff.1 htargets
    exact ⟨hm₁.store hl hp, trivial, fun _ _ _ ↦ trivial⟩
  case inr.inr.inr.inr.inl =>
    refine (Transfer.memcpy_induction (P := fun _ m ↦ g.Accounts m) (R := fun _ _ _ _ ↦ True) ?_ h hm).1
    rintro sources dests hops p hp hpnull q hq hqnull c m₁ w m₂ hm₁ hcopy
    refine ⟨?_, trivial, fun _ _ _ _ _ ↦ trivial⟩
    rcases Transfer.copyOne_cases hcopy with ⟨-, -, rfl⟩ | ⟨-, -, hstore⟩ | ⟨hqu, hpu, hcopy⟩
    · exact hm₁
    · obtain ⟨-, dest, -, -, -, hdests⟩ := hops
      obtain ⟨l, hl, rfl⟩ := pointsTo_eq_ok_iff.1 hdests
      have hstored : g.Accounts (SharedMemory.store q (.singleton .unknown) m₁).2 := hm₁.store hl hq
      have hstore : SharedMemory.store q (.singleton .unknown) m₁ = (w, m₂) := hstore
      rwa [hstore] at hstored
    · exact hm₁.copy hn hkind hops hp (by simp [Pointer.isSentinel, hpnull, hpu]) hq
        (by simp [Pointer.isSentinel, hqnull, hqu]) hcopy
  all_goals exact hmem ▸ hm

end Graph.Accounts

namespace Solve

variable {s s' : Solving SharedMemory LoneGraph} {g : Graph} {maxOffset : Nat} {journal : Journal}
  {x y : Round × Solving SharedMemory LoneGraph}

theorem accounts_visit {id : NodeId} {changed : Bool} (hs : s.host.graph.Accounts s.solver.memory)
    (h : visit LoneGraph.linker id s = .ok changed s') : s'.host.graph.Accounts s'.solver.memory := by
  obtain ⟨n, m, e, t, u, linked, hv⟩ := visited LoneGraph.linker_lawful h
  have henter : s.solver.memory = m := Except.ok.inj hv.enter
  have heffect := (henter ▸ hs).effect hv.node hv.effect
  have hmemory : s'.solver.memory = e.memory := by
    rw [hv.memory_leave, (hv.links.frame LoneGraph.linker_lawful).1, hv.memory_gain]
    rfl
  exact hmemory ▸ heffect.later (visit_precedes h)

theorem accounts_alike (hs : s.host.graph.Accounts s.solver.memory) (h : Alike LoneGraph.linker s s') :
    s'.host.graph.Accounts s'.solver.memory := by
  have hgraph : s'.host.graph = s.host.graph := h.graph
  rw [hgraph, h.memory]
  exact hs

theorem accounts_of_reaches (h : Reaches LoneGraph.linker
    (outset LoneGraph.linker (lone SharedMemory g maxOffset journal)) x) :
    x.2.host.graph.Accounts x.2.solver.memory := by
  induction h with
  | refl => exact .fresh g
  | @tail y z _ hstep ih =>
    obtain ⟨r, s⟩ := y
    obtain ⟨r', s'⟩ := z
    rcases hstep with hnext | ⟨t, halike, heq⟩
    · rcases next_cases LoneGraph.linker_lawful hnext with ⟨id, queue, changed, t, hp⟩ | ⟨-, -, -, rfl⟩
      · exact accounts_alike (accounts_visit ih hp.visit) hp.alike
      · exact accounts_alike ih (endRound_alike LoneGraph.linker_lawful)
    · obtain ⟨-, rfl⟩ := Prod.mk.inj heq
      exact accounts_alike ih halike

theorem attained_of_reaches (h : Reaches LoneGraph.linker
    (outset LoneGraph.linker (lone SharedMemory g maxOffset journal)) x) : Attained g maxOffset x.2 := by
  induction h with
  | refl => exact .lone g maxOffset journal
  | tail _ hstep ih => exact ih.proceeds hstep

theorem reaches_course (k : Nat) : Reaches LoneGraph.linker (outset LoneGraph.linker s)
    (course LoneGraph.linker s k) := by
  refine Relation.ReflTransGen.mono ?_ _ _ (leads_course k)
  exact fun _ _ hnext ↦ .inl hnext

/-- While no copies carry an entry back to its object at a higher offset, the known offsets of all entries
stay below what one write and every copying node, each once, can make of the offsets of pointers. -/
theorem known_keys_lt (hx : Reaches LoneGraph.linker
    (outset LoneGraph.linker (lone SharedMemory g maxOffset journal)) x)
    (hlevel : x.2.host.graph.Level x.2.solver.memory) :
    ∀ t o, x.2.solver.memory.HasKey t o → o < (g.copyNodes.length + 1) * (g.offsetBound maxOffset + 1) := by
  intro t o hkey
  have hattained := attained_of_reaches hx
  obtain ⟨cs, ht⟩ := (accounts_of_reaches hx).traced hkey
  have hle : o ≤ (g.copyNodes.toFinset.card + 1) * g.offsetBound maxOffset := ht.le hlevel
    (fun _ _ _ _ _ hn hp ↦ Graph.Attainable.le_offsetBound (hattained.covers hn _ hp)) g.copyNodes.toFinset
    fun c hc ↦ List.mem_toFinset.2 (ht.mem_copyNodes hattained.precedes hc)
  calc o ≤ (g.copyNodes.toFinset.card + 1) * g.offsetBound maxOffset := hle
    _ ≤ (g.copyNodes.length + 1) * g.offsetBound maxOffset :=
      Nat.mul_le_mul_right _ (Nat.succ_le_succ (List.toFinset_card_le _))
    _ < (g.copyNodes.length + 1) * (g.offsetBound maxOffset + 1) :=
      Nat.mul_lt_mul_of_pos_left (Nat.lt_succ_self _) (Nat.succ_pos _)

/-- An object is copied onto itself, one byte down. -/
def slide : Graph where
  nodes := Graph.sentinels.nodes ++
    [{ kind := .alloc, pointsTo := .singleton ⟨2, .zero⟩ },
      { kind := .constant, pointsTo := .singleton ⟨2, .ofNat 2⟩, users := [5, 6] },
      { kind := .constant, pointsTo := .singleton ⟨2, .ofNat 1⟩, users := [6] },
      { kind := .store, operands := [3, 3] },
      { kind := .memcpy, operands := [3, 4], length := .unknown }]

theorem known_keys_lt_slide : ∃ x, Reaches LoneGraph.linker (outset LoneGraph.linker (lone SharedMemory slide 0)) x ∧
    (x.2.solver.memory.HasKey 2 1 ∧ x.2.solver.memory.HasKey 2 2) ∧
    ∀ t o, x.2.solver.memory.HasKey t o → o < (slide.copyNodes.length + 1) * (slide.offsetBound 0 + 1) := by
  have hreaches := reaches_course (s := lone SharedMemory slide 0) 7
  have hdown : (course LoneGraph.linker (lone SharedMemory slide 0) 7).2.host.graph.copiesDown = true := by
    decide +kernel
  refine ⟨_, hreaches, ⟨⟨by decide, by decide +kernel⟩, by decide, by decide +kernel⟩, ?_⟩
  exact known_keys_lt hreaches (Graph.level_of_copiesDown hdown _)

/-- An object is copied onto itself, one byte up. -/
def ladder : Graph where
  nodes := Graph.sentinels.nodes ++
    [{ kind := .alloc, pointsTo := .singleton ⟨2, .zero⟩ },
      { kind := .constant, pointsTo := .singleton ⟨2, .zero⟩, users := [5, 6] },
      { kind := .constant, pointsTo := .singleton ⟨2, .ofNat 1⟩, users := [6] },
      { kind := .store, operands := [3, 3] },
      { kind := .memcpy, operands := [3, 4], length := .unknown }]

/-- What is written at the start of the object climbs through all of its known offsets. -/
theorem entries_climb_ladder : ladder.WellFormed ∧ (ladder.copyNodes.length + 1) * (ladder.offsetBound 0 + 1) = 4 ∧
    ∃ x, Reaches LoneGraph.linker (outset LoneGraph.linker (lone SharedMemory ladder 0)) x ∧
      ∀ o < Offset.limit, x.2.solver.memory.HasKey 2 o := by
  have hwf : ladder.WellFormed := by decide
  have hs : Sound (lone SharedMemory ladder 0) := sound_lone hwf 0 {}
  obtain ⟨k, hk⟩ := (exists_settled_iff @tells_contents hs (.fresh ladder)).2
    (eventually_contents hs (.fresh ladder) rfl)
  refine ⟨hwf, by decide, _, reaches_course k, ?_⟩
  generalize hx : course LoneGraph.linker (lone SharedMemory ladder 0) k = x at hk
  have hprecedes : ladder.Precedes x.2.host.graph := hx ▸ (attained_of_reaches (reaches_course k)).precedes
  obtain ⟨hsolves, -⟩ := found_solves LoneGraph.linker_lawful (hx ▸ leads_course k) hk
  have hpts {id : NodeId} {n : Node} {p : Pointer} (hn : ladder.nodes[id]? = some n) (hp : p ∈ n.pointsTo) :
      p ∈ (found LoneGraph.linker x.2).pts id := by
    obtain ⟨n', hn', hnn'⟩ := hprecedes.later hn
    exact ⟨n', hn', hnn'.pointsTo p hp⟩
  have hbottom : ⟨2, .zero⟩ ∈ (found LoneGraph.linker x.2).pts 3 := hpts rfl (by simp)
  have htop : ⟨2, .ofNat 1⟩ ∈ (found LoneGraph.linker x.2).pts 4 := hpts rfl (by simp)
  obtain ⟨store, hstore, hstore₀⟩ := hprecedes.later (show ladder.nodes[5]? = some _ from rfl)
  obtain ⟨copy, hcopy, hcopy₀⟩ := hprecedes.later (show ladder.nodes[6]? = some _ from rfl)
  suffices hheld : ∀ o, ∀ ho : o < Offset.limit, ⟨2, .zero⟩ ∈ (found LoneGraph.linker x.2).mem 2 (.known o ho) from
    fun o ho ↦ SharedMemory.hasKey_of_mem (hheld o ho)
  intro o ho
  induction o with
  | zero =>
    exact (hsolves hstore).store hstore₀.kind.symm (hstore₀.operand? rfl) (hstore₀.operand? rfl)
      ⟨2, .zero⟩ hbottom rfl hbottom
  | succ o ih =>
    have ho' : o < Offset.limit := Nat.lt_of_succ_lt ho
    have hlands : Offset.Lands (.zero + copy.offset) copy.length (.ofNat 1) (.known o ho') (.ofNat (1 + (o - 0))) :=
      .inside (by rw [← hcopy₀.offset]; rfl) rfl (Nat.zero_le o) fun l hl hlength ↦ by
        rw [← hcopy₀.length] at hlength
        contradiction
    have hmoved := (hsolves hcopy).copy hcopy₀.kind.symm (hcopy₀.operand? rfl) (hcopy₀.operand? rfl) _ hbottom
      rfl _ htop rfl _ (.inl ⟨_, hlands, ih ho'⟩)
    have hplace : Offset.ofNat (1 + (o - 0)) = .known (o + 1) ho := by
      rw [Nat.sub_zero, Nat.add_comm, Offset.ofNat, dif_pos ho]
    exact hplace ▸ hmoved

end Solve

end PointsTo
