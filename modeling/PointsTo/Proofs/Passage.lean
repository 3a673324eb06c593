import PointsTo.Proofs.Models
import PointsTo.Proofs.Transfer

/-!
# Memory passed from node to node

With a memory per node, the memory after a node is a function of the graph and of the memory that
enters it, which is what its predecessors leave.
-/

namespace PointsTo

open Query

namespace Graph

/-- What the first two operands of a node point to, if it has both. -/
def operandSets? (g : Graph) (n : Node) : Option (PointerSet × PointerSet) := do
  let a ← n.operand? 0
  let b ← n.operand? 1
  return ((← g.nodes[a]?).pointsTo, (← g.nodes[b]?).pointsTo)

/-- A write through the pointer is a strong update if the pointer is the only one. -/
def strongAt (g : Graph) (single : Bool) (p : Pointer) : Bool :=
  single && !p.offset.isUnknown && (g.nodes[p.target]?).map (·.heap) == some false

def zeroedAt (g : Graph) (t : NodeId) : Bool := ((g.nodes[t]?).map (·.zeroed)).getD false

/-- Memory after the values were written through the targets. -/
def stored (g : Graph) (values targets : PointerSet) (map : MemoryMap) : MemoryMap :=
  targets.toList.foldl (fun map p ↦
    if p.isSentinel then map else NodeMemory.written map p values (g.strongAt (targets.size == 1) p)) map

/-- Memory after a copy from one source to one destination. -/
def copiedOne (g : Graph) (n : Node) (src dest : Pointer) (map : MemoryMap) : MemoryMap :=
  if dest.isUnknown then map
  else if src.isUnknown then NodeMemory.written map dest (.singleton .unknown) false
  else NodeMemory.copied map (g.zeroedAt src.target) ⟨src.target, src.offset + n.offset⟩ dest n.length

/-- Memory after a copy from the sources to the destinations. -/
def copiedAll (g : Graph) (n : Node) (sources dests : PointerSet) (map : MemoryMap) : MemoryMap :=
  sources.toList.foldl (fun map src ↦
    if src.isNull then map
    else dests.toList.foldl (fun map dest ↦ if dest.isNull then map else g.copiedOne n src dest map) map) map

/-- The memory after a node, by the memory that enters it. -/
def passed (g : Graph) (n : Node) (map : MemoryMap) : MemoryMap :=
  match n.kind, g.operandSets? n with
  | .store, some (values, targets) => g.stored values targets map
  | .memcpy, some (sources, dests) => g.copiedAll n sources dests map
  | _, _ => map

variable {g : Graph} {n : Node}

theorem operandSets?_eq_some_iff {s t : PointerSet} :
    g.operandSets? n = some (s, t) ↔ Transfer.Operands g n s t := by
  simp only [operandSets?, Option.bind_eq_bind, Option.bind_eq_some_iff, Option.pure_def, Option.some.injEq,
    Prod.mk.injEq, Transfer.Operands, pointsTo_eq_ok_iff]
  constructor
  · rintro ⟨a, ha, b, hb, na, hna, nb, hnb, rfl, rfl⟩
    exact ⟨a, b, ha, hb, ⟨na, hna, rfl⟩, nb, hnb, rfl⟩
  · rintro ⟨a, b, ha, hb, ⟨na, hna, rfl⟩, nb, hnb, rfl⟩
    exact ⟨a, ha, b, hb, na, hna, nb, hnb, rfl, rfl⟩

theorem passed_of_no_operands (h : ∀ s t, ¬Transfer.Operands g n s t) (map : MemoryMap) : g.passed n map = map := by
  have hnone : g.operandSets? n = none := by
    rw [Option.eq_none_iff_forall_not_mem]
    rintro ⟨s, t⟩ hst
    exact h s t (operandSets?_eq_some_iff.1 hst)
  unfold passed
  split
  · rename_i hsome
    rw [hnone] at hsome
    contradiction
  · rename_i hsome
    rw [hnone] at hsome
    contradiction
  · rfl

theorem passed_of_store {values targets : PointerSet} (hkind : n.kind = .store)
    (hops : Transfer.Operands g n values targets) (map : MemoryMap) :
    g.passed n map = g.stored values targets map := by
  rw [passed, hkind, operandSets?_eq_some_iff.2 hops]

theorem passed_of_memcpy {sources dests : PointerSet} (hkind : n.kind = .memcpy)
    (hops : Transfer.Operands g n sources dests) (map : MemoryMap) :
    g.passed n map = g.copiedAll n sources dests map := by
  rw [passed, hkind, operandSets?_eq_some_iff.2 hops]

theorem passed_of_other (hstore : n.kind ≠ .store) (hmemcpy : n.kind ≠ .memcpy) (map : MemoryMap) :
    g.passed n map = map := by
  unfold passed
  split
  · contradiction
  · contradiction
  · rfl

end Graph

namespace Transfer

variable {g : Graph} {maxOffset : Nat} {id : NodeId} {n : Node} {m m' : NodeMemory} {map : MemoryMap} {w : Bool}

theorem isStrong_eq {single strong : Bool} {p : Pointer} (h : isStrong g single p = .ok strong) :
    strong = g.strongAt single p := by
  unfold isStrong at h
  unfold Graph.strongAt
  split at h
  · rename_i hsingle
    simp only [bind_eq_ok_iff, pure_eq_ok_iff, Graph.node_eq_ok_iff] at h
    obtain ⟨t, ht, rfl⟩ := h
    rw [hsingle, ht, Option.map_some]
    cases t.heap with
    | false => rfl
    | true => rfl
  · rename_i hsingle
    rw [Bool.eq_false_iff.2 hsingle]
    exact (pure_eq_ok_iff.1 h).symm

theorem store_passed (hkind : n.kind = .store) (hm : m.current = some (id, map))
    (h : store g id n m = .ok (w, m')) :
    (w, m') = (false, { m with current := some (id, g.passed n map) }) := by
  rcases store_cases h with ⟨rfl, rfl, hnone⟩ | ⟨values, targets, hops, hfold⟩
  · rw [Graph.passed_of_no_operands hnone, ← hm]
  · rw [Graph.passed_of_store hkind hops]
    refine foldlM_follows (R := fun map (x : Bool × NodeMemory) ↦
      x = (false, { m with current := some (id, map) })) ?_ hfold (by rw [← hm])
    rintro p hp map _ d rfl hd
    split at hd
    · rename_i hs
      rw [if_pos hs]
      exact (pure_eq_ok_iff.1 hd).symm
    · rename_i hs
      simp only [bind_eq_ok_iff, pure_eq_ok_iff] at hd
      obtain ⟨strong, hstrong, rfl⟩ := hd
      rw [if_neg hs, NodeMemory.store_of_current rfl, ← isStrong_eq hstrong]
      rfl

theorem copyOne_passed {src dest : Pointer} (hm : m.current = some (id, map))
    (h : copyOne g id n src dest m = .ok (w, m')) :
    (w, m') = (false, { m with current := some (id, g.copiedOne n src dest map) }) := by
  unfold Graph.copiedOne
  rcases copyOne_cases h with ⟨hdest, rfl, rfl⟩ | ⟨hdest, hsrc, hstore⟩ | ⟨hdest, hsrc, hcopy⟩
  · rw [if_pos hdest, ← hm]
  · rw [if_neg (by simp [hdest]), if_pos hsrc, ← hstore, NodeMemory.store_of_current hm]
  · obtain rfl := NodeMemory.wrote_of_copy hcopy
    obtain ⟨t, ht, rfl⟩ := NodeMemory.copy_of_current hm hcopy
    rw [if_neg (by simp [hdest]), if_neg (by simp [hsrc]), Graph.zeroedAt, ht]
    rfl

theorem memcpy_passed (hkind : n.kind = .memcpy) (hm : m.current = some (id, map))
    (h : memcpy g id n m = .ok (w, m')) :
    (w, m') = (false, { m with current := some (id, g.passed n map) }) := by
  rcases memcpy_cases h with ⟨rfl, rfl, hnone⟩ | ⟨sources, dests, hops, hfold⟩
  · rw [Graph.passed_of_no_operands hnone, ← hm]
  · rw [Graph.passed_of_memcpy hkind hops]
    refine foldlM_follows (R := fun map (x : Bool × NodeMemory) ↦
      x = (false, { m with current := some (id, map) })) ?_ hfold (by rw [← hm])
    rintro src - map _ d rfl hd
    split at hd
    · rename_i hnull
      rw [if_pos hnull]
      exact (pure_eq_ok_iff.1 hd).symm
    · rename_i hnull
      rw [if_neg hnull]
      refine foldlM_follows (R := fun map (x : Bool × NodeMemory) ↦
        x = (false, { m with current := some (id, map) })) ?_ hd rfl
      rintro dest - map _ d rfl hd
      split at hd
      · rename_i hnull
        rw [if_pos hnull]
        exact (pure_eq_ok_iff.1 hd).symm
      · rename_i hnull
        simp only [bind_eq_ok_iff, pure_eq_ok_iff] at hd
        obtain ⟨⟨w, m₁⟩, hcopy, rfl⟩ := hd
        obtain ⟨rfl, rfl⟩ := Prod.mk.inj (copyOne_passed rfl hcopy)
        rw [if_neg hnull]
        rfl

/-- Processing a node makes of the memory that enters it what the node passes on. -/
theorem effect_passed {e : Effect NodeMemory} (hm : m.current = some (id, map))
    (h : effect g maxOffset id n m = .ok e) :
    e.memory = { m with current := some (id, g.passed n map) } ∧ e.wrote = false := by
  have hsame (hstore : n.kind ≠ .store) (hmemcpy : n.kind ≠ .memcpy) (hmem : e.memory = m) :
      e.memory = { m with current := some (id, g.passed n map) } := by
    rw [Graph.passed_of_other hstore hmemcpy, hmem, ← hm]
  rcases effect_cases h with ⟨hkind, -, hmem, hw⟩ | ⟨hkind, -, hmem, hw⟩ | ⟨hkind, -, hmem, hw⟩ | ⟨hkind, h, -⟩ |
    ⟨hkind, h, -⟩ | ⟨hkind, hmem, hw, -⟩
  · refine ⟨hsame (fun hstore ↦ ?_) (fun hmemcpy ↦ ?_) hmem, hw⟩
    · simp [NodeKind.Collects, hstore] at hkind
    · simp [NodeKind.Collects, hmemcpy] at hkind
  · exact ⟨hsame (by simp [hkind]) (by simp [hkind]) hmem, hw⟩
  · exact ⟨hsame (by simp [hkind]) (by simp [hkind]) hmem, hw⟩
  · exact (Prod.mk.inj (store_passed hkind hm h)).symm
  · exact (Prod.mk.inj (memcpy_passed hkind hm h)).symm
  · exact ⟨hsame hkind.2.2.2.1 hkind.2.2.2.2 hmem, hw⟩

end Transfer

namespace NodeMemory

variable {g : Graph} {id j : NodeId} {n : Node} {m m' : NodeMemory} {out : MemoryMap}

/-- The memory after a node, from what its predecessors leave now. -/
def remade (m : NodeMemory) (g : Graph) (n : Node) : MemoryMap := g.passed n (m.incoming n.predecessors)

theorem get?_leave :
    (MemoryModel.leave id { m with current := some (id, out) }).2.maps.get? j =
      if j = id then some out else m.maps.get? j := by
  change (leave id _).2.maps.get? j = _
  rw [leave, currentAt?_eq_some_iff.2 rfl]
  dsimp only
  split
  · rename_i hsame
    split
    · rename_i hj
      rw [hj, hsame]
    · rfl
  · split
    · rename_i hj
      rw [hj, OrderedMap.get?_insert_self]
    · rename_i hj
      exact OrderedMap.get?_insert_of_ne hj

/-- What the model makes of its maps when a node is processed. -/
theorem get?_of_effect {maxOffset : Nat} {e : Effect NodeMemory} (hn : g.nodes[id]? = some n)
    (henter : MemoryModel.enter g id m = .ok m') (heffect : Transfer.effect g maxOffset id n m' = .ok e) :
    (MemoryModel.leave id e.memory).2.maps.get? j = if j = id then some (m.remade g n) else m.maps.get? j := by
  obtain ⟨_, hn', rfl⟩ := enter_eq_ok_iff.1 henter
  obtain rfl := Option.mem_unique hn' hn
  rw [(Transfer.effect_passed rfl heffect).1, get?_leave]
  rfl

end NodeMemory

end PointsTo
