import PointsTo.Proofs.Models
import PointsTo.Proofs.Transfer

/-!
# Memory within given contents

Both memory models stay within contents of memory that are closed under what is written: the shared
memory as a whole, and the memory of every node.  A node that is processed within facts that solve
the graph yields pointers and memory within these facts.
-/

namespace PointsTo

/-- Everything stored in the map is among the contents. -/
def MemoryMap.Within (map : MemoryMap) (mem : Contents) : Prop := ∀ t o, map.contents t o ⊆ mem t o

theorem MemoryMap.Within.empty {mem : Contents} : MemoryMap.Within ∅ mem :=
  fun _ _ _ hp ↦ absurd hp MemoryObject.not_mem_entry_empty

/-- A memory model whose operations stay within contents that are closed under what they write. -/
class Confined (μ : Type) [MemoryModel μ] where
  Within : μ → Contents → Prop
  fresh (mem : Contents) : Within MemoryModel.fresh mem
  enter {mem : Contents} {g : Graph} {id : NodeId} {m m' : μ} :
    Within m mem → MemoryModel.enter g id m = .ok m' → Within m' mem
  load {mem : Contents} {g : Graph} {id : NodeId} {p : Pointer} {m : μ} {out : PointerSet} :
    Within m mem → MemoryModel.load g id p m = .ok out → ∀ q ∈ out, q ∈ g.reads mem p
  store {mem : Contents} {id : NodeId} {p : Pointer} {values : PointerSet} {strong : Bool} {m : μ} :
    Within m mem → (∀ q ∈ values, q ∈ mem p.target p.offset) →
    Within (MemoryModel.store id p values strong m).2 mem
  copy {mem : Contents} {g : Graph} {id : NodeId} {src dest : Pointer} {length : Offset} {m m' : μ}
      {w : Bool} :
    Within m mem → (∀ place, g.moves mem src dest length place ⊆ mem dest.target place) →
    MemoryModel.copy g id src dest length m = .ok (w, m') → Within m' mem
  leave {mem : Contents} {id : NodeId} {m : μ} : Within m mem → Within (MemoryModel.leave id m).2 mem

/-- What is added to shared memory has to be among the contents. -/
theorem SharedMemory.Adds.within {mem added : Contents} {m m' : SharedMemory} {w : Bool}
    (h : Adds added m w m') (hm : m.objects.Within mem) (hadded : ∀ t o, added t o ⊆ mem t o) :
    m'.objects.Within mem := by
  intro t o
  rw [h.contents]
  exact Set.union_subset (hm t o) (hadded t o)

instance : Confined SharedMemory where
  Within m mem := m.objects.Within mem
  fresh _ := MemoryMap.Within.empty
  enter h he := by
    obtain rfl := Except.ok.inj he
    exact h
  load h hl q hq := Graph.reads_mono h ((SharedMemory.mem_load hl).1 hq)
  store {mem id p values strong m} h hv := by
    refine (SharedMemory.store_adds p values m).within h ?_
    rintro _ _ q ⟨rfl, rfl, hq⟩
    exact hv q hq
  copy {mem g id src dest length m m' w} h hclosed hc := by
    refine (SharedMemory.copy_adds hc).within h ?_
    rintro _ place q ⟨rfl, hq⟩
    exact hclosed place (Graph.moves_mono h hq)
  leave h := h

namespace NodeMemory

/-- The memory after every node, and that of the node being processed, is among the contents. -/
def Within (m : NodeMemory) (mem : Contents) : Prop :=
  (∀ id map, m.maps.get? id = some map → MemoryMap.Within map mem) ∧
    ∀ id map, m.current = some (id, map) → MemoryMap.Within map mem

variable {m m' : NodeMemory} {mem : Contents} {id : NodeId} {map : MemoryMap}

theorem incoming_within (h : m.Within mem) (predecessors : List NodeId) :
    MemoryMap.Within (m.incoming predecessors) mem := by
  intro t o q hq
  obtain ⟨p, -, map, hmap, hq⟩ := mem_incoming.1 hq
  exact h.1 p map hmap t o hq

theorem stateAt?_within (h : m.Within mem) (id : NodeId) :
    MemoryMap.Within ((m.stateAt? id).getD ∅ : MemoryMap) mem := by
  unfold stateAt?
  cases hcurrent : m.currentAt? id with
  | some map => exact h.2 id map (currentAt?_eq_some_iff.1 hcurrent)
  | none =>
    cases hmap : m.maps.get? id with
    | some map => exact h.1 id map hmap
    | none => exact MemoryMap.Within.empty

theorem within_current (h : m.Within mem) (hmap : MemoryMap.Within map mem) :
    Within { m with current := some (id, map) } mem := by
  refine ⟨h.1, fun j other hother ↦ ?_⟩
  simp only [Option.some.injEq, Prod.mk.injEq] at hother
  exact hother.2 ▸ hmap

instance : Confined NodeMemory where
  Within := Within
  fresh mem := by
    constructor
    · intro id map h
      change (∅ : OrderedMap NodeId MemoryMap).get? id = some map at h
      simp at h
    · intro id map h
      exact absurd h (by simp [MemoryModel.fresh])
  enter {mem g id m m'} h he := by
    obtain ⟨n, -, rfl⟩ := enter_eq_ok_iff.1 he
    exact within_current h (incoming_within h n.predecessors)
  load {mem g id p m out} h hl q hq := by
    refine Graph.reads_mono (stateAt?_within h id) ?_
    exact mem_reads_of_load hl hq
  store {mem id p values strong m} h hv := by
    cases hcurrent : m.currentAt? id with
    | none =>
      change Within (store id p values strong m) mem
      rw [store, hcurrent]
      exact h
    | some map =>
      rw [currentAt?_eq_some_iff] at hcurrent
      rw [store_of_current hcurrent]
      refine within_current h fun t o q hq ↦ ?_
      rcases of_mem_written hq with hold | ⟨rfl, rfl, hnew⟩
      · exact h.2 id map hcurrent t o hold
      · exact hv q hnew
  copy {mem g id src dest length m m' w} h hclosed hc := by
    cases hcurrent : m.currentAt? id with
    | none => exact copy_of_not_current hcurrent hc ▸ h
    | some map =>
      rw [currentAt?_eq_some_iff] at hcurrent
      obtain ⟨n, hn, rfl⟩ := copy_of_current hcurrent hc
      have hmap := h.2 id map hcurrent
      refine within_current h fun t o q hq ↦ ?_
      rcases mem_copied.1 hq with hold | ⟨rfl, hnew⟩
      · exact hmap t o hold
      · exact hclosed o (Graph.moves_mono hmap ((MemoryMap.mem_transfer_iff hn).1 hnew))
  leave {mem id m} h := by
    change Within (leave id m).2 mem
    unfold leave
    split
    · exact ⟨h.1, by simp⟩
    · rename_i map hmap
      split
      · exact ⟨h.1, by simp⟩
      · refine ⟨fun j other hother ↦ ?_, by simp⟩
        by_cases hj : j = id
        · subst hj
          rw [OrderedMap.get?_insert_self, Option.some.injEq] at hother
          exact hother ▸ h.2 j map (currentAt?_eq_some_iff.1 hmap)
        · rw [OrderedMap.get?_insert_of_ne hj] at hother
          exact h.1 j other hother

end NodeMemory

namespace Transfer

variable {μ : Type} [MemoryModel μ] [Confined μ] {F : Facts} {g : Graph} {maxOffset : Nat} {id : NodeId}
  {n : Node} {m m' : μ}

theorem load_within {out : PointerSet} (hF : F.Solves g maxOffset) (hcover : F.Covers g)
    (hn : g.nodes[id]? = some n) (hkind : n.kind = .load) (hm : Confined.Within m F.mem)
    (h : load g id n m = .ok out) : ∀ q ∈ out, q ∈ F.pts id := by
  intro q hq
  cases hop : n.operand? 0 with
  | none =>
    simp only [load, hop, Query.pure_eq_ok_iff] at h
    simp [← h] at hq
  | some pointer =>
    obtain ⟨s, hs, -, hmem⟩ := mem_load hop h
    obtain ⟨p, hp, ⟨hunknown, rfl⟩ | ⟨hproper, read, hread, hq⟩⟩ := (hmem q).1 hq
    · exact (hF hn).loadUnknown hkind hop p (hcover.pointsTo hs p hp) hunknown
    · exact (hF hn).load hkind hop p (hcover.pointsTo hs p hp) hproper (Confined.load hm hread q hq)

theorem store_within {w : Bool} (hF : F.Solves g maxOffset) (hcover : F.Covers g)
    (hn : g.nodes[id]? = some n) (hkind : n.kind = .store) (hm : Confined.Within m F.mem)
    (h : store g id n m = .ok (w, m')) : Confined.Within m' F.mem := by
  refine (store_induction (P := fun _ m ↦ Confined.Within m F.mem) (R := fun _ _ _ ↦ True) ?_ h hm).1
  rintro values targets ⟨value, pointer, hvalue, hpointer, hvalues, htargets⟩ p hp hproper strong - c m₁ hm₁
  refine ⟨Confined.store hm₁ fun q hq ↦ ?_, trivial, fun _ _ _ ↦ trivial⟩
  exact (hF hn).store hkind hvalue hpointer p (hcover.pointsTo htargets p hp) hproper
    (hcover.pointsTo hvalues q hq)

theorem memcpy_within {w : Bool} (hF : F.Solves g maxOffset) (hcover : F.Covers g)
    (hn : g.nodes[id]? = some n) (hkind : n.kind = .memcpy) (hm : Confined.Within m F.mem)
    (h : memcpy g id n m = .ok (w, m')) : Confined.Within m' F.mem := by
  refine (memcpy_induction (P := fun _ m ↦ Confined.Within m F.mem) (R := fun _ _ _ _ ↦ True) ?_ h hm).1
  rintro sources dests ⟨src, dest, hsrc, hdest, hsources, hdests⟩ p hp hpnull q hq hqnull c m₁ w m₂ hm₁ hcopy
  refine ⟨?_, trivial, fun _ _ _ _ _ ↦ trivial⟩
  have hpF := hcover.pointsTo hsources p hp
  have hqF := hcover.pointsTo hdests q hq
  rcases copyOne_cases hcopy with ⟨-, -, rfl⟩ | ⟨hqu, hpu, hstore⟩ | ⟨hqu, hpu, hcopy⟩
  · exact hm₁
  · have hproper : q.isSentinel = false := by simp [Pointer.isSentinel, hqnull, hqu]
    have hw : Confined.Within (MemoryModel.store id q (.singleton .unknown) false m₁).2 F.mem := by
      refine Confined.store hm₁ fun v hv ↦ ?_
      obtain rfl := OrderedSet.mem_singleton.1 hv
      exact (hF hn).copyUnknown hkind hsrc hdest p hpF hpu q hqF hproper
    rwa [hstore] at hw
  · have hpproper : p.isSentinel = false := by simp [Pointer.isSentinel, hpnull, hpu]
    have hqproper : q.isSentinel = false := by simp [Pointer.isSentinel, hqnull, hqu]
    exact Confined.copy hm₁ ((hF hn).copy hkind hsrc hdest p hpF hpproper q hqF hqproper) hcopy

/-- Processing a node within facts that solve the graph stays within these facts. -/
theorem effect_within {e : Effect μ} (hF : F.Solves g maxOffset) (hcover : F.Covers g)
    (hn : g.nodes[id]? = some n) (hm : Confined.Within m F.mem)
    (h : effect g maxOffset id n m = .ok e) :
    (∀ p ∈ e.gained, p ∈ F.pts id) ∧ Confined.Within e.memory F.mem := by
  rcases effect_cases h with ⟨hkind, h, hmem, -⟩ | ⟨hkind, h, hmem, -⟩ | ⟨hkind, h, hmem, -⟩ |
    ⟨hkind, h, hgained⟩ | ⟨hkind, h, hgained⟩ | ⟨-, hmem, -, hgained⟩
  · refine ⟨fun p hp ↦ ?_, hmem ▸ hm⟩
    obtain ⟨op, hop, s, hs, hp⟩ := (mem_collect h p).1 hp
    exact (hF hn).collect hkind op hop (hcover.pointsTo hs p hp)
  · refine ⟨fun q hq ↦ ?_, hmem ▸ hm⟩
    cases hop : n.operand? 0 with
    | none =>
      simp only [gep, hop, Query.pure_eq_ok_iff] at h
      simp [← h] at hq
    | some base =>
      obtain ⟨s, hs, hmem⟩ := mem_gep hop h
      obtain ⟨p, hp, rfl⟩ := (hmem q).1 hq
      exact (hF hn).gep hkind hop p (hcover.pointsTo hs p hp)
  · exact ⟨load_within hF hcover hn hkind hm h, hmem ▸ hm⟩
  · exact ⟨by simp [hgained], store_within hF hcover hn hkind hm h⟩
  · exact ⟨by simp [hgained], memcpy_within hF hcover hn hkind hm h⟩
  · exact ⟨by simp [hgained], hmem ▸ hm⟩

end Transfer

end PointsTo
