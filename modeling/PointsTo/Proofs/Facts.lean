import Mathlib.Data.Set.Card
import PointsTo.Memory.PerNode
import PointsTo.Memory.Shared
import PointsTo.Proofs.Cells
import PointsTo.Proofs.Nodes
import PointsTo.Solver.Transfer

/-!
# Constraints on pointers and memory

`Facts` say what each node may point to and what each place of memory may hold.  They solve a graph
if they meet the demand of each of its nodes, stated here without reference to how the solver
computes.  Calls of unknown memory make demands too: each gives its return one more operand.
-/

namespace PointsTo

theorem Offset.eq_of_known_eq_ofNat {x y : Nat} {h : x < limit} (heq : known x h = ofNat y) : x = y := by
  unfold ofNat at heq
  split at heq
  · exact (known.inj heq)
  · contradiction

/-- Where a copy of `length` bytes from `src` to `dest` puts what stands at an offset of the source. -/
inductive Offset.Lands (src length dest : Offset) : Offset → Offset → Prop
  /-- Inside the window the distance to its start is kept. -/
  | inside {s o d : Nat} {hs : s < limit} {ho : o < limit} {hd : d < limit}
      (hsrc : src = .known s hs) (hdest : dest = .known d hd) (hle : s ≤ o)
      (hlength : ∀ l hl, length = .known l hl → o - s < l) :
      Lands src length dest (.known o ho) (.ofNat (d + (o - s)))
  /-- What has no exact place may be anywhere. -/
  | anywhere {offset : Offset} (h : src = .unknown ∨ offset = .unknown ∨ dest = .unknown) :
      Lands src length dest offset .unknown

theorem MemoryObject.copiedTo?_known {s o d : Nat} {hs : s < Offset.limit} {ho : o < Offset.limit}
    {hd : d < Offset.limit} {length : Offset} :
    copiedTo? (.known s hs) length (.known d hd) (.known o ho) =
      if o < s then none
      else
        match length with
        | .known l _ => if l ≤ o - s then none else some (.ofNat (d + (o - s)))
        | .unknown => some (.ofNat (d + (o - s))) := rfl

theorem MemoryObject.copiedTo?_eq_some_iff {src length dest offset place : Offset} :
    copiedTo? src length dest offset = some place ↔ Offset.Lands src length dest offset place := by
  constructor
  · intro h
    match src, offset, dest with
    | .known s hs, .known o ho, .known d hd =>
      rw [copiedTo?_known] at h
      split at h
      · contradiction
      · rename_i hle
        split at h
        · rename_i l hl
          split at h
          · contradiction
          · rename_i hlen
            obtain rfl := Option.some.inj h
            exact .inside rfl rfl (by omega) fun l' hl' e ↦ by
              obtain rfl := Offset.known.inj e
              omega
        · obtain rfl := Option.some.inj h
          exact .inside rfl rfl (by omega) fun l' hl' e ↦ by contradiction
    | .unknown, _, _ | .known .., .unknown, _ | .known .., .known .., .unknown =>
      simp only [copiedTo?, Option.some.injEq] at h
      subst h
      exact .anywhere (by simp)
  · intro h
    cases h with
    | inside hsrc hdest hle hlength =>
      subst hsrc hdest
      rw [copiedTo?_known, if_neg (by omega)]
      split
      · rename_i l hl
        have := hlength l hl rfl
        rw [if_neg (by omega)]
      · rfl
    | anywhere h =>
      rcases h with rfl | rfl | rfl
      · rfl
      · cases src <;> rfl
      · cases src <;> cases offset <;> rfl

/-- What may be stored in memory, by target and offset. -/
abbrev Contents := NodeId → Offset → Set Pointer

/-- What a memory map holds. -/
def MemoryMap.contents (map : MemoryMap) : Contents := fun t o ↦ {p | p ∈ (map.object t).entry o}

/-- What a read through a pointer may yield: what stands there, what was written anywhere, everything if
the offset is unknown, and null from zeroed memory. -/
def Graph.reads (g : Graph) (mem : Contents) (p : Pointer) : Set Pointer :=
  {q | q ∈ mem p.target p.offset ∨ q ∈ mem p.target .unknown ∨
    (p.offset = .unknown ∧ ∃ place, q ∈ mem p.target place) ∨ (g.Zeroed p.target ∧ q = .null)}

/-- What a copy puts at an offset of its destination: the bytes in its window, and null from zeroed
memory. -/
def Graph.moves (g : Graph) (mem : Contents) (src dest : Pointer) (length place : Offset) : Set Pointer :=
  {q | (∃ offset, Offset.Lands src.offset length dest.offset offset place ∧ q ∈ mem src.target offset) ∨
    (g.Zeroed src.target ∧ place = .unknown ∧ q = .null)}

theorem Graph.reads_mono {g : Graph} {mem mem' : Contents} (h : ∀ t o, mem t o ⊆ mem' t o) {p : Pointer} :
    g.reads mem p ⊆ g.reads mem' p := by
  rintro q (hq | hq | ⟨hp, place, hq⟩ | hq)
  · exact .inl (h _ _ hq)
  · exact .inr (.inl (h _ _ hq))
  · exact .inr (.inr (.inl ⟨hp, place, h _ _ hq⟩))
  · exact .inr (.inr (.inr hq))

theorem Graph.moves_mono {g : Graph} {mem mem' : Contents} (h : ∀ t o, mem t o ⊆ mem' t o) {src dest : Pointer}
    {length place : Offset} : g.moves mem src dest length place ⊆ g.moves mem' src dest length place := by
  rintro q (⟨offset, hlands, hq⟩ | hq)
  · exact .inl ⟨offset, hlands, h _ _ hq⟩
  · exact .inr hq

theorem Graph.mem_reads_iff {g : Graph} {map : MemoryMap} {p q : Pointer} :
    q ∈ g.reads map.contents p ↔
      q ∈ (map.object p.target).read p.offset ∨ (g.Zeroed p.target ∧ q = .null) := by
  rw [MemoryObject.mem_read]
  simp only [Graph.reads, MemoryMap.contents, Set.mem_ofPred_eq, or_assoc]

theorem MemoryMap.mem_transfer_iff {g : Graph} {map : MemoryMap} {src dest q : Pointer} {length place : Offset}
    {n : Node} (hn : g.nodes[src.target]? = some n) :
    (∃ s, (place, s) ∈ map.transfer n.zeroed src dest length ∧ q ∈ s) ↔
      q ∈ g.moves map.contents src dest length place := by
  simp only [mem_transfer, MemoryObject.copiedTo?_eq_some_iff, ← Graph.Zeroed.iff_of_node hn]
  rfl

/-- A pointer after a shift that stays in bounds; a sentinel stays what it is. -/
def Graph.shifted (g : Graph) (maxOffset : Nat) (p : Pointer) (amount : Offset) : Pointer :=
  if p.isSentinel then p else ⟨p.target, (p.offset + amount).bound maxOffset (g.sizeAt p.target)⟩

/-- The kinds of nodes that point to all that their operands point to. -/
def NodeKind.Collects (k : NodeKind) : Prop := k = .cast ∨ k = .phi ∨ k = .ret ∨ k = .callReturn

/-- The kinds of nodes that make no demand. -/
def NodeKind.Passive (k : NodeKind) : Prop :=
  ¬k.Collects ∧ k ≠ .gep ∧ k ≠ .load ∧ k ≠ .store ∧ k ≠ .memcpy

/-- What each node may point to, and what may be stored in memory. -/
structure Facts where
  pts : NodeId → Set Pointer
  mem : Contents

namespace Facts

/-- The facts meet the demand of a node. -/
structure Meets (F : Facts) (g : Graph) (maxOffset : Nat) (id : NodeId) (n : Node) : Prop where
  collect : n.kind.Collects → ∀ op ∈ n.operands, F.pts op ⊆ F.pts id
  gep : ∀ {base : NodeId}, n.kind = .gep → n.operand? 0 = some base →
    ∀ p ∈ F.pts base, g.shifted maxOffset p n.offset ∈ F.pts id
  /-- Anything may be read through unknown memory. -/
  loadUnknown : ∀ {pointer : NodeId}, n.kind = .load → n.operand? 0 = some pointer →
    ∀ p ∈ F.pts pointer, p.isUnknown = true → Pointer.unknown ∈ F.pts id
  load : ∀ {pointer : NodeId}, n.kind = .load → n.operand? 0 = some pointer →
    ∀ p ∈ F.pts pointer, p.isSentinel = false → g.reads F.mem p ⊆ F.pts id
  store : ∀ {value pointer : NodeId}, n.kind = .store → n.operand? 0 = some value →
    n.operand? 1 = some pointer →
    ∀ p ∈ F.pts pointer, p.isSentinel = false → F.pts value ⊆ F.mem p.target p.offset
  /-- Unknown memory may hold anything, also where it is copied to. -/
  copyUnknown : ∀ {src dest : NodeId}, n.kind = .memcpy → n.operand? 0 = some src →
    n.operand? 1 = some dest →
    ∀ p ∈ F.pts src, p.isUnknown = true → ∀ q ∈ F.pts dest, q.isSentinel = false →
    Pointer.unknown ∈ F.mem q.target q.offset
  copy : ∀ {src dest : NodeId}, n.kind = .memcpy → n.operand? 0 = some src →
    n.operand? 1 = some dest →
    ∀ p ∈ F.pts src, p.isSentinel = false → ∀ q ∈ F.pts dest, q.isSentinel = false →
    ∀ place, g.moves F.mem ⟨p.target, p.offset + n.offset⟩ q n.length place ⊆ F.mem q.target place

/-- The facts meet the demand of every node of the graph. -/
def Solves (F : Facts) (g : Graph) (maxOffset : Nat) : Prop :=
  ∀ ⦃id : NodeId⦄ ⦃n : Node⦄, g.nodes[id]? = some n → F.Meets g maxOffset id n

/-- The facts include what the nodes of the graph point to. -/
def Covers (F : Facts) (g : Graph) : Prop :=
  ∀ ⦃id : NodeId⦄ ⦃n : Node⦄, g.nodes[id]? = some n → ∀ p ∈ n.pointsTo, p ∈ F.pts id

variable {F : Facts} {g h : Graph} {maxOffset : Nat}

/-- What the nodes of a graph point to and what a memory map holds. -/
def found (g : Graph) (map : MemoryMap) : Facts where
  pts id := {p | ∃ n, g.nodes[id]? = some n ∧ p ∈ n.pointsTo}
  mem := map.contents

theorem mem_found_pts {map : MemoryMap} {id : NodeId} {p : Pointer} :
    p ∈ (found g map).pts id ↔ ∃ s, g.pointsTo id = .ok s ∧ p ∈ s := by
  constructor
  · rintro ⟨n, hn, hp⟩
    exact ⟨n.pointsTo, Graph.pointsTo_eq_ok_iff.2 ⟨n, hn, rfl⟩, hp⟩
  · rintro ⟨s, hs, hp⟩
    obtain ⟨n, hn, rfl⟩ := Graph.pointsTo_eq_ok_iff.1 hs
    exact ⟨n, hn, hp⟩

theorem Covers.pointsTo {id : NodeId} {s : PointerSet} (hF : F.Covers g)
    (hs : g.pointsTo id = .ok s) : ∀ p ∈ s, p ∈ F.pts id := by
  obtain ⟨n, hn, rfl⟩ := Graph.pointsTo_eq_ok_iff.1 hs
  exact hF hn

/-- A graph demands no more than one that it embeds into. -/
theorem Solves.of_embeds (hF : F.Solves h maxOffset) (hgh : g.Embeds h) : F.Solves g maxOffset := by
  intro id n hn
  obtain ⟨m, hm, hnm⟩ := hgh.later hn
  have hmeets := hF hm
  refine ⟨fun hkind op hop ↦ ?_, fun hkind hbase p hp ↦ ?_, fun hkind hpointer ↦ ?_,
    fun hkind hpointer p hp hs ↦ ?_, fun hkind hvalue hpointer ↦ ?_, fun hkind hsrc hdest ↦ ?_,
    fun hkind hsrc hdest p hp hps q hq hqs ↦ ?_⟩
  · exact hmeets.collect (hnm.kind ▸ hkind) op (hnm.operands.subset hop)
  · have := hmeets.gep (hnm.kind ▸ hkind) (hnm.operand? hbase) p hp
    rwa [Graph.shifted, ← hgh.sizeAt_eq, ← hnm.offset] at this
  · exact hmeets.loadUnknown (hnm.kind ▸ hkind) (hnm.operand? hpointer)
  · have := hmeets.load (hnm.kind ▸ hkind) (hnm.operand? hpointer) p hp hs
    rwa [Graph.reads, ← hgh.zeroed_iff] at this
  · exact hmeets.store (hnm.kind ▸ hkind) (hnm.operand? hvalue) (hnm.operand? hpointer)
  · exact hmeets.copyUnknown (hnm.kind ▸ hkind) (hnm.operand? hsrc) (hnm.operand? hdest)
  · have := hmeets.copy (hnm.kind ▸ hkind) (hnm.operand? hsrc) (hnm.operand? hdest) p hp hps q hq hqs
    intro place
    have hplace := this place
    rwa [Graph.moves, ← hgh.zeroed_iff, ← hnm.offset, ← hnm.length] at hplace

/-- The calls through a function pointer that return to a node and may call unknown memory. -/
def unknownCalls (F : Facts) (g : Graph) (ret : NodeId) : Set NodeId :=
  {c | ∃ n callee p, g.nodes[c]? = some n ∧ n.kind = .indirectCall ∧ n.paired = some ret ∧
    n.operand? 0 = some callee ∧ p ∈ F.pts callee ∧ p.isUnknown = true}

theorem finite_unknownCalls (ret : NodeId) : (F.unknownCalls g ret).Finite := by
  refine (Set.finite_lt_nat g.size).subset ?_
  rintro c ⟨n, callee, p, hn, -⟩
  exact Graph.lt_size_of_node hn

/-- The second graph is the first, in which a return has unknown memory as one more operand for each
call of unknown memory that returns to it. -/
structure Answers (F : Facts) (g h : Graph) : Prop where
  embeds : g.Embeds h
  operands : ∀ {id : NodeId} {n m : Node}, g.nodes[id]? = some n → h.nodes[id]? = some m →
    m.operands = n.operands ++ List.replicate (F.unknownCalls h id).ncard unknownTarget

/-- The facts include the pointers of the graph and meet all its demands, also those that arise from
calls of unknown memory. -/
def Solution (g : Graph) (maxOffset : Nat) (F : Facts) : Prop :=
  F.Covers g ∧ ∃ h, F.Answers g h ∧ F.Solves h maxOffset

/-- Everything that the first facts allow, the second allow too. -/
instance : LE Facts := ⟨fun F G ↦ (∀ id, F.pts id ⊆ G.pts id) ∧ ∀ t o, F.mem t o ⊆ G.mem t o⟩

end Facts

end PointsTo
