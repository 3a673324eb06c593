import PointsTo.Proofs.Models

/-!
# What a copy brings to its destination

Whatever a load could see at some distance from the start of the source, it sees at the same distance
from the start of the destination after a copy that reaches so far.  This holds of both memory models,
whether the offsets are known or not, when the destination runs past the largest known offset, and when
source and destination are one object.  A copy whose offsets are all known adds to its window alone,
unless an entry has no known place there.
-/

namespace PointsTo

/-! ## Single entries -/

namespace Offset

variable {src length dest place : Offset}

theorem ofNat_eq_known {n : Nat} (h : n < limit) : ofNat n = .known n h := dif_pos h

theorem ofNat_eq_unknown {n : Nat} (h : limit ≤ n) : ofNat n = .unknown := dif_neg (Nat.not_lt.2 h)

theorem limit_le_of_ofNat_eq {n : Nat} (h : ofNat n = .unknown) : limit ≤ n := by
  by_contra hlt
  rw [ofNat_eq_known (Nat.lt_of_not_le hlt)] at h
  contradiction

/-- Past the end of a window of `length` bytes, or before its start. -/
def Outside (start length : Nat) : Offset → Prop
  | known n _ => n < start ∨ start + length ≤ n
  | unknown => True

variable (dest) in
/-- What stands at a distance from the source lands at the same distance from the destination, or where
every read sees it. -/
theorem exists_lands_add {rel : Nat} (hrel : rel < limit) (hlength : ∀ l hl, length = .known l hl → rel < l)
    (hroom : ∀ s hs, src = .known s hs → s + rel < limit) :
    ∃ place, Lands src length dest (src + .known rel hrel) place ∧
    (place = dest + .known rel hrel ∨ place = .unknown) := by
  cases src with
  | unknown => exact ⟨.unknown, .anywhere (.inl rfl), .inr rfl⟩
  | known s hs =>
    cases dest with
    | unknown => exact ⟨.unknown, .anywhere (.inr (.inr rfl)), .inr rfl⟩
    | known d hd =>
      have hsum : (.known s hs + .known rel hrel : Offset) = .known (s + rel) (hroom s hs rfl) := ofNat_eq_known _
      have hlands : Lands (.known s hs) length (.known d hd) (.known (s + rel) (hroom s hs rfl))
          (.ofNat (d + (s + rel - s))) := by
        refine .inside rfl rfl (Nat.le_add_right s rel) fun l hl he ↦ ?_
        have hlt := hlength l hl he
        omega
      rw [Nat.add_sub_cancel_left] at hlands
      exact ⟨_, hsum ▸ hlands, .inl rfl⟩

/-- Exact copies put what they copy into their window, unless its place there is too large to be known. -/
theorem Lands.of_outside {s d l : Nat} {hs : s < limit} {hd : d < limit} {hl : l < limit} {offset : Offset}
    (h : Lands (.known s hs) (.known l hl) (.known d hd) offset place) (hout : place.Outside d l) :
    offset = .unknown ∨ ∃ o ho, offset = .known o ho ∧ s ≤ o ∧ o - s < l ∧ place = .unknown ∧ limit ≤ d + (o - s) := by
  generalize hsrc : known s hs = src at h
  generalize hlen : known l hl = length at h
  generalize hdest : known d hd = dest at h
  cases h with
  | anywhere h =>
    subst hsrc hdest
    exact .inl (by simpa using h)
  | @inside s' o d' hs' ho hd' hsrc' hdest' hle hlength =>
    obtain rfl := known.inj (hsrc.trans hsrc')
    obtain rfl := known.inj (hdest.trans hdest')
    have hlt : o - s < l := hlength l hl hlen.symm
    refine .inr ⟨o, ho, rfl, hle, hlt, ?_⟩
    generalize hplace : ofNat (d + (o - s)) = place at hout
    cases place with
    | known n hn =>
      have heq : n = d + (o - s) := eq_of_known_eq_ofNat hplace.symm
      simp only [Outside] at hout
      omega
    | unknown => exact ⟨rfl, limit_le_of_ofNat_eq hplace⟩

end Offset

namespace Graph

variable {g : Graph} {mem : Contents} {src dest q : Pointer} {length : Offset}

variable (dest) in
/-- All that a read could see at a distance from the source is moved to where a read at the same distance
from the destination sees it. -/
theorem exists_moves_of_mem_reads {rel : Nat} (hrel : rel < Offset.limit)
    (hlength : ∀ l hl, length = .known l hl → rel < l)
    (hroom : ∀ s hs, src.offset = .known s hs → s + rel < Offset.limit)
    (hq : q ∈ g.reads mem ⟨src.target, src.offset + .known rel hrel⟩) :
    ∃ place, q ∈ g.moves mem src dest length place ∧ (place = dest.offset + .known rel hrel ∨ place = .unknown) := by
  rcases hq with hq | hq | ⟨hunknown, place, hq⟩ | hzero
  · obtain ⟨place, hlands, hplace⟩ := Offset.exists_lands_add dest.offset hrel hlength hroom
    exact ⟨place, .inl ⟨_, hlands, hq⟩, hplace⟩
  · exact ⟨.unknown, .inl ⟨.unknown, .anywhere (.inr (.inl rfl)), hq⟩, .inr rfl⟩
  · -- There is room, so the offset of the source itself is unknown.
    have hsrc : src.offset = .unknown := by
      cases hs : src.offset with
      | unknown => rfl
      | known s hs' =>
        have hsum : src.offset + .known rel hrel = .known (s + rel) (hroom s hs' hs) := by
          rw [hs]
          exact Offset.ofNat_eq_known _
        exact absurd (hsum.symm.trans hunknown) (by simp)
    exact ⟨.unknown, .inl ⟨place, .anywhere (.inl hsrc), hq⟩, .inr rfl⟩
  · exact ⟨.unknown, .inr ⟨hzero.1, rfl, hzero.2⟩, .inr rfl⟩

end Graph

namespace MemoryObject

variable {o o' : MemoryObject} {place : Offset}

theorem get?_write_of_ne {offset : Offset} {values : PointerSet} (h : place ≠ offset) :
    (o.write offset values).2.cells.get? place = o.cells.get? place := by
  rw [write]
  split
  · rfl
  · exact OrderedMap.get?_insert_of_ne h

/-- An entry to which nothing is written stays as it is. -/
theorem get?_writeAll_of_ne {entries : List (Offset × PointerSet)} (h : ∀ e ∈ entries, e.1 ≠ place) :
    (o.writeAll entries).2.cells.get? place = o.cells.get? place := by
  induction entries generalizing o with
  | nil => rfl
  | cons e rest ih =>
    rw [writeAll_cons]
    exact (ih fun d hd ↦ h d (List.mem_cons_of_mem _ hd)).trans (get?_write_of_ne (h e List.mem_cons_self).symm)

/-- A read at a known offset depends on two entries. -/
theorem read_congr (hknown : place.isUnknown = false) (hplace : o'.cells.get? place = o.cells.get? place)
    (hunknown : o'.cells.get? .unknown = o.cells.get? .unknown) : o'.read place = o.read place := by
  simp [read, entry, hknown, hplace, hunknown]

end MemoryObject

/-! ## Memory maps -/

namespace MemoryMap

variable {g : Graph} {map : MemoryMap} {src dest q : Pointer} {length : Offset} {n : Node}

/-- The source has an entry in the window that the destination has no known offset for. -/
def Overflows (map : MemoryMap) (src : Pointer) (start length dest : Nat) : Prop :=
  ∃ o ho, (map.object src.target).hasEntry (.known o ho) = true ∧ start ≤ o ∧ o - start < length ∧
    Offset.limit ≤ dest + (o - start)

theorem mem_read_copied (hn : g.nodes[src.target]? = some n) {rel : Nat} (hrel : rel < Offset.limit)
    (hlength : ∀ l hl, length = .known l hl → rel < l)
    (hroom : ∀ s hs, src.offset = .known s hs → s + rel < Offset.limit)
    (hq : q ∈ g.reads map.contents ⟨src.target, src.offset + .known rel hrel⟩) :
    q ∈ ((NodeMemory.copied map n.zeroed src dest length).object dest.target).read (dest.offset + .known rel hrel) := by
  obtain ⟨place, hmoves, hplace⟩ := Graph.exists_moves_of_mem_reads dest hrel hlength hroom hq
  have hentry : q ∈ ((NodeMemory.copied map n.zeroed src dest length).object dest.target).entry place :=
    NodeMemory.mem_copied.2 (.inr ⟨rfl, (mem_transfer_iff hn).2 hmoves⟩)
  rcases hplace with rfl | rfl
  · exact MemoryObject.mem_read.2 (.inl hentry)
  · exact MemoryObject.mem_read.2 (.inr (.inl hentry))

/-- What an exact copy leaves alone: all outside its window, if every entry in the window has a place. -/
theorem get?_copied_of_outside {s d l : Nat} {hs : s < Offset.limit} {hd : d < Offset.limit} {hl : l < Offset.limit}
    (hsrc : src.offset = .known s hs) (hdest : dest.offset = .known d hd)
    (hexact : (map.object src.target).hasEntry .unknown = false) {place : Offset} (hout : place.Outside d l)
    (hfits : place = .unknown → ¬map.Overflows src s l d) :
    ((NodeMemory.copied map false src dest (.known l hl)).object dest.target).cells.get? place =
      (map.object dest.target).cells.get? place := by
  rw [NodeMemory.copied, object_insert_self]
  refine MemoryObject.get?_writeAll_of_ne fun e he heq ↦ ?_
  rw [transfer, if_neg (by simp), List.append_nil, hsrc, hdest] at he
  obtain ⟨offset, hoffset, hto⟩ := MemoryObject.mem_copiedEntries.1 (show (e.1, e.2) ∈ _ from he)
  have hsome : (map.object src.target).hasEntry offset = true := by
    simp [MemoryObject.hasEntry, OrderedMap.contains, hoffset]
  rcases (MemoryObject.copiedTo?_eq_some_iff.1 hto).of_outside (heq.symm ▸ hout) with
    rfl | ⟨o, ho, rfl, hle, hlt, hplace, hlimit⟩
  · rw [hexact] at hsome
    contradiction
  · exact hfits (heq.symm.trans hplace) ⟨o, ho, hsome, hle, hlt, hlimit⟩

end MemoryMap

/-! ## Both models -/

/-- What a copy does to the memory of a node, which was the first map before and is the second one after. -/
structure Relocates {μ : Type} [MemoryModel μ] (g : Graph) (id : NodeId) (src dest : Pointer) (length : Offset)
    (m m' : μ) (map map' : MemoryMap) : Prop where
  /-- All that could be loaded at a distance from the source is loaded at that distance from the destination. -/
  arrives : ∀ rel (hrel : rel < Offset.limit), (∀ l hl, length = .known l hl → rel < l) →
    (∀ s hs, src.offset = .known s hs → s + rel < Offset.limit) → ∃ before after,
      MemoryModel.load g id ⟨src.target, src.offset + .known rel hrel⟩ m = .ok before ∧
      MemoryModel.load g id ⟨dest.target, dest.offset + .known rel hrel⟩ m' = .ok after ∧ before ⊆ after
  /-- An exact copy from memory that is known exactly leaves alone what is outside its window; nothing
  without a known place is added unless an entry overflows, -/
  kept : ∀ s hs d hd l hl, src.offset = .known s hs → dest.offset = .known d hd → length = .known l hl →
    (map.object src.target).hasEntry .unknown = false → ¬g.Zeroed src.target → ∀ place, place.Outside d l →
    (place = .unknown → ¬map.Overflows src s l d) →
    (map'.object dest.target).cells.get? place = (map.object dest.target).cells.get? place
  /-- and if none does, what can be loaded outside the window stays the same. -/
  unseen : ∀ s hs d hd l hl, src.offset = .known s hs → dest.offset = .known d hd → length = .known l hl →
    (map.object src.target).hasEntry .unknown = false → ¬g.Zeroed src.target → ¬map.Overflows src s l d →
    ∀ o ho, Offset.Outside d l (.known o ho) →
    MemoryModel.load g id ⟨dest.target, .known o ho⟩ m' = MemoryModel.load g id ⟨dest.target, .known o ho⟩ m
  /-- Other objects are not touched. -/
  elsewhere : ∀ t, t ≠ dest.target → map'.object t = map.object t

/-- The loads of a node depend on its memory in this way. -/
structure Shows {μ : Type} [MemoryModel μ] (g : Graph) (id : NodeId) (m : μ) (map : MemoryMap) : Prop where
  total : ∀ p : Pointer, p.target < g.size → ∃ read, MemoryModel.load g id p m = .ok read
  sound : ∀ p read, MemoryModel.load g id p m = .ok read → ∀ q ∈ read, q ∈ g.reads map.contents p
  complete : ∀ p read, MemoryModel.load g id p m = .ok read → ∀ q ∈ (map.object p.target).read p.offset, q ∈ read

variable {g : Graph} {id : NodeId} {src dest : Pointer} {length : Offset} {n : Node}

/-- A copy relocates in every model whose loads show the memory of the node. -/
theorem Shows.relocates {μ : Type} [MemoryModel μ] {m m' : μ} {map : MemoryMap}
    (hn : g.nodes[src.target]? = some n) (hdest : dest.target < g.size) (hm : Shows g id m map)
    (hm' : Shows g id m' (NodeMemory.copied map n.zeroed src dest length))
    (hsame : ∀ p : Pointer, p.offset.isUnknown = false → ((NodeMemory.copied map n.zeroed src dest length).object
        p.target).cells.get? p.offset = (map.object p.target).cells.get? p.offset →
      ((NodeMemory.copied map n.zeroed src dest length).object p.target).cells.get? .unknown =
        (map.object p.target).cells.get? .unknown → MemoryModel.load g id p m' = MemoryModel.load g id p m) :
    Relocates g id src dest length m m' map (NodeMemory.copied map n.zeroed src dest length) := by
  have hkept : ∀ s hs d hd l hl, src.offset = .known s hs → dest.offset = .known d hd → length = .known l hl →
      (map.object src.target).hasEntry .unknown = false → ¬g.Zeroed src.target → ∀ place, place.Outside d l →
      (place = .unknown → ¬map.Overflows src s l d) →
      ((NodeMemory.copied map n.zeroed src dest length).object dest.target).cells.get? place =
        (map.object dest.target).cells.get? place := by
    intro s hs d hd l hl hsrc hdest hlength hexact hzeroed place hout hfits
    have hplain : n.zeroed = false := by simpa [Graph.Zeroed.iff_of_node hn] using hzeroed
    rw [hplain, hlength]
    exact MemoryMap.get?_copied_of_outside hsrc hdest hexact hout hfits
  refine ⟨fun rel hrel hlength hroom ↦ ?_, hkept, ?_, fun t ht ↦ MemoryMap.object_insert_of_ne ht⟩
  · obtain ⟨before, hbefore⟩ := hm.total ⟨src.target, src.offset + .known rel hrel⟩ (Graph.lt_size_of_node hn)
    obtain ⟨after, hafter⟩ := hm'.total ⟨dest.target, dest.offset + .known rel hrel⟩ hdest
    refine ⟨before, after, hbefore, hafter, fun q hq ↦ hm'.complete _ _ hafter q ?_⟩
    exact MemoryMap.mem_read_copied hn hrel hlength hroom (hm.sound _ _ hbefore q hq)
  · intro s hs d hd l hl hsrc hdest hlength hexact hzeroed hfits o ho hout
    refine hsame _ rfl ?_ ?_
    · exact hkept s hs d hd l hl hsrc hdest hlength hexact hzeroed _ hout fun hunknown ↦ by contradiction
    · exact hkept s hs d hd l hl hsrc hdest hlength hexact hzeroed _ trivial fun _ ↦ hfits

namespace SharedMemory

theorem shows (m : SharedMemory) : Shows g id m m.objects where
  total p hp := by
    obtain ⟨t, ht⟩ := Graph.exists_node hp
    exact ⟨_, Query.bind_eq_ok_iff.2 ⟨t, Graph.node_eq_ok_iff.2 ht, rfl⟩⟩
  sound _ _ h _ hq := (mem_load h).1 hq
  complete _ _ h _ hq := (mem_load h).2 (Graph.mem_reads_iff.2 (.inl hq))

variable (id dest length) in
theorem copy_eq (hn : g.nodes[src.target]? = some n) (m : SharedMemory) :
    ∃ wrote, MemoryModel.copy g id src dest length m =
      .ok (wrote, (⟨NodeMemory.copied m.objects n.zeroed src dest length⟩ : SharedMemory)) :=
  ⟨_, Query.bind_eq_ok_iff.2 ⟨n, Graph.node_eq_ok_iff.2 hn, rfl⟩⟩

end SharedMemory

namespace NodeMemory

variable {m : NodeMemory} {map : MemoryMap}

theorem load_of_current (h : m.current = some (id, map)) (p : Pointer) :
    MemoryModel.load g id p m = (do
      let zeroed := (← g.node p.target).zeroed
      return if zeroed && (p.offset.isUnknown || !(map.object p.target).hasEntry p.offset) then
          ((map.object p.target).read p.offset).insert .null
        else (map.object p.target).read p.offset) := by
  change load g id p m = _
  simp only [load, stateAt?, currentAt?_eq_some_iff.2 h, Option.getD_some]

theorem shows (h : m.current = some (id, map)) : Shows g id m map where
  total p hp := by
    obtain ⟨t, ht⟩ := Graph.exists_node hp
    rw [load_of_current h]
    exact ⟨_, Query.bind_eq_ok_iff.2 ⟨t, Graph.node_eq_ok_iff.2 ht, rfl⟩⟩
  sound p read hload q hq := by
    have hreads := mem_reads_of_load hload hq
    rwa [stateAt?, currentAt?_eq_some_iff.2 h] at hreads
  complete _ _ hload _ hq := mem_load_of_current h hload hq

theorem copy_eq (hn : g.nodes[src.target]? = some n) (h : m.current = some (id, map)) :
    MemoryModel.copy g id src dest length m =
      .ok (false, { m with current := some (id, copied map n.zeroed src dest length) }) := by
  change (do return (false, ← copy g id src dest length m) : Query (Bool × NodeMemory)) = _
  simp only [copy, currentAt?_eq_some_iff.2 h]
  refine Query.bind_eq_ok_iff.2 ⟨_, Query.bind_eq_ok_iff.2 ⟨n, Graph.node_eq_ok_iff.2 hn, rfl⟩, rfl⟩

end NodeMemory

/-- A copy succeeds and brings all that a later load could see, in shared memory as in the memory of the
node that is processed, and adds nothing outside its window. -/
theorem copy_relocates (g : Graph) (id : NodeId) (src dest : Pointer) (length : Offset)
    (hsrc : src.target < g.size) (hdest : dest.target < g.size) :
    (∀ m : SharedMemory, ∃ wrote, ∃ m' : SharedMemory, MemoryModel.copy g id src dest length m = .ok (wrote, m') ∧
      Relocates g id src dest length m m' m.objects m'.objects) ∧
    ∀ (m : NodeMemory) (map : MemoryMap), m.current = some (id, map) → ∃ wrote, ∃ m' : NodeMemory, ∃ map',
      MemoryModel.copy g id src dest length m = .ok (wrote, m') ∧ m'.current = some (id, map') ∧
      Relocates g id src dest length m m' map map' := by
  obtain ⟨n, hn⟩ := Graph.exists_node hsrc
  refine ⟨fun m ↦ ?_, fun m map hcurrent ↦ ?_⟩
  · obtain ⟨wrote, hcopy⟩ := SharedMemory.copy_eq id dest length hn m
    refine ⟨wrote, _, hcopy, Shows.relocates hn hdest m.shows (SharedMemory.shows _) ?_⟩
    intro p hknown hplace hunknown
    change SharedMemory.load g p _ = SharedMemory.load g p m
    rw [SharedMemory.load, SharedMemory.load, MemoryObject.read_congr hknown hplace hunknown]
  · refine ⟨false, _, _, NodeMemory.copy_eq hn hcurrent, rfl,
      Shows.relocates hn hdest (NodeMemory.shows hcurrent) (NodeMemory.shows rfl) ?_⟩
    intro p hknown hplace hunknown
    rw [NodeMemory.load_of_current rfl, NodeMemory.load_of_current hcurrent,
      MemoryObject.read_congr hknown hplace hunknown, MemoryObject.hasEntry, MemoryObject.hasEntry, OrderedMap.contains,
      OrderedMap.contains, hplace]

/-- Two objects. -/
def twoObjects : Graph where
  nodes := Graph.sentinels.nodes ++
    [{ kind := .alloc, pointsTo := .singleton ⟨2, .zero⟩ }, { kind := .alloc, pointsTo := .singleton ⟨3, .zero⟩ }]

/-- The first object holds the second one, eight bytes from its start. -/
def holdingOther : MemoryMap := (∅ : MemoryMap).insert 2
    ⟨(∅ : OrderedMap Offset PointerSet).insert (.ofNat 8) (.singleton ⟨3, .zero⟩)⟩

/-- An object is copied into itself, so far up that the copied entry has no known place. -/
theorem copy_relocates_overlapping : ∃ wrote, ∃ m' : SharedMemory,
    MemoryModel.copy twoObjects 0 ⟨2, .zero⟩ ⟨2, .ofNat (Offset.limit - 4)⟩ (.ofNat 16)
      (⟨holdingOther⟩ : SharedMemory) =
      .ok (wrote, m') ∧ ∃ after, MemoryModel.load twoObjects 0 ⟨2, .unknown⟩ m' = .ok after ∧ ⟨3, .zero⟩ ∈ after := by
  obtain ⟨wrote, m', hcopy, hrelocates⟩ := (copy_relocates twoObjects 0 ⟨2, .zero⟩
    ⟨2, .ofNat (Offset.limit - 4)⟩ (.ofNat 16) (by decide) (by decide)).1 ⟨holdingOther⟩
  obtain ⟨before, after, hbefore, hafter, hsub⟩ := hrelocates.arrives 8 (by decide)
    (fun l hl h ↦ Offset.eq_of_known_eq_ofNat h.symm ▸ by decide) fun s hs h ↦ Offset.known.inj h ▸ by decide
  have hread : (MemoryModel.load twoObjects 0 ⟨2, .zero + .known 8 (by decide)⟩ (⟨holdingOther⟩ : SharedMemory)) =
      .ok (.singleton ⟨3, .zero⟩) := by decide
  obtain rfl := Except.ok.inj (hbefore.symm.trans hread)
  exact ⟨wrote, m', hcopy, after, hafter, hsub _ (OrderedSet.mem_singleton.2 rfl)⟩

end PointsTo
