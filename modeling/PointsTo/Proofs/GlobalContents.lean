import PointsTo.Proofs.GlobalChain
import PointsTo.Proofs.LeastSolution
import PointsTo.Proofs.Relocation
import PointsTo.Proofs.StoreFlow

/-!
# What is read from globals

The nodes of the globals and the stores of their content are made first and last until the end.  A global
whose content is not known has unknown at its start, with either memory, and nothing anywhere else.
-/

namespace PointsTo

open Stateful

namespace Lowering

variable {prog : Program} {s t : Lowering} {id op store : NodeId} {p q : Pointer}

/-- The nodes of the earlier state are in the later one, whatever becomes of the names. -/
theorem Retained.enlarges (h : s.Retained s.graph.size t) : s.Enlarges { t with nodes := s.nodes } :=
  .of_graph h.graph rfl

/-- A node stores what it is given where its target points to. -/
theorem StoreAt.stores {target : NodeId} (h : s.StoreAt store op target)
    (hop : s.graph.pointsTo op = .ok (.singleton q))
    (htarget : s.graph.pointsTo target = .ok (.singleton p)) (hp : p.isSentinel = false) :
    s.graph.Stores store p q := by
  obtain ⟨n, hn, hkind, hfirst, hsecond⟩ := h
  refine ⟨n, _, _, hn, hkind, ⟨op, target, hfirst, hsecond, hop, htarget⟩, ?_, hp, ?_⟩
  · exact OrderedSet.mem_singleton.2 rfl
  · exact OrderedSet.mem_singleton.2 rfl

end Lowering

namespace Lower

variable {prog : Program} {s : Lowering} {entry : String}

/-- The globals are lowered first, and their nodes are retained. -/
theorem build_retains : Ensures (build prog entry) s fun _ t ↦
    ∃ chain u, globalChain prog (ask prog) s = .ok chain u ∧ u.Retained u.graph.size t := by
  unfold build
  split
  · exact fun _ _ h ↦ absurd h reject_ne_ok
  · refine .bind_lift fun fn _ ↦ ?_
    extract_lets finish rest
    have hrest : Ensures (rest ⟨⟩) s fun _ t ↦
        ∃ chain u, globalChain prog (ask prog) s = .ok chain u ∧ u.Retained u.graph.size t := by
      refine .seq fun chain u hchain root t h ↦ ⟨chain, u, hchain, ?_⟩
      have hfinish (root : NodeId) : Follows (Lowering.Retains u.graph.size) (finish root) :=
        .bind fun _ ↦ .bind fun _ ↦ inferInstance
      refine (show Follows (Lowering.Retains u.graph.size) _ from .bind fun entryNode ↦ ?_).leaves
        (.inl ⟨root, h⟩) le_rfl
      cases chain with
      | none => exact .bind hfinish
      | some span => exact .bind fun _ ↦ .bind hfinish
    split
    · exact .seq fun _ _ h ↦ absurd h reject_ne_ok
    · exact hrest

end Lower

namespace Analysis

open Command Solve

variable {μ : Type} [MemoryModel μ] {prog : Program} {options : Options} {journal : Journal} {budget : Nat}
  {stats : SolverStats} {t : Analysis μ} {g : Global}

/-- The node is the memory of the global, from the chain of the globals on.  In a scoped program the global
has this node for good. -/
structure IsMemory (prog : Program) (journal : Journal) (t : Analysis μ) (g : Global) (id : NodeId) : Prop where
  chained : ∃ chain u, Lower.globalChain prog (Lower.ask prog) { journal } = .ok chain u ∧ u.Allocates g id
  alloc : ∃ n, t.host.graph.nodes[id]? = some n ∧ n.kind = .alloc
  named : prog.Scoped → t.host.nodes.get? g.value = some id

theorem exists_of_mem {α β : Type} {R : α → β → Prop} {as : List α} {bs : List β} {a : α} (h : List.Forall₂ R as bs)
    (ha : a ∈ as) : ∃ b, R a b :=
  ((List.forall₂_and_left _ _).1 (h.imp fun _ b hb ↦ (⟨⟨b, hb⟩, hb⟩ : (∃ b, R _ b) ∧ R _ b))).1 a ha

/-- What the globals are when they are lowered, they are in the end. -/
theorem occupies_of_run (hprog : prog.Coherent) (h : run prog options budget (fresh options journal) = .ok stats t)
    (hg : g ∈ prog.globals) : ∃ chain u id stores, Lower.globalChain prog (Lower.ask prog) { journal } = .ok chain u ∧
      u.Retained u.graph.size t.host ∧ u.Pinned ∧ t.IsMemory prog journal g id ∧ u.Allocates g id ∧
        u.Describes prog g id stores ∧ u.Marks prog g := by
  obtain ⟨root, s, hbuild, hsolver, hrun⟩ := run_fresh h
  obtain ⟨chain, u, hchain, hretains⟩ := Lower.build_retains root s.host hbuild
  obtain ⟨hserves, -, chain', u', hchain', hkeeps⟩ :=
    Lower.build_ensures hprog (.initial prog journal) (fun _ _ _ _ ↦ rfl) root s.host hbuild
  obtain ⟨rfl, rfl⟩ := EStateM.Result.ok.inj (hchain.symm.trans hchain')
  have hlinked : s.solver.linked = ∅ := by rw [hsolver]; rfl
  have hs : s.host.Wiring prog s.solver.linked := hlinked ▸ (Lowering.Wiring.initial prog journal).evolves hserves
  have hkeeps := hkeeps.trans (run_wiring hprog hs stats t hrun).2
  have hsolved : s.Retains u.graph.size t := (Retaining.run budget).leaves (.inl ⟨stats, hrun⟩)
  have hretains : u.Retained u.graph.size t.host :=
    trans_of (Lowering.Retains u.graph.size) (fun _ ↦ hretains) hsolved le_rfl
  obtain ⟨hpinned, parts, hparts, -⟩ := Lower.globalChain_parts hprog hchain
  obtain ⟨_, ⟨id, stores, -, hid, hstores⟩, hmarks⟩ := exists_of_mem hparts hg
  refine ⟨chain, u, id, stores, hchain, hretains, hpinned, ⟨⟨chain, u, hchain, hid⟩, ?_, fun hscoped ↦ ?_⟩, hid,
    hstores, hmarks⟩
  · exact (hretains.enlarges.allocates hid).2
  · exact hkeeps.named_lasting (.inl hscoped) hid.1

/-- The memory of a global points to itself, and is none of the sentinels. -/
theorem IsMemory.points (hprog : prog.Coherent) (h : run prog options budget (fresh options journal) = .ok stats t)
    {id : NodeId} (hid : t.IsMemory prog journal g id) : id < t.host.graph.size ∧
      t.host.graph.pointsTo id = .ok (.singleton ⟨id, .zero⟩) ∧
      ∀ offset, (⟨id, offset⟩ : Pointer).isSentinel = false := by
  obtain ⟨n, hn, hkind⟩ := hid.alloc
  have hreach : Reachable prog t := .run options budget (.fresh options journal) (.inl ⟨stats, h⟩)
  have hset := hreach.anchored id n hn (by rw [hkind]; rfl)
  refine ⟨Graph.lt_size_of_node hn, Graph.pointsTo_eq_ok_iff.2 ⟨n, hn, hset⟩, fun offset ↦ ?_⟩
  have hvalid := (wiring_of_run hprog h).valid
  have hother {other : NodeId} {kind : NodeKind} (hat : t.host.At (fun _ m ↦ m.kind = kind) other)
      (hne : kind ≠ .alloc) : id ≠ other := by
    rintro rfl
    obtain ⟨m, hm, hk⟩ := hat
    rw [← hk, ← Option.mem_unique hn hm] at hne
    exact hne hkind
  have hnull := hother hvalid.null (by simp)
  have hunknown := hother hvalid.unknown (by simp)
  simp [Pointer.isSentinel, Pointer.isNull, Pointer.isUnknown, hnull, hunknown]

/-- The sentinels point to themselves. -/
theorem pointsTo_sentinel (h : run prog options budget (fresh options journal) = .ok stats t) :
    t.host.graph.pointsTo nullTarget = .ok (.singleton .null) ∧
      t.host.graph.pointsTo unknownTarget = .ok (.singleton .unknown) := by
  have hretains : Analysis.Retains 2 (fresh options journal) t := (retaining_run options budget).leaves
    (.inl ⟨stats, h⟩)
  have hkept {id : NodeId} {n : Node} (hn : Graph.sentinels.nodes[id]? = some n) (hfixed : n.kind.isFixed = true) :
      t.host.graph.pointsTo id = .ok n.pointsTo := by
    obtain ⟨m, hm, hmatches, -⟩ := (hretains le_rfl).graph.node hn
    exact Graph.pointsTo_eq_ok_iff.2 ⟨m, hm, hmatches.fixed hfixed⟩
  exact ⟨hkept (show Graph.sentinels.nodes[nullTarget]? = some _ from rfl) rfl,
    hkept (show Graph.sentinels.nodes[unknownTarget]? = some _ from rfl) rfl⟩

/-! ## Loads -/

/-- Whoever loads through the place gets the pointer. -/
structure Offers (t : Analysis SharedMemory) (place p : Pointer) : Prop where
  read : ∀ id, ∃ read, MemoryModel.load t.host.graph id place t.solver.memory = .ok read ∧ p ∈ read
  node : ∀ {id pointer : NodeId} {n : Node} {targets : PointerSet}, t.host.graph.nodes[id]? = some n → n.kind = .load →
    n.operand? 0 = some pointer → t.host.graph.pointsTo pointer = .ok targets → place ∈ targets → p ∈ n.pointsTo

section

variable {t : Analysis SharedMemory} {place p : Pointer}

/-- In the end the demands of all nodes are met. -/
theorem solves_of_run (h : run prog options budget (fresh options journal) = .ok stats t) :
    (Solve.found (Lowering.linker prog) t).Solves t.host.graph t.solver.maxOffset := by
  obtain ⟨root, s, -, -, hrun⟩ := run_fresh h
  obtain ⟨r, u, hleads, hsettled, halike⟩ := leads_of_run (Lowering.linker_lawful prog) hrun
  have hgraph : t.host.graph = u.host.graph := halike.graph
  rw [halike.found_eq, hgraph, halike.maxOffset]
  exact (found_solves (Lowering.linker_lawful prog) hleads hsettled).1

/-- All that can be read at a place is read by those who load through it. -/
theorem offers_of_reads (h : run prog options budget (fresh options journal) = .ok stats t)
    (hproper : place.isSentinel = false) (hplace : place.target < t.host.graph.size)
    (hp : p ∈ t.host.graph.reads t.solver.memory.objects.contents place) : t.Offers place p where
  read id := by
    obtain ⟨read, hread⟩ := (t.solver.memory.shows : Shows t.host.graph id _ _).total place hplace
    exact ⟨read, hread, (SharedMemory.mem_load hread).2 hp⟩
  node {id pointer n targets} hn hkind hpointer htargets hmem := by
    obtain ⟨m, hm, hp⟩ := (solves_of_run h hn).load hkind hpointer _
      (Facts.mem_found_pts.2 ⟨_, htargets, hmem⟩) hproper hp
    obtain rfl := Option.mem_unique hn hm
    exact hp

/-- What is stored can be read. -/
theorem offers_of_stores {id : NodeId} (h : run prog options budget (fresh options journal) = .ok stats t)
    (hplace : place.target < t.host.graph.size) (hstores : t.host.graph.Stores id place p) : t.Offers place p := by
  obtain ⟨n, values, targets, hn, hkind, ⟨op, target, hop, htarget, hvalues, htargets⟩, hmem, hproper, hp⟩ := hstores
  refine offers_of_reads h hproper hplace (.inl ?_)
  exact (solves_of_run h hn).store hkind hop htarget place (Facts.mem_found_pts.2 ⟨_, htargets, hmem⟩) hproper
    (Facts.mem_found_pts.2 ⟨_, hvalues, hp⟩)

end

/-- With a memory per node, what is stored is loaded wherever control arrives from the store without
passing one that replaces it. -/
theorem mem_pointsTo_of_path {t : Analysis NodeMemory} {store id : NodeId} {mid : List NodeId} {n : Node}
    {p v : Pointer} (hprog : prog.Coherent) (h : run prog options budget (fresh options journal) = .ok stats t)
    (hstores : t.host.graph.Stores store p v) (hpath : t.host.graph.IsPath (store :: (mid ++ [id])))
    (hkept : ∀ c ∈ mid, ∀ m, t.host.graph.nodes[c]? = some m → ¬t.host.graph.Overwrites m p)
    (hn : t.host.graph.nodes[id]? = some n) (hloads : t.host.graph.Loads n p) : v ∈ n.pointsTo := by
  have hL := Lowering.linker_lawful prog
  have hmirrored : t.host.graph.Mirrored := fun a _ b hb ↦ ((wiring_of_run hprog h).valid.twoWay a b).1 hb
  obtain ⟨root, s, -, -, hrun⟩ := run_fresh h
  obtain ⟨r, u, hleads, hsettled, halike⟩ := leads_of_run hL hrun
  have hgraph : t.host.graph = (Lowering.linker prog).graph u.host := halike.graph
  rw [hgraph] at hmirrored hstores hpath hkept hn hloads
  obtain ⟨c, hc, hcid⟩ := (Holds.of_stores hL hleads hsettled hstores).along hL hleads hsettled hmirrored hpath hkept
  obtain ⟨n', hn', hv⟩ := hc.enters hmirrored hcid
  obtain rfl := Option.mem_unique hn hn'
  exact mem_pointsTo_of_enters hL hleads hsettled hn hloads hstores.proper hv

/-! ## Globals with an initializer -/

/-- The pointer that a constant is once the globals are lowered: where its node points to, that is null for
null and zero, and the object itself for globals and functions. -/
structure IsPointer (prog : Program) (u : Lowering) (t : Analysis μ) (v : ValueId) (p : Pointer) : Prop where
  node : ∃ op, u.Stands prog v op ∧ t.host.graph.pointsTo op = .ok (.singleton p)
  null : prog.sentinel? v = some nullTarget → p = .null
  object : (∃ k, prog.kindAt v = some (.global k) ∨ prog.kindAt v = some (.function k)) →
    ∃ id, u.nodes.get? v = some id ∧ p = ⟨id, .zero⟩

section

variable (h : run prog options budget (fresh options journal) = .ok stats t) {u : Lowering} {v : ValueId}
    {id op : NodeId}

include h

/-- A constant that shares its node with all of its kind. -/
theorem isPointer_of_sentinel (hid : prog.sentinel? v = some id) (hop : u.Stands prog v id) :
    ∃ p, t.host.graph.pointsTo id = .ok (.singleton p) ∧ t.IsPointer prog u v p := by
  have hv : ¬∃ k, prog.kindAt v = some (.global k) ∨ prog.kindAt v = some (.function k) := by
    rintro ⟨k, hk | hk⟩ <;> simp [Program.sentinel?, hk] at hid
  obtain ⟨hnull, hunknown⟩ := pointsTo_sentinel h
  rcases Program.sentinel?_cases hid with rfl | rfl
  · exact ⟨.null, hnull, ⟨_, hop, hnull⟩, fun _ ↦ rfl, fun h ↦ (hv h).elim⟩
  · exact ⟨.unknown, hunknown, ⟨_, hop, hunknown⟩, fun h ↦ absurd (hid.symm.trans h) (by decide), fun h ↦ (hv h).elim⟩

variable (hu : u.Valid prog)

include hu

/-- A constant that has a node of its own. -/
theorem isPointer_of_named {n m : Node} {p : Pointer} (hid : u.nodes.get? v = some id)
    (hn : u.graph.nodes[id]? = some n)
    (hm : t.host.graph.nodes[id]? = some m) (hkind : m.kind = n.kind) (hset : m.pointsTo = .singleton p)
    (hop : u.Stands prog v id) : t.IsPointer prog u v p := by
  refine ⟨⟨id, hop, Graph.pointsTo_eq_ok_iff.2 ⟨m, hm, hset⟩⟩, fun hnull ↦ ?_, fun hv ↦ ⟨id, hid, ?_⟩⟩
  · exact absurd (hu.unnamed_of_sentinel hnull) (by simp [hid])
  · obtain ⟨k, hk, n', hn', hfits⟩ := hu.named hid
    obtain rfl := Option.mem_unique hn hn'
    have hobject : m.kind.isObject = true := by
      rcases hv with ⟨_, hv | hv⟩
      · obtain rfl := Option.mem_unique hk hv
        rw [hkind, show n.kind = .alloc from hfits]
        rfl
      · obtain rfl := Option.mem_unique hk hv
        rw [hkind, show n.kind = .function from hfits.1]
        rfl
    have hreach : Reachable prog t := .run options budget (.fresh options journal) (.inl ⟨stats, h⟩)
    have hanchored := hreach.anchored id m hm hobject
    simpa [hset, OrderedSet.ext_iff] using hanchored

/-- What stands for a constant points to one place. -/
theorem isPointer_of_stands (hpinned : u.Pinned) (hretained : u.Retained u.graph.size t.host)
    (hop : u.Stands prog v op) : ∃ p, t.host.graph.pointsTo op = .ok (.singleton p) ∧ t.IsPointer prog u v p := by
  obtain ⟨id, hid, n, hn, hsite⟩ := id hop
  have hsame (hfixed : n.kind.isFixed = true) : id = op := by
    revert hsite hfixed
    cases n.kind <;> simp [NodeKind.isFixed, NodeKind.isCall]
  rcases hid with hid | hid
  · obtain ⟨p, n', hn', hfixed, hset⟩ := hpinned v id hid
    obtain rfl := Option.mem_unique hn hn'
    obtain rfl := hsame hfixed
    obtain ⟨m, hm, hnm⟩ := hretained.enlarges.node hn
    have hset := (hnm.fixed hfixed).trans hset
    exact ⟨p, Graph.pointsTo_eq_ok_iff.2 ⟨m, hm, hset⟩, isPointer_of_named h hu hid hn hm hnm.kind hset hop⟩
  · have hfixed : n.kind.isFixed = true := by
      rcases Program.sentinel?_cases hid with rfl | rfl
      · obtain ⟨m, hm, hkind⟩ := hu.null
        rw [Option.mem_unique hn hm, hkind]
        rfl
      · obtain ⟨m, hm, hkind⟩ := hu.unknown
        rw [Option.mem_unique hn hm, hkind]
        rfl
    obtain rfl := hsame hfixed
    exact isPointer_of_sentinel h hid hop

end

/-- An initialized global is read back, with one memory for the whole program.  If the initializer is zero,
null is read everywhere.  Otherwise the pointers in it are read, each at its place, but for those inside of
zero elements. -/
theorem initializers_are_read_back (hprog : prog.Coherent) {t : Analysis SharedMemory}
    (h : run prog options budget (fresh options journal) = .ok stats t) (hg : g ∈ prog.globals) {init : ValueId}
    (hinit : g.initializer = some init) (hexternal : g.external = false) :
    ∃ chain u id, Lower.globalChain prog (Lower.ask prog) { journal } = .ok chain u ∧ t.IsMemory prog journal g id ∧
      ((prog.isZero init = .ok true ∧ ∀ offset, t.Offers ⟨id, offset⟩ .null) ∨
        (prog.Nonzero init ∧ ∀ path leaf sum, prog.Leaf prog.Nonzero init g.ty path leaf →
          prog.layout.descend? g.ty path = some (sum, .ptr) →
            ∃ p, t.IsPointer prog u leaf p ∧ t.Offers ⟨id, .ofNat sum⟩ p)) := by
  obtain ⟨chain, u, id, stores, hchain, hretained, hpinned, hid, hallocates, hdescribes, hmarks⟩ :=
    occupies_of_run hprog h hg
  obtain ⟨hlt, hset, hproper⟩ := hid.points hprog h
  refine ⟨chain, u, id, hchain, hid, ?_⟩
  cases hdescribes with
  | @zero init' hinit' _ hzero =>
    obtain rfl := Option.mem_unique hinit hinit'
    have hzeroed := hretained.enlarges.zeroed (hmarks init id hinit hexternal hzero hallocates.1)
    exact .inl ⟨hzero, fun offset ↦ offers_of_reads h (hproper offset) hlt (.inr (.inr (.inr ⟨hzeroed, rfl⟩)))⟩
  | @fields init' fields _ hinit' _ hnonzero hlists hstores =>
    obtain rfl := Option.mem_unique hinit hinit'
    refine .inr ⟨hnonzero, fun path leaf sum hleaf hsum ↦ ?_⟩
    obtain ⟨x, hx, rfl, rfl⟩ := hlists.all path leaf hleaf
    obtain ⟨sum', hsum', hoffset⟩ := hlists.offset x hx
    obtain ⟨rfl, -⟩ := Prod.mk.inj (Option.mem_unique hsum hsum')
    obtain ⟨store, op, target, hstore, hstands, hplaces⟩ := exists_of_mem hstores hx
    have hu := (Lower.globalChain_ensures (Lower.provider_sound hprog _) hprog (.initial prog journal)
      (fun _ _ _ _ ↦ rfl)
      _ _ hchain).1.valid
    obtain ⟨p, hp, hpointer⟩ := isPointer_of_stands h hu hpinned hretained hstands
    have htarget : t.host.graph.pointsTo target = .ok (.singleton ⟨id, .ofNat sum⟩) := by
      have hsum : Offset.ofNat x.offset = .ofNat sum := by
        rw [hoffset, Nat.zero_add]
        rcases le_total sum wordMax with hle | hle
        · rw [Nat.min_eq_left hle]
        · rw [Nat.min_eq_right hle]
          exact (Offset.ofNat_eq_unknown le_rfl).trans (Offset.ofNat_eq_unknown hle).symm
      rcases hretained.enlarges.places hplaces with ⟨hzero, rfl⟩ | ⟨-, m, hm, -, hset⟩
      · rw [← hsum, hzero]
        exact hset
      · exact hsum ▸ Graph.pointsTo_eq_ok_iff.2 ⟨m, hm, hset⟩
    exact ⟨p, hpointer, offers_of_stores h hlt ((hretained.enlarges.storeAt hstore).stores hp htarget (hproper _))⟩
  | unknown hunknown => simp [hinit, hexternal] at hunknown

/-- A global that is initialized with an address and an element that is zero, and loads of both. -/
def patched : Program := .assembled
  [function "main" .void [] false, Command.global "x" (.int 32), Command.global "g" (.struct [.ptr, .struct [.ptr]]),
    constant .zero (.struct [.ptr]), constant (.aggregate [1, 3]) (.struct [.ptr, .struct [.ptr]]), initializer 2 4,
    constant (.int 0) (.int 32), initializer 1 5, constant (.int 1) (.int 32), block 0,
    getElementPtr 0 0 (.struct [.ptr, .struct [.ptr]]) 2 [5, 6], load 0 0 7 .ptr, load 0 0 2 .ptr, ret 0 0 none]

theorem initializers_are_read_back_patched : ∃ stats, ∃ t : Analysis SharedMemory, ∃ id read, ∃ x : NodeId,
    run patched {} 40 (fresh {} {}) = .ok stats t ∧
      t.IsMemory patched {} ⟨"g", 2, .struct [.ptr, .struct [.ptr]], some 4, false⟩ id ∧
      MemoryModel.load t.host.graph id ⟨id, .ofNat 0⟩ t.solver.memory = .ok read ∧ ⟨x, .zero⟩ ∈ read := by
  have hrun : succeeds (fun _ (_ : Analysis SharedMemory) ↦ true) (run patched {} 40 (fresh {} {})) = true := by
    decide +kernel
  obtain ⟨stats, t, hrun, -⟩ := ok_of_succeeds hrun
  have hglobal : ⟨"g", 2, .struct [.ptr, .struct [.ptr]], some 4, false⟩ ∈ patched.globals := .tail _ (.head _)
  obtain ⟨_, _, id, -, hid, ⟨hzero, -⟩ | ⟨-, hleaves⟩⟩ :=
    initializers_are_read_back (Program.coherent_assembled _) hrun hglobal rfl rfl
  · exact absurd (hzero.symm.trans (show patched.isZero 4 = .ok false from rfl)) (by simp)
  · obtain ⟨p, hp, hoffers⟩ := hleaves [0] 1 0 (.element rfl rfl rfl (by simp [Ty.isPointer]) .pointer) rfl
    obtain ⟨x, -, rfl⟩ := hp.object ⟨0, .inl rfl⟩
    obtain ⟨read, hload, hmem⟩ := hoffers.read id
    exact ⟨stats, t, id, read, x, hrun, hid, hload, hmem⟩

/-- The zero of the element is read from nowhere. -/
theorem zero_element_unread : patched.Leaf (fun _ ↦ True) 4 (.struct [.ptr, .struct [.ptr]]) [1, 0] 3 ∧
    patched.layout.descend? (.struct [.ptr, .struct [.ptr]]) [1, 0] = some (8, .ptr) ∧ patched.sentinel? 3 =
    some nullTarget ∧
    ∃ stats, ∃ t : Analysis SharedMemory, run patched {} 40 (fresh {} {}) = .ok stats t ∧ t.host.nodes.get? 2 = some 3 ∧
      MemoryModel.load t.host.graph 3 ⟨3, .ofNat 8⟩ t.solver.memory = .ok ∅ ∧ t.host.pointsTo? 8 = some ∅ := by
  have hrun : succeeds (fun _ (t : Analysis SharedMemory) ↦ decide (t.host.nodes.get? 2 = some 3 ∧
      MemoryModel.load t.host.graph 3 ⟨3, .ofNat 8⟩ t.solver.memory = .ok ∅ ∧ t.host.pointsTo? 8 = some ∅))
      (run patched {} 40 (fresh {} {})) = true := by decide +kernel
  obtain ⟨stats, t, hrun, htest⟩ := ok_of_succeeds hrun
  exact ⟨.element rfl rfl rfl (fun _ ↦ trivial) (.zero rfl rfl), rfl, rfl, stats, t, hrun, of_decide_eq_true htest⟩

/-! ## Globals whose content is not known -/

/-- A global without an initializer, or with one that may be replaced, has unknown at its start.  With one
memory for the whole program all loads through its start get unknown.  With a memory per node those get it
that control reaches from the store of the global without passing one that replaces it. -/
theorem unknown_globals_read_unknown (hprog : prog.Coherent) (hg : g ∈ prog.globals)
    (hunknown : g.initializer = none ∨ g.external = true) :
    (∀ stats, ∀ t : Analysis SharedMemory, run prog options budget (fresh options journal) = .ok stats t →
      ∃ id, t.IsMemory prog journal g id ∧ t.Offers ⟨id, .zero⟩ .unknown) ∧
    ∀ stats, ∀ t : Analysis NodeMemory, run prog options budget (fresh options journal) = .ok stats t →
      ∃ id store, t.IsMemory prog journal g id ∧ t.host.graph.Stores store ⟨id, .zero⟩ .unknown ∧
        ∀ mid load n, t.host.graph.IsPath (store :: (mid ++ [load])) →
          (∀ c ∈ mid, ∀ m, t.host.graph.nodes[c]? = some m → ¬t.host.graph.Overwrites m ⟨id, .zero⟩) →
          t.host.graph.nodes[load]? = some n → t.host.graph.Loads n ⟨id, .zero⟩ → .unknown ∈ n.pointsTo := by
  have hstores {μ : Type} [MemoryModel μ] {stats : SolverStats} {t : Analysis μ}
      (h : run prog options budget (fresh options journal) = .ok stats t) : ∃ id store, t.IsMemory prog journal g id ∧
        id < t.host.graph.size ∧ t.host.graph.Stores store ⟨id, .zero⟩ .unknown := by
    obtain ⟨_, u, id, stores, -, hretained, -, hid, -, hdescribes, -⟩ := occupies_of_run hprog h hg
    obtain ⟨hlt, hset, hproper⟩ := hid.points hprog h
    cases hdescribes with
    | zero hinit hexternal | fields hinit hexternal => simp [hinit, hexternal] at hunknown
    | @unknown store _ hstore =>
      exact ⟨id, store, hid, hlt, (hretained.enlarges.storeAt hstore).stores (pointsTo_sentinel h).2 hset (hproper _)⟩
  refine ⟨fun stats t h ↦ ?_, fun stats t h ↦ ?_⟩
  · obtain ⟨id, store, hid, hlt, hstores⟩ := hstores h
    exact ⟨id, hid, offers_of_stores h hlt hstores⟩
  · obtain ⟨id, store, hid, -, hstores⟩ := hstores h
    exact ⟨id, store, hid, hstores, fun mid load n hpath hkept hn hloads ↦
      mem_pointsTo_of_path hprog h hstores hpath hkept hn hloads⟩

/-- A global of two pointers that is defined elsewhere, and loads of both. -/
def foreign : Program := .assembled
  [function "main" .void [] false, Command.global "g" (.struct [.ptr, .ptr]), constant (.int 0) (.int 32),
    constant (.int 1) (.int 32), block 0, getElementPtr 0 0 (.struct [.ptr, .ptr]) 1 [2, 3], load 0 0 4 .ptr,
    load 0 0 1 .ptr, ret 0 0 none]

/-- The kinds of the nodes of `foreign`. -/
def foreignKinds : List NodeKind :=
  [.null, .unknownMemory, .alloc, .store, .entry, .noop, .gep, .load, .load, .ret]

theorem unknown_globals_read_unknown_foreign :
    (∃ stats, ∃ t : Analysis SharedMemory, ∃ id read, run foreign {} 40 (fresh {} {}) = .ok stats t ∧
      t.IsMemory foreign {} ⟨"g", 1, .struct [.ptr, .ptr], none, false⟩ id ∧
      MemoryModel.load t.host.graph id ⟨id, .zero⟩ t.solver.memory = .ok read ∧ .unknown ∈ read) ∧
    ∃ stats, ∃ t : Analysis NodeMemory, ∃ id store n, run foreign {} 40 (fresh {} {}) = .ok stats t ∧
      t.IsMemory foreign {} ⟨"g", 1, .struct [.ptr, .ptr], none, false⟩ id ∧
      t.host.graph.Stores store ⟨id, .zero⟩ .unknown ∧ t.host.graph.IsPath [store, 4, 6, 7, 8] ∧
      t.host.graph.nodes[8]? = some n ∧ t.host.graph.Loads n ⟨id, .zero⟩ ∧ .unknown ∈ n.pointsTo := by
  have hshared : succeeds (fun _ (_ : Analysis SharedMemory) ↦ true) (run foreign {} 40 (fresh {} {})) = true := by
    decide +kernel
  have hown : succeeds (fun _ (t : Analysis NodeMemory) ↦ decide (t.host.nodes.get? 1 = some 2 ∧
      t.host.graph.nodes.map (·.kind) = foreignKinds ∧ t.host.graph.IsPath [3, 4, 6, 7, 8] ∧
      (t.host.graph.nodes[8]?).map (·.operands) = some [2] ∧
      t.host.graph.pointsTo 2 = .ok (.singleton ⟨2, .zero⟩))) (run foreign {} 40 (fresh {} {})) = true := by
    decide +kernel
  obtain ⟨stats, t, hrun, -⟩ := ok_of_succeeds hshared
  obtain ⟨stats', t', hrun', htest⟩ := ok_of_succeeds hown
  obtain ⟨hnamed, hkinds, hpath, hops, htargets⟩ := of_decide_eq_true htest
  have hglobal : ⟨"g", 1, .struct [.ptr, .ptr], none, false⟩ ∈ foreign.globals := .head _
  obtain ⟨hreads, hstores⟩ := unknown_globals_read_unknown (Program.coherent_assembled _) hglobal (.inl rfl)
  obtain ⟨id, hid, hoffers⟩ := hreads stats t hrun
  obtain ⟨read, hread, hmem⟩ := hoffers.read id
  refine ⟨⟨stats, t, id, read, hrun, hid, hread, hmem⟩, ?_⟩
  obtain ⟨id', store, hid', hstore, hloads⟩ := hstores stats' t' hrun'
  obtain rfl : 2 = id' := Option.some.inj (hnamed.symm.trans (hid'.named (by decide)))
  have hkind {c : NodeId} {m : Node} (hm : t'.host.graph.nodes[c]? = some m) : foreignKinds[c]? = some m.kind := by
    rw [← hkinds, List.getElem?_map, hm, Option.map_some]
  obtain rfl : store = 3 := by
    obtain ⟨m, _, _, hm, hstore, -⟩ := hstore
    have hm := hstore ▸ hkind hm
    have hunique : ∀ c < foreignKinds.length, foreignKinds[c]? = some .store → c = 3 := by decide
    exact hunique store (List.getElem?_eq_some_iff.1 hm).1 hm
  obtain ⟨n, hn, hops⟩ := Option.map_eq_some_iff.1 hops
  have hload : t'.host.graph.Loads n ⟨2, .zero⟩ :=
    ⟨(Option.some.inj (hkind hn)).symm, 2, _, ⟨2, .zero⟩, by rw [Node.operand?, hops]; rfl, htargets, by
    simp, rfl, .inl rfl⟩
  refine ⟨stats', t', 2, 3, n, hrun', hid', hstore, hpath, hn, hload, hloads [4, 6, 7] 8 n hpath ?_ hn hload⟩
  rintro c hc m hm ⟨hstore, -⟩
  have hkept : ∀ c ∈ [4, 6, 7], foreignKinds[c]? ≠ some .store := by decide
  exact hkept c hc (hstore ▸ hkind hm)

/-- The second pointer of the global is not known either, and yet nothing is read there. -/
theorem unknown_field_unread : foreign.layout.descend? (.struct [.ptr, .ptr]) [1] = some (8, .ptr) ∧
    (∃ stats, ∃ t : Analysis SharedMemory, run foreign {} 40 (fresh {} {}) = .ok stats t ∧
      t.host.nodes.get? 1 = some 2 ∧
      t.host.pointsTo? 4 = some (.singleton ⟨2, .ofNat 8⟩) ∧ t.host.pointsTo? 5 = some ∅) ∧
    ∃ stats, ∃ t : Analysis NodeMemory, run foreign {} 40 (fresh {} {}) = .ok stats t ∧ t.host.nodes.get? 1 = some 2 ∧
      t.host.pointsTo? 4 = some (.singleton ⟨2, .ofNat 8⟩) ∧ t.host.pointsTo? 5 = some ∅ := by
  have hshared : succeeds (fun _ (t : Analysis SharedMemory) ↦ decide (t.host.nodes.get? 1 = some 2 ∧
      t.host.pointsTo? 4 = some (.singleton ⟨2, .ofNat 8⟩) ∧ t.host.pointsTo? 5 = some ∅))
      (run foreign {} 40 (fresh {} {})) = true := by decide +kernel
  have hown : succeeds (fun _ (t : Analysis NodeMemory) ↦ decide (t.host.nodes.get? 1 = some 2 ∧
      t.host.pointsTo? 4 = some (.singleton ⟨2, .ofNat 8⟩) ∧ t.host.pointsTo? 5 = some ∅))
      (run foreign {} 40 (fresh {} {})) = true := by decide +kernel
  obtain ⟨stats, t, hrun, htest⟩ := ok_of_succeeds hshared
  obtain ⟨stats', t', hrun', htest'⟩ := ok_of_succeeds hown
  exact ⟨rfl, ⟨stats, t, hrun, of_decide_eq_true htest⟩, stats', t', hrun', of_decide_eq_true htest'⟩

end Analysis

end PointsTo
