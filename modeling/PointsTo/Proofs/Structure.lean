import Mathlib.Logic.Relation
import PointsTo.Proofs.Additions
import PointsTo.Proofs.Conclusions
import PointsTo.Proofs.Findings

/-!
# The structure of a lowered program

Calls and return sites are paired with each other, and every function that was begun has an entry and an
exit of its own.  Lowering and solving may fail at any point and may be taken up again, but what they
leave behind has this structure in every case.
-/

namespace PointsTo

open OrderedMap

open Stateful

namespace OrderedMap

variable {κ α : Type} [TotalOrder κ] {m m' : OrderedMap κ α} {k : κ} {a : α} {f : α → α}

theorem mem_keys_iff : k ∈ m.entries.map Prod.fst ↔ m.get? k ≠ none := by
  simp [Option.ne_none_iff_exists', mem_entries_iff]

theorem nodup_keys : (m.entries.map Prod.fst).Nodup := by
  refine (List.pairwise_map.2 (m.ascending.imp fun {a b} hab e ↦ ?_))
  simp [e, TotalOrder.lt_irrefl] at hab

theorem size_eq_of_keys (h : ∀ k, m.get? k ≠ none ↔ m'.get? k ≠ none) : m.size = m'.size := by
  have hperm : (m.entries.map Prod.fst).Perm (m'.entries.map Prod.fst) :=
    (List.perm_ext_iff_of_nodup nodup_keys nodup_keys).2 fun k ↦ by rw [mem_keys_iff, mem_keys_iff, h]
  simpa [size] using hperm.length_eq

theorem size_insert (hk : m.get? k = none) : (m.insert k a).size = m.size + 1 := by
  have hperm : ((m.insert k a).entries.map Prod.fst).Perm (k :: m.entries.map Prod.fst) := by
    refine (List.perm_ext_iff_of_nodup nodup_keys (List.nodup_cons.2 ⟨?_, nodup_keys⟩)).2 fun j ↦ ?_
    · simp [mem_keys_iff, hk]
    · rw [List.mem_cons, mem_keys_iff, mem_keys_iff]
      by_cases hj : j = k
      · simp [hj]
      · simp [get?_insert_of_ne hj, hj]
  simpa [size] using hperm.length_eq

theorem get?_modify_of_ne {j : κ} (h : j ≠ k) : (m.modify k f).get? j = m.get? j := by
  cases hk : m.get? k with
  | none => rw [modify_of_get?_none hk]
  | some a => rw [modify_of_get? hk, get?_insert_of_ne h]

theorem size_modify : (m.modify k f).size = m.size := by
  refine size_eq_of_keys fun j ↦ ?_
  by_cases hj : j = k
  · simp [hj, get?_modify_self]
  · rw [get?_modify_of_ne hj]

end OrderedMap

namespace Graph

variable {g h i : Graph} {id : NodeId} {n : Node} {change : Node → Node}

/-- The number of nodes that begin a function. -/
def entryCount (g : Graph) : Nat := (g.nodes.map (·.kind)).count .entry

/-- Nodes keep their kind and their partner, and new nodes have the partner that they need. -/
structure Widens (g h : Graph) : Prop where
  node : ∀ {id : NodeId} {n : Node}, g.nodes[id]? = some n → ∃ m, h.nodes[id]? = some m ∧ m.kind = n.kind ∧
    m.paired = n.paired
  fresh : ∀ {id : NodeId} {m : Node}, g.size ≤ id → h.nodes[id]? = some m → m.kind ≠ .entry ∧ h.Linked id m

namespace Widens

theorem refl (g : Graph) : g.Widens g where
  node {_ n} hn := ⟨n, hn, rfl, rfl⟩
  fresh hid hm := absurd (lt_size_of_node hm) (not_lt.2 hid)

theorem linked (hgh : g.Widens h) (hg : ∀ {id : NodeId} {n : Node}, g.nodes[id]? = some n → g.Linked id n) {m : Node}
    (hm : h.nodes[id]? = some m) : h.Linked id m := by
  rcases lt_or_ge id g.size with hlt | hge
  · obtain ⟨n, hn⟩ := exists_node hlt
    obtain ⟨m', hm', hkind, hpaired⟩ := hgh.node hn
    obtain rfl := Option.mem_unique hm' hm
    exact (hg hn).mono hkind hpaired hgh.node
  · exact (hgh.fresh hge hm).2

theorem trans (hgh : g.Widens h) (hhi : h.Widens i) : g.Widens i where
  node hn := by
    obtain ⟨m, hm, hkind, hpaired⟩ := hgh.node hn
    obtain ⟨l, hl, hkind', hpaired'⟩ := hhi.node hm
    exact ⟨l, hl, hkind'.trans hkind, hpaired'.trans hpaired⟩
  fresh {id m} hid hm := by
    rcases lt_or_ge id h.size with hlt | hge
    · obtain ⟨l, hl⟩ := exists_node hlt
      obtain ⟨m', hm', hkind, hpaired⟩ := hhi.node hl
      obtain rfl := Option.mem_unique hm' hm
      obtain ⟨hentry, hlinked⟩ := hgh.fresh hid hl
      exact ⟨hkind ▸ hentry, hlinked.mono hkind hpaired hhi.node⟩
    · exact hhi.fresh hge hm

theorem update (h : ∀ n, g.nodes[id]? = some n → (change n).kind = n.kind ∧ (change n).paired = n.paired) :
    g.Widens (g.update id change) where
  node {j n} hn := by
    by_cases hj : j = id
    · subst hj
      exact ⟨change n, nodes_update_self hn, h n hn⟩
    · exact ⟨n, (nodes_update_of_ne hj).trans hn, rfl, rfl⟩
  fresh {j m} hj hm := absurd (lt_size_of_node hm) (not_lt.2 (size_update.trans_le hj))

theorem kinds (hgh : g.Widens h) : ∃ new, h.nodes.map (·.kind) = g.nodes.map (·.kind) ++ new ∧ .entry ∉ new := by
  refine ⟨(h.nodes.drop g.size).map (·.kind), ?_, fun hmem ↦ ?_⟩
  · refine List.ext_getElem? fun j ↦ ?_
    rcases lt_or_ge j g.size with hlt | hge
    · obtain ⟨n, hn⟩ := exists_node hlt
      obtain ⟨m, hm, hkind, -⟩ := hgh.node hn
      have hlt : j < (g.nodes.map (·.kind)).length := hlt.trans_eq (List.length_map _).symm
      rw [List.getElem?_append_left hlt, List.getElem?_map, List.getElem?_map, hm, hn]
      simp [hkind]
    · have hlen : (g.nodes.map (·.kind)).length ≤ j := (List.length_map _).trans_le hge
      rw [List.getElem?_append_right hlen]
      simp only [List.getElem?_map, List.getElem?_drop, List.length_map]
      rw [show g.size + (j - g.nodes.length) = j from Nat.add_sub_cancel' hge]
  · obtain ⟨m, hm, hkind⟩ := List.mem_map.1 hmem
    obtain ⟨j, hj⟩ := List.mem_iff_getElem?.1 hm
    rw [List.getElem?_drop] at hj
    exact (hgh.fresh (Nat.le_add_right _ _) hj).1 hkind

theorem entryCount_eq (hgh : g.Widens h) : h.entryCount = g.entryCount := by
  obtain ⟨new, hkinds, hnew⟩ := hgh.kinds
  rw [entryCount, hkinds, List.count_append, List.count_eq_zero.2 hnew]
  rfl

end Widens

theorem Extends.widens (hgh : g.Extends h) : g.Widens h where
  node hn := by
    obtain ⟨m, hm, hretains⟩ := hgh.node hn
    exact ⟨m, hm, hretains.kind, hretains.paired⟩
  fresh hid hm := (hgh.fresh hid hm).2

end Graph

namespace Lowering

variable {prog : Program} {s t u : Lowering} {f : FuncId} {r r' : FunctionRecord}

/-- The record names an entry, an exit and returns. -/
structure Recorded (g : Graph) (r : FunctionRecord) : Prop where
  entry : ∃ n, g.nodes[r.entry]? = some n ∧ n.kind = .entry
  exit : ∃ n, g.nodes[r.exit]? = some n ∧ n.kind = .noop
  returns : ∀ id ∈ r.returns, ∃ n, g.nodes[id]? = some n ∧ n.kind = .ret

/-- Partners belong together, and functions have an entry and an exit of their own. -/
structure Structured (s : Lowering) : Prop where
  linked : ∀ {id n}, s.graph.nodes[id]? = some n → s.graph.Linked id n
  entryCount : s.graph.entryCount = s.records.size
  recorded : ∀ {f r}, s.records.get? f = some r → Recorded s.graph r
  entry_inj : ∀ {f f' r r'}, s.records.get? f = some r → s.records.get? f' = some r' → r.entry = r'.entry → f = f'
  exit_inj : ∀ {f f' r r'}, s.records.get? f = some r → s.records.get? f' = some r' → r.exit = r'.exit → f = f'

theorem Recorded.mono {g h : Graph} (hr : Recorded g r) (hnodes : ∀ {id : NodeId} {n : Node}, g.nodes[id]? = some n →
    ∃ m, h.nodes[id]? = some m ∧ m.kind = n.kind ∧ m.paired = n.paired) : Recorded h r := by
  have hkind {id : NodeId} {k : NodeKind} (hn : ∃ n, g.nodes[id]? = some n ∧ n.kind = k) :
      ∃ n, h.nodes[id]? = some n ∧ n.kind = k := by
    obtain ⟨n, hn, hk⟩ := hn
    obtain ⟨m, hm, hkept, -⟩ := hnodes hn
    exact ⟨m, hm, hkept.trans hk⟩
  exact ⟨hkind hr.entry, hkind hr.exit, fun id hid ↦ hkind (hr.returns id hid)⟩

theorem Structured.initial (journal : Journal) : ({ journal } : Lowering).Structured where
  linked {id n} hn := by
    have hn : n ∈ Graph.sentinels.nodes := List.mem_of_getElem? hn
    simp only [Graph.sentinels, List.mem_cons, List.not_mem_nil, or_false] at hn
    rcases hn with rfl | rfl <;> constructor <;> simp
  entryCount := rfl
  recorded hr := by contradiction
  entry_inj hr := by contradiction
  exit_inj hr := by contradiction

/-- What was well structured stays so, and functions keep their entries and their exits. -/
def Preserves (s t : Lowering) : Prop := s.Structured → t.Structured ∧
  ∀ f r, s.records.get? f = some r → ∃ r', t.records.get? f = some r' ∧ r'.entry = r.entry ∧ r'.exit = r.exit

namespace Preserves

instance : IsPreorder Lowering Preserves where
  refl _ hs := ⟨hs, fun _ r hr ↦ ⟨r, hr, rfl, rfl⟩⟩
  trans s t u hst htu hs := by
    obtain ⟨ht, hrecords⟩ := hst hs
    obtain ⟨hu, hrecords'⟩ := htu ht
    refine ⟨hu, fun f r hr ↦ ?_⟩
    obtain ⟨r', hr', hentry, hexit⟩ := hrecords f r hr
    obtain ⟨r'', hr'', hentry', hexit'⟩ := hrecords' f r' hr'
    exact ⟨r'', hr'', hentry'.trans hentry, hexit'.trans hexit⟩

theorem of_widens (hgraph : s.graph.Widens t.graph) (hrecords : t.records = s.records) : s.Preserves t := by
  refine fun hs ↦ ⟨⟨hgraph.linked hs.linked, ?_, ?_, ?_, ?_⟩, fun f r hr ↦ ⟨r, hrecords ▸ hr, rfl, rfl⟩⟩
  all_goals rw [hrecords]
  · exact hgraph.entryCount_eq.trans hs.entryCount
  · exact fun hr ↦ (hs.recorded hr).mono hgraph.node
  · exact hs.entry_inj
  · exact hs.exit_inj

/-- The record of a function changes, but not its entry and its exit. -/
theorem modify {change : FunctionRecord → FunctionRecord} (hsame : ∀ r, (change r).entry = r.entry ∧
    (change r).exit = r.exit)
    (hreturns : ∀ {r}, Recorded s.graph r → ∀ id ∈ (change r).returns, ∃ n, s.graph.nodes[id]? = some n ∧
    n.kind = .ret) : s.Preserves { s with records := s.records.modify f change } := by
  have hold {f' : FuncId} {r' : FunctionRecord} (hr' : (s.records.modify f change).get? f' = some r') :
      ∃ r, s.records.get? f' = some r ∧ (r' = r ∨ r' = change r) := by
    by_cases hf : f' = f
    · subst hf
      rw [get?_modify_self] at hr'
      obtain ⟨r, hr, rfl⟩ := Option.map_eq_some_iff.1 hr'
      exact ⟨r, hr, .inr rfl⟩
    · rw [get?_modify_of_ne hf] at hr'
      exact ⟨r', hr', .inl rfl⟩
  have hends {f' : FuncId} {r' : FunctionRecord} (hr' : (s.records.modify f change).get? f' = some r') :
      ∃ r, s.records.get? f' = some r ∧ r'.entry = r.entry ∧ r'.exit = r.exit := by
    obtain ⟨r, hr, rfl | rfl⟩ := hold hr'
    · exact ⟨r', hr, rfl, rfl⟩
    · exact ⟨r, hr, hsame r⟩
  refine fun hs ↦ ⟨⟨hs.linked, ?_, fun hr' ↦ ?_, fun hr hr' hentry ↦ ?_, fun hr hr' hexit ↦ ?_⟩, fun f' r hr ↦ ?_⟩
  · exact hs.entryCount.trans size_modify.symm
  · obtain ⟨r, hr, rfl | rfl⟩ := hold hr'
    · exact hs.recorded hr
    · have hrecorded := hs.recorded hr
      exact ⟨(hsame r).1 ▸ hrecorded.entry, (hsame r).2 ▸ hrecorded.exit, hreturns hrecorded⟩
  · obtain ⟨q, hq, hqe, -⟩ := hends hr
    obtain ⟨q', hq', hqe', -⟩ := hends hr'
    exact hs.entry_inj hq hq' (hqe.symm.trans (hentry.trans hqe'))
  · obtain ⟨q, hq, -, hqx⟩ := hends hr
    obtain ⟨q', hq', -, hqx'⟩ := hends hr'
    exact hs.exit_inj hq hq' (hqx.symm.trans (hexit.trans hqx'))
  · change ∃ r', (s.records.modify f change).get? f' = some r' ∧ _
    by_cases hf : f' = f
    · subst hf
      exact ⟨change r, by rw [get?_modify_self, hr]; rfl, hsame r⟩
    · exact ⟨r, (get?_modify_of_ne hf).trans hr, rfl, rfl⟩

instance : Frame Preserves (fun _ ↦ True) where
  aside hgraph hrecords _ := of_widens (hgraph ▸ .refl _) hrecords
  grow hg := of_widens hg.widens rfl
  edit _ hedits := of_widens (.update fun n _ ↦ ⟨(hedits n).kind, (hedits n).paired⟩) rfl
  gain _ _ _ := of_widens (.update fun _ _ ↦ ⟨rfl, rfl⟩) rfl
  alter hminor := by
    refine modify (fun r ↦ ⟨(hminor.same r).1, (hminor.same r).2.1⟩) fun {r} hr ↦ ?_
    rw [(hminor.same r).2.2]
    exact hr.returns
  returned {s f id n} hn hkind := by
    refine modify (fun r ↦ ⟨rfl, rfl⟩) fun {r} hr x hx ↦ ?_
    rcases List.mem_append.1 hx with hx | hx
    · exact hr.returns x hx
    · rw [List.mem_singleton] at hx
      exact ⟨n, hx ▸ hn, hkind⟩
  bind_fresh _ _ _ hnext := .bind fun a ↦ hnext a fun _ _ ↦ trivial

end Preserves

/-! ## Functions -/

/-- Lowering that touches no record. -/
def Widens (s t : Lowering) : Prop := s.graph.Widens t.graph ∧ t.records = s.records

instance : IsPreorder Lowering Widens where
  refl s := ⟨.refl s.graph, rfl⟩
  trans _ _ _ hst htu := ⟨hst.1.trans htu.1, htu.2.trans hst.2⟩

theorem lowerFormals_widens (fn : Function) : Follows Widens (Lower.lowerFormals prog fn) := by
  have hgraph {change : Graph → Graph} (h : ∀ g : Graph, g.Widens (change g)) : Follows Widens (Lower.onGraph change) :=
    .modify fun s ↦ ⟨h s.graph, rfl⟩
  have hphi : Follows Widens (Lower.create (·.create { kind := .phi })) := by
    refine ⟨fun {s t} h ↦ ?_⟩
    rcases h with ⟨id, h⟩ | ⟨e, h⟩
    · obtain ⟨-, rfl⟩ := Lower.create_eq_ok_iff.1 h
      exact ⟨((Graph.Makes.create rfl rfl).retains s.graph).widens, rfl⟩
    · contradiction
  have happend (chain : Option Span) (id : NodeId) : Follows Widens (Lower.append chain id) := by
    unfold Lower.append
    split
    · exact .pure _
    · exact .andThen (hgraph fun _ ↦ Graph.Extends.addSuccessor.widens) fun _ ↦ .pure _
  have hassign (v : ValueId) (id : NodeId) : Follows Widens (Lower.assign v id) :=
    .andThen (.modify fun s ↦ ⟨.refl s.graph, rfl⟩) fun _ ↦ hgraph fun _ ↦ .update fun _ _ ↦ ⟨rfl, rfl⟩
  have hformal (v : ValueId) : Follows Widens (Lower.createFor v (·.create { kind := .phi })) :=
    hphi.andThen fun id ↦ (hassign v id).andThen fun _ ↦ .pure _
  exact .andThen (.foldlM (fun _ _ ↦ inferInstance) _ _) fun _ ↦ inferInstance

/-- A function gets its record. -/
theorem Preserves.opens (hnew : s.records.get? f = none)
    (hwidens : (s.graph.append [{ kind := .entry }, { kind := .noop }]).Widens t.graph)
    (hrecords : t.records = s.records)
    {exit : NodeId} (hexit : exit = s.graph.size + 1) {formals : Option Span} {variadic : Option NodeId}
    {callGraph : CallGraph} : s.Preserves { t with
      records := t.records.insert f { entry := s.graph.size, exit, formals, variadic }
      callGraph } := by
  subst hexit
  intro hs
  have hold {id : NodeId} {n : Node} (hn : s.graph.nodes[id]? = some n) :
      (s.graph.append [{ kind := .entry }, { kind := .noop }]).nodes[id]? = some n :=
    (Graph.nodes_append_of_lt (Graph.lt_size_of_node hn)).trans hn
  have hkept {id : NodeId} {n : Node} (hn : s.graph.nodes[id]? = some n) :
      ∃ m, t.graph.nodes[id]? = some m ∧ m.kind = n.kind ∧ m.paired = n.paired := hwidens.node (hold hn)
  have hother {f' : FuncId} {r : FunctionRecord} (hr : s.records.get? f' = some r) : f' ≠ f := by
    rintro rfl
    rw [hnew] at hr
    contradiction
  have hlt {f' : FuncId} {r : FunctionRecord} (hr : s.records.get? f' = some r) :
      r.entry < s.graph.size ∧ r.exit < s.graph.size := by
    obtain ⟨⟨n, hn, -⟩, ⟨m, hm, -⟩, -⟩ := hs.recorded hr
    exact ⟨Graph.lt_size_of_node hn, Graph.lt_size_of_node hm⟩
  rw [hrecords]
  refine ⟨⟨hwidens.linked fun {id n} hn ↦ ?_, ?_, fun hr ↦ ?_, fun hr hr' he ↦ ?_, fun hr hr' hx ↦ ?_⟩,
    fun f' r hr ↦ ?_⟩
  · rcases Graph.nodes_append_cases hn with hn | ⟨i, rfl, hi⟩
    · exact (hs.linked hn).mono rfl rfl fun {b l} hl ↦ ⟨l, hold hl, rfl, rfl⟩
    · have hn : n ∈ [({ kind := .entry } : Node), { kind := .noop }] := List.mem_of_getElem? hi
      simp only [List.mem_cons, List.not_mem_nil, or_false] at hn
      rcases hn with rfl | rfl <;> constructor <;> simp
  · refine hwidens.entryCount_eq.trans ?_
    rw [size_insert hnew, ← hs.entryCount]
    simp [Graph.entryCount, Graph.append]
  · rcases get?_insert_eq_some_iff.1 hr with ⟨rfl, rfl⟩ | ⟨-, hr⟩
    · refine ⟨?_, ?_, by simp⟩
      · obtain ⟨m, hm, hkind, -⟩ := hwidens.node Graph.nodes_append_size
        exact ⟨m, hm, hkind⟩
      · obtain ⟨m, hm, hkind, -⟩ := hwidens.node (Graph.nodes_append_add (i := 1))
        exact ⟨m, hm, hkind⟩
    · exact (hs.recorded hr).mono hkept
  · rcases get?_insert_eq_some_iff.1 hr with ⟨rfl, rfl⟩ | ⟨-, hq⟩ <;>
      rcases get?_insert_eq_some_iff.1 hr' with ⟨rfl, rfl⟩ | ⟨-, hq'⟩
    · rfl
    · exact absurd he (hlt hq').1.ne'
    · exact absurd he (hlt hq).1.ne
    · exact hs.entry_inj hq hq' he
  · rcases get?_insert_eq_some_iff.1 hr with ⟨rfl, rfl⟩ | ⟨-, hq⟩ <;>
      rcases get?_insert_eq_some_iff.1 hr' with ⟨rfl, rfl⟩ | ⟨-, hq'⟩
    · rfl
    · exact absurd hx (Nat.lt_succ_of_lt (hlt hq').2).ne'
    · exact absurd hx (Nat.lt_succ_of_lt (hlt hq).2).ne
    · exact hs.exit_inj hq hq' hx
  · exact ⟨r, (get?_insert_of_ne (hother hr)).trans hr, rfl, rfl⟩

/-- The formals of a function are all values of the program. -/
theorem lowerFormals_ok (hprog : prog.Coherent) {fn : Function} (hfn : prog.functions[f]? = some fn) (s : Lowering) :
    ∃ formals t, Lower.lowerFormals prog fn s = .ok formals t := by
  cases h : Lower.lowerFormals prog fn s with
  | ok formals t => exact ⟨formals, t, rfl⟩
  | error e t =>
    have htame : Stateful.Tame (fun _ ↦ False) (Lower.lowerFormals prog fn) := .lowerFormals hprog hfn
    exact (htame.throws s e t h).elim

/-- A function gets its record together with its entry and its exit, which are new. -/
theorem Preserves.begins (hprog : prog.Coherent) : Begins prog Preserves where
  chained := of_widens (.refl _) rfl
  begins {f fn s t} hlookup hnew h := by
    have hfn := Query.lookup_eq_ok_iff.1 hlookup
    rcases leaves_bind_iff.1 h with ⟨e, he⟩ | ⟨entry, s₁, h₁, h⟩
    · contradiction
    rcases leaves_bind_iff.1 h with ⟨e, he⟩ | ⟨exit, s₂, h₂, h⟩
    · contradiction
    rcases leaves_bind_iff.1 h with ⟨e, he⟩ | ⟨formals, s₃, h₃, h⟩
    · obtain ⟨formals, u, hok⟩ := lowerFormals_ok hprog hfn s₂
      exact absurd (hok.symm.trans he) (by simp)
    rcases leaves_bind_iff.1 h with ⟨e, he⟩ | ⟨_, u, h₄, h⟩
    · contradiction
    rcases h with ⟨_, h⟩ | ⟨e, h⟩
    swap
    · contradiction
    obtain ⟨-, rfl⟩ := pure_eq_ok_iff.1 h
    obtain rfl := modify_eq_ok_iff.1 h₄
    obtain ⟨rfl, rfl⟩ := Lower.create_eq_ok_iff.1 h₁
    obtain ⟨rfl, rfl⟩ := Lower.create_eq_ok_iff.1 h₂
    obtain ⟨hwidens, hrecords⟩ := (lowerFormals_widens fn).leaves (.inl ⟨formals, h₃⟩)
    replace hwidens : (s.graph.append [{ kind := .entry }, { kind := .noop }]).Widens s₃.graph := by
      rw [← List.singleton_append, ← Graph.append_append]
      exact hwidens
    exact opens hnew hwidens hrecords Graph.size_create

/-- A request from outside, in whatever way it ends: to lower the program or a function, to link a call,
or to solve what is lowered. -/
inductive Operates (prog : Program) : Lowering → Lowering → Prop
  | build {s t : Lowering} (entry : String) (h : Leaves (Lower.build prog entry) s t) : Operates prog s t
  | function {s t : Lowering} (f : FuncId) (h : Leaves (Lower.lowerFunction prog (Lower.ask prog) f) s t) :
      Operates prog s t
  | link {s t : Lowering} (callSite function : NodeId) (h : Leaves (Lower.linkCall prog callSite function) s t) :
      Operates prog s t
  | round {μ : Type} [MemoryModel μ] {a b : Analysis μ} (budget : Nat) (h : Leaves (Analysis.round prog budget) a b) :
      Operates prog a.host b.host
  | run {μ : Type} [MemoryModel μ] {a b : Analysis μ} (options : Options) (budget : Nat)
      (h : Leaves (Analysis.run prog options budget) a b) : Operates prog a.host b.host

theorem Operates.preserves (hprog : prog.Coherent) (h : Operates prog s t) : s.Preserves t := by
  have hbegins := Preserves.begins hprog
  cases h with
  | build entry h => exact Follows.leaves h
  | function f h => exact Follows.leaves h
  | link callSite function h => exact Follows.leaves h
  | round budget h => exact Follows.leaves (R := Analysis.Along Preserves) h
  | run options budget h => exact Follows.leaves (R := Analysis.Along Preserves) h

open Relation in
/-- Whatever is asked of lowering and solving, in whatever order and with whatever outcome, partners
belong together in every state, and each function that was begun has an entry and an exit of its own,
which it keeps from then on. -/
theorem structure_lasts (hprog : prog.Coherent) {journal : Journal} (hs : ReflTransGen (Operates prog) { journal } s)
    (ht : ReflTransGen (Operates prog) s t) : s.Structured ∧ ∀ f r, s.records.get? f = some r →
      ∃ r', t.records.get? f = some r' ∧ r'.entry = r.entry ∧ r'.exit = r.exit := by
  have hrun {s t : Lowering} (h : ReflTransGen (Operates prog) s t) : s.Preserves t := by
    induction h with
    | refl => exact refl_of Preserves s
    | tail _ hstep ih => exact trans_of Preserves ih (hstep.preserves hprog)
  have hstructured := (hrun hs (.initial journal)).1
  exact ⟨hstructured, (hrun ht hstructured).2⟩

open Relation in
theorem structure_lasts_stuck : ∃ s t r r', ReflTransGen (Operates Analysis.stuck) {} s ∧
    ReflTransGen (Operates Analysis.stuck) s t ∧ s.Structured ∧ s.graph.entryCount = 2 ∧
      s.records.get? 1 = some r ∧ t.records.get? 1 = some r' ∧ r'.entry = r.entry ∧ r'.exit = r.exit := by
  let start (host : Lowering) : Analysis SharedMemory := { solver := .fresh SharedMemory 4096, host }
  -- The round fails after it has begun the function that is called through the pointer.
  have hbuild : succeeds (fun _ host ↦ fails (fun _ b ↦
      decide (b.host.graph.entryCount = 2 ∧ b.host.records.contains 1))
      (Analysis.round Analysis.stuck 40 (start host))) (Lower.build Analysis.stuck "main" {}) = true := by
    decide +kernel
  obtain ⟨root, host, hbuild, hround⟩ := ok_of_succeeds hbuild
  obtain ⟨e, b, hround, htest⟩ := error_of_fails hround
  obtain ⟨hcount, hcontains⟩ := of_decide_eq_true htest
  obtain ⟨r, hr⟩ := Option.isSome_iff_exists.1 hcontains
  have hs : ReflTransGen (Operates Analysis.stuck) {} b.host :=
    .tail (.single (.build "main" (.inl ⟨root, hbuild⟩))) (.round (a := start host) 40 (.inr ⟨e, hround⟩))
  obtain ⟨t, ht⟩ : ∃ t, Leaves (Lower.linkCall Analysis.stuck 7 5) b.host t := by
    cases h : Lower.linkCall Analysis.stuck 7 5 b.host with
    | ok linked t => exact ⟨t, .inl ⟨linked, h⟩⟩
    | error e t => exact ⟨t, .inr ⟨e, h⟩⟩
  have ht : ReflTransGen (Operates Analysis.stuck) b.host t := .single (.link 7 5 ht)
  obtain ⟨hstructured, hkept⟩ := structure_lasts (Program.coherent_assembled _) hs ht
  obtain ⟨r', hr', hentry, hexit⟩ := hkept 1 r hr
  exact ⟨b.host, t, r, r', hs, ht, hstructured, hcount, hr, hr', hentry, hexit⟩

end Lowering

end PointsTo
