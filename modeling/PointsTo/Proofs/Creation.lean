import PointsTo.Proofs.Edges

/-!
# New nodes

New nodes are appended to a graph.  Calls are created in several steps, which only their own nodes
take part in: the new nodes are given in the form that they have in the end.
-/

namespace PointsTo.Graph

variable {g : Graph} {ns ms : List Node} {a b i : Nat} {n m : Node} {f : Node → Node}

def append (g : Graph) (ns : List Node) : Graph := { g with nodes := g.nodes ++ ns }

theorem create_snd : (g.create n).2 = g.append [n] := rfl

theorem append_append : (g.append ns).append ms = g.append (ns ++ ms) := by simp [append]

@[simp] theorem size_append : (g.append ns).size = g.size + ns.length := by simp [append, size]

theorem nodes_append_of_lt (ha : a < g.size) : (g.append ns).nodes[a]? = g.nodes[a]? :=
  List.getElem?_append_left ha

theorem nodes_append_add : (g.append ns).nodes[g.size + i]? = ns[i]? := by
  change (g.nodes ++ ns)[g.nodes.length + i]? = ns[i]?
  rw [List.getElem?_append_right (Nat.le_add_right _ _), Nat.add_sub_cancel_left]

/-- A node of the extended graph is old or new. -/
theorem nodes_append_cases (hn : (g.append ns).nodes[a]? = some n) :
    g.nodes[a]? = some n ∨ ∃ i, a = g.size + i ∧ ns[i]? = some n := by
  rcases Nat.lt_or_ge a g.size with ha | ha
  · exact .inl (nodes_append_of_lt ha ▸ hn)
  · obtain ⟨i, rfl⟩ := Nat.exists_eq_add_of_le ha
    exact .inr ⟨i, rfl, nodes_append_add ▸ hn⟩

theorem update_append_of_lt (ha : a < g.size) : (g.append ns).update a f = (g.update a f).append ns := by
  have ha : a < g.nodes.length := ha
  simp only [append, update, Graph.mk.injEq, and_true]
  refine List.ext_getElem? fun j ↦ ?_
  simp only [List.getElem?_modify, List.getElem?_append, List.length_modify]
  grind

theorem update_append_add : (g.append ns).update (g.size + i) f = g.append (ns.modify i f) := by
  simp only [append, update, Graph.mk.injEq, and_true, size]
  refine List.ext_getElem? fun j ↦ ?_
  simp only [List.getElem?_modify, List.getElem?_append]
  grind

/-- The first of the new nodes has the number of the old ones. -/
theorem update_append_size : (g.append ns).update g.size f = g.append (ns.modify 0 f) := update_append_add (i := 0)

theorem nodes_append_size : (g.append ns).nodes[g.size]? = ns[0]? := nodes_append_add (i := 0)

theorem Persists.append : g.Persists (g.append ns) :=
  ⟨fun {_ n} hn ↦ ⟨n, (nodes_append_of_lt (lt_size_of_node hn)).trans hn, .refl n⟩⟩

theorem successors_append_of_lt (ha : a < g.size) : (g.append ns).successors a = g.successors a := by
  simp only [successors, nodes_append_of_lt ha]

theorem predecessors_append_of_lt (ha : a < g.size) : (g.append ns).predecessors a = g.predecessors a := by
  simp only [predecessors, nodes_append_of_lt ha]

theorem successors_append_add : (g.append ns).successors (g.size + i) = ((ns[i]?).map (·.successors)).getD [] := by
  simp only [successors, nodes_append_add]

theorem predecessors_append_add :
    (g.append ns).predecessors (g.size + i) = ((ns[i]?).map (·.predecessors)).getD [] := by
  simp only [predecessors, nodes_append_add]

theorem SameEdges.append (hns : ∀ n ∈ ns, n.successors = [] ∧ n.predecessors = []) :
    g.SameEdges (g.append ns) := by
  refine ⟨fun x ↦ ?_, fun x ↦ ?_⟩
  · rcases Nat.lt_or_ge x g.size with hx | hx
    · exact successors_append_of_lt hx
    · obtain ⟨i, rfl⟩ := Nat.exists_eq_add_of_le hx
      rw [successors_append_add, successors_of_size_le hx]
      cases hi : ns[i]? with
      | none => rfl
      | some n => exact (hns n (List.mem_of_getElem? hi)).1
  · rcases Nat.lt_or_ge x g.size with hx | hx
    · exact predecessors_append_of_lt hx
    · obtain ⟨i, rfl⟩ := Nat.exists_eq_add_of_le hx
      rw [predecessors_append_add, predecessors_of_size_le hx]
      cases hi : ns[i]? with
      | none => rfl
      | some n => exact (hns n (List.mem_of_getElem? hi)).2

/-- New nodes may have edges among each other. -/
theorem TwoWay.append (hg : g.TwoWay)
    (hnew : ∀ n ∈ ns, (∀ y ∈ n.successors, g.size ≤ y) ∧ ∀ y ∈ n.predecessors, g.size ≤ y)
    (hns : ∀ i j, g.size + j ∈ ((ns[i]?).map (·.successors)).getD [] ↔
      g.size + i ∈ ((ns[j]?).map (·.predecessors)).getD []) : (g.append ns).TwoWay := by
  intro a b
  rcases Nat.lt_or_ge a g.size with ha | ha
  · rw [successors_append_of_lt ha]
    rcases Nat.lt_or_ge b g.size with hb | hb
    · rw [predecessors_append_of_lt hb, hg]
    · obtain ⟨j, rfl⟩ := Nat.exists_eq_add_of_le hb
      rw [predecessors_append_add]
      constructor
      · intro h
        exact absurd (hg.lt_size h) (Nat.not_lt.2 hb)
      · cases hj : ns[j]? with
        | none => simp
        | some n =>
          intro h
          exact absurd ((hnew n (List.mem_of_getElem? hj)).2 a h) (Nat.not_le.2 ha)
  · obtain ⟨i, rfl⟩ := Nat.exists_eq_add_of_le ha
    rw [successors_append_add]
    rcases Nat.lt_or_ge b g.size with hb | hb
    · rw [predecessors_append_of_lt hb, ← hg]
      constructor
      · cases hi : ns[i]? with
        | none => simp
        | some n =>
          intro h
          exact absurd ((hnew n (List.mem_of_getElem? hi)).1 b h) (Nat.not_le.2 hb)
      · intro h
        exact absurd (lt_size_of_mem_successors h) (Nat.not_lt.2 ha)
    · obtain ⟨j, rfl⟩ := Nat.exists_eq_add_of_le hb
      rw [predecessors_append_add]
      exact hns i j

/-! ## Calls and functions -/

/-- A return site and the call that it is paired with. -/
def openCall (g : Graph) (call : ValueId) : Graph :=
  g.append [{ kind := .callReturn, paired := some (g.size + 1), value := some call },
    { kind := .call, paired := some g.size, value := some call }]

theorem openCall_eq {call : ValueId} {site id : NodeId} (hsite : site = g.size) (hid : id = g.size + 1) :
    ((((g.append [{ kind := .callReturn }]).append [{ kind := .call }]).pair id site).update id
      fun n ↦ { n with value := some call }).update site (fun n ↦ { n with value := some call }) =
      g.openCall call := by
  subst hsite hid
  simp only [pair, append_append]
  rw [update_append_add, update_append_size, update_append_add, update_append_size]
  rfl

/-- The node of a function, which it points to. -/
def functionNode (g : Graph) (v : ValueId) : Graph :=
  g.append [{ kind := .function, pointsTo := .singleton ⟨g.size, .zero⟩, value := some v }]

theorem functionNode_eq {v : ValueId} :
    (g.createFunction).2.update g.size (fun n ↦ { n with value := n.value <|> some v }) = g.functionNode v :=
  update_append_size

/-- A node that is its own partner. -/
theorem pair_create_self : (g.create n).2.pair g.size g.size = g.append [{ n with paired := some g.size }] := by
  simp only [pair, create_snd]
  rw [update_append_size, update_append_size]
  rfl

/-- The node becomes a user of its operand. -/
def addUser (g : Graph) (op id : NodeId) : Graph :=
  g.update op fun n ↦ if n.users.contains id then n else { n with users := n.users ++ [id] }

/-- A call of what the operand points to, with its return. -/
def indirectCall (g : Graph) (op : NodeId) (call : ValueId) : Graph :=
  (g.addUser op g.size).append
    [{ kind := .indirectCall, operands := [op], successors := [g.size + 1], paired := some (g.size + 1),
       value := some call },
     { kind := .ret, predecessors := [g.size], paired := some g.size, value := some call }]

theorem size_addUser {op id : NodeId} : (g.addUser op id).size = g.size := size_update

theorem indirectCall_eq {op : NodeId} {call : ValueId} {id site : NodeId} (hop : op < g.size) (hid : id = g.size)
    (hsite : site = g.size + 1) :
    ((((((g.createWith { kind := .indirectCall } [op]).2.append [{ kind := .ret }]).pair id site).addSuccessor
      id site).update site fun n ↦ { n with value := some call }).update id
      fun n ↦ { n with value := n.value <|> some call }) = g.indirectCall op call := by
  subst hid hsite
  have hcreate : (g.createWith { kind := .indirectCall } [op]).2 =
      (g.addUser op g.size).append [{ kind := .indirectCall, operands := [op] }] := by
    change ((g.append [{ kind := .indirectCall }]).update g.size _).update op _ = _
    rw [update_append_size, update_append_of_lt hop]
    rfl
  rw [hcreate, indirectCall, append_append]
  generalize hg' : g.addUser op g.size = g'
  have hsize : g.size = g'.size := by rw [← hg', size_addUser]
  rw [hsize, pair, update_append_size, update_append_add]
  have hnew : (g'.append (([{ kind := .indirectCall, operands := [op] }, { kind := .ret }].modify 0
      fun n ↦ { n with paired := some (g'.size + 1) }).modify 1 fun n ↦ { n with paired := some g'.size })).hasSuccessor
        g'.size (g'.size + 1) = false := by
    rw [Bool.eq_false_iff]
    intro h
    obtain ⟨n, hn, h⟩ := mem_successors.1 (hasSuccessor_iff.1 h)
    rw [nodes_append_size] at hn
    simp at hn
    simp [← hn] at h
  simp only [List.cons_append, List.nil_append]
  rw [addSuccessor, if_neg (by rw [hnew]; simp), update_append_size, update_append_add,
    update_append_add, update_append_size]
  rfl

theorem TwoWay.indirectCall {op : NodeId} {call : ValueId} (hg : g.TwoWay) : (g.indirectCall op call).TwoWay := by
  unfold Graph.indirectCall
  generalize hg' : g.addUser op g.size = g'
  have hsize : g.size = g'.size := by rw [← hg', size_addUser]
  have htwo : g'.TwoWay := by
    rw [← hg']
    apply hg.of_sameEdges
    apply SameEdges.update
    · intro n
      split <;> rfl
    · intro n
      split <;> rfl
  rw [hsize]
  apply htwo.append
  · simp
  · intro i j
    rcases i with _ | _ | i <;> rcases j with _ | _ | j <;> simp

theorem nodes_indirectCall_ret {op : NodeId} {call : ValueId} : (g.indirectCall op call).nodes[g.size + 1]? =
    some { kind := .ret, predecessors := [g.size], paired := some g.size, value := some call } := by
  have h : (g.indirectCall op call).nodes[(g.addUser op g.size).size + 1]? =
      some { kind := .ret, predecessors := [g.size], paired := some g.size, value := some call } := nodes_append_add
  rwa [size_addUser] at h

/-- The new nodes are the call and its return. -/
theorem nodes_indirectCall {op : NodeId} {call : ValueId} (ha : g.size ≤ a)
    (hn : (g.indirectCall op call).nodes[a]? = some n) :
    (a = g.size ∧ n.kind = .indirectCall ∧ n.paired = some (g.size + 1) ∧ n.value = some call) ∨
      (a = g.size + 1 ∧ n.kind = .ret) := by
  rcases nodes_append_cases hn with hn | ⟨i, hi, him⟩
  · have hlt := lt_size_of_node hn
    rw [size_addUser] at hlt
    exact absurd hlt (Nat.not_lt.2 ha)
  · rw [size_addUser] at hi
    rcases i with _ | _ | i
    · obtain rfl := Option.some.inj him
      exact .inl ⟨hi, rfl, rfl, rfl⟩
    · obtain rfl := Option.some.inj him
      exact .inr ⟨hi, rfl⟩
    · simp at him

theorem successors_indirectCall {op : NodeId} {call : ValueId} :
    (g.indirectCall op call).successors g.size = [g.size + 1] := by
  have h : (g.indirectCall op call).successors (g.addUser op g.size).size = [g.size + 1] :=
    successors_append_add (i := 0)
  rwa [size_addUser] at h

/-- The one new edge leads from the call to its return. -/
theorem of_mem_successors_indirectCall {op : NodeId} {call : ValueId} {x y : NodeId}
    (hy : y ∈ (g.indirectCall op call).successors x) : y ∈ g.successors x ∨ x = g.size := by
  have hsame : (g.addUser op g.size).successors x = g.successors x := by
    apply successors_update
    intro n
    split <;> rfl
  rcases Nat.lt_or_ge x g.size with hx | hx
  · rw [indirectCall, successors_append_of_lt (by rwa [size_addUser]), hsame] at hy
    exact .inl hy
  · obtain ⟨n, hn, hy⟩ := mem_successors.1 hy
    rcases nodes_indirectCall hx hn with ⟨rfl, -⟩ | ⟨rfl, -⟩
    · exact .inr rfl
    · rw [nodes_indirectCall_ret, Option.some.injEq] at hn
      subst hn
      contradiction

end PointsTo.Graph
