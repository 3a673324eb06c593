import Mathlib.Data.List.Basic
import Mathlib.Data.List.Induction
import PointsTo.Proofs.CallSites

/-!
# What a call graph records

A call graph grows by functions and calls that are added to it.  Whatever was added, in whatever order and however
often, it lists every function once, in the order of first mention; it has one edge for each caller and callee, in
the order of their first calls; and the edge lists the sites of the calls that were added for it, each once and in
the order in which they came.

The functions may be named in the edges by their numbers instead, with the latest of a function's edges in front; what
can be asked about the graph is then answered in the same way.
-/

namespace PointsTo

section

variable {α : Type} [BEq α] [LawfulBEq α] (l : List α)

/-- Of what comes at the end of a list, only what is new counts. -/
theorem eraseDups_concat (a : α) :
    (l ++ [a]).eraseDups = if a ∈ l.eraseDups then l.eraseDups else l.eraseDups ++ [a] := by
  rw [List.eraseDups_append]
  by_cases h : a ∈ l <;> simp [List.removeAll, List.filter, List.eraseDups_cons, h]

theorem nodup_eraseDups : l.eraseDups.Nodup := by
  induction l using List.reverseRecOn with
  | nil => simp
  | append_singleton l a ih =>
    rw [eraseDups_concat]
    split
    · exact ih
    · rename_i h
      rw [List.nodup_append]
      exact ⟨ih, by simp, fun b hb c hc heq ↦ h (List.mem_singleton.1 hc ▸ heq ▸ hb)⟩

end

namespace CallGraph

/-- What is added to a call graph. -/
inductive Operation where
  | function (f : FuncId)
  | call (caller callee : FuncId) (site : CallSite)

namespace Operation

def apply (cg : CallGraph) : Operation → CallGraph
  | function f => cg.addFunction f
  | call caller callee site => cg.addCall caller callee site

/-- The functions that an operation mentions, the caller first. -/
def mentions : Operation → List FuncId
  | function f => [f]
  | call caller callee _ => [caller, callee]

/-- The ends of the edge that an operation calls for. -/
def ends : Operation → List (FuncId × FuncId)
  | function _ => []
  | call caller callee _ => [(caller, callee)]

/-- Whom the operation says that `caller` calls. -/
def calleesOf (caller : FuncId) : Operation → List FuncId
  | function _ => []
  | call a b _ => if a = caller then [b] else []

/-- Where the operation says that `caller` calls `callee`. -/
def sitesOf (caller callee : FuncId) : Operation → List CallSite
  | function _ => []
  | call a b site => if a = caller ∧ b = callee then [site] else []

end Operation

/-- The call graph after the operations. -/
def replay (ops : List Operation) : CallGraph := ops.foldl Operation.apply {}

variable {cg : CallGraph} {a b : FuncId} {site : CallSite}

theorem addFunction_functions (f : FuncId) :
    (cg.addFunction f).functions = if f ∈ cg.functions then cg.functions else cg.functions ++ [f] := by
  unfold addFunction
  by_cases h : f ∈ cg.functions <;> simp [h]

@[simp]
theorem addFunction_edges (f : FuncId) : (cg.addFunction f).edges = cg.edges := by
  unfold addFunction
  split <;> rfl

/-- The ends of the edges, in the order of the edges. -/
def ends (cg : CallGraph) : List (FuncId × FuncId) := cg.edges.map fun e ↦ (e.caller, e.callee)

theorem edge?_eq_none_iff : cg.edge? a b = none ↔ (a, b) ∉ cg.ends := by
  simp [edge?, ends, CallEdge.joins]

theorem callees_eq : cg.callees a = (cg.ends.filter (·.1 == a)).map (·.2) := by
  simp [callees, ends, List.filter_map, Function.comp_def]

theorem addCall_functions :
    (cg.addCall a b site).functions = ((cg.addFunction a).addFunction b).functions := by
  unfold addCall
  dsimp only
  split <;> rfl

theorem addCall_edges : (cg.addCall a b site).edges =
    if (a, b) ∈ cg.ends then cg.edges.map fun e ↦ if e.joins a b then e.addSite site else e
    else cg.edges ++ [⟨a, b, [site]⟩] := by
  have hedge : ((cg.addFunction a).addFunction b).edge? a b = cg.edge? a b := by
    rw [edge?_addFunction, edge?_addFunction]
  unfold addCall
  cases h : cg.edge? a b with
  | none => simp [hedge, h, edge?_eq_none_iff.1 h]
  | some e =>
    have hmem : (a, b) ∈ cg.ends := by
      by_contra hnot
      simp [edge?_eq_none_iff.2 hnot] at h
    simp [hedge, h, hmem]

/-- Adding a call leaves the ends of all edges as they are, apart from a new edge at the end. -/
theorem addCall_ends :
    (cg.addCall a b site).ends = if (a, b) ∈ cg.ends then cg.ends else cg.ends ++ [(a, b)] := by
  rw [ends, addCall_edges]
  split
  · rw [List.map_map]
    refine List.map_congr_left fun e _ ↦ ?_
    simp only [Function.comp, CallEdge.addSite]
    split <;> [split; skip] <;> rfl
  · simp [ends]

theorem addCall_callees {c : FuncId} : (cg.addCall a b site).callees c =
    if a = c then if b ∈ cg.callees c then cg.callees c else cg.callees c ++ [b] else cg.callees c := by
  rw [callees_eq, addCall_ends]
  by_cases hc : a = c
  · by_cases h : (a, b) ∈ cg.ends <;> simp [h, ← hc, callees_eq]
  · by_cases h : (a, b) ∈ cg.ends <;> simp [h, hc, callees_eq]

/-- What the call graph shows is what the operations say. -/
structure Records (cg : CallGraph) (ops : List Operation) : Prop where
  functions : cg.functions = (ops.flatMap Operation.mentions).eraseDups
  ends : cg.ends = (ops.flatMap Operation.ends).eraseDups
  callees : ∀ a, cg.callees a = (ops.flatMap (Operation.calleesOf a)).eraseDups
  sites : ∀ a b, cg.sites a b = (ops.flatMap (Operation.sitesOf a b)).eraseDups

theorem Records.apply {ops : List Operation} (h : cg.Records ops) (op : Operation) :
    (op.apply cg).Records (ops ++ [op]) := by
  cases op with
  | function f =>
    have hedges : (cg.addFunction f).edges = cg.edges := addFunction_edges f
    refine ⟨?_, ?_, fun a ↦ ?_, fun a b ↦ ?_⟩
    · simp [Operation.apply, Operation.mentions, eraseDups_concat, addFunction_functions, h.functions]
    · simpa [Operation.apply, Operation.ends, CallGraph.ends, hedges] using h.ends
    · simpa [Operation.apply, Operation.calleesOf, CallGraph.callees, hedges] using h.callees a
    · rw [Operation.apply, sites_addFunction, h.sites]
      simp [Operation.sitesOf]
  | call caller callee site =>
    refine ⟨?_, ?_, fun a ↦ ?_, fun a b ↦ ?_⟩
    · have hmentions : (ops ++ [Operation.call caller callee site]).flatMap Operation.mentions =
          ops.flatMap Operation.mentions ++ [caller] ++ [callee] := by simp [Operation.mentions]
      rw [hmentions, eraseDups_concat, eraseDups_concat, ← h.functions, Operation.apply, addCall_functions]
      simp only [addFunction_functions]
    · rw [Operation.apply, addCall_ends, h.ends]
      simp [Operation.ends, eraseDups_concat]
    · rw [Operation.apply, addCall_callees, h.callees, List.flatMap_append, List.flatMap_singleton, Operation.calleesOf]
      split
      · rw [eraseDups_concat]
      · rw [List.append_nil]
    · rw [Operation.apply, sites_addCall, h.sites, List.flatMap_append, List.flatMap_singleton, Operation.sitesOf]
      by_cases hends : caller = a ∧ callee = b
      · rw [if_pos hends, eraseDups_concat]
        by_cases hsite : site ∈ (ops.flatMap (Operation.sitesOf a b)).eraseDups
        · rw [if_pos hsite, if_neg fun hnew ↦ hnew.2.2 hsite]
        · rw [if_neg hsite, if_pos ⟨hends.1.symm, hends.2.symm, hsite⟩]
      · rw [if_neg hends, List.append_nil, if_neg fun hnew ↦ hends ⟨hnew.1.symm, hnew.2.1.symm⟩]

theorem records_replay (ops : List Operation) : (replay ops).Records ops := by
  induction ops using List.reverseRecOn with
  | nil => exact ⟨rfl, rfl, fun _ ↦ rfl, fun _ _ ↦ rfl⟩
  | append_singleton ops op ih =>
    rw [replay, List.foldl_append]
    exact ih.apply op

/-- A call graph is an exact record of what was added to it: each function once in the order of first mention, one
edge for each caller and callee, and the sites and callees in the order in which they came first. -/
theorem calls_recorded (ops : List Operation) :
    ((replay ops).functions = (ops.flatMap Operation.mentions).eraseDups ∧ (replay ops).functions.Nodup) ∧
    ((replay ops).ends = (ops.flatMap Operation.ends).eraseDups ∧ (replay ops).ends.Nodup) ∧
    (∀ a b, (replay ops).sites a b = (ops.flatMap (Operation.sitesOf a b)).eraseDups) ∧
    ∀ a, (replay ops).callees a = (ops.flatMap (Operation.calleesOf a)).eraseDups := by
  have h := records_replay ops
  refine ⟨⟨h.functions, ?_⟩, ⟨h.ends, ?_⟩, h.sites, h.callees⟩
  · rw [h.functions]
    exact nodup_eraseDups _
  · rw [h.ends]
    exact nodup_eraseDups _

end CallGraph

/-! ## Vertices by number -/

/-- A call graph whose edges join the numbers of vertices. -/
structure NumberedGraph where
  vertices : List FuncId := []
  edges : List (Nat × Nat × List CallSite) := []

namespace NumberedGraph

variable (g : NumberedGraph)

/-- The number of a function, which gets one if it has none. -/
def number (f : FuncId) : Nat × NumberedGraph :=
  if f ∈ g.vertices then (g.vertices.idxOf f, g)
  else (g.vertices.length, { g with vertices := g.vertices ++ [f] })

def joins (i j : Nat) (e : Nat × Nat × List CallSite) : Bool := e.1 == i && e.2.1 == j

def edge? (i j : Nat) : Option (Nat × Nat × List CallSite) := g.edges.find? (joins i j)

def addCall (caller callee : FuncId) (site : CallSite) : NumberedGraph :=
  let (i, g) := g.number caller
  let (j, g) := g.number callee
  match g.edge? i j with
  | some _ =>
    { g with edges := g.edges.map fun e ↦
        if joins i j e ∧ site ∉ e.2.2 then (e.1, e.2.1, e.2.2 ++ [site]) else e }
  | none => { g with edges := g.edges ++ [(i, j, [site])] }

/-- The vertices that edges lead to, the end of the latest edge first. -/
def neighbors (i : Nat) : List Nat := ((g.edges.filter (·.1 == i)).map (·.2.1)).reverse

def callees (f : FuncId) : List FuncId :=
  if f ∈ g.vertices then ((g.neighbors (g.vertices.idxOf f)).filterMap (g.vertices[·]?)).reverse else []

def sites (caller callee : FuncId) : List CallSite :=
  if caller ∈ g.vertices ∧ callee ∈ g.vertices then
    ((g.edge? (g.vertices.idxOf caller) (g.vertices.idxOf callee)).map (·.2.2)).getD []
  else []

def apply : CallGraph.Operation → NumberedGraph
  | .function f => (g.number f).2
  | .call caller callee site => g.addCall caller callee site

end NumberedGraph

namespace CallGraph

variable {cg : CallGraph} {a b f : FuncId} {site : CallSite}

/-- The edges join functions that are listed. -/
def Closed (cg : CallGraph) : Prop := ∀ e ∈ cg.edges, e.caller ∈ cg.functions ∧ e.callee ∈ cg.functions

/-- The edge with numbers in place of functions. -/
def numberEdge (functions : List FuncId) (e : CallEdge) : Nat × Nat × List CallSite :=
  (functions.idxOf e.caller, functions.idxOf e.callee, e.sites)

def numbered (cg : CallGraph) : NumberedGraph := ⟨cg.functions, cg.edges.map (numberEdge cg.functions)⟩

theorem numbered_vertices : cg.numbered.vertices = cg.functions := rfl

theorem mem_addFunction : f ∈ (cg.addFunction a).functions ↔ f ∈ cg.functions ∨ f = a := by
  rw [addFunction_functions]
  split
  · rename_i h
    exact ⟨.inl, fun hf ↦ hf.elim id fun hf ↦ hf ▸ h⟩
  · simp

theorem idxOf_addFunction (hf : f ∈ cg.functions) :
    (cg.addFunction a).functions.idxOf f = cg.functions.idxOf f := by
  rw [addFunction_functions]
  split
  · rfl
  · exact List.idxOf_append_of_mem hf

theorem Closed.addFunction (h : cg.Closed) : (cg.addFunction a).Closed := by
  intro e he
  rw [addFunction_edges] at he
  exact ⟨mem_addFunction.2 (.inl (h e he).1), mem_addFunction.2 (.inl (h e he).2)⟩

/-- A function that is mentioned gets a number, and the other functions keep theirs. -/
theorem Closed.number (h : cg.Closed) :
    cg.numbered.number a = ((cg.addFunction a).functions.idxOf a, (cg.addFunction a).numbered) := by
  have hedges : cg.edges.map (numberEdge cg.functions) = cg.edges.map (numberEdge (cg.addFunction a).functions) := by
    refine List.map_congr_left fun e he ↦ ?_
    rw [numberEdge, numberEdge, idxOf_addFunction (h e he).1, idxOf_addFunction (h e he).2]
  unfold NumberedGraph.number numbered
  rw [addFunction_edges, ← hedges, addFunction_functions]
  split
  · rfl
  · rename_i ha
    rw [List.idxOf_append_of_notMem ha, List.idxOf_cons_self, Nat.add_zero]

theorem joins_numberEdge {e : CallEdge} (he : e.caller ∈ cg.functions ∧ e.callee ∈ cg.functions) :
    NumberedGraph.joins (cg.functions.idxOf a) (cg.functions.idxOf b) (numberEdge cg.functions e) = e.joins a b := by
  rw [Bool.eq_iff_iff, joins_iff, NumberedGraph.joins, Bool.and_eq_true, beq_iff_eq, beq_iff_eq]
  exact and_congr (List.idxOf_inj he.1) (List.idxOf_inj he.2)

theorem Closed.edge?_numbered (h : cg.Closed) :
    cg.numbered.edge? (cg.functions.idxOf a) (cg.functions.idxOf b) =
      (cg.edge? a b).map (numberEdge cg.functions) := by
  have hfilter := List.filter_congr fun e he ↦ joins_numberEdge (a := a) (b := b) (h e he)
  rw [NumberedGraph.edge?, numbered, List.find?_map, edge?, ← List.head?_filter, ← List.head?_filter]
  exact congrArg (fun l ↦ l.head?.map (numberEdge cg.functions)) hfilter

theorem Closed.addCall (h : cg.Closed) : cg.numbered.addCall a b site = (cg.addCall a b site).numbered := by
  have hclosed := (h.addFunction (a := a)).addFunction (a := b)
  have ha : (cg.addFunction a).functions.idxOf a = ((cg.addFunction a).addFunction b).functions.idxOf a :=
    (idxOf_addFunction (mem_addFunction.2 (.inr rfl))).symm
  unfold NumberedGraph.addCall CallGraph.addCall
  rw [h.number]
  dsimp only
  rw [h.addFunction.number, ha]
  dsimp only
  generalize (cg.addFunction a).addFunction b = cg at hclosed
  rw [hclosed.edge?_numbered]
  cases cg.edge? a b with
  | none => simp [numbered, numberEdge]
  | some _ =>
    refine congrArg (NumberedGraph.mk _) ?_
    rw [numbered, List.map_map, List.map_map]
    refine List.map_congr_left fun e he ↦ ?_
    simp only [Function.comp, joins_numberEdge (hclosed e he), CallEdge.addSite]
    by_cases hjoins : e.joins a b <;> by_cases hsite : site ∈ e.sites <;> simp [numberEdge, hjoins, hsite]

/-- The neighbours of a vertex are the callees, the latest first. -/
theorem Closed.neighbors (h : cg.Closed) :
    (cg.numbered.neighbors (cg.functions.idxOf a)).filterMap (cg.functions[·]?) = (cg.callees a).reverse := by
  have hfilter : cg.edges.filter (fun e ↦ (numberEdge cg.functions e).1 == cg.functions.idxOf a) =
      cg.edges.filter (·.caller == a) := by
    refine List.filter_congr fun e he ↦ ?_
    rw [Bool.eq_iff_iff, beq_iff_eq, beq_iff_eq]
    exact List.idxOf_inj (h e he).1
  rw [NumberedGraph.neighbors, List.filterMap_reverse, numbered, List.filter_map, List.map_map, List.filterMap_map]
  refine congrArg List.reverse ((congrArg _ hfilter).trans ?_)
  rw [CallGraph.callees, ← List.filterMap_eq_map]
  exact List.filterMap_congr fun e he ↦ List.getElem?_idxOf (h e (List.mem_of_mem_filter he)).2

theorem Closed.callees (h : cg.Closed) : cg.numbered.callees a = cg.callees a := by
  rw [NumberedGraph.callees, numbered_vertices]
  split
  · rw [h.neighbors, List.reverse_reverse]
  · rename_i ha
    rw [CallGraph.callees, List.filter_eq_nil_iff.2, List.map_nil]
    rintro e he hcaller
    exact ha (beq_iff_eq.1 hcaller ▸ (h e he).1)

theorem Closed.sites (h : cg.Closed) : cg.numbered.sites a b = cg.sites a b := by
  unfold NumberedGraph.sites CallGraph.sites
  rw [numbered_vertices]
  split
  · rw [h.edge?_numbered]
    cases cg.edge? a b <;> rfl
  · rename_i hnone
    cases hedge : cg.edge? a b with
    | none => rfl
    | some e =>
      have hjoins : e.joins a b := List.find?_some (p := fun e : CallEdge ↦ e.joins a b) hedge
      obtain ⟨rfl, rfl⟩ := joins_iff.1 hjoins
      exact absurd (h e (List.mem_of_find?_eq_some hedge)) hnone

theorem closed_replay (ops : List Operation) : (replay ops).Closed := by
  intro e he
  have hends : (e.caller, e.callee) ∈ (replay ops).ends := List.mem_map.2 ⟨e, he, rfl⟩
  rw [(records_replay ops).ends, List.mem_eraseDups, List.mem_flatMap] at hends
  obtain ⟨op, hop, hmem⟩ := hends
  rw [(records_replay ops).functions]
  simp only [List.mem_eraseDups, List.mem_flatMap]
  cases op with
  | function f => simp [Operation.ends] at hmem
  | call caller callee site =>
    obtain ⟨rfl, rfl⟩ := Prod.mk.inj (List.mem_singleton.1 hmem)
    exact ⟨⟨_, hop, by simp [Operation.mentions]⟩, _, hop, by simp [Operation.mentions]⟩

/-- A graph that joins the numbers of functions, looks edges up by number and has the latest neighbour first, records
the same as one that joins the functions themselves and has the latest callee last. -/
theorem numbered_replay (ops : List Operation) :
    ops.foldl NumberedGraph.apply {} = (replay ops).numbered ∧
      (∀ a, (replay ops).numbered.callees a = (replay ops).callees a) ∧
      ∀ a b, (replay ops).numbered.sites a b = (replay ops).sites a b := by
  refine ⟨?_, fun a ↦ (closed_replay ops).callees, fun a b ↦ (closed_replay ops).sites⟩
  induction ops using List.reverseRecOn with
  | nil => rfl
  | append_singleton ops op ih =>
    rw [replay, List.foldl_append, List.foldl_append, ih]
    cases op with
    | function f => exact congrArg Prod.snd (closed_replay ops).number
    | call caller callee site => exact (closed_replay ops).addCall

end CallGraph

end PointsTo
