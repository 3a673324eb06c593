import PointsTo.Proofs.Building
import PointsTo.Proofs.Linking

/-!
# Linking a function to a call

When the solver finds a function that a call through a pointer may go to, a call of the function is
made and put between the call and its return.  The first such call takes the place of the edge from
the call to its return.  A declaration is not put there: its unknown result becomes an operand of the
return, and control goes as before.  Nothing else in the graph changes, so all calls stay joined.
-/

namespace PointsTo

namespace Graph

variable {g : Graph} {c ret m q x : NodeId} {n : Node}

/-- Control goes from the call to one more callee; no longer straight to the return. -/
def branch (g : Graph) (c ret m : NodeId) : Graph :=
  if g.successors c = [ret] then g.redirect c m else g.addSuccessor c m

/-- Puts a call of a function and its return site between a call through a pointer and its return. -/
def attach (g : Graph) (c ret m q : NodeId) : Graph :=
  ((g.addOperand ret q).branch c ret m).addSuccessor q ret

theorem Rewired.branch : g.Rewired (g.branch c ret m) := by
  unfold Graph.branch
  split
  · exact .redirect
  · exact .addSuccessor

theorem rewired_attach : (g.addOperand ret q).Rewired (g.attach c ret m q) := Rewired.branch.trans .addSuccessor

theorem Persists.attach : g.Persists (g.attach c ret m q) := addOperand.trans rewired_attach.persists

theorem size_attach : (g.attach c ret m q).size = g.size := rewired_attach.size_eq.trans size_addOperand

/-- The return site is the last operand of the return. -/
theorem nodes_attach (hn : (g.attach c ret m q).nodes[x]? = some n) :
    ∃ n₀, g.nodes[x]? = some n₀ ∧ n.operands = n₀.operands ++ if x = ret then [q] else [] := by
  have hlt : x < (g.addOperand ret q).size := rewired_attach.size_eq ▸ lt_size_of_node hn
  obtain ⟨n₁, hn₁⟩ := exists_node hlt
  have hrewired : (g.addOperand ret q).Rewired (g.attach c ret m q) := rewired_attach
  obtain ⟨n₂, hn₂, hcore⟩ := hrewired.node hn₁
  obtain ⟨n₀, hn₀, -, hops⟩ := nodes_addOperand hn₁
  refine ⟨n₀, hn₀, ?_⟩
  rw [← hops, Option.mem_unique hn hn₂]
  exact congrArg (·.operands) hcore

theorem TwoWay.attach (hg : g.TwoWay) (hc : c < g.size) (hret : ret < g.size) (hm : m < g.size) (hq : q < g.size) :
    (g.attach c ret m q).TwoWay := by
  have hg' : (g.addOperand ret q).TwoWay := hg.of_sameEdges .addOperand
  have hbranch : ((g.addOperand ret q).branch c ret m).TwoWay := by
    unfold branch
    split
    · exact hg'.redirect (by simpa using hc) (by simpa using hm)
    · exact hg'.addSuccessor (by simpa using hc) (by simpa using hm)
  have hsize : ((g.addOperand ret q).branch c ret m).size = g.size := Rewired.branch.size_eq.trans size_addOperand
  exact hbranch.addSuccessor (hsize ▸ hq) (hsize ▸ hret)

theorem successors_attach_of_ne (hc : x ≠ c) (hq : x ≠ q) : (g.attach c ret m q).successors x = g.successors x := by
  rw [attach, successors_addSuccessor_of_ne hq, branch]
  have hedges : g.SameEdges (g.addOperand ret q) := .addOperand
  split
  · rw [successors_redirect_of_ne hc, hedges.successors]
  · rw [successors_addSuccessor_of_ne hc, hedges.successors]

/-- The return site leads to the return. -/
theorem successors_attach_site (hqc : q ≠ c) (hq : q < g.size) (hempty : g.successors q = []) :
    (g.attach c ret m q).successors q = [ret] := by
  have hedges : g.SameEdges (g.addOperand ret q) := .addOperand
  have hbranch : ((g.addOperand ret q).branch c ret m).successors q = [] := by
    rw [branch]
    split
    · rw [successors_redirect_of_ne hqc, hedges.successors, hempty]
    · rw [successors_addSuccessor_of_ne hqc, hedges.successors, hempty]
  rw [attach, successors_addSuccessor_self, hbranch, List.nil_append]
  · rw [Rewired.branch.size_eq, size_addOperand]
    exact hq
  · simp [hbranch]

/-- The call leads to one more callee. -/
theorem successors_attach_call (hqc : c ≠ q) (hc : c < g.size) (hm : m ∉ g.successors c) :
    (g.attach c ret m q).successors c = if g.successors c = [ret] then [m] else g.successors c ++ [m] := by
  have hedges : g.SameEdges (g.addOperand ret q) := .addOperand
  have hlt : c < (g.addOperand ret q).size := by simpa using hc
  rw [attach, successors_addSuccessor_of_ne hqc, branch, hedges.successors]
  split
  · exact successors_redirect_self hlt
  · rw [successors_addSuccessor_self hlt (hedges.successors c ▸ hm), hedges.successors]

end Graph

namespace Lowering

/-- What linking a target changes of the graph: where the call leads to, what leads to its return and
what the operands of the return are. -/
structure Amends (prog : Program) (s : Lowering) (c ret : NodeId) (t : Lowering) : Prop where
  state : t = { s with graph := t.graph }
  graph : s.graph.Persists t.graph
  size : t.graph.size = s.graph.size
  twoWay : t.graph.TwoWay
  call : ∀ {y}, y ∈ s.graph.successors c → s.Accepts y → y ∈ t.graph.successors c
  leads : ∀ {y}, y ∈ t.graph.successors c → y ∈ s.graph.successors c ∨ s.At (fun _ n ↦ n.kind = .call) y
  others : ∀ {x}, x ≠ c → t.graph.successors x = s.graph.successors x ∨
    (s.graph.successors x = [] ∧ t.graph.successors x = [ret] ∧ s.At (Node.Held prog) x)
  operands : ∀ {a : NodeId} {n m : Node}, a ≠ ret → s.graph.nodes[a]? = some n → t.graph.nodes[a]? = some m →
    m.operands = n.operands

variable {prog : Program} {s t : Lowering} {c ret m q : NodeId} {call call' : ValueId}

namespace Amends

variable (h : s.Amends prog c ret t)

include h

theorem records : t.records = s.records := by rw [h.state]

theorem nodes : t.nodes = s.nodes := by rw [h.state]

theorem keeps : s.Keeps prog t := by
  have hkeeps : s.Keeps prog { s with graph := t.graph } :=
    { Keeps.refl prog s with
      graph := h.graph
      firm := fun {x y} _ _ hy hxy ↦ by
        by_cases hx : x = c
        · subst hx
          exact h.call hxy hy
        · rcases h.others hx with hsame | ⟨hempty, -⟩
          · exact hsame ▸ hxy
          · simp [hempty] at hxy }
  exact h.state ▸ hkeeps

variable (hs : s.Valid prog) (hcall : s.IsIndirect c ret call)

include hs hcall

theorem valid : t.Valid prog := by
  have hkeeps : s.Keeps prog { s with graph := t.graph } := h.state ▸ h.keeps
  have hvalid : ({ s with graph := t.graph } : Lowering).Valid prog := by
    refine hs.adds
      { keeps := hkeeps
        twoWay := h.twoWay
        returning := fun {x y} hy hxy ↦ ?_
        node := fun ha hn ↦ absurd (Graph.lt_size_of_node hn) (Nat.not_lt.2 (h.size ▸ ha)) }
    have hold : s.At (fun _ n ↦ n.Returning) y := hy.returning_of_lt h.graph (h.size ▸ hy.lt_size)
    by_cases hx : x = c
    · subst hx
      exact .inr (hkeeps.isHeld (hcall.imp fun _ hn ↦ .inl hn.1))
    · rcases h.others hx with hsame | ⟨-, -, hheld⟩
      · exact .inl ⟨hold, hsame ▸ hxy⟩
      · exact .inr (hkeeps.isHeld hheld)
  exact h.state ▸ hvalid

/-- Returns of functions are left alone. -/
theorem grows : s.Grows prog (s.At fun _ n ↦ n.kind = .ret ∧ n.paired = none) t :=
  { h.keeps with
    persists := fun hr hr' _ ↦ by
      rw [h.records] at hr'
      exact Option.mem_unique hr hr' ▸ .refl _ _
    held := fun {x} hx hheld _ ↦ by
      obtain ⟨n, hn, hk, -⟩ := hx
      obtain ⟨l, hl, hheld⟩ := hheld
      rw [Option.mem_unique hl hn] at hheld
      rcases hheld with hk' | ⟨hk', -⟩ | ⟨hk', -⟩
      all_goals
        rw [hk] at hk'
        contradiction
    operands := fun {a n m} ha hn _ hm ↦ by
      refine h.operands ?_ hn hm
      rintro rfl
      obtain ⟨l, hl, -, hp⟩ := ha
      obtain ⟨l', hl', -, hp'⟩ := hcall.returning hs
      rw [Option.mem_unique hl hl', hp'] at hp
      contradiction
    arrivals := fun {x y} hy hret _ ↦ by
      obtain ⟨n, hn, -, hp⟩ := hy
      obtain ⟨l, hl, -, hp'⟩ := hret
      exact absurd (Option.mem_unique hl hn ▸ hp) hp' }

theorem joins {f : FuncId} {r : FunctionRecord} (hpair : s.IsPair m q call') (hjoins : s.Joins prog m q call' f r) :
    t.Joins prog m q call' f r := by
  have hr : t.records.get? f = some r := h.records ▸ hjoins.record
  refine hjoins.mono hpair hs h.keeps hr (.refl _ r) ?_ (fun n n' hn hn' ↦ h.operands ?_ hn hn') fun hscoped ↦ ?_
  · have hm : m ≠ c := fun heq ↦ hpair.ne_other hs (hcall.imp fun _ hn ↦ .inr hn.1) (.inl heq.symm)
    rcases h.others hm with hsame | ⟨hempty, -⟩
    · exact hsame
    · simp [hjoins.entry] at hempty
  · rintro rfl
    exact hpair.ne_other hs ((hcall.returning hs).imp fun _ hn ↦ .inl hn.1) (.inr rfl)
  · exact (hjoins.bound hscoped).mono h.keeps hscoped hs (by simp [hjoins.record]) (h.valid hs hcall)

end Amends

/-- Linking leaves every call joined and every function complete. -/
theorem Intact.amends (hs : s.Intact prog) (h : s.Amends prog c ret t) (hcall : s.IsIndirect c ret call) :
    t.Intact prog where
  valid := h.valid hs.valid hcall
  joined {m q call'} hpair := by
    have hpair' := hpair.of_persists hs.valid h.graph (h.size ▸ hpair.2.lt_size)
    obtain ⟨f, r, hjoins⟩ := hs.joined hpair'
    exact ⟨f, r, h.joins hs.valid hcall hpair' hjoins⟩
  finished {f r} hr := by
    rw [h.records] at hr
    exact (hs.finished hr).mono (h.grows hs.valid hcall) (h.valid hs.valid hcall) (fun _ ha ↦ ha) rfl

theorem Amends.refl (hs : s.Valid prog) : s.Amends prog c ret s where
  state := rfl
  graph := .refl _
  size := rfl
  twoWay := hs.twoWay
  call hy _ := hy
  leads hy := .inl hy
  others _ := .inl rfl
  operands _ hn hm := by rw [Option.mem_unique hm hn]

/-- An operand is added to the return. -/
theorem Amends.addOperand (hs : s.Valid prog) {op : NodeId} :
    s.Amends prog c ret { s with graph := s.graph.addOperand ret op } where
  state := rfl
  graph := .addOperand
  size := Graph.size_addOperand
  twoWay := hs.twoWay.of_sameEdges .addOperand
  call hy _ := by
    have hedges : s.graph.SameEdges (s.graph.addOperand ret op) := .addOperand
    exact hedges.successors c ▸ hy
  leads hy := by
    have hedges : s.graph.SameEdges (s.graph.addOperand ret op) := .addOperand
    exact .inl (hedges.successors c ▸ hy)
  others {x} _ := by
    have hedges : s.graph.SameEdges (s.graph.addOperand ret op) := .addOperand
    exact .inl (hedges.successors x)
  operands ha hn hm := by
    obtain ⟨l, hl, -, hops⟩ := Graph.nodes_addOperand hm
    rw [hops, if_neg ha, List.append_nil, Option.mem_unique hl hn]

theorem Amends.attach (hs : s.Valid prog) (hcall : s.IsIndirect c ret call) (hdirect : ¬prog.Direct call)
    (hpair : s.IsPair m q call) (hm : m ∉ s.graph.successors c) (hvacant : s.graph.successors q = []) :
    s.Amends prog c ret { s with graph := s.graph.attach c ret m q } where
  state := rfl
  graph := .attach
  size := Graph.size_attach
  twoWay := hs.twoWay.attach hcall.lt_size (hcall.returning hs).lt_size hpair.2.lt_size (hpair.site hs).lt_size
  call {y} hy haccepts := by
    have hc : c ≠ q := fun heq ↦ hpair.ne_other hs (hcall.imp fun _ hn ↦ .inr hn.1) (.inr heq)
    change y ∈ (s.graph.attach c ret m q).successors c
    rw [Graph.successors_attach_call hc hcall.lt_size hm]
    split
    · rename_i hret
      rw [hret, List.mem_singleton] at hy
      exact absurd hy (haccepts.ne ((hcall.returning hs).imp fun _ hn ↦ ⟨hn.1, by simp [hn.2]⟩)).symm
    · exact List.mem_append_left _ hy
  leads {y} hy := by
    have hc : c ≠ q := fun heq ↦ hpair.ne_other hs (hcall.imp fun _ hn ↦ .inr hn.1) (.inr heq)
    have hcallee : s.At (fun _ n ↦ n.kind = .call) m := hpair.2.imp fun _ hn ↦ hn.1
    change y ∈ (s.graph.attach c ret m q).successors c at hy
    rw [Graph.successors_attach_call hc hcall.lt_size hm] at hy
    split at hy
    · exact .inr (List.mem_singleton.1 hy ▸ hcallee)
    · rcases List.mem_append.1 hy with hy | hy
      · exact .inl hy
      · exact .inr (List.mem_singleton.1 hy ▸ hcallee)
  others {x} hx := by
    by_cases hq : x = q
    · subst hq
      refine .inr ⟨hvacant, Graph.successors_attach_site hx (hpair.site hs).lt_size hvacant, ?_⟩
      exact (hpair.site hs).imp fun n hn ↦ .inr (.inr ⟨hn.1, call, hn.2.2, hdirect⟩)
    · exact .inl (Graph.successors_attach_of_ne hx hq)
  operands ha hn hm := by
    obtain ⟨l, hl, hops⟩ := Graph.nodes_attach hm
    rw [hops, if_neg ha, List.append_nil, Option.mem_unique hl hn]

/-! ## What linking does -/

end Lowering

/-- The function can be called with as many arguments as the call has. -/
def Function.Admits (fn : Function) (inst : Instruction) : Prop :=
  fn.variadic = true ∨ inst.arguments.length = fn.params.length

instance (fn : Function) (inst : Instruction) : Decidable (fn.Admits inst) := inferInstanceAs (Decidable (_ ∨ _))

namespace Lowering

/-- The node stands for the function. -/
def Denotes (prog : Program) (s : Lowering) (target : NodeId) (f : FuncId) : Prop :=
  ∃ v, prog.kindAt v = some (.function f) ∧ s.nodes.get? v = some target

/-- The function is listed as called from the call. -/
def enlisted (s : Lowering) (h f : FuncId) (c : NodeId) : Lowering :=
  { s with callGraph := s.callGraph.addCall h f ⟨.indirect, c⟩ }

/-- What linking a function to a call does to the state. -/
inductive Attaches (prog : Program) (s : Lowering) (c ret : NodeId) (call : ValueId) (inst : Instruction) (f : FuncId)
    (fn : Function) : Bool → Lowering → Prop
  | refused {t : Lowering} (hnot : ¬fn.Admits inst) (ht : s.Remarks t) : Attaches prog s c ret call inst f fn false t
  | declared (hadmits : fn.Admits inst) (hdecl : fn.isDeclaration = true) :
      Attaches prog s c ret call inst f fn true
        { s.enlisted inst.function f c with graph := s.graph.addOperand ret unknownTarget }
  | defined {span : Span} {t u : Lowering} (hadmits : fn.Admits inst) (hdef : fn.isDeclaration = false)
      (ht : (s.enlisted inst.function f c).Makes prog call f span t)
      (hu : ({ t with graph := t.graph.attach c ret span.first span.last } : Lowering).Remarks u) :
      Attaches prog s c ret call inst f fn true u

end Lowering

theorem Node.singleSuccessor?_eq_some_iff {n : Node} {id : NodeId} :
    n.singleSuccessor? = some id ↔ n.successors = [id] := by
  unfold singleSuccessor?
  split
  · rename_i h
    simp [h]
  · rename_i hnot
    simp only [reduceCtorEq, false_iff]
    exact hnot id

namespace Lower

open Stateful

variable {prog : Program} {s : Lowering} {c ret target : NodeId} {call : ValueId} {inst : Instruction} {f : FuncId}
  {fn : Function}

theorem functionOf?_ensures (hs : s.Valid prog) (hf : s.Denotes prog target f) :
    Ensures (functionOf? prog target) s fun f? t ↦ f? = some f ∧ s = t := by
  obtain ⟨v, hv, htarget⟩ := hf
  obtain ⟨k, hk, n, hn, hfits⟩ := hs.named htarget
  obtain rfl := Option.mem_unique hv hk
  refine .seq fun n' _ h ↦ ?_
  obtain ⟨hn', rfl⟩ := node_eq_ok_iff.1 h
  obtain rfl := Option.mem_unique hn hn'
  have hvalue : n.value = some v := hfits.2
  simp only [hvalue]
  refine .bind_lift fun x hx ↦ ?_
  have hkind : x.kind = .function f := by
    obtain ⟨x', hx', hkind⟩ := Program.value_of_kindAt hv
    rw [Except.ok.inj (hx.symm.trans hx'), hkind]
  simp only [hkind]
  exact .pure ⟨rfl, rfl⟩

/-- A function is linked to a call if the call can be made. -/
theorem linkCall_ensures (hprog : prog.Coherent) (hs : s.Valid prog) (hcall : s.IsIndirect c ret call)
    (hinst : prog.kindAt call = some (.instruction inst)) (hf : s.Denotes prog target f)
    (hfn : prog.functions[f]? = some fn) :
    Ensures (linkCall prog c target) s fun linked t ↦ s.Attaches prog c ret call inst f fn linked t := by
  obtain ⟨n, hn, hk, hp, hv⟩ := hcall
  obtain ⟨call', ret', hv', -, hindirect, hhoused, -⟩ := (hs.node hn).indirect hk
  obtain rfl := Option.mem_unique hv hv'
  refine (functionOf?_ensures hs hf).bind fun f? _ ⟨hf?, hst⟩ ↦ ?_
  subst hf? hst
  refine .seq fun n' _ h ↦ ?_
  obtain ⟨hn', rfl⟩ := node_eq_ok_iff.1 h
  obtain rfl := Option.mem_unique hn hn'
  simp only [hv, hp]
  refine .bind_lift fun inst? hinst? ↦ ?_
  rw [Except.ok.inj (hinst?.symm.trans (Program.instruction?_eq_ok_iff.2 hinst))]
  refine .bind_lift fun fn' hfn' ↦ ?_
  obtain rfl := Option.mem_unique hfn (Query.lookup_eq_ok_iff.1 hfn')
  have hadmits : (!fn.variadic && inst.arguments.length != fn.params.length) = true ↔ ¬fn.Admits inst := by
    simp [Function.Admits]
  split
  · rename_i hnot
    exact .seq fun _ t ht ↦ .pure (.refused (hadmits.1 hnot) (note_eq_ok ht))
  rename_i hyes
  have hyes : fn.Admits inst := not_not.1 (mt hadmits.2 hyes)
  refine .seq fun _ _ h ↦ ?_
  obtain rfl := modify_eq_ok_iff.1 h
  split
  · rename_i hdecl
    refine .seq fun _ _ h ↦ .pure ?_
    obtain rfl := onGraph_eq_ok_iff.1 h
    exact .declared hyes hdecl
  rename_i hdef
  have hstep : s.Step prog (s.enlisted inst.function f c) := .enlist inst.function f ⟨.indirect, c⟩
  have hhome (hscoped : prog.Scoped) : (s.enlisted inst.function f c).records.get? inst.function ≠ none :=
    hhoused hscoped inst.function (Program.home?_of_kindAt hinst)
  refine (callFunction_ensures hprog (provider_sound hprog _) (hs.adds (hstep.adds hs)) hinst hhome
    ⟨hindirect.1, .inr hindirect.2⟩ hfn (Bool.eq_false_iff.2 hdef)).bind fun span t ht ↦ ?_
  refine .seq fun _ _ h ↦ .seq fun n₁ _ h' ↦ ?_
  obtain rfl := onGraph_eq_ok_iff.1 h
  obtain ⟨hn₁, rfl⟩ := node_eq_ok_iff.1 h'
  have hsingle : n₁.singleSuccessor? = some ret ↔ (t.graph.addOperand ret span.last).successors c = [ret] := by
    rw [Node.singleSuccessor?_eq_some_iff, Graph.successors_of_node hn₁]
  -- Whether or not this is the first link, the graph is the one with the new call attached.
  split
  · rename_i hfirst
    refine .seq fun _ _ h ↦ .seq fun _ _ h' ↦ .seq fun _ u hu ↦ .pure ?_
    obtain rfl := onGraph_eq_ok_iff.1 h
    obtain rfl := onGraph_eq_ok_iff.1 h'
    refine .defined hyes (Bool.eq_false_iff.2 hdef) ht ?_
    rw [Graph.attach, Graph.branch, if_pos (hsingle.1 hfirst)]
    exact note_eq_ok hu
  · rename_i hfirst
    refine .seq fun _ _ h ↦ .seq fun _ _ h' ↦ .seq fun _ u hu ↦ .pure ?_
    obtain rfl := onGraph_eq_ok_iff.1 h
    obtain rfl := onGraph_eq_ok_iff.1 h'
    refine .defined hyes (Bool.eq_false_iff.2 hdef) ht ?_
    rw [Graph.attach, Graph.branch, if_neg (mt hsingle.2 hfirst)]
    exact note_eq_ok hu

end Lower

end PointsTo
