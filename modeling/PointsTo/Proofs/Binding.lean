import PointsTo.Lowering.Deferred
import PointsTo.Proofs.Primitives
import PointsTo.Proofs.Validity

/-!
# Binding of arguments

A call of a defined function passes its arguments on: each is an operand of the phi of the formal that
receives it, and those beyond the parameters are operands of one phi for all of them.  Here the node
of an argument is what a request for it answers once the argument is lowered.
-/

namespace PointsTo

open Stateful

/-- Arguments of a call are among its operands. -/
theorem Instruction.mem_operands_of_argument {inst : Instruction} {v : ValueId} (hv : v ∈ inst.arguments) :
    v ∈ inst.operands := by
  unfold arguments at hv
  split at hv
  · exact List.mem_of_mem_tail hv
  · simp at hv

namespace Program

variable (prog : Program)

/-- The instruction may call the function: it names the function, or it names none. -/
def Calls (call : ValueId) (f : FuncId) : Prop :=
  (∃ inst, prog.kindAt call = some (.instruction inst)) ∧
    (prog.calledFunction? call = .ok (some f) ∨ prog.calledFunction? call = .ok none)

/-- The constants that have no nodes of their own. -/
def sentinel? (v : ValueId) : Option NodeId :=
  match prog.kindAt v with
  | some (.constant .null) | some (.constant .zero) => some nullTarget
  | some (.constant (.int n)) => some (if n = 0 then nullTarget else unknownTarget)
  | some (.constant .undef) | some .asm => some unknownTarget
  | _ => none

theorem sentinel?_cases {prog : Program} {v : ValueId} {id : NodeId} (h : prog.sentinel? v = some id) :
    id = nullTarget ∨ id = unknownTarget := by
  unfold sentinel? at h
  split at h <;> grind

/-- The value is passed in a call of a defined function where the function receives a pointer. -/
inductive Passes (call : ValueId) (f : FuncId) (v : ValueId) : Prop
  | formal {inst : Instruction} {fn : Function} {j : Nat} {param : ValueId}
      (hinst : prog.kindAt call = some (.instruction inst)) (hfn : prog.functions[f]? = some fn)
      (hdef : fn.isDeclaration = false) (hparam : fn.params[j]? = some param) (harg : inst.arguments[j]? = some v)
      (hpointer : prog.isPointer param = .ok true) : Passes call f v
  | rest {inst : Instruction} {fn : Function} {j : Nat}
      (hinst : prog.kindAt call = some (.instruction inst)) (hfn : prog.functions[f]? = some fn)
      (hdef : fn.isDeclaration = false) (hvariadic : fn.variadic = true) (hj : fn.params.length ≤ j)
      (harg : inst.arguments[j]? = some v) (hpointer : prog.isPointer v = .ok true) : Passes call f v

variable {prog} {call v : ValueId} {f : FuncId}

theorem Passes.mem_operands (h : prog.Passes call f v) : ∃ k, prog.kindAt call = some k ∧ v ∈ k.operands := by
  cases h with
  | formal hinst _ _ _ harg _ => exact ⟨_, hinst, Instruction.mem_operands_of_argument (List.mem_of_getElem? harg)⟩
  | rest hinst _ _ _ _ harg _ => exact ⟨_, hinst, Instruction.mem_operands_of_argument (List.mem_of_getElem? harg)⟩

end Program

namespace Lowering

variable (prog : Program) (s : Lowering)

/-- The node that stands for the result of a lowered value: the return site of a call, and the node
itself for other values. -/
def Site (id op : NodeId) : Prop :=
  ∃ n, s.graph.nodes[id]? = some n ∧ (if n.kind.isCall then n.paired.getD id else id) = op

/-- The node that a request for a lowered value answers. -/
def Resolves (v : ValueId) (op : NodeId) : Prop :=
  (∃ id, s.nodes.get? v = some id ∧ s.Site id op) ∨ (s.nodes.get? v = none ∧ prog.sentinel? v = some op)

/-- The phi that receives what a call passes. -/
inductive Receives (call : ValueId) (f : FuncId) (v : ValueId) : NodeId → Prop
  | formal {inst : Instruction} {fn : Function} {j : Nat} {param : ValueId} {phi : NodeId}
      (hinst : prog.kindAt call = some (.instruction inst)) (hfn : prog.functions[f]? = some fn)
      (hdef : fn.isDeclaration = false) (hparam : fn.params[j]? = some param) (harg : inst.arguments[j]? = some v)
      (hpointer : prog.isPointer param = .ok true) (hphi : s.nodes.get? param = some phi) : Receives call f v phi
  | rest {inst : Instruction} {fn : Function} {j : Nat} {r : FunctionRecord} {phi : NodeId}
      (hinst : prog.kindAt call = some (.instruction inst)) (hfn : prog.functions[f]? = some fn)
      (hdef : fn.isDeclaration = false) (hvariadic : fn.variadic = true) (hj : fn.params.length ≤ j)
      (harg : inst.arguments[j]? = some v) (hpointer : prog.isPointer v = .ok true)
      (hr : s.records.get? f = some r) (hphi : r.variadic = some phi) : Receives call f v phi

/-- The value is an operand of the phi. -/
def Gets (v : ValueId) (phi : NodeId) : Prop := s.At (fun _ n ↦ ∃ op ∈ n.operands, s.Resolves prog v op) phi

/-- Whatever the call passes is an operand of the phi that receives it. -/
def Bound (call : ValueId) (f : FuncId) : Prop := ∀ v phi, s.Receives prog call f v phi → s.Gets prog v phi

variable {prog s} {t : Lowering} {call v w : ValueId} {f : FuncId} {id op phi : NodeId}

theorem Receives.passes (h : s.Receives prog call f v phi) : prog.Passes call f v := by
  cases h with
  | formal hinst hfn hdef hparam harg hpointer _ => exact .formal hinst hfn hdef hparam harg hpointer
  | rest hinst hfn hdef hvariadic hj harg hpointer _ _ => exact .rest hinst hfn hdef hvariadic hj harg hpointer

/-- What is passed to a recorded function is received. -/
theorem Valid.receives (hs : s.Valid prog) (hf : s.records.get? f ≠ none) (h : prog.Passes call f v) :
    ∃ phi, s.Receives prog call f v phi := by
  obtain ⟨r, hr⟩ := Option.ne_none_iff_exists'.1 hf
  cases h with
  | formal hinst hfn hdef hparam harg hpointer =>
    obtain ⟨phi, hphi⟩ := Option.ne_none_iff_exists'.1
      ((hs.record hr).formal hfn (List.mem_of_getElem? hparam) hpointer)
    exact ⟨phi, .formal hinst hfn hdef hparam harg hpointer hphi⟩
  | rest hinst hfn hdef hvariadic hj harg hpointer =>
    obtain ⟨phi, hphi⟩ := Option.ne_none_iff_exists'.1 ((hs.record hr).rest hfn hvariadic)
    exact ⟨phi, .rest hinst hfn hdef hvariadic hj harg hpointer hr hphi⟩

/-! ## What lowering keeps bound -/

theorem Site.mono (hg : s.graph.Persists t.graph) (h : s.Site id op) : t.Site id op := by
  obtain ⟨n, hn, hop⟩ := h
  obtain ⟨m, hm, hnm⟩ := hg.node hn
  refine ⟨m, hm, ?_⟩
  rw [hnm.kind, hnm.paired]
  exact hop

/-- Constants without nodes are never given one. -/
theorem Valid.unnamed_of_sentinel (hs : s.Valid prog) (h : prog.sentinel? v = some op) : s.nodes.get? v = none := by
  cases hv : s.nodes.get? v with
  | none => rfl
  | some id =>
    obtain ⟨k, hk, n, -, hfits⟩ := hs.named hv
    unfold Program.sentinel? at h
    unfold ValueKind.Fits at hfits
    rw [hk] at h
    split at hfits <;> simp_all

/-- Instructions are no constants. -/
theorem Resolves.named {inst : Instruction} (h : s.Resolves prog v op) (hv : prog.kindAt v = some (.instruction inst)) :
    s.nodes.get? v ≠ none := by
  rcases h with ⟨id, hid, -⟩ | ⟨-, hsentinel⟩
  · simp [hid]
  · simp [Program.sentinel?, hv] at hsentinel

theorem Resolves.mono (h : s.Resolves prog v op) (hg : s.graph.Persists t.graph)
    (hv : ∀ id, s.nodes.get? v = some id → t.nodes.get? v = some id) (ht : t.Valid prog) :
    t.Resolves prog v op := by
  rcases h with ⟨id, hid, hsite⟩ | ⟨-, hsentinel⟩
  · exact .inl ⟨id, hv id hid, hsite.mono hg⟩
  · exact .inr ⟨ht.unnamed_of_sentinel hsentinel, hsentinel⟩

theorem Keeps.receives (h : s.Keeps prog t) (hscoped : prog.Scoped) (hs : s.Valid prog)
    (hf : s.records.get? f ≠ none) (hphi : t.Receives prog call f v phi) : s.Receives prog call f v phi := by
  obtain ⟨r, hr⟩ := Option.ne_none_iff_exists'.1 hf
  cases hphi with
  | formal hinst hfn hdef hparam harg hpointer hphi =>
    obtain ⟨phi', hphi'⟩ := Option.ne_none_iff_exists'.1
      ((hs.record hr).formal hfn (List.mem_of_getElem? hparam) hpointer)
    have hsame := h.named_lasting (.inl hscoped) hphi'
    obtain rfl := Option.mem_unique hphi hsame
    exact .formal hinst hfn hdef hparam harg hpointer hphi'
  | rest hinst hfn hdef hvariadic hj harg hpointer hr' hphi =>
    obtain ⟨r'', hr'', hpers⟩ := h.record hr
    obtain rfl := Option.mem_unique hr' hr''
    exact .rest hinst hfn hdef hvariadic hj harg hpointer hr (hpers.variadic ▸ hphi)

theorem Gets.mono (hv : s.Gets prog v phi) (h : s.Keeps prog t) (hscoped : prog.Scoped) (ht : t.Valid prog) :
    t.Gets prog v phi := by
  apply At.mono h.graph hv
  rintro n m hnm ⟨op, hop, hresolves⟩
  refine ⟨op, hnm.operands.subset hop, hresolves.mono h.graph (fun id hid ↦ ?_) ht⟩
  exact h.named_lasting (.inl hscoped) hid

theorem Bound.mono (hb : s.Bound prog call f) (h : s.Keeps prog t) (hscoped : prog.Scoped) (hs : s.Valid prog)
    (hf : s.records.get? f ≠ none) (ht : t.Valid prog) : t.Bound prog call f :=
  fun v phi hphi ↦ (hb v phi (h.receives hscoped hs hf hphi)).mono h hscoped ht

theorem Resolves.availableOperand?_eq (hs : s.Valid prog) (ask : Provider) (h : s.Resolves prog v op) :
    Lower.availableOperand? prog ask v s = .ok (some op) s := by
  unfold Lower.availableOperand?
  rcases h with ⟨id, hid, n, hn, hop⟩ | ⟨hnone, hsentinel⟩
  · refine bind_eq_ok_iff.2 ⟨some id, s, Lower.nodeOf?_eq_ok_iff.2 ⟨hid, rfl⟩, ?_⟩
    exact bind_eq_ok_iff.2 ⟨op, s, Lower.returnSite_eq_ok_iff.2 ⟨n, hn, hop, rfl⟩, rfl⟩
  · refine bind_eq_ok_iff.2 ⟨none, s, Lower.nodeOf?_eq_ok_iff.2 ⟨hnone, rfl⟩, ?_⟩
    -- The sentinels are nodes that are no calls.
    have hsite : Lower.returnSite op s = .ok op s := by
      apply Lower.returnSite_eq_ok_iff.2
      rcases Program.sentinel?_cases hsentinel with rfl | rfl
      · obtain ⟨n, hn, hk⟩ := hs.null
        exact ⟨n, hn, by simp [hk, NodeKind.isCall], rfl⟩
      · obtain ⟨n, hn, hk⟩ := hs.unknown
        exact ⟨n, hn, by simp [hk, NodeKind.isCall], rfl⟩
    refine bind_eq_ok_iff.2 ⟨some op, s, ?_, bind_eq_ok_iff.2 ⟨op, s, hsite, rfl⟩⟩
    unfold Program.sentinel? at hsentinel
    unfold Lower.constantNode?
    split at hsentinel
    all_goals
      simp at hsentinel
      try
        rename_i hk
        obtain ⟨x, hx, hkind⟩ := Program.value_of_kindAt hk
        refine bind_eq_ok_iff.2 ⟨x, s, lift_eq_ok_iff.2 ⟨hx, rfl⟩, ?_⟩
        simp only [hkind, pure_eq_ok_iff, hsentinel, true_and]

/-- A request for a value that is lowered answers with its node and changes nothing. -/
theorem Resolves.operand_eq (hs : s.Valid prog) (ask : Provider) (h : s.Resolves prog v op) :
    Lower.operand prog ask v s = .ok op s := by
  unfold Lower.operand
  exact bind_eq_ok_iff.2 ⟨some op, s, h.availableOperand?_eq hs ask, rfl⟩

end Lowering

end PointsTo
