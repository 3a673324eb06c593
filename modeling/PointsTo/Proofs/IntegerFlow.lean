import PointsTo.Proofs.Building

/-!
# Addresses carried as integers

Integers get nodes only on request, so whether an integer crosses a call depends on when it is asked
for.  A return takes an integer that has its node before the return has, and no other.  An argument is
bound to a formal that is no pointer when the uses of the argument are followed to the call, provided
that the call has no node yet; what is bound then stays bound.
-/

namespace PointsTo

namespace Lower

open Command Stateful

variable {prog : Program}

/-- When integers cross calls: a return of a built program has an integer for an operand just if the
integer is the older node, and a use that is followed to a call binds the argument for good. -/
theorem integers_cross_calls (hprog : prog.Coherent) (hscoped : prog.Scoped) :
    (∀ {entry journal root t f v inst w}, build prog entry { journal } = .ok root t → t.records.get? f ≠ none →
      prog.Visits f v inst → inst.opcode = .ret → inst.operand? 0 = some w → prog.isPointer w = .ok false →
      t.Returns v w) ∧
    ∀ {depth s t call v f param}, s.Valid prog → s.nodes.get? call = none → s.Housed prog call →
      lowerUse prog (provider prog depth) v call s = .ok ⟨⟩ t → prog.Hands call v f param →
      ∀ u, t.Keeps prog u → u.Valid prog → ∃ phi, u.nodes.get? param = some phi ∧ u.Gets prog v phi := by
  constructor
  · intro entry journal root t f v inst w hbuild hf hv hret hw hpointer
    obtain ⟨r, hr⟩ := Option.ne_none_iff_exists'.1 hf
    exact ((intact_of_build hprog hbuild).finished hr).returns hscoped hv hret hw hpointer
  · intro depth s t call v f param hs hnew hhoused huse hhands u htu hu
    have hdelivers := (lowerUse_ensures hprog (provider_sound hprog depth) hs ⟨⟩ t huse).2 hnew hhoused
    exact hdelivers.mono htu hu hscoped f param hhands

/-- A function that returns the address that it is given as an integer, and a call that passes on an
integer which nobody has asked for. -/
def carrier : Program := .assembled
  [function "main" .void [.int 64] false, function "address" (.int 64) [.ptr] false,
    function "sink" .void [.int 64] false, block 0, block 1, block 2,
    alloca 0 0 (.int 64), call 0 0 2 [6] (.int 64), call 0 0 4 [1] .void, ret 0 0 none,
    cast 1 0 .ptrToInt 3 (.int 64), ret 1 0 (some 10), ret 2 0 none]

theorem integers_cross_calls_carrier : ∃ root s t, build carrier "main" {} = .ok root s ∧
    lowerUse carrier (provider carrier 9) 1 8 s = .ok ⟨⟩ t ∧ s.Returns 11 10 ∧
    ∃ phi, t.nodes.get? 5 = some phi ∧ t.Gets carrier 1 phi := by
  have hrun : succeeds (fun _ s ↦ decide (s.nodes.get? 8 = none) && (s.records.get? 0).isSome &&
      (s.records.get? 1).isSome && succeeds (fun _ _ ↦ true) (lowerUse carrier (provider carrier 9) 1 8 s))
      (build carrier "main" {}) = true := by
    decide +kernel
  obtain ⟨root, s, hbuild, htest⟩ := ok_of_succeeds hrun
  simp only [Bool.and_eq_true, decide_eq_true_eq, Option.isSome_iff_ne_none] at htest
  obtain ⟨⟨⟨hnew, hmain⟩, haddress⟩, huse⟩ := htest
  obtain ⟨_, t, huse, -⟩ := ok_of_succeeds huse
  have hprog : carrier.Coherent := Program.coherent_assembled _
  obtain ⟨hreturns, hbinds⟩ := integers_cross_calls hprog (by decide)
  have hvisits : carrier.Visits 1 11 ⟨.ret, [10], 1, 0⟩ := ⟨rfl, rfl, _, [0], rfl, rfl, by decide⟩
  have hhoused : s.Housed carrier 8 := by
    rintro f ⟨⟩
    exact hmain
  have hhands : carrier.Hands 8 1 2 5 := ⟨rfl, ⟨.call, [4, 1], 0, 0⟩, _, 0, rfl, rfl, rfl, rfl, rfl⟩
  have hs := (intact_of_build hprog hbuild).valid
  have ht := (lowerUse_ensures hprog (provider_sound hprog 9) hs ⟨⟩ t huse).1.valid
  exact ⟨root, s, t, hbuild, huse, hreturns hbuild haddress hvisits rfl rfl rfl,
    hbinds hs hnew hhoused huse hhands t (.refl carrier t) ht⟩

/-- A function that makes a pointer of the integer that it is given, and returns an integer made from the
address that it is given. -/
def exchange : Program := .assembled
  [function "main" .void [] false, function "f" (.int 64) [.ptr, .int 64] false, block 0, block 1,
    alloca 0 0 (.int 64), cast 0 0 .ptrToInt 4 (.int 64), call 0 0 1 [4, 5] (.int 64), ret 0 0 none,
    cast 1 0 .intToPtr 3 .ptr, cast 1 0 .ptrToInt 2 (.int 64), constant (.int 1) (.int 64),
    binary 1 0 .add 9 10 (.int 64), ret 1 0 (some 11)]

/-- The call has its node when the uses of its argument are followed, and the return has its node before
the integer that it returns. -/
theorem integers_lost : ∃ root t formal actual id sum n m, exchange.Scoped ∧ build exchange "main" {} = .ok root t ∧
    (exchange.Visits 0 6 ⟨.call, [1, 4, 5], 0, 0⟩ ∧ exchange.Hands 6 5 1 3 ∧ exchange.isPointer 3 = .ok false ∧
      t.nodes.get? 5 = some actual ∧ t.nodes.get? 3 = some formal ∧ t.graph.nodes[formal]? = some n ∧
      actual ∉ n.operands) ∧
    exchange.Visits 1 12 ⟨.ret, [11], 1, 0⟩ ∧ exchange.isPointer 11 = .ok false ∧ t.nodes.get? 12 = some id ∧
      t.nodes.get? 11 = some sum ∧ t.graph.nodes[id]? = some m ∧ sum ∉ m.operands := by
  have hbuild : succeeds (fun _ t ↦ decide ((t.nodes.get? 5 = some 5 ∧ t.nodes.get? 3 = some 11 ∧
      (t.graph.nodes[11]?).map (·.operands) = some []) ∧ t.nodes.get? 12 = some 14 ∧ t.nodes.get? 11 = some 15 ∧
      (t.graph.nodes[14]?).map (·.operands) = some [])) (build exchange "main" {}) = true := by
    decide +kernel
  obtain ⟨root, t, hbuild, htest⟩ := ok_of_succeeds hbuild
  obtain ⟨⟨hactual, hformal, hops⟩, hret, hsum, hops'⟩ := of_decide_eq_true htest
  obtain ⟨n, hn, hops⟩ := Option.map_eq_some_iff.1 hops
  obtain ⟨m, hm, hops'⟩ := Option.map_eq_some_iff.1 hops'
  have hreaches (f : FuncId) (hf : f ∈ [0, 1]) : exchange.Reaches f 0 := by
    rcases List.mem_pair.1 hf with rfl | rfl
    · exact ⟨_, [0], rfl, rfl, by decide⟩
    · exact ⟨_, [0], rfl, rfl, by decide⟩
  refine ⟨root, t, 11, 5, 14, 15, n, m, by decide, hbuild, ⟨⟨rfl, rfl, hreaches 0 (by decide)⟩, ?_, rfl, hactual,
    hformal, hn, by simp [hops]⟩, ⟨rfl, rfl, hreaches 1 (by decide)⟩, rfl, hret, hsum, hm, by simp [hops']⟩
  exact ⟨rfl, ⟨.call, [1, 4, 5], 0, 0⟩, _, 1, rfl, rfl, rfl, rfl, rfl⟩

end Lower

end PointsTo
