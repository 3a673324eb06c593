import PointsTo.Proofs.Course

/-!
# First in, first out

A worklist does what a plain list does to which an item is appended unless it is there, and whose head is taken:
after whatever operations it gives the same answers and holds the same items.  Nothing is lost on the way: what was
accepted is what has left, in the order in which it was accepted, followed by what still waits.
-/

namespace PointsTo

namespace Worklist

variable {α : Type} [TotalOrder α]

inductive Operation (α : Type) where
  | push (a : α)
  | extend (items : List α)
  | pop

/-- What an operation answers. -/
inductive Answer (α : Type) where
  | accepted (new : Bool)
  | extended
  | taken (a? : Option α)

namespace Operation

def onQueue (q : Worklist α) : Operation α → Answer α × Worklist α
  | push a => (.accepted (q.push a).1, (q.push a).2)
  | extend items => (.extended, q.extend items)
  | pop =>
    match q.pop with
    | some (a, q) => (.taken (some a), q)
    | none => (.taken none, q)

/-- An item is appended unless it is in the list. -/
def append [DecidableEq α] (l : List α) (a : α) : List α := if a ∈ l then l else l ++ [a]

/-- The operation on a plain list. -/
def onList [DecidableEq α] (l : List α) : Operation α → Answer α × List α
  | push a => (.accepted (decide (a ∉ l)), append l a)
  | extend items => (.extended, items.foldl append l)
  | pop => (.taken l.head?, l.tail)

/-- The items that an operation offers to the queue. -/
def offers : Operation α → List α
  | push a => [a]
  | extend items => items
  | pop => []

end Operation

/-- The answers to a list of operations, and the state after them. -/
def replay {σ : Type} (step : σ → Operation α → Answer α × σ) : σ → List (Operation α) → List (Answer α) × σ
  | s, [] => ([], s)
  | s, op :: ops => ((step s op).1 :: (replay step (step s op).2 ops).1, (replay step (step s op).2 ops).2)

/-- The offered items that are accepted, one after the other. -/
def accepted (q : Worklist α) : List α → List α
  | [] => []
  | a :: items => (if (q.push a).1 then [a] else []) ++ accepted (q.push a).2 items

/-- All items that are accepted in the course of the operations. -/
def accepts : Worklist α → List (Operation α) → List α
  | _, [] => []
  | q, op :: ops => q.accepted op.offers ++ accepts (op.onQueue q).2 ops

/-- The items among the answers that were taken from the queue. -/
def taken (answers : List (Answer α)) : List α :=
  answers.flatMap fun
    | .taken a? => a?.toList
    | _ => []

/-! ## One operation -/

/-- The set knows the items that lie in the lists, and each lies there once. -/
structure Faithful (q : Worklist α) : Prop where
  waiting : ∀ a, a ∈ q.waiting ↔ a ∈ q.toList
  nodup : q.toList.Nodup

variable {q q' : Worklist α} {a : α}

theorem faithful_empty : ({} : Worklist α).Faithful := ⟨fun _ ↦ Iff.rfl, List.nodup_nil⟩

namespace Faithful

theorem push_of_mem (hq : q.Faithful) (ha : a ∈ q.toList) : q.push a = (false, q) := by
  rw [push, if_pos (OrderedSet.contains_iff.2 ((hq.waiting a).2 ha))]

theorem push_of_not_mem (hq : q.Faithful) (ha : a ∉ q.toList) :
    (q.push a).1 = true ∧ (q.push a).2.toList = q.toList ++ [a] ∧ (q.push a).2.waiting = q.waiting.insert a := by
  have hnew : q.waiting.contains a = false := OrderedSet.contains_eq_false_iff.2 fun h ↦ ha ((hq.waiting a).1 h)
  simp [push, hnew, toList]

theorem push (hq : q.Faithful) : (q.push a).2.Faithful := by
  by_cases ha : a ∈ q.toList
  · rwa [hq.push_of_mem ha]
  · obtain ⟨-, hlist, hset⟩ := hq.push_of_not_mem ha
    refine ⟨fun b ↦ ?_, ?_⟩
    · rw [hset, hlist, OrderedSet.mem_insert, hq.waiting, List.mem_append, List.mem_singleton, or_comm]
    · rw [hlist, List.nodup_append_comm]
      exact List.nodup_cons.2 ⟨ha, hq.nodup⟩

theorem extend (hq : q.Faithful) (items : List α) : (q.extend items).Faithful :=
  List.foldlRecOn items _ hq fun _ h _ _ ↦ h.push

theorem pop (hq : q.Faithful) (h : q.pop = some (a, q')) : q'.Faithful := by
  have hlist := pop_eq_some h
  have hset : q'.waiting = q.waiting.erase a := by
    unfold Worklist.pop at h
    split at h
    · obtain ⟨rfl, rfl⟩ := Prod.mk.inj (Option.some.inj h)
      rfl
    · split at h
      · obtain ⟨rfl, rfl⟩ := Prod.mk.inj (Option.some.inj h)
        rfl
      · contradiction
  obtain ⟨ha, hrest⟩ := List.nodup_cons.1 (hlist ▸ hq.nodup)
  refine ⟨fun b ↦ ?_, hrest⟩
  rw [hset, OrderedSet.mem_erase, hq.waiting, hlist, List.mem_cons]
  constructor
  · rintro ⟨hne, rfl | hb⟩
    · exact absurd rfl hne
    · exact hb
  · intro hb
    exact ⟨fun heq ↦ ha (heq ▸ hb), .inr hb⟩

variable [DecidableEq α]

theorem push_eq (hq : q.Faithful) :
    (q.push a).1 = decide (a ∉ q.toList) ∧ (q.push a).2.toList = Operation.append q.toList a := by
  by_cases ha : a ∈ q.toList
  · simp [hq.push_of_mem ha, Operation.append, ha]
  · obtain ⟨hnew, hlist, -⟩ := hq.push_of_not_mem ha
    simp [hnew, hlist, Operation.append, ha]

theorem extend_eq (hq : q.Faithful) (items : List α) :
    (q.extend items).toList = items.foldl Operation.append q.toList := by
  induction items generalizing q with
  | nil => rfl
  | cons a items ih =>
    rw [List.foldl_cons, ← hq.push_eq.2]
    exact ih hq.push

/-- An operation gives the answer that it gives on the list of the items, and leaves the items of that list. -/
theorem onQueue (hq : q.Faithful) (op : Operation α) :
    (op.onQueue q).2.Faithful ∧ (op.onQueue q).1 = (op.onList q.toList).1 ∧
      (op.onQueue q).2.toList = (op.onList q.toList).2 := by
  cases op with
  | push a => exact ⟨hq.push, congrArg Answer.accepted hq.push_eq.1, hq.push_eq.2⟩
  | extend items => exact ⟨hq.extend items, rfl, hq.extend_eq items⟩
  | pop =>
    cases hpop : q.pop with
    | none => simp [Operation.onQueue, Operation.onList, hpop, hq, pop_eq_none hpop]
    | some r =>
      obtain ⟨a, q'⟩ := r
      simp [Operation.onQueue, Operation.onList, hpop, hq.pop hpop, pop_eq_some hpop]

end Faithful

/-! ## Many operations -/

theorem Faithful.replay [DecidableEq α] (hq : q.Faithful) (ops : List (Operation α)) :
    (replay Operation.onQueue q ops).2.Faithful ∧
      (replay Operation.onQueue q ops).1 = (replay Operation.onList q.toList ops).1 ∧
      (replay Operation.onQueue q ops).2.toList = (replay Operation.onList q.toList ops).2 := by
  induction ops generalizing q with
  | nil => exact ⟨hq, rfl, rfl⟩
  | cons op ops ih =>
    obtain ⟨hnext, hanswer, hlist⟩ := hq.onQueue op
    obtain ⟨hend, hanswers, hlists⟩ := ih hnext
    rw [hlist] at hanswers hlists
    exact ⟨hend, congrArg₂ List.cons hanswer hanswers, hlists⟩

theorem Faithful.extend_accepted (hq : q.Faithful) (items : List α) :
    (q.extend items).toList = q.toList ++ q.accepted items := by
  induction items generalizing q with
  | nil => simp [Worklist.extend, accepted]
  | cons a items ih =>
    have hrest : ((q.push a).2.extend items).toList = (q.push a).2.toList ++ (q.push a).2.accepted items := ih hq.push
    rw [accepted, ← List.append_assoc]
    refine hrest.trans (congrArg (· ++ _) ?_)
    by_cases ha : a ∈ q.toList
    · simp [hq.push_of_mem ha]
    · obtain ⟨hnew, hlist, -⟩ := hq.push_of_not_mem ha
      simp [hnew, hlist]

/-- An operation adds what it accepts at the end of the queue and takes its answer from the front. -/
theorem Faithful.onQueue_accepted (hq : q.Faithful) (op : Operation α) :
    q.toList ++ q.accepted op.offers = taken [(op.onQueue q).1] ++ (op.onQueue q).2.toList := by
  cases op with
  | push a => exact (hq.extend_accepted [a]).symm
  | extend items => exact (hq.extend_accepted items).symm
  | pop =>
    cases hpop : q.pop with
    | none => simp [Operation.onQueue, Operation.offers, hpop, accepted, taken]
    | some r =>
      obtain ⟨a, q'⟩ := r
      simp [Operation.onQueue, Operation.offers, hpop, accepted, taken, pop_eq_some hpop]

theorem Faithful.replay_accepts (hq : q.Faithful) (ops : List (Operation α)) :
    q.toList ++ q.accepts ops =
      taken (Worklist.replay Operation.onQueue q ops).1 ++ (Worklist.replay Operation.onQueue q ops).2.toList := by
  classical
  induction ops generalizing q with
  | nil => simp [accepts, Worklist.replay, taken]
  | cons op ops ih =>
    calc q.toList ++ q.accepts (op :: ops)
        = (q.toList ++ q.accepted op.offers) ++ (op.onQueue q).2.accepts ops := by rw [accepts, List.append_assoc]
      _ = taken [(op.onQueue q).1] ++ ((op.onQueue q).2.toList ++ (op.onQueue q).2.accepts ops) := by
        rw [hq.onQueue_accepted, List.append_assoc]
      _ = _ := by
        rw [ih (hq.onQueue op).1, ← List.append_assoc]
        simp [Worklist.replay, taken]

/-- A worklist is a queue without duplicates that loses nothing: after any operations it has answered as a plain list
answers and holds what that list holds, each item once; an item is accepted if and only if it is appended; and all
that was ever accepted has left in order, or waits in order behind what has left. -/
theorem first_in_first_out [DecidableEq α] (ops : List (Operation α)) :
    (replay Operation.onQueue ({} : Worklist α) ops).1 = (replay Operation.onList [] ops).1 ∧
    (replay Operation.onQueue ({} : Worklist α) ops).2.toList = (replay Operation.onList [] ops).2 ∧
    (replay Operation.onQueue ({} : Worklist α) ops).2.toList.Nodup ∧
    (∀ a, ((replay Operation.onQueue {} ops).2.push a).1 = true ↔
      ((replay Operation.onQueue {} ops).2.push a).2.toList = (replay Operation.onQueue {} ops).2.toList ++ [a]) ∧
    accepts ({} : Worklist α) ops =
      taken (replay Operation.onQueue {} ops).1 ++ (replay Operation.onQueue {} ops).2.toList := by
  obtain ⟨hend, hanswers, hlist⟩ := faithful_empty.replay ops
  refine ⟨hanswers, hlist, hend.nodup, fun a ↦ ?_, faithful_empty.replay_accepts ops⟩
  by_cases ha : a ∈ (replay Operation.onQueue ({} : Worklist α) ops).2.toList
  · simp [hend.push_of_mem ha]
  · simp [hend.push_of_not_mem ha]

end Worklist

end PointsTo
