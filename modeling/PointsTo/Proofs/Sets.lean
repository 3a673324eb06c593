import Mathlib.Data.List.Nodup
import Mathlib.Data.List.Perm.Subperm
import Mathlib.Data.Finite.Prod
import Mathlib.Data.Set.Finite.Lemmas
import Mathlib.Data.Set.Finite.Powerset
import PointsTo.Order.Map
import PointsTo.Pointer

/-!
# Membership in ordered sets and maps

A set is known by its members and a map by its lookups.  Everything that the solver tests on them
(emptiness, whether a union made a set larger, whether a map is what it was) is stated here in
these terms, so that later proofs never open the lists.
-/

namespace PointsTo

open TotalOrder (lt)

/-- A fold adds what its elements bring, if each step adds what its element brings. -/
theorem foldl_iff {α β : Type} {P : β → Prop} {Q : α → Prop} {f : β → α → β}
    (hf : ∀ b a, P (f b a) ↔ P b ∨ Q a) (l : List α) (b : β) : P (l.foldl f b) ↔ P b ∨ ∃ a ∈ l, Q a := by
  induction l generalizing b with
  | nil => simp
  | cons a rest ih =>
    rw [List.foldl_cons, ih, hf, List.exists_mem_cons_iff, or_assoc]

namespace OrderedSet

variable {α : Type} [TotalOrder α]

instance : HasSubset (OrderedSet α) := ⟨fun s t ↦ ∀ a ∈ s, a ∈ t⟩

theorem subset_def {s t : OrderedSet α} : s ⊆ t ↔ ∀ a ∈ s, a ∈ t := Iff.rfl

theorem subset_refl (s : OrderedSet α) : s ⊆ s := fun _ h ↦ h

theorem containsIn_iff {a : α} {l : List α} (h : l.Pairwise (lt · · = true)) :
    containsIn a l = true ↔ a ∈ l := by
  induction l with
  | nil => simp [containsIn]
  | cons b rest ih =>
    obtain ⟨hb, hrest⟩ := List.pairwise_cons.1 h
    rw [containsIn]
    rcases TotalOrder.eq_or_lt_or_lt a b with rfl | hab | hba
    · simp [TotalOrder.lt_irrefl]
    · have hne : a ≠ b := fun e ↦ by simp [e, TotalOrder.lt_irrefl] at hab
      have hnot : a ∉ rest := fun ha ↦ by
        have := TotalOrder.lt_asymm (hb a ha)
        rw [hab] at this
        contradiction
      simp [TotalOrder.lt_asymm hab, hab, hne, hnot]
    · have hne : a ≠ b := fun e ↦ by simp [e, TotalOrder.lt_irrefl] at hba
      simp [hba, ih hrest, hne]

theorem contains_iff {s : OrderedSet α} {a : α} : s.contains a = true ↔ a ∈ s :=
  containsIn_iff s.ascending

theorem contains_eq_false_iff {s : OrderedSet α} {a : α} : s.contains a = false ↔ ¬a ∈ s := by
  rw [← contains_iff, Bool.not_eq_true]

@[simp] theorem mem_singleton {a b : α} : b ∈ singleton a ↔ b = a := List.mem_singleton

theorem isEmpty_iff {s : OrderedSet α} : s.isEmpty = true ↔ ∀ a, ¬a ∈ s := by
  rw [isEmpty, List.isEmpty_iff, List.eq_nil_iff_forall_not_mem]
  rfl

theorem isEmpty_eq_false_iff {s : OrderedSet α} : s.isEmpty = false ↔ ∃ a, a ∈ s := by
  rw [← Bool.not_eq_true, isEmpty_iff]
  push Not
  rfl

theorem nodup (s : OrderedSet α) : s.toList.Nodup :=
  s.ascending.imp fun {a b} h e ↦ by simp [e, TotalOrder.lt_irrefl] at h

theorem sublist_of_subset {s t : OrderedSet α} (h : s ⊆ t) : s.toList.Sublist t.toList := by
  have : Std.Antisymm fun a b : α ↦ TotalOrder.lt a b = true :=
    ⟨fun a b hab hba ↦ by simp [TotalOrder.lt_asymm hab] at hba⟩
  exact List.sublist_of_subperm_of_pairwise (s.nodup.subperm h) s.ascending t.ascending

theorem eq_singleton_of_size {s : OrderedSet α} {a : α} (hsize : s.size = 1) (ha : a ∈ s) : s = singleton a := by
  obtain ⟨b, hb⟩ := List.length_eq_one_iff.1 hsize
  have hmem {x : α} : x ∈ s ↔ x = b := by rw [mem_def, hb, List.mem_singleton]
  ext x
  rw [mem_singleton, hmem, hmem.1 ha]

theorem union_eq_left {s t : OrderedSet α} (h : t ⊆ s) : s ∪ t = s := by
  ext a
  rw [mem_union]
  exact ⟨fun ha ↦ ha.elim id (h a), .inl⟩

/-- A union has the size of its first part only if the second part adds nothing. -/
theorem size_union_eq_iff {s t : OrderedSet α} : (s ∪ t).size = s.size ↔ t ⊆ s := by
  constructor
  · intro hsize a ha
    have hsub : s.toList.Subperm (s ∪ t).toList := s.nodup.subperm fun b hb ↦ mem_union.2 (.inl hb)
    have hperm : s.toList.Perm (s ∪ t).toList := hsub.perm_of_length_le hsize.le
    exact hperm.mem_iff.2 (mem_union.2 (.inr ha))
  · intro h
    rw [union_eq_left h]

end OrderedSet

namespace Pointer

/-- A pointer is null, unknown, or to a proper target. -/
theorem sentinel_cases (p : Pointer) :
    (p.isNull = true ∧ p.isUnknown = false ∧ p.isSentinel = true) ∨
    (p.isNull = false ∧ p.isUnknown = true ∧ p.isSentinel = true) ∨
    (p.isNull = false ∧ p.isUnknown = false ∧ p.isSentinel = false) := by
  unfold isSentinel
  cases hnull : p.isNull with
  | false => cases p.isUnknown <;> simp
  | true =>
    have htarget : p.target = nullTarget := by simpa [isNull] using hnull
    simp [isUnknown, htarget, nullTarget, unknownTarget]

theorem isNull_of_proper {p : Pointer} (h : p.isSentinel = false) : p.isNull = false := by
  rcases p.sentinel_cases with ⟨-, -, hs⟩ | ⟨hnull, -, -⟩ | ⟨hnull, -, -⟩
  · simp [hs] at h
  · exact hnull
  · exact hnull

theorem isNull_of_unknown {p : Pointer} (h : p.isUnknown = true) : p.isNull = false := by
  rcases p.sentinel_cases with ⟨-, hunknown, -⟩ | ⟨hnull, -, -⟩ | ⟨hnull, -, -⟩
  · simp [hunknown] at h
  · exact hnull
  · exact hnull

end Pointer

namespace PointerSet

@[simp] theorem absorb_snd (s t : PointerSet) : (s.absorb t).2 = s ∪ t := rfl

theorem absorb_fst_eq_false {s t : PointerSet} : (s.absorb t).1 = false ↔ t ⊆ s := by
  rw [← OrderedSet.size_union_eq_iff]
  simp [absorb]

end PointerSet

namespace OrderedMap

variable {κ α : Type} [TotalOrder κ]

@[simp] theorem get?_empty {k : κ} : (∅ : OrderedMap κ α).get? k = none := rfl

@[simp] theorem get?_insert_self {m : OrderedMap κ α} {k : κ} {a : α} :
    (m.insert k a).get? k = some a := get?_upsert_self

theorem contains_iff {m : OrderedMap κ α} {k : κ} : m.contains k = true ↔ m.get? k ≠ none := by
  rw [contains, Option.isSome_iff_ne_none]

theorem get?_insert_of_ne {m : OrderedMap κ α} {j k : κ} {a : α} (h : j ≠ k) :
    (m.insert k a).get? j = m.get? j := get?_upsert_of_ne h

theorem get?_insert_eq_some_iff {m : OrderedMap κ α} {j k : κ} {a b : α} :
    (m.insert k a).get? j = some b ↔ (j = k ∧ a = b) ∨ (j ≠ k ∧ m.get? j = some b) := by
  by_cases h : j = k
  · subst h
    simp
  · simp [get?_insert_of_ne h, h]

theorem get?_modify_self {m : OrderedMap κ α} {k : κ} {f : α → α} : (m.modify k f).get? k = (m.get? k).map f := by
  unfold modify
  cases hk : m.get? k with
  | none => simp [hk]
  | some a => simp

theorem get?_insert_ne_none {m : OrderedMap κ α} {j k : κ} {a : α} (h : m.get? j ≠ none) :
    (m.insert k a).get? j ≠ none := by
  by_cases hjk : j = k
  · simp [hjk]
  · rwa [get?_insert_of_ne hjk]

theorem modify_of_get? {m : OrderedMap κ α} {k : κ} {f : α → α} {a : α} (h : m.get? k = some a) :
    m.modify k f = m.insert k (f a) := by simp [modify, h]

theorem modify_of_get?_none {m : OrderedMap κ α} {k : κ} {f : α → α} (h : m.get? k = none) :
    m.modify k f = m := by simp [modify, h]

theorem get?_modify_ne_none {m : OrderedMap κ α} {j k : κ} {f : α → α} (h : m.get? j ≠ none) :
    (m.modify k f).get? j ≠ none := by
  cases hk : m.get? k with
  | none => rwa [modify_of_get?_none hk]
  | some a =>
    rw [modify_of_get? hk]
    exact get?_insert_ne_none h

theorem lookupIn_eq_some_iff {k : κ} {a : α} {l : List (κ × α)}
    (h : l.Pairwise (lt ·.1 ·.1 = true)) : lookupIn k l = some a ↔ (k, a) ∈ l := by
  induction l with
  | nil => simp [lookupIn]
  | cons e rest ih =>
    obtain ⟨he, hrest⟩ := List.pairwise_cons.1 h
    obtain ⟨j, b⟩ := e
    rw [lookupIn]
    rcases TotalOrder.eq_or_lt_or_lt j k with rfl | hjk | hkj
    · have hnot : (j, a) ∉ rest := fun ha ↦ by
        have := he (j, a) ha
        simp [TotalOrder.lt_irrefl] at this
      simp [TotalOrder.lt_irrefl, hnot, eq_comm]
    · have hne : k ≠ j := fun e ↦ by simp [e, TotalOrder.lt_irrefl] at hjk
      simp [hjk, ih hrest, hne]
    · have hne : k ≠ j := fun e ↦ by simp [e, TotalOrder.lt_irrefl] at hkj
      have hnot : (k, a) ∉ rest := fun ha ↦ by
        have := TotalOrder.lt_asymm (he (k, a) ha)
        rw [hkj] at this
        contradiction
      simp [hkj, TotalOrder.lt_asymm hkj, hne, hnot]

theorem mem_entries_iff {m : OrderedMap κ α} {k : κ} {a : α} :
    (k, a) ∈ m.entries ↔ m.get? k = some a := (lookupIn_eq_some_iff m.ascending).symm

theorem exists_mem_entries_iff {m : OrderedMap κ α} {k : κ} {Q : α → Prop} :
    (∃ e ∈ m.entries, k = e.1 ∧ Q e.2) ↔ ∃ a, m.get? k = some a ∧ Q a := by
  constructor
  · rintro ⟨⟨_, a⟩, he, rfl, ha⟩
    exact ⟨a, mem_entries_iff.1 he, ha⟩
  · rintro ⟨a, hk, ha⟩
    exact ⟨(k, a), mem_entries_iff.2 hk, rfl, ha⟩

theorem mem_values_iff {m : OrderedMap κ α} {a : α} : a ∈ m.values ↔ ∃ k, m.get? k = some a := by
  simp only [values, List.mem_map, Prod.exists, exists_eq_right, mem_entries_iff]

/-- The entries are an ascending list without repeated keys, hence determined by its members. -/
theorem ext_get? {m m' : OrderedMap κ α} (h : ∀ k, m.get? k = m'.get? k) : m = m' := by
  have hperm : m.entries.Perm m'.entries := by
    have hnodup (n : OrderedMap κ α) : n.entries.Nodup :=
      n.ascending.imp fun {a b} hab e ↦ by simp [e, TotalOrder.lt_irrefl] at hab
    refine (List.perm_ext_iff_of_nodup (hnodup m) (hnodup m')).2 fun ⟨k, a⟩ ↦ ?_
    rw [mem_entries_iff, mem_entries_iff, h]
  have hentries : m.entries = m'.entries := by
    refine hperm.eq_of_pairwise ?_ m.ascending m'.ascending
    intro a b _ _ hab hba
    simp [TotalOrder.lt_asymm hab] at hba
  cases m
  cases m'
  simpa using hentries

end OrderedMap

/-! ## Finitely many values -/

instance : Finite Offset := by
  have hword (o : Offset) : o.toWord < Offset.limit + 1 := by
    cases o with
    | known n h => exact Nat.lt_succ_of_lt h
    | unknown => exact Nat.lt_succ_self _
  refine Finite.of_injective (fun o ↦ (⟨o.toWord, hword o⟩ : Fin (Offset.limit + 1))) fun a b h ↦ ?_
  exact Offset.toWord_inj (Fin.mk.inj h)

theorem Pointer.finite_lt (size : Nat) : {p : Pointer | p.target < size}.Finite := by
  have hpairs : ({t : NodeId | t < size} ×ˢ (Set.univ : Set Offset)).Finite :=
    (Set.finite_lt_nat size).prod Set.finite_univ
  refine (hpairs.preimage (f := fun p : Pointer ↦ (p.target, p.offset)) ?_).subset fun p hp ↦ ⟨hp, trivial⟩
  rintro ⟨t, o⟩ - ⟨u, q⟩ - h
  obtain ⟨rfl, rfl⟩ := Prod.mk.inj h
  rfl

theorem OrderedSet.finite_of_members {α : Type} [TotalOrder α] {S : Set α} (hS : S.Finite) :
    {s : OrderedSet α | ∀ a ∈ s, a ∈ S}.Finite :=
  hS.finite_subsets.preimage (f := fun s ↦ {a | a ∈ s}) fun _ _ _ _ h ↦ OrderedSet.ext fun a ↦ Set.ext_iff.1 h a

theorem OrderedMap.finite_of_entries {κ α : Type} [TotalOrder κ] {K : Set κ} {V : Set α} (hK : K.Finite)
    (hV : V.Finite) : {m : OrderedMap κ α | ∀ k a, m.get? k = some a → k ∈ K ∧ a ∈ V}.Finite := by
  refine ((hK.prod hV).finite_subsets.preimage
    (f := fun m : OrderedMap κ α ↦ {e : κ × α | m.get? e.1 = some e.2}) ?_).subset fun m hm e he ↦ hm e.1 e.2 he
  intro m _ m' _ h
  refine OrderedMap.ext_get? fun k ↦ Option.ext fun a ↦ ?_
  exact Set.ext_iff.1 h (k, a)

end PointsTo
