import PointsTo.Order

/-!
# Finite maps as ascending association lists

`OrderedMap κ α` holds one entry per key, keys ascending.  Every change of a map is an `upsert`,
which replaces the value of one key by a function of what the key held before.
-/

namespace PointsTo

open TotalOrder (lt)

structure OrderedMap (κ α : Type) [TotalOrder κ] where
  entries : List (κ × α)
  ascending : entries.Pairwise (lt ·.1 ·.1 = true)

namespace OrderedMap

variable {κ α : Type} [TotalOrder κ]

instance [DecidableEq κ] [DecidableEq α] : DecidableEq (OrderedMap κ α) := fun a b ↦
  decidable_of_iff (a.entries = b.entries) ⟨by cases a; cases b; simp, fun h ↦ h ▸ rfl⟩

def empty : OrderedMap κ α := ⟨[], .nil⟩

instance : EmptyCollection (OrderedMap κ α) := ⟨empty⟩

instance : Inhabited (OrderedMap κ α) := ⟨empty⟩

def isEmpty (m : OrderedMap κ α) : Bool := m.entries.isEmpty

def size (m : OrderedMap κ α) : Nat := m.entries.length

def lookupIn (k : κ) : List (κ × α) → Option α
  | [] => none
  | e :: rest => if lt e.1 k then lookupIn k rest else if lt k e.1 then none else some e.2

def get? (m : OrderedMap κ α) (k : κ) : Option α := lookupIn k m.entries

def contains (m : OrderedMap κ α) (k : κ) : Bool := (m.get? k).isSome

def upsertIn (k : κ) (f : Option α → α) : List (κ × α) → List (κ × α)
  | [] => [(k, f none)]
  | e :: rest =>
    if lt k e.1 then (k, f none) :: e :: rest
    else if lt e.1 k then e :: upsertIn k f rest
    else (k, f (some e.2)) :: rest

theorem fst_mem_upsertIn {k : κ} {f : Option α → α} {l : List (κ × α)} {e : κ × α}
    (h : e ∈ upsertIn k f l) : e.1 = k ∨ ∃ d ∈ l, d.1 = e.1 := by
  induction l with
  | nil =>
    rw [upsertIn, List.mem_singleton] at h
    simp [h]
  | cons d rest ih =>
    rw [upsertIn] at h
    split at h
    · rcases List.mem_cons.1 h with rfl | h
      · exact .inl rfl
      · exact .inr ⟨e, h, rfl⟩
    · split at h
      · rcases List.mem_cons.1 h with rfl | h
        · exact .inr ⟨e, List.mem_cons_self, rfl⟩
        · exact (ih h).imp_right fun ⟨c, hc, hce⟩ ↦ ⟨c, List.mem_cons_of_mem _ hc, hce⟩
      · rcases List.mem_cons.1 h with rfl | h
        · exact .inl rfl
        · exact .inr ⟨e, List.mem_cons_of_mem _ h, rfl⟩

theorem upsertIn_ascending {k : κ} {f : Option α → α} {l : List (κ × α)}
    (h : l.Pairwise (lt ·.1 ·.1 = true)) : (upsertIn k f l).Pairwise (lt ·.1 ·.1 = true) := by
  induction l with
  | nil => exact List.pairwise_singleton _ _
  | cons d rest ih =>
    obtain ⟨hd, hrest⟩ := List.pairwise_cons.1 h
    rw [upsertIn]
    split
    · rename_i hkd
      refine List.pairwise_cons.2 ⟨fun e he ↦ ?_, h⟩
      rcases List.mem_cons.1 he with rfl | he
      · exact hkd
      · exact TotalOrder.lt_trans hkd (hd e he)
    · rename_i hkd
      split
      · rename_i hdk
        refine List.pairwise_cons.2 ⟨fun e he ↦ ?_, ih hrest⟩
        rcases fst_mem_upsertIn he with hek | ⟨c, hc, hce⟩
        · rw [hek]
          exact hdk
        · rw [← hce]
          exact hd c hc
      · rename_i hdk
        have : k = d.1 := TotalOrder.lt_connected (by simpa using hkd) (by simpa using hdk)
        subst this
        exact List.pairwise_cons.2 ⟨hd, hrest⟩

/-- Replaces the value of `k` by `f` of what it was, `none` if `k` had no entry. -/
def upsert (m : OrderedMap κ α) (k : κ) (f : Option α → α) : OrderedMap κ α :=
  ⟨upsertIn k f m.entries, upsertIn_ascending m.ascending⟩

def insert (m : OrderedMap κ α) (k : κ) (a : α) : OrderedMap κ α := m.upsert k fun _ ↦ a

/-- Changes the value of `k` if it has one. -/
def modify (m : OrderedMap κ α) (k : κ) (f : α → α) : OrderedMap κ α :=
  match m.get? k with
  | some a => m.insert k (f a)
  | none => m

def keys (m : OrderedMap κ α) : List κ := m.entries.map (·.1)

def values (m : OrderedMap κ α) : List α := m.entries.map (·.2)

theorem lookupIn_upsertIn {k j : κ} {f : Option α → α} {l : List (κ × α)}
    (h : l.Pairwise (lt ·.1 ·.1 = true)) :
    lookupIn j (upsertIn k f l) =
      if !lt j k && !lt k j then some (f (lookupIn k l)) else lookupIn j l := by
  induction l with
  | nil =>
    cases hjk : lt j k <;> cases hkj : lt k j <;> simp [upsertIn, lookupIn, hjk, hkj]
  | cons d rest ih =>
    obtain ⟨hd, hrest⟩ := List.pairwise_cons.1 h
    rcases TotalOrder.eq_or_lt_or_lt k j with rfl | hkj | hjk
    · rcases TotalOrder.eq_or_lt_or_lt k d.1 with rfl | hkd | hdk
      · simp [upsertIn, lookupIn, TotalOrder.lt_irrefl]
      · simp [upsertIn, lookupIn, TotalOrder.lt_irrefl, hkd, TotalOrder.lt_asymm hkd]
      · simp [upsertIn, lookupIn, TotalOrder.lt_irrefl, hdk, TotalOrder.lt_asymm hdk, ih hrest]
    · have hjk := TotalOrder.lt_asymm hkj
      rcases TotalOrder.eq_or_lt_or_lt k d.1 with rfl | hkd | hdk
      · simp [upsertIn, lookupIn, TotalOrder.lt_irrefl, hkj]
      · simp [upsertIn, lookupIn, hkd, hkj]
      · simp [upsertIn, lookupIn, hdk, TotalOrder.lt_asymm hdk, ih hrest, hkj]
    · have hkj := TotalOrder.lt_asymm hjk
      rcases TotalOrder.eq_or_lt_or_lt k d.1 with rfl | hkd | hdk
      · simp [upsertIn, lookupIn, TotalOrder.lt_irrefl, hjk, hkj]
      · have hjd := TotalOrder.lt_trans hjk hkd
        simp [upsertIn, lookupIn, hkd, hjk, hkj, hjd, TotalOrder.lt_asymm hjd]
      · simp [upsertIn, lookupIn, hdk, TotalOrder.lt_asymm hdk, ih hrest, hjk]

theorem get?_upsert_self {m : OrderedMap κ α} {k : κ} {f : Option α → α} :
    (m.upsert k f).get? k = some (f (m.get? k)) := by
  simp [get?, upsert, lookupIn_upsertIn m.ascending, TotalOrder.lt_irrefl]

theorem get?_upsert_of_ne {m : OrderedMap κ α} {j k : κ} {f : Option α → α} (h : j ≠ k) :
    (m.upsert k f).get? j = m.get? j := by
  have : (!lt j k && !lt k j) = false := by
    rcases TotalOrder.eq_or_lt_or_lt j k with rfl | hjk | hkj
    · exact absurd rfl h
    · simp [hjk]
    · simp [hkj]
  simp [get?, upsert, lookupIn_upsertIn m.ascending, this]

end OrderedMap

end PointsTo
