import PointsTo.Order

/-!
# Finite sets as ascending lists

`OrderedSet α` holds its members in ascending order without repetition, so a set has one
representation: `OrderedSet.ext` reduces equality of sets to equality of membership.
-/

namespace PointsTo

open TotalOrder (lt)

structure OrderedSet (α : Type) [TotalOrder α] where
  toList : List α
  ascending : toList.Pairwise (lt · · = true)

namespace OrderedSet

variable {α : Type} [TotalOrder α]

instance [DecidableEq α] : DecidableEq (OrderedSet α) := fun a b ↦
  decidable_of_iff (a.toList = b.toList) ⟨by cases a; cases b; simp, fun h ↦ h ▸ rfl⟩

instance : Membership α (OrderedSet α) := ⟨fun s a ↦ a ∈ s.toList⟩

theorem mem_def {a : α} {s : OrderedSet α} : a ∈ s ↔ a ∈ s.toList := Iff.rfl

def empty : OrderedSet α := ⟨[], .nil⟩

instance : EmptyCollection (OrderedSet α) := ⟨empty⟩

instance : Inhabited (OrderedSet α) := ⟨empty⟩

@[simp] theorem not_mem_empty {a : α} : ¬a ∈ (∅ : OrderedSet α) := List.not_mem_nil

def singleton (a : α) : OrderedSet α := ⟨[a], List.pairwise_singleton _ _⟩

def isEmpty (s : OrderedSet α) : Bool := s.toList.isEmpty

def size (s : OrderedSet α) : Nat := s.toList.length

def containsIn (a : α) : List α → Bool
  | [] => false
  | b :: rest => if lt b a then containsIn a rest else !lt a b

/-- The search stops at the first member that is not below `a`. -/
def contains (s : OrderedSet α) (a : α) : Bool := containsIn a s.toList

def insertIn (a : α) : List α → List α
  | [] => [a]
  | b :: rest => if lt a b then a :: b :: rest else if lt b a then b :: insertIn a rest else b :: rest

theorem mem_insertIn {a b : α} {l : List α} : b ∈ insertIn a l ↔ b = a ∨ b ∈ l := by
  induction l with
  | nil => simp [insertIn]
  | cons c rest ih =>
    rw [insertIn]
    split
    · simp
    · split
      · simp only [List.mem_cons, ih]
        constructor
        · rintro (h | h | h) <;> simp [h]
        · rintro (h | h | h) <;> simp [h]
      · rename_i hac hca
        have : a = c := TotalOrder.lt_connected (by simpa using hac) (by simpa using hca)
        subst this
        simp

theorem insertIn_ascending {a : α} {l : List α} (h : l.Pairwise (lt · · = true)) :
    (insertIn a l).Pairwise (lt · · = true) := by
  induction l with
  | nil => exact List.pairwise_singleton _ _
  | cons b rest ih =>
    obtain ⟨hb, hrest⟩ := List.pairwise_cons.1 h
    rw [insertIn]
    split
    · rename_i hab
      refine List.pairwise_cons.2 ⟨fun c hc ↦ ?_, h⟩
      rcases List.mem_cons.1 hc with rfl | hc
      · exact hab
      · exact TotalOrder.lt_trans hab (hb c hc)
    · split
      · rename_i hba
        refine List.pairwise_cons.2 ⟨fun c hc ↦ ?_, ih hrest⟩
        rcases mem_insertIn.1 hc with rfl | hc
        · exact hba
        · exact hb c hc
      · exact h

def insert (a : α) (s : OrderedSet α) : OrderedSet α :=
  ⟨insertIn a s.toList, insertIn_ascending s.ascending⟩

@[simp] theorem mem_insert {a b : α} {s : OrderedSet α} : b ∈ s.insert a ↔ b = a ∨ b ∈ s :=
  mem_insertIn

def erase (s : OrderedSet α) (a : α) : OrderedSet α :=
  ⟨s.toList.filter fun b ↦ lt a b || lt b a, s.ascending.filter _⟩

@[simp] theorem mem_erase {a b : α} {s : OrderedSet α} : b ∈ s.erase a ↔ b ≠ a ∧ b ∈ s := by
  simp only [mem_def, erase, List.mem_filter, Bool.or_eq_true]
  rcases TotalOrder.eq_or_lt_or_lt a b with rfl | h | h
  · simp [TotalOrder.lt_irrefl]
  · have : b ≠ a := fun e ↦ by
      rw [e, TotalOrder.lt_irrefl] at h
      contradiction
    simp [h, this]
  · have : b ≠ a := fun e ↦ by
      rw [e, TotalOrder.lt_irrefl] at h
      contradiction
    simp [h, this]

/-- Inserts from the back, so that an ascending list takes one pass. -/
def ofList (l : List α) : OrderedSet α := l.foldr insert ∅

theorem mem_ofList {a : α} {l : List α} : a ∈ ofList l ↔ a ∈ l := by
  induction l with
  | nil => simp [ofList]
  | cons b rest ih =>
    rw [ofList] at ih
    simp [ofList, ih]

/-- Both lists in one pass: what the second has below the head of the first comes before it. -/
def mergeIn : List α → List α → List α
  | [], m => m
  | a :: l, m => m.takeWhile (lt · a) ++ a :: mergeIn l (m.dropWhile (!lt a ·))

theorem mem_takeWhile_lt {a b : α} {m : List α} (h : m.Pairwise (lt · · = true)) :
    b ∈ m.takeWhile (lt · a) ↔ b ∈ m ∧ lt b a = true := by
  induction m with
  | nil => simp
  | cons c rest ih =>
    obtain ⟨hc, hrest⟩ := List.pairwise_cons.1 h
    rw [List.takeWhile_cons]
    split
    · rename_i hca
      simp only [List.mem_cons, ih hrest]
      constructor
      · rintro (rfl | hb)
        · exact ⟨.inl rfl, hca⟩
        · exact ⟨.inr hb.1, hb.2⟩
      · rintro ⟨rfl | hb, hba⟩
        · exact .inl rfl
        · exact .inr ⟨hb, hba⟩
    · rename_i hca
      simp only [List.not_mem_nil, List.mem_cons, false_iff, not_and]
      rintro (rfl | hb) hba
      · exact hca hba
      · exact hca (TotalOrder.lt_trans (hc b hb) hba)

theorem mem_dropWhile_not_lt {a b : α} {m : List α} (h : m.Pairwise (lt · · = true)) :
    b ∈ m.dropWhile (!lt a ·) ↔ b ∈ m ∧ lt a b = true := by
  induction m with
  | nil => simp
  | cons c rest ih =>
    obtain ⟨hc, hrest⟩ := List.pairwise_cons.1 h
    rw [List.dropWhile_cons]
    split
    · rename_i hac
      rw [ih hrest, List.mem_cons]
      constructor
      · exact fun hb ↦ ⟨.inr hb.1, hb.2⟩
      · rintro ⟨rfl | hb, hab⟩
        · simp [hab] at hac
        · exact ⟨hb, hab⟩
    · rename_i hac
      have hac : lt a c = true := by simpa using hac
      refine ⟨fun hb ↦ ⟨hb, ?_⟩, fun hb ↦ hb.1⟩
      rcases List.mem_cons.1 hb with rfl | hb
      · exact hac
      · exact TotalOrder.lt_trans hac (hc b hb)

theorem mem_mergeIn {a : α} {l m : List α} (hm : m.Pairwise (lt · · = true)) :
    a ∈ mergeIn l m ↔ a ∈ l ∨ a ∈ m := by
  induction l generalizing m with
  | nil => simp [mergeIn]
  | cons b l ih =>
    have hdrop := hm.sublist (List.dropWhile_sublist (!lt b ·))
    rw [mergeIn, List.mem_append, List.mem_cons, List.mem_cons, ih hdrop, mem_takeWhile_lt hm,
      mem_dropWhile_not_lt hm]
    constructor
    · rintro (h | h | h | h) <;> simp [h]
    · rintro ((h | h) | h)
      · simp [h]
      · simp [h]
      · rcases TotalOrder.eq_or_lt_or_lt a b with hab | hab | hab <;> simp [h, hab]

theorem mergeIn_ascending {l m : List α} (hl : l.Pairwise (lt · · = true))
    (hm : m.Pairwise (lt · · = true)) : (mergeIn l m).Pairwise (lt · · = true) := by
  induction l generalizing m with
  | nil => exact hm
  | cons b l ih =>
    obtain ⟨hb, hl⟩ := List.pairwise_cons.1 hl
    have hdrop := hm.sublist (List.dropWhile_sublist (!lt b ·))
    have above : ∀ c ∈ mergeIn l (m.dropWhile (!lt b ·)), lt b c = true := fun c hc ↦
      ((mem_mergeIn hdrop).1 hc).elim (hb c) fun hc ↦ ((mem_dropWhile_not_lt hm).1 hc).2
    refine List.pairwise_append.2
      ⟨hm.sublist (List.takeWhile_sublist _), List.pairwise_cons.2 ⟨above, ih hl hdrop⟩, ?_⟩
    intro c hc d hd
    have hcb := ((mem_takeWhile_lt hm).1 hc).2
    rcases List.mem_cons.1 hd with rfl | hd
    · exact hcb
    · exact TotalOrder.lt_trans hcb (above d hd)

def union (s t : OrderedSet α) : OrderedSet α :=
  ⟨mergeIn s.toList t.toList, mergeIn_ascending s.ascending t.ascending⟩

instance : Union (OrderedSet α) := ⟨union⟩

@[simp] theorem mem_union {a : α} {s t : OrderedSet α} : a ∈ s ∪ t ↔ a ∈ s ∨ a ∈ t :=
  mem_mergeIn t.ascending

theorem eq_of_ascending {l m : List α} (hl : l.Pairwise (lt · · = true))
    (hm : m.Pairwise (lt · · = true)) (h : ∀ a, a ∈ l ↔ a ∈ m) : l = m := by
  induction l generalizing m with
  | nil =>
    cases m with
    | nil => rfl
    | cons b rest => simpa using h b
  | cons a l ih =>
    cases m with
    | nil => simpa using h a
    | cons b m =>
      obtain ⟨hal, hl'⟩ := List.pairwise_cons.1 hl
      obtain ⟨hbm, hm'⟩ := List.pairwise_cons.1 hm
      have hab : a = b := by
        rcases List.mem_cons.1 ((h a).1 List.mem_cons_self) with hab | ham
        · exact hab
        · rcases List.mem_cons.1 ((h b).2 List.mem_cons_self) with hba | hbl
          · exact hba.symm
          · have := TotalOrder.lt_asymm (hbm a ham)
            rw [hal b hbl] at this
            contradiction
      subst hab
      congr 1
      refine ih hl' hm' fun c ↦ ⟨fun hc ↦ ?_, fun hc ↦ ?_⟩
      · rcases List.mem_cons.1 ((h c).1 (List.mem_cons_of_mem _ hc)) with rfl | hcm
        · have := hal c hc
          rw [TotalOrder.lt_irrefl] at this
          contradiction
        · exact hcm
      · rcases List.mem_cons.1 ((h c).2 (List.mem_cons_of_mem _ hc)) with rfl | hcl
        · have := hbm c hc
          rw [TotalOrder.lt_irrefl] at this
          contradiction
        · exact hcl

@[ext] theorem ext {s t : OrderedSet α} (h : ∀ a, a ∈ s ↔ a ∈ t) : s = t := by
  cases s with
  | mk l hl =>
    cases t with
    | mk m hm =>
      have := eq_of_ascending hl hm h
      subst this
      rfl

end OrderedSet

end PointsTo
