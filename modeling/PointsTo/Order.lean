/-!
# Decidable strict total orders

Sets and maps of the analysis are kept as ascending lists, so that two of them are equal as soon as
they have the same members.  `TotalOrder` is what such a list needs of its keys.
-/

namespace PointsTo

/-- A strict total order with a Boolean test. -/
class TotalOrder (α : Type) where
  lt : α → α → Bool
  lt_irrefl : ∀ a, lt a a = false
  lt_trans : ∀ {a b c}, lt a b = true → lt b c = true → lt a c = true
  lt_connected : ∀ {a b}, lt a b = false → lt b a = false → a = b

namespace TotalOrder

instance : TotalOrder Nat where
  lt a b := decide (a < b)
  lt_irrefl := by simp
  lt_trans := by
    intro a b c hab hbc
    simp only [decide_eq_true_eq] at *
    omega
  lt_connected := by
    intro a b hab hba
    simp only [decide_eq_false_iff_not] at *
    omega

/-- Pairs are compared by their first component, then by their second. -/
def lexLt {α β : Type} [TotalOrder α] [TotalOrder β] (x y : α × β) : Bool :=
  lt x.1 y.1 || (!lt y.1 x.1 && lt x.2 y.2)

theorem lt_asymm {α : Type} [TotalOrder α] {a b : α} (h : lt a b = true) : lt b a = false := by
  cases hba : lt b a with
  | false => rfl
  | true => simpa [lt_irrefl] using lt_trans h hba

theorem eq_or_lt_or_lt {α : Type} [TotalOrder α] (a b : α) :
    a = b ∨ lt a b = true ∨ lt b a = true := by
  cases hab : lt a b with
  | true => exact .inr (.inl rfl)
  | false =>
    cases hba : lt b a with
    | true => exact .inr (.inr rfl)
    | false => exact .inl (lt_connected hab hba)

instance {α β : Type} [TotalOrder α] [TotalOrder β] : TotalOrder (α × β) where
  lt := lexLt
  lt_irrefl := by simp [lexLt, lt_irrefl]
  lt_trans := by
    rintro ⟨a, x⟩ ⟨b, y⟩ ⟨c, z⟩ hab hbc
    simp only [lexLt, Bool.or_eq_true, Bool.and_eq_true, Bool.not_eq_true'] at *
    rcases hab with hab | ⟨hba, hxy⟩
    · rcases hbc with hbc | ⟨hcb, -⟩
      · exact .inl (lt_trans hab hbc)
      · rcases eq_or_lt_or_lt b c with rfl | h | h
        · exact .inl hab
        · exact .inl (lt_trans hab h)
        · simp [h] at hcb
    · rcases hbc with hbc | ⟨hcb, hyz⟩
      · rcases eq_or_lt_or_lt a b with rfl | h | h
        · exact .inl hbc
        · exact .inl (lt_trans h hbc)
        · simp [h] at hba
      · rcases eq_or_lt_or_lt a b with rfl | h | h
        · exact .inr ⟨hcb, lt_trans hxy hyz⟩
        · rcases eq_or_lt_or_lt b c with rfl | h' | h'
          · exact .inl h
          · exact .inl (lt_trans h h')
          · simp [h'] at hcb
        · simp [h] at hba
  lt_connected := by
    rintro ⟨a, x⟩ ⟨b, y⟩ hab hba
    simp only [lexLt, Bool.or_eq_false_iff, Bool.and_eq_false_iff, Bool.not_eq_false'] at *
    obtain rfl := lt_connected hab.1 hba.1
    simp only [lt_irrefl, Bool.false_eq_true, false_or] at hab hba
    rw [lt_connected hab.2 hba.2]

end TotalOrder

end PointsTo
