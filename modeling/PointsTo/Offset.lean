import PointsTo.Order

/-!
# Byte offsets

An offset into a memory object is a known number of bytes, or unknown, which stands for every
offset.  Known offsets stay below `Offset.limit`; a sum that reaches it is unknown.
-/

namespace PointsTo

/-- The number of values of a machine word. -/
def wordSize : Nat := Nat.pow 2 64

/-- The largest value of a machine word. -/
def wordMax : Nat := wordSize - 1

/-- The largest word is no known offset: in 64 bits it encodes the unknown one. -/
def Offset.limit : Nat := wordMax

inductive Offset where
  | known (bytes : Nat) (bounded : bytes < Offset.limit)
  | unknown
  deriving DecidableEq, Inhabited

namespace Offset

/-- The offset of `n` bytes, unknown if that many cannot be known. -/
def ofNat (n : Nat) : Offset := if h : n < limit then known n h else unknown

def zero : Offset := known 0 (by decide)

def isUnknown : Offset → Bool
  | known .. => false
  | unknown => true

def value? : Offset → Option Nat
  | known n _ => some n
  | unknown => none

/-- Unknown absorbs, and a sum past the limit is unknown. -/
def add : Offset → Offset → Offset
  | known a _, known b _ => ofNat (a + b)
  | _, _ => unknown

instance : Add Offset := ⟨add⟩

/-- The 64-bit encoding: the limit itself stands for the unknown offset. -/
def toWord : Offset → Nat
  | known n _ => n
  | unknown => limit

theorem toWord_inj {a b : Offset} (h : a.toWord = b.toWord) : a = b := by
  cases a <;> cases b <;> simp only [toWord] at h <;> simp only [known.injEq, reduceCtorEq] <;> omega

/-- The unknown offset is the largest. -/
instance : TotalOrder Offset where
  lt a b := decide (a.toWord < b.toWord)
  lt_irrefl _ := decide_eq_false (Nat.lt_irrefl _)
  lt_trans hab hbc := decide_eq_true (Nat.lt_trans (of_decide_eq_true hab) (of_decide_eq_true hbc))
  lt_connected hab hba := toWord_inj
    (Nat.le_antisymm (Nat.le_of_not_lt (of_decide_eq_false hba)) (Nat.le_of_not_lt (of_decide_eq_false hab)))

def render : Offset → String
  | known n _ => toString n
  | unknown => "?"

end Offset

end PointsTo
