import Mathlib.Tactic
import Mathlib.Order.Defs.Unbundled
import Mathlib.Data.UInt

/-!
# Vocabulary types

The machine integers of `core/types.hpp` at their own widths: a `Quantity`
subtraction that goes below zero wraps here as it does there.
-/

namespace Exchange

abbrev OrderId : Type := UInt64

abbrev AccountId : Type := UInt32

/-- Order size in whole lots. Unsigned, so underflow wraps. -/
abbrev Quantity : Type := UInt64

/-- Price in integer ticks; negative prices are legitimate. -/
abbrev Price : Type := Int64

/-- Monotonic counter establishing time priority. -/
abbrev Sequence : Type := UInt64

inductive Side : Type where
  | buy
  | sell
deriving DecidableEq, Repr

def Side.byte : Side → UInt8
  | .buy => 0
  | .sell => 1

/-- The side an order trades against. -/
def opposite : Side → Side
  | .buy => .sell
  | .sell => .buy

@[simp] theorem opposite_opposite (s : Side) : opposite (opposite s) = s := by
  cases s <;> rfl

theorem eq_or_eq_opposite (s t : Side) : t = s ∨ t = opposite s := by
  cases s <;> cases t <;> simp [opposite]

def BidOrdering (lhs rhs : Price) : Prop := lhs > rhs

def AskOrdering (lhs rhs : Price) : Prop := lhs < rhs

/-- The comparator `OrderBook` is instantiated with on each side: under it the
best price of the side sorts first. -/
def ordering : Side → Price → Price → Prop
  | .buy => BidOrdering
  | .sell => AskOrdering

instance (s : Side) : DecidableRel (ordering s) := fun p q =>
  match s with
  | .buy => inferInstanceAs (Decidable (p > q))
  | .sell => inferInstanceAs (Decidable (p < q))

theorem ordering_irrefl (s : Side) (p : Price) : ¬ ordering s p p := by
  cases s <;> simp only [ordering, BidOrdering, AskOrdering] <;> grind

theorem ordering_trans {s : Side} {p q r : Price}
    (h₁ : ordering s p q) (h₂ : ordering s q r) : ordering s p r := by
  cases s <;> simp only [ordering, BidOrdering, AskOrdering] at * <;> grind

theorem ordering_total (s : Side) (p q : Price) :
    ordering s p q ∨ p = q ∨ ordering s q p := by
  cases s <;> simp only [ordering, BidOrdering, AskOrdering] <;> grind

instance (s : Side) : IsStrictTotalOrder Price (ordering s) where
  trichotomous p q hpq hqp := by
    rcases ordering_total s p q with h | h | h
    · exact absurd h hpq
    · exact h
    · exact absurd h hqp
  irrefl := ordering_irrefl s
  trans _ _ _ := ordering_trans

/-! ## Arithmetic of quantities -/

@[grind =] theorem min_quantity (a b : Quantity) : min a b = if a ≤ b then a else b :=
  rfl

theorem toNat_sub_lt {a b : Quantity} (hb : 0 < b) (hle : b ≤ a) :
    (a - b).toNat < a.toNat := by
  rw [UInt64.toNat_sub_of_le _ _ hle]
  have h₁ := UInt64.lt_iff_toNat_lt.mp hb
  have h₂ := UInt64.le_iff_toNat_le.mp hle
  simp at h₁
  omega

end Exchange
