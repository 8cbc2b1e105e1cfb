import Mathlib

/-!
# Sums of machine words

A sum of 64-bit words against the sum of the numbers they stand for. It is exact if the
exact sum fits a word, and then every sum on the way to it is exact as well; if the exact
sum does not fit it is not exact.
-/

namespace Exchange.Framework

/-- The exact sum. -/
def total (words : List UInt64) : ℕ := (words.map UInt64.toNat).sum

@[simp] theorem total_nil : total [] = 0 := rfl

@[simp] theorem total_cons (w : UInt64) (words : List UInt64) :
    total (w :: words) = w.toNat + total words := List.sum_cons

@[simp] theorem total_append (words words' : List UInt64) :
    total (words ++ words') = total words + total words' := by
  unfold total
  rw [List.map_append, List.sum_append]

theorem le_total {w : UInt64} {words : List UInt64} (h : w ∈ words) :
    w.toNat ≤ total words :=
  List.single_le_sum (fun _ _ => Nat.zero_le _) _ (List.mem_map_of_mem h)

theorem toNat_sum (words : List UInt64) : words.sum.toNat = total words % 2 ^ 64 := by
  induction words with
  | nil => rfl
  | cons w words ih =>
      rw [List.sum_cons, UInt64.toNat_add, ih, total_cons]
      omega

theorem toNat_sum_iff (words : List UInt64) :
    words.sum.toNat = total words ↔ total words < 2 ^ 64 := by
  rw [toNat_sum]
  constructor
  · intro h
    rw [← h]
    exact Nat.mod_lt _ (by decide)
  · exact Nat.mod_eq_of_lt

/-- Adding up in a loop. -/
theorem foldl_add {α : Type} (f : α → UInt64) (xs : List α) (start : UInt64) :
    xs.foldl (fun running x => running + f x) start = start + (xs.map f).sum := by
  induction xs generalizing start with
  | nil => simp
  | cons x xs ih => rw [List.foldl_cons, ih, List.map_cons, List.sum_cons,
      UInt64.add_assoc]

end Exchange.Framework
