import Mathlib.Algebra.BigOperators.Group.Finset.Basic
import Mathlib.Algebra.Order.BigOperators.Group.Finset

/-!
# Adding up over threads

A table gives every thread its state. A weight of states, with values in any
commutative monoid, is added up over a finite set of threads; when one thread
moves, the sum changes by what that thread contributes.
-/

namespace Exchange.Framework

variable {ι τ M : Type} [AddCommMonoid M] (threads : Finset ι) (weight : τ → M)

def tally (table : ι → τ) : M := ∑ t ∈ threads, weight (table t)

theorem tally_update [DecidableEq ι] {t : ι} (ht : t ∈ threads) (table : ι → τ) (a : τ) :
    tally threads weight (Function.update table t a) + weight (table t) =
      tally threads weight table + weight a := by
  have hrest : ∑ u ∈ threads.erase t, weight (Function.update table t a u) =
      ∑ u ∈ threads.erase t, weight (table u) := by
    refine Finset.sum_congr rfl fun u hu => ?_
    rw [Function.update_of_ne (Finset.ne_of_mem_erase hu)]
  rw [tally, tally, ← Finset.add_sum_erase _ _ ht, ← Finset.add_sum_erase _ _ ht, hrest,
    Function.update_self, add_comm, ← add_assoc, add_right_comm]

variable {weight}

theorem tally_eq_zero {table : ι → τ} (h : ∀ t ∈ threads, weight (table t) = 0) :
    tally threads weight table = 0 :=
  Finset.sum_eq_zero h

end Exchange.Framework
