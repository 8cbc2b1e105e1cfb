import Mathlib.Algebra.BigOperators.Group.List.Lemmas
import Mathlib.Algebra.Group.Basic

/-!
# Double entry

Entries move amounts to accounts. They come in pairs, one the opposite of the other, so
that they add up to zero, and what is on the accounts altogether is what was on them
when they were opened.
-/

namespace Exchange.Framework

variable {α G : Type} [AddCommGroup G]

/-- An amount for one account, and its opposite for another. -/
structure Pair (α G : Type) where
  first : α
  second : α
  amount : G
deriving DecidableEq, Repr

def Pair.entries (pair : Pair α G) : List (α × G) :=
  [(pair.first, pair.amount), (pair.second, -pair.amount)]

/-- Pairs add up to zero. -/
theorem sum_pairs (pairs : List (Pair α G)) :
    ((pairs.flatMap Pair.entries).map Prod.snd).sum = 0 := by
  induction pairs with
  | nil => rfl
  | cons pair pairs ih =>
      rw [List.flatMap_cons, List.map_append, List.sum_append, ih, Pair.entries]
      simp

variable [DecidableEq α]

/-- All that was moved to an account. -/
def moved (entries : List (α × G)) (account : α) : G :=
  (entries.map fun entry => if entry.1 = account then entry.2 else 0).sum

theorem moved_append (entries entries' : List (α × G)) (account : α) :
    moved (entries ++ entries') account = moved entries account + moved entries' account := by
  rw [moved, List.map_append, List.sum_append, moved, moved]

theorem moved_singleton (a account : α) (amount : G) :
    moved [(a, amount)] account = if a = account then amount else 0 := by
  rw [moved, List.map_singleton, List.sum_singleton]

/-- What was moved to the accounts one by one is what was moved altogether. -/
theorem sum_moved {accounts : List α} (hnodup : accounts.Nodup) {entries : List (α × G)}
    (h : ∀ entry ∈ entries, entry.1 ∈ accounts) :
    (accounts.map (moved entries)).sum = (entries.map Prod.snd).sum := by
  induction entries with
  | nil =>
      refine List.sum_eq_zero fun x hx => ?_
      obtain ⟨a, _, rfl⟩ := List.mem_map.mp hx
      rfl
  | cons entry entries ih =>
      obtain ⟨hentry, hrest⟩ := List.forall_mem_cons.mp h
      have hsplit : ∀ account, moved (entry :: entries) account =
          (if entry.1 = account then entry.2 else 0) + moved entries account :=
        fun account => by rw [moved, List.map_cons, List.sum_cons, moved]
      have hone : (accounts.map fun account => if entry.1 = account then entry.2 else 0).sum =
          entry.2 := by
        simp only [eq_comm (a := entry.1)]
        rw [List.sum_map_ite_eq, List.count_eq_one_of_mem hnodup hentry, one_nsmul]
        simp
      rw [funext hsplit, List.sum_map_add, hone, ih hrest, List.map_cons, List.sum_cons]

/-- **Money is neither made nor lost.** What the accounts hold is what they held when
they were opened. -/
theorem sum_balances {accounts : List (α × G)} (hnodup : (accounts.map Prod.fst).Nodup)
    {pairs : List (Pair α G)}
    (h : ∀ entry ∈ pairs.flatMap Pair.entries, entry.1 ∈ accounts.map Prod.fst) :
    (accounts.map fun a => a.2 + moved (pairs.flatMap Pair.entries) a.1).sum =
      (accounts.map Prod.snd).sum := by
  have hmoved := sum_moved hnodup h
  rw [List.map_map, sum_pairs] at hmoved
  rw [List.sum_map_add]
  exact add_eq_left.mpr hmoved

end Exchange.Framework
