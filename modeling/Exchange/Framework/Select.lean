import Mathlib.Data.List.Sort
import Mathlib.Order.Basic

/-!
# Selecting rows

Some rows of a table, in the order of a key and no more of them than a limit. A database
comes upon its rows in an order of its own, and where keys are equal that order shows: it
is a parameter here, and what can be said of every answer is `Selected`.
-/

namespace Exchange.Framework

variable {ρ ρ' κ : Type} [LinearOrder κ]

/-- `LIMIT`, or no limit. -/
def limited (limit : Option ℕ) (rows : List ρ) : List ρ :=
  match limit with
  | some n => rows.take n
  | none => rows

/-- `SELECT … WHERE p ORDER BY key LIMIT limit` over the rows in the order they are come
upon. -/
def select (p : ρ → Bool) (key : ρ → κ) (limit : Option ℕ) (scanned : List ρ) : List ρ :=
  limited limit ((scanned.filter p).insertionSort fun a b => key a ≤ key b)

/-- What may be answered when `rows` are asked for by the order of their keys. -/
structure Selected (key : ρ → κ) (limit : Option ℕ) (rows answer : List ρ) : Prop where
  sorted : answer.Pairwise fun a b => key a ≤ key b
  length : answer.length = limit.elim rows.length (min · rows.length)
  /-- Rows that are left out do not come before any that is not. -/
  others : ∃ left, (answer ++ left).Perm rows ∧ ∀ a ∈ answer, ∀ b ∈ left, key a ≤ key b

theorem length_limited (limit : Option ℕ) (rows : List ρ) :
    (limited limit rows).length = limit.elim rows.length (min · rows.length) := by
  cases limit with
  | none => rfl
  | some n => exact List.length_take

/-- What is beyond the limit. -/
theorem limited_append (limit : Option ℕ) (rows : List ρ) :
    ∃ left, limited limit rows ++ left = rows := by
  cases limit with
  | none => exact ⟨[], List.append_nil rows⟩
  | some n => exact ⟨rows.drop n, List.take_append_drop n rows⟩

/-- **However the rows are come upon, the answer is as it should be.** -/
theorem select_selected (p : ρ → Bool) (key : ρ → κ) (limit : Option ℕ)
    {scanned rows : List ρ} (h : scanned.Perm rows) :
    Selected key limit (rows.filter p) (select p key limit scanned) := by
  have htotal : Std.Total fun a b => key a ≤ key b := ⟨fun a b => le_total (key a) (key b)⟩
  have htrans : IsTrans ρ fun a b => key a ≤ key b := ⟨fun _ _ _ hab hbc => le_trans hab hbc⟩
  unfold select
  have hperm : ((scanned.filter p).insertionSort fun a b => key a ≤ key b).Perm
      (rows.filter p) := (List.perm_insertionSort _ _).trans (h.filter p)
  have hsorted := List.pairwise_insertionSort (fun a b => key a ≤ key b) (scanned.filter p)
  generalize (scanned.filter p).insertionSort (fun a b => key a ≤ key b) = sorted
    at hperm hsorted ⊢
  obtain ⟨left, hleft⟩ := limited_append limit sorted
  rw [← hleft, List.pairwise_append] at hsorted
  refine ⟨hsorted.1, ?_, left, ?_, hsorted.2.2⟩
  · rw [length_limited, hperm.length_eq]
  · rwa [hleft]

/-- Without a limit every row is in the answer. -/
theorem Selected.perm {key : ρ → κ} {rows answer : List ρ}
    (h : Selected key none rows answer) : answer.Perm rows := by
  obtain ⟨left, hperm, -⟩ := h.others
  have hlength := hperm.length_eq
  rw [List.length_append, h.length, Option.elim_none, Nat.add_eq_left] at hlength
  rwa [List.eq_nil_of_length_eq_zero hlength, List.append_nil] at hperm

/-- What the rows stand for is selected with them. -/
theorem Selected.map {f : ρ → ρ'} {key : ρ → κ} {key' : ρ' → κ} {limit : Option ℕ}
    {rows answer : List ρ} (hkey : ∀ row, key' (f row) = key row)
    (h : Selected key limit rows answer) :
    Selected key' limit (rows.map f) (answer.map f) := by
  obtain ⟨left, hperm, hothers⟩ := h.others
  refine ⟨?_, ?_, left.map f, ?_, ?_⟩
  · rw [List.pairwise_map]
    simpa only [hkey] using h.sorted
  · rw [List.length_map, List.length_map, h.length]
  · rw [← List.map_append]
    exact hperm.map f
  · simpa only [List.forall_mem_map, hkey] using hothers

end Exchange.Framework
