import Mathlib.Data.List.Nodup
import Mathlib.Data.List.Lemmas

/-!
# Tables with a primary key

Rows in the order they were inserted, no two with the same key. Inserting asks for a
proof that the key is new, and an update for one that it leaves the key alone, so that
a table is never anything but keyed.
-/

namespace Exchange.Framework

structure Table (κ ρ : Type) (key : ρ → κ) where
  rows : List ρ := []
  unique : (rows.map key).Nodup := by exact List.nodup_nil

namespace Table

variable {κ ρ : Type} {key : ρ → κ} (table : Table κ ρ key)

def keys : List κ := table.rows.map key

def insert (row : ρ) (h : key row ∉ table.keys) : Table κ ρ key where
  rows := table.rows ++ [row]
  unique := by
    rw [List.map_append, List.nodup_append]
    refine ⟨table.unique, List.nodup_singleton _, ?_⟩
    rintro k hk k' hk' rfl
    cases List.mem_singleton.mp hk'
    exact h hk

@[simp] theorem keys_insert {row : ρ} (h : key row ∉ table.keys) :
    (table.insert row h).keys = table.keys ++ [key row] :=
  List.map_append

variable [DecidableEq κ]

def find? (k : κ) : Option ρ := table.rows.find? fun row => key row = k

/-- Rows changed in place keep their keys. -/
theorem map_key_change (rows : List ρ) (k : κ) {f : ρ → ρ}
    (hf : ∀ row, key (f row) = key row) :
    (rows.map fun row => if key row = k then f row else row).map key = rows.map key := by
  rw [List.map_map]
  refine List.map_congr_left fun row _ => ?_
  dsimp only [Function.comp_apply]
  split
  · exact hf row
  · rfl

/-- Changes the row with a key, should there be one. -/
def update (k : κ) (f : ρ → ρ) (hf : ∀ row, key (f row) = key row) : Table κ ρ key where
  rows := table.rows.map fun row => if key row = k then f row else row
  unique := by
    rw [map_key_change table.rows k hf]
    exact table.unique

@[simp] theorem keys_update (k : κ) {f : ρ → ρ} (hf : ∀ row, key (f row) = key row) :
    (table.update k f hf).keys = table.keys :=
  map_key_change table.rows k hf

variable {table}

/-- The row with a key is the one that is found. -/
theorem find?_of_mem {row : ρ} (h : row ∈ table.rows) : table.find? (key row) = some row := by
  cases hfound : table.find? (key row) with
  | none => exact absurd (List.find?_eq_none.mp hfound row h) (by simp)
  | some found =>
      have hkey : key found = key row := by simpa using List.find?_some hfound
      exact congrArg some
        (List.inj_on_of_nodup_map table.unique (List.mem_of_find?_eq_some hfound) h hkey)

theorem filter_tag {β : Type} (k k' : κ) (l : List β) :
    (l.map (k, ·)).filter (·.1 = k') = if k = k' then l.map (k, ·) else [] := by
  by_cases h : k = k'
  · rw [if_pos h, List.filter_eq_self]
    intro x hx
    obtain ⟨_, _, rfl⟩ := List.mem_map.mp hx
    exact decide_eq_true h
  · rw [if_neg h, List.filter_eq_nil_iff]
    intro x hx
    obtain ⟨_, _, rfl⟩ := List.mem_map.mp hx
    simpa using h

/-- Of what the rows stand for, each marked with its row's key, the part with the key of
a row is what this row stands for. -/
theorem filter_tagged {β : Type} (f : ρ → List β) {row : ρ} (h : row ∈ table.rows) :
    (table.rows.flatMap fun row => (f row).map (key row, ·)).filter (·.1 = key row) =
      (f row).map (key row, ·) := by
  obtain ⟨rows, unique⟩ := table
  rw [List.filter_flatMap]
  simp only [filter_tag]
  induction rows with
  | nil => cases h
  | cons first rows ih =>
      obtain ⟨hfirst, hrest⟩ := List.nodup_cons.mp unique
      rw [List.flatMap_cons]
      rcases List.mem_cons.mp h with rfl | hrow
      · -- No later row has this key.
        have hnone : ∀ other ∈ rows,
            (if key other = key row then (f other).map (key other, ·) else []) = [] := by
          intro other hother
          refine if_neg fun hkey => hfirst ?_
          rw [← hkey]
          exact List.mem_map_of_mem hother
        rw [if_pos rfl, List.flatMap_eq_nil_iff.mpr hnone, List.append_nil]
      · have hne : key first ≠ key row := by
          intro hkey
          rw [hkey] at hfirst
          exact hfirst (List.mem_map_of_mem hrow)
        rw [if_neg hne, List.nil_append]
        exact ih hrest hrow

end Table

end Exchange.Framework
