import Mathlib.Tactic
import Mathlib.Data.Finmap

/-!
# A finite map that indexes a list

`Indexes m l`: the keys of the association list `l` are distinct and `m` holds
exactly its pairs. The relation is what a hash index over a linked structure
has to maintain; it does not see the order of `l`.
-/

namespace Exchange.Framework

variable {κ β : Type} [DecidableEq κ]

structure Indexes (m : Finmap fun _ : κ => β) (l : List (κ × β)) : Prop where
  nodup : (l.map Prod.fst).Nodup
  lookup_iff : ∀ k v, m.lookup k = some v ↔ (k, v) ∈ l

namespace Indexes

variable {m : Finmap fun _ : κ => β} {l l' : List (κ × β)} {k : κ} {v : β}

theorem nil : Indexes (∅ : Finmap fun _ : κ => β) [] :=
  ⟨List.nodup_nil, fun k v => by simp⟩

theorem perm (h : Indexes m l) (hp : l.Perm l') : Indexes m l' :=
  ⟨(hp.map Prod.fst).nodup h.nodup,
    fun k v => (h.lookup_iff k v).trans hp.mem_iff⟩

theorem mem_iff (h : Indexes m l) : k ∈ m ↔ k ∈ l.map Prod.fst := by
  rw [← Finmap.lookup_isSome, Option.isSome_iff_exists, List.mem_map]
  constructor
  · rintro ⟨v, hv⟩
    exact ⟨(k, v), (h.lookup_iff k v).mp hv, rfl⟩
  · rintro ⟨⟨_, v⟩, hv, rfl⟩
    exact ⟨v, (h.lookup_iff _ v).mpr hv⟩

theorem erase (h : Indexes m ((k, v) :: l)) : Indexes (m.erase k) l := by
  obtain ⟨hk, hnd⟩ := List.nodup_cons.mp h.nodup
  refine ⟨hnd, fun j w => ?_⟩
  by_cases hj : j = k
  · subst hj
    rw [Finmap.lookup_erase]
    refine ⟨fun h => by simp at h, fun hm => ?_⟩
    exact absurd (List.mem_map.mpr ⟨(j, w), hm, rfl⟩) hk
  · rw [Finmap.lookup_erase_ne hj, h.lookup_iff, List.mem_cons]
    refine ⟨fun h => h.resolve_left fun heq => hj (congrArg Prod.fst heq), Or.inr⟩

theorem insert (h : Indexes m l) (hk : k ∉ l.map Prod.fst) :
    Indexes (m.insert k v) ((k, v) :: l) := by
  refine ⟨List.nodup_cons.mpr ⟨hk, h.nodup⟩, fun j w => ?_⟩
  rw [List.mem_cons]
  by_cases hj : j = k
  · subst hj
    rw [Finmap.lookup_insert]
    constructor
    · intro heq
      cases heq
      exact Or.inl rfl
    · rintro (heq | hm)
      · cases heq
        rfl
      · exact absurd (List.mem_map.mpr ⟨(j, w), hm, rfl⟩) hk
  · rw [Finmap.lookup_insert_of_ne _ hj, h.lookup_iff]
    refine ⟨Or.inr, fun h => h.resolve_left fun heq => hj (congrArg Prod.fst heq)⟩

/-- The index holds one entry per list element. -/
theorem card_keys (h : Indexes m l) : m.keys.card = l.length := by
  have hkeys : m.keys = (l.map Prod.fst).toFinset := by
    ext k
    rw [Finmap.mem_keys, h.mem_iff, List.mem_toFinset]
  rw [hkeys, List.toFinset_card_of_nodup h.nodup, List.length_map]

end Indexes

end Exchange.Framework
