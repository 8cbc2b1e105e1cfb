import Mathlib.Tactic
import Mathlib.Order.Defs.Unbundled

/-!
# Ordered maps as strictly sorted association lists

The entry list is the map in iteration order, so walking outward from the
first key is list recursion. The operations are plain list functions with the
comparator as a parameter; `OrderedMap` packs an entry list with the proof
that it is strictly sorted, and every operation re-establishes it.
-/

namespace Exchange.Framework

variable {κ β γ : Type}

/-! ## Entry lists -/

namespace Entries

/-- Keys strictly ascending in the comparator. -/
def Sorted (lt : κ → κ → Prop) (l : List (κ × β)) : Prop :=
  l.Pairwise (fun a b => lt a.1 b.1)

section Operations

variable [DecidableEq κ]

def find? (k : κ) : List (κ × β) → Option β
  | [] => none
  | e :: l => if e.1 = k then some e.2 else find? k l

def modify (k : κ) (f : β → β) (l : List (κ × β)) : List (κ × β) :=
  l.map fun e => if e.1 = k then (e.1, f e.2) else e

def erase (k : κ) (l : List (κ × β)) : List (κ × β) :=
  l.filter fun e => e.1 ≠ k

/-- Insertion at the sorted position; a present key keeps its value. -/
def insert (lt : κ → κ → Prop) [DecidableRel lt] (k : κ) (v : β) :
    List (κ × β) → List (κ × β)
  | [] => [(k, v)]
  | e :: l =>
      if e.1 = k then e :: l
      else if lt k e.1 then (k, v) :: e :: l
      else e :: insert lt k v l

end Operations

variable {lt : κ → κ → Prop} {l : List (κ × β)} {k : κ} {v : β}

theorem Sorted.sublist {l' : List (κ × β)} (h : Sorted lt l) (hs : l'.Sublist l) :
    Sorted lt l' :=
  List.Pairwise.sublist hs h

theorem Sorted.nodup_keys [IsStrictOrder κ lt] (h : Sorted lt l) :
    (l.map Prod.fst).Nodup := by
  refine List.pairwise_map.mpr (h.imp ?_)
  intro a b hab heq
  exact irrefl_of lt b.1 (heq ▸ hab)

section Laws

variable [DecidableEq κ]

@[simp] theorem find?_nil : find? k ([] : List (κ × β)) = none := rfl

theorem find?_cons (e : κ × β) :
    find? k (e :: l) = if e.1 = k then some e.2 else find? k l := rfl

theorem mem_of_find? : ∀ {l : List (κ × β)}, find? k l = some v → (k, v) ∈ l
  | [], h => by simp at h
  | e :: l, h => by
      rw [find?_cons] at h
      by_cases hk : e.1 = k
      · rw [if_pos hk] at h
        cases h
        subst hk
        exact List.mem_cons_self
      · rw [if_neg hk] at h
        exact List.mem_cons_of_mem _ (mem_of_find? h)

theorem find?_eq_none : ∀ {l : List (κ × β)},
    find? k l = none ↔ ∀ e ∈ l, e.1 ≠ k
  | [] => by simp
  | e :: l => by
      rw [find?_cons]
      by_cases hk : e.1 = k
      · simp [hk]
      · simp [hk, find?_eq_none (l := l)]

theorem find?_of_mem : ∀ {l : List (κ × β)}, (l.map Prod.fst).Nodup →
    (k, v) ∈ l → find? k l = some v
  | [], _, h => absurd h List.not_mem_nil
  | e :: l, hnd, h => by
      rw [List.map_cons, List.nodup_cons] at hnd
      rw [find?_cons]
      rcases List.mem_cons.mp h with rfl | h
      · rw [if_pos rfl]
      · have hne : e.1 ≠ k := fun hk =>
          hnd.1 (hk ▸ List.mem_map.mpr ⟨(k, v), h, rfl⟩)
        rw [if_neg hne]
        exact find?_of_mem hnd.2 h

theorem Sorted.find?_eq_some [IsStrictOrder κ lt] (h : Sorted lt l) :
    find? k l = some v ↔ (k, v) ∈ l :=
  ⟨mem_of_find?, find?_of_mem h.nodup_keys⟩

theorem modify_keys (f : β → β) :
    (modify k f l).map Prod.fst = l.map Prod.fst := by
  unfold modify
  rw [List.map_map]
  refine List.map_congr_left fun e _ => ?_
  by_cases hk : e.1 = k <;> simp [hk]

theorem Sorted.modify (f : β → β) (h : Sorted lt l) :
    Sorted lt (Entries.modify k f l) := by
  have hkeys : (l.map Prod.fst).Pairwise lt := List.pairwise_map.mpr h
  rw [← modify_keys (k := k) f] at hkeys
  exact List.pairwise_map.mp hkeys

theorem modify_eq_self (f : β → β) (h : ∀ e ∈ l, e.1 ≠ k) : modify k f l = l := by
  unfold modify
  conv_rhs => rw [← List.map_id l]
  exact List.map_congr_left fun e he => by simp [h e he]

section Split

variable {l₁ l₂ : List (κ × β)}

theorem split_of_find? (h : find? k l = some v) : ∃ l₁ l₂, l = l₁ ++ (k, v) :: l₂ :=
  List.append_of_mem (mem_of_find? h)

omit [DecidableEq κ] in
theorem key_ne_of_split (h : ((l₁ ++ (k, v) :: l₂).map Prod.fst).Nodup) :
    (∀ e ∈ l₁, e.1 ≠ k) ∧ ∀ e ∈ l₂, e.1 ≠ k := by
  simp only [List.map_append, List.map_cons, List.nodup_append,
    List.nodup_cons, List.mem_cons, List.mem_map] at h
  refine ⟨fun e he heq => ?_, fun e he heq => h.2.1.1 ⟨e, he, heq⟩⟩
  exact h.2.2 e.1 ⟨e, he, rfl⟩ k (Or.inl rfl) heq

/-- In a list with distinct keys a modification touches one entry. -/
theorem modify_split (f : β → β) (h : ((l₁ ++ (k, v) :: l₂).map Prod.fst).Nodup) :
    modify k f (l₁ ++ (k, v) :: l₂) = l₁ ++ (k, f v) :: l₂ := by
  obtain ⟨h₁, h₂⟩ := key_ne_of_split h
  have hsplit : modify k f (l₁ ++ (k, v) :: l₂) =
      modify k f l₁ ++ (k, f v) :: modify k f l₂ := by
    simp [modify]
  rw [hsplit, modify_eq_self f h₁, modify_eq_self f h₂]

theorem erase_split (h : ((l₁ ++ (k, v) :: l₂).map Prod.fst).Nodup) :
    erase k (l₁ ++ (k, v) :: l₂) = l₁ ++ l₂ := by
  obtain ⟨h₁, h₂⟩ := key_ne_of_split h
  unfold erase
  rw [List.filter_append, List.filter_cons_of_neg (by simp),
    List.filter_eq_self.mpr (by simpa using h₁),
    List.filter_eq_self.mpr (by simpa using h₂)]

end Split

theorem insert_split (lt : κ → κ → Prop) [DecidableRel lt] (v : β)
    (h : find? k l = none) :
    ∃ l₁ l₂, l = l₁ ++ l₂ ∧ insert lt k v l = l₁ ++ (k, v) :: l₂ := by
  induction l with
  | nil => exact ⟨[], [], rfl, rfl⟩
  | cons a l ih =>
      have hne := (find?_eq_none.mp h) a List.mem_cons_self
      rw [insert, if_neg hne]
      by_cases hlt : lt k a.1
      · rw [if_pos hlt]
        exact ⟨[], a :: l, rfl, rfl⟩
      · rw [if_neg hlt]
        obtain ⟨l₁, l₂, hl, hi⟩ := ih (find?_eq_none.mpr fun b hb =>
          find?_eq_none.mp h b (List.mem_cons_of_mem _ hb))
        exact ⟨a :: l₁, l₂, by rw [hl, List.cons_append], by rw [hi, List.cons_append]⟩

theorem insert_map [DecidableRel lt] (k : κ) (v : β) (f : β → γ) : ∀ l : List (κ × β),
    insert lt k (f v) (l.map fun e => (e.1, f e.2)) =
      (insert lt k v l).map fun e => (e.1, f e.2)
  | [] => rfl
  | a :: l => by
      rw [List.map_cons, insert, insert]
      by_cases hk : a.1 = k
      · simp [hk]
      · by_cases hlt : lt k a.1
        · simp [hk, hlt]
        · simp [hk, hlt, insert_map k v f l]

theorem mem_insert [DecidableRel lt] (h : find? k l = none) (e : κ × β) :
    e ∈ insert lt k v l ↔ e = (k, v) ∨ e ∈ l := by
  induction l with
  | nil => simp [insert]
  | cons a l ih =>
      have hne := (find?_eq_none.mp h) a List.mem_cons_self
      have ih' := ih (find?_eq_none.mpr fun b hb =>
        find?_eq_none.mp h b (List.mem_cons_of_mem _ hb))
      rw [insert, if_neg hne]
      by_cases hlt : lt k a.1
      · rw [if_pos hlt, List.mem_cons]
      · rw [if_neg hlt, List.mem_cons, ih', List.mem_cons]
        tauto

theorem insert_of_find? [DecidableRel lt] [IsStrictOrder κ lt]
    (hs : Sorted lt l) {w : β} (h : find? k l = some w) : insert lt k v l = l := by
  induction l with
  | nil => simp at h
  | cons a l ih =>
      rw [insert]
      by_cases hk : a.1 = k
      · rw [if_pos hk]
      · rw [find?_cons, if_neg hk] at h
        have hak : lt a.1 k :=
          (List.pairwise_cons.mp hs).1 (k, w) (mem_of_find? h)
        have hnlt : ¬ lt k a.1 := fun hka => irrefl_of lt k (trans_of lt hka hak)
        rw [if_neg hk, if_neg hnlt, ih (List.pairwise_cons.mp hs).2 h]

theorem Sorted.insert [DecidableRel lt] [IsStrictTotalOrder κ lt]
    (hs : Sorted lt l) : Sorted lt (Entries.insert lt k v l) := by
  cases hf : find? k l with
  | some w => rw [insert_of_find? hs hf]; exact hs
  | none =>
      induction l with
      | nil => exact List.pairwise_singleton _ _
      | cons a l ih =>
          have hne := (find?_eq_none.mp hf) a List.mem_cons_self
          have hfl : find? k l = none := find?_eq_none.mpr fun b hb =>
            find?_eq_none.mp hf b (List.mem_cons_of_mem _ hb)
          obtain ⟨ha, hl⟩ := List.pairwise_cons.mp hs
          rw [Entries.insert, if_neg hne]
          by_cases hlt : lt k a.1
          · rw [if_pos hlt]
            refine List.pairwise_cons.mpr ⟨?_, hs⟩
            intro b hb
            rcases List.mem_cons.mp hb with rfl | hb
            · exact hlt
            · exact trans_of lt hlt (ha b hb)
          · rw [if_neg hlt]
            refine List.pairwise_cons.mpr ⟨?_, ih hl hfl⟩
            intro b hb
            rcases (mem_insert hfl b).mp hb with rfl | hb
            · rcases trichotomous_of lt a.1 k with h | h | h
              · exact h
              · exact absurd h hne
              · exact absurd h hlt
            · exact ha b hb

end Laws

/-! ## Corresponding entry lists -/

section Alike

variable {κ' : Type} [DecidableEq κ] [DecidableEq κ'] {f : κ → κ'} {V : β → γ → Prop}
  {l : List (κ × β)} {l' : List (κ' × γ)} {k : κ}

/-- Entry by entry, the keys correspond under `f` and the values by `V`. -/
def Alike (f : κ → κ') (V : β → γ → Prop) : List (κ × β) → List (κ' × γ) → Prop :=
  List.Forall₂ fun e e' => e'.1 = f e.1 ∧ V e.2 e'.2

theorem Alike.find? (hf : f.Injective) (h : Alike f V l l') (k : κ) :
    Option.Rel V (Entries.find? k l) (Entries.find? (f k) l') := by
  induction h with
  | nil => exact .none
  | @cons e e' _ _ he _ ih =>
      rw [find?_cons, find?_cons, he.1]
      by_cases hk : e.1 = k
      · rw [if_pos hk, if_pos (congrArg f hk)]
        exact .some he.2
      · rw [if_neg hk, if_neg (hf.ne hk)]
        exact ih

theorem Alike.modify (hf : f.Injective) (h : Alike f V l l') {g : β → β} {g' : γ → γ}
    (hg : ∀ v v', V v v' → V (g v) (g' v')) :
    Alike f V (Entries.modify k g l) (Entries.modify (f k) g' l') := by
  induction h with
  | nil => exact .nil
  | @cons e e' _ _ he _ ih =>
      refine .cons ?_ ih
      by_cases hk : e.1 = k
      · have hk' : e'.1 = f k := he.1.trans (congrArg f hk)
        simp only [if_pos hk, if_pos hk']
        exact ⟨he.1, hg _ _ he.2⟩
      · have hk' : ¬ e'.1 = f k := fun heq => hk (hf (he.1.symm.trans heq))
        simp only [if_neg hk, if_neg hk']
        exact he

theorem Alike.erase (hf : f.Injective) (h : Alike f V l l') :
    Alike f V (Entries.erase k l) (Entries.erase (f k) l') := by
  induction h with
  | nil => exact .nil
  | @cons e e' _ _ he _ ih =>
      unfold Entries.erase
      rw [List.filter_cons, List.filter_cons, he.1]
      by_cases hk : e.1 = k
      · simp only [hk, ne_eq, not_true_eq_false, decide_false, Bool.false_eq_true, if_false]
        exact ih
      · have hk' := hf.ne hk
        simp only [hk, hk', ne_eq, not_false_eq_true, decide_true, if_true]
        exact .cons he ih

theorem Alike.insert {lt : κ → κ → Prop} {lt' : κ' → κ' → Prop} [DecidableRel lt]
    [DecidableRel lt'] (hf : f.Injective) (hlt : ∀ a b, lt' (f a) (f b) ↔ lt a b)
    (h : Alike f V l l') {v : β} {v' : γ} (hv : V v v') :
    Alike f V (Entries.insert lt k v l) (Entries.insert lt' (f k) v' l') := by
  induction h with
  | nil => exact .cons ⟨rfl, hv⟩ .nil
  | @cons e e' _ _ he hl ih =>
      unfold Entries.insert
      rw [he.1]
      by_cases hk : e.1 = k
      · rw [if_pos hk, if_pos (congrArg f hk)]
        exact .cons he hl
      · rw [if_neg hk, if_neg (hf.ne hk)]
        by_cases hless : lt k e.1
        · rw [if_pos hless, if_pos ((hlt _ _).mpr hless)]
          exact .cons ⟨rfl, hv⟩ (.cons he hl)
        · rw [if_neg hless, if_neg ((hlt _ _).not.mpr hless)]
          exact .cons he ih

omit [DecidableEq κ] [DecidableEq κ'] in
theorem Alike.dropWhile (h : Alike f V l l') {p : β → Bool} {p' : γ → Bool}
    (hp : ∀ v v', V v v' → p' v' = p v) :
    Alike f V (l.dropWhile fun e => p e.2) (l'.dropWhile fun e => p' e.2) := by
  induction h with
  | nil => exact .nil
  | @cons e e' _ _ he hl ih =>
      rw [List.dropWhile_cons, List.dropWhile_cons, hp _ _ he.2]
      split
      · exact ih
      · exact .cons he hl

end Alike

end Entries

/-! ## The packed map -/

/-- An ordered map: its entries, and the proof that they are in order. -/
structure OrderedMap (κ β : Type) (lt : κ → κ → Prop) where
  entries : List (κ × β)
  sorted : Entries.Sorted lt entries

namespace OrderedMap

variable {lt : κ → κ → Prop}

@[ext] theorem ext {m n : OrderedMap κ β lt} (h : m.entries = n.entries) : m = n := by
  cases m
  cases n
  cases h
  rfl

variable [DecidableEq κ]

instance [DecidableEq β] : DecidableEq (OrderedMap κ β lt) := fun m n =>
  decidable_of_iff (m.entries = n.entries) ⟨ext, fun h => h ▸ rfl⟩

def empty : OrderedMap κ β lt := ⟨[], List.Pairwise.nil⟩

def find? (m : OrderedMap κ β lt) (k : κ) : Option β := Entries.find? k m.entries

def modify (m : OrderedMap κ β lt) (k : κ) (f : β → β) : OrderedMap κ β lt :=
  ⟨Entries.modify k f m.entries, m.sorted.modify f⟩

def erase (m : OrderedMap κ β lt) (k : κ) : OrderedMap κ β lt :=
  ⟨Entries.erase k m.entries, m.sorted.sublist List.filter_sublist⟩

def insert [DecidableRel lt] [IsStrictTotalOrder κ lt] (m : OrderedMap κ β lt)
    (k : κ) (v : β) : OrderedMap κ β lt :=
  ⟨Entries.insert lt k v m.entries, m.sorted.insert⟩

/-- The entries from the first up to `upper_bound(k)`: none of them lies behind `k`. -/
def upTo [DecidableRel lt] (m : OrderedMap κ β lt) (k : κ) : List (κ × β) :=
  m.entries.takeWhile fun e => ¬ lt k e.1

/-- Discard entries from the front while their value satisfies `p`. -/
def dropWhile (m : OrderedMap κ β lt) (p : β → Bool) : OrderedMap κ β lt :=
  ⟨m.entries.dropWhile fun e => p e.2, m.sorted.sublist (List.dropWhile_sublist _)⟩

end OrderedMap

end Exchange.Framework
