import Exchange.Framework.Loop

/-!
# Iterators

An iterator of a container that is not changed is a place in it, and it knows which
container that is: reading through it, moving it on and comparing it have no result
(`none`) where the operation has no meaning, which is at a value-initialised iterator,
past the last element, or between iterators of two containers.

The second part is about forward iteration in general: a relation that tells what is ahead
of an iterator (`Traverses`) settles where any number of moves leads. An algorithm over a
range is a loop of its own (`Walk.each`), and the same relation tells what it computes. The
last part counts the places of a list of lists, which is what an iterator over nested
containers walks through.
-/

namespace Exchange.Framework

/-! ## Iterators of containers -/

/-- An iterator of one of the containers `κ` names. The place behind the last element is
the container's `end()`. -/
inductive Iterator (κ : Type) : Type where
  | singular
  | into (owner : κ) (place : ℕ)
deriving DecidableEq, Repr

namespace Iterator

variable {κ α : Type} (contents : κ → List α)

def first (owner : κ) : Iterator κ := .into owner 0

def last (owner : κ) : Iterator κ := .into owner (contents owner).length

def deref : Iterator κ → Option α
  | .singular => none
  | .into owner place => (contents owner)[place]?

def next : Iterator κ → Option (Iterator κ)
  | .singular => none
  | .into owner place =>
      if place < (contents owner).length then some (.into owner (place + 1)) else none

/-- Two value-initialised iterators are equal; others are compared within a container. -/
def equals [DecidableEq κ] : Iterator κ → Iterator κ → Option Bool
  | .singular, .singular => some true
  | .into owner place, .into owner' place' =>
      if owner = owner' then some (decide (place = place')) else none
  | _, _ => none

/-- How many places an iterator may still be moved on. -/
def room : Iterator κ → ℕ
  | .singular => 0
  | .into owner place => (contents owner).length - place

variable {contents}

theorem next_into {owner : κ} {place : ℕ} (h : place < (contents owner).length) :
    (Iterator.into owner place).next contents = some (.into owner (place + 1)) :=
  if_pos h

theorem room_next {it it' : Iterator κ} (h : it.next contents = some it') :
    it'.room contents < it.room contents := by
  cases it with
  | singular => cases h
  | into owner place =>
      rw [next] at h
      split at h
      · cases h
        show (contents owner).length - (place + 1) < (contents owner).length - place
        omega
      · cases h

@[simp] theorem equals_into [DecidableEq κ] (owner : κ) (place place' : ℕ) :
    (Iterator.into owner place).equals (.into owner place') =
      some (decide (place = place')) :=
  if_pos rfl

end Iterator

/-! ## Forward iteration -/

section Forward

variable {ι α : Type}

/-- Move on `n` times. -/
def steps (next : ι → Option ι) : ℕ → ι → Option ι
  | 0, it => some it
  | n + 1, it => (next it).bind (steps next n)

/-- `R` tells what is ahead of an iterator: to move on is to leave the first of it behind,
and where nothing is ahead is `stop`, which cannot be moved. -/
structure Traverses (next : ι → Option ι) (stop : ι) (R : ι → List α → Prop) : Prop where
  nil : ∀ {it : ι}, R it [] → it = stop
  cons : ∀ {it : ι} {x : α} {xs : List α}, R it (x :: xs) →
    ∃ it', next it = some it' ∧ R it' xs
  stuck : next stop = none

namespace Traverses

variable {next : ι → Option ι} {stop : ι} {R : ι → List α → Prop}

/-- After `k` moves the first `k` elements are behind. -/
theorem steps_drop (T : Traverses next stop R) {xs : List α} {it : ι} (h : R it xs)
    {k : ℕ} (hk : k ≤ xs.length) : ∃ it', steps next k it = some it' ∧ R it' (xs.drop k) := by
  induction k generalizing it xs with
  | zero => exact ⟨it, rfl, h⟩
  | succ k ih =>
      cases xs with
      | nil => exact absurd hk (Nat.not_succ_le_zero k)
      | cons x xs =>
          obtain ⟨it', hnext, h'⟩ := T.cons h
          obtain ⟨it'', hsteps, hrest⟩ := ih h' (Nat.le_of_succ_le_succ hk)
          refine ⟨it'', ?_, hrest⟩
          rw [steps, hnext]
          exact hsteps

/-- `stop` is reached after as many moves as there are elements ahead, and after no other
number of them. -/
theorem steps_eq_stop (T : Traverses next stop R) {xs : List α} {it : ι} (h : R it xs)
    {n : ℕ} : steps next n it = some stop ↔ n = xs.length := by
  induction xs generalizing it n with
  | nil =>
      rw [T.nil h]
      cases n with
      | zero => simp [steps]
      | succ n => simp [steps, T.stuck]
  | cons x xs ih =>
      obtain ⟨it', hnext, h'⟩ := T.cons h
      cases n with
      | zero =>
          constructor
          · intro hstop
            -- `stop` itself has nothing to move on to
            rw [Option.some.inj hstop, T.stuck] at hnext
            cases hnext
          · intro hn
            cases hn
      | succ n =>
          rw [steps, hnext, Option.bind_some, ih h', List.length_cons]
          omega

end Traverses

/-- What an algorithm over a range needs of its iterators. -/
structure Walk (ι : Type) where
  next : ι → Option ι
  equals : ι → ι → Option Bool
  size : ι → ℕ
  decreases : ∀ it it', next it = some it' → size it' < size it

namespace Walk

variable {β : Type} (W : Walk ι) (last : ι) (f : β → ι → Option β)

def eachTurn (s : β × ι) : Turn (β × ι) (Option β) :=
  match W.equals s.2 last with
  | none => .done none
  | some true => .done (some s.1)
  | some false =>
      match f s.1 s.2, W.next s.2 with
      | some acc, some it => .next (acc, it)
      | _, _ => .done none

def eachLoop : Loop (β × ι) (Option β) where
  body := W.eachTurn last f
  rank s := W.size s.2
  decreases s s' h := by
    unfold eachTurn at h
    split at h
    · cases h
    · cases h
    · split at h
      · rename_i hnext
        cases h
        exact W.decreases _ _ hnext
      · cases h

/-- `for (; first != last; ++first) acc = f(acc, first);` -/
def each (acc : β) (first : ι) : Option β := (W.eachLoop last f).run (acc, first)

variable {W last f}

/-- **Range rule.** `I` relates what the loop holds to the elements it has read. If the
body keeps it at every element, it holds of all of them where the loop leaves. -/
theorem each_induction {R : ι → List α → Prop} {I : β → List α → Prop}
    (hequals : ∀ {it xs}, R it xs → W.equals it last = some xs.isEmpty)
    (hnext : ∀ {it x xs}, R it (x :: xs) → ∃ it', W.next it = some it' ∧ R it' xs)
    (hbody : ∀ {acc read it x xs}, I acc read → R it (x :: xs) →
      ∃ acc', f acc it = some acc' ∧ I acc' (read ++ [x]))
    {acc : β} {first : ι} {read xs : List α} (hacc : I acc read) (hfirst : R first xs) :
    ∃ acc', W.each last f acc first = some acc' ∧ I acc' (read ++ xs) := by
  induction xs generalizing acc first read with
  | nil =>
      refine ⟨acc, Loop.run_done _ ?_, (List.append_nil read).symm ▸ hacc⟩
      show W.eachTurn last f (acc, first) = _
      rw [eachTurn, hequals hfirst]
      rfl
  | cons x xs ih =>
      obtain ⟨acc', hf, hacc'⟩ := hbody hacc hfirst
      obtain ⟨it', hmove, hit'⟩ := hnext hfirst
      obtain ⟨result, hresult, hI⟩ := ih hacc' hit'
      rw [List.append_assoc] at hI
      refine ⟨result, ?_, hI⟩
      rw [← hresult]
      refine Loop.run_next _ ?_
      show W.eachTurn last f (acc, first) = _
      rw [eachTurn, hequals hfirst]
      simp only [List.isEmpty_cons, hf, hmove]

end Walk

end Forward

/-! ## Places in a list of lists -/

section Nested

variable {α : Type} {xss : List (List α)} {xs : List α} {x : α} {l k l' k' : ℕ}

/-- What lies ahead of place `k` of the list at place `l`. -/
def ahead (xss : List (List α)) (l k : ℕ) : List α :=
  (xss[l]?.getD []).drop k ++ (xss.drop (l + 1)).flatten

theorem ahead_start (xss : List (List α)) (l : ℕ) : ahead xss l 0 = (xss.drop l).flatten := by
  unfold ahead
  cases h : xss[l]? with
  | none =>
      have hle := List.getElem?_eq_none_iff.mp h
      rw [List.drop_of_length_le hle, List.drop_of_length_le (Nat.le_succ_of_le hle)]
      rfl
  | some xs =>
      obtain ⟨hlt, rfl⟩ := List.getElem?_eq_some_iff.mp h
      rw [List.drop_eq_getElem_cons hlt]
      rfl

theorem ahead_cons (hl : xss[l]? = some xs) (hk : xs[k]? = some x) :
    ahead xss l k = x :: ahead xss l (k + 1) := by
  obtain ⟨hlt, rfl⟩ := List.getElem?_eq_some_iff.mp hk
  unfold ahead
  rw [hl, Option.getD_some, List.drop_eq_getElem_cons hlt]
  rfl

/-- Behind the last place of a list is the first of the next. -/
theorem ahead_length (hl : xss[l]? = some xs) :
    ahead xss l xs.length = ahead xss (l + 1) 0 := by
  rw [ahead_start, ahead, hl, Option.getD_some, List.drop_length, List.nil_append]

theorem length_ahead (hl : xss[l]? = some xs) :
    (ahead xss l k).length = (xs.length - k) + (xss.drop (l + 1)).flatten.length := by
  rw [ahead, hl, Option.getD_some, List.length_append, List.length_drop]

theorem length_ahead_le (xss : List (List α)) (l k : ℕ) :
    (ahead xss l k).length ≤ (xss.drop l).flatten.length := by
  rw [← ahead_start]
  unfold ahead
  rw [List.length_append, List.length_append, List.length_drop, List.length_drop]
  omega

/-- An earlier list has more ahead of each of its elements. -/
theorem length_ahead_lt (hl : xss[l]? = some xs) (hk : k < xs.length) (hlt : l < l') :
    (ahead xss l' k').length < (ahead xss l k).length := by
  have hdrop : (xss.drop l').Sublist (xss.drop (l + 1)) := by
    rw [← Nat.add_sub_cancel' hlt, ← List.drop_drop]
    exact List.drop_sublist _ _
  have hlater := length_ahead_le xss l' k'
  have hle := hdrop.flatten.length_le
  rw [length_ahead hl]
  omega

end Nested

end Exchange.Framework
