import Mathlib.Data.List.Basic

/-!
# The bounded queue between threads

`ThreadSafeQueue`, each call as what it does in its critical section. A call that
blocks has no result until what its condition variable waits for holds.
-/

namespace Exchange

structure ThreadSafeQueue (α : Type) where
  capacity : ℕ
  items : List α := []
  closed : Bool := false

namespace ThreadSafeQueue

variable {α : Type}

def construct (capacity : ℕ) : ThreadSafeQueue α :=
  { capacity := if capacity = 0 then 1 else capacity }

/-- Waits until there is room or the queue closes, and says whether the value was
enqueued. -/
def push (q : ThreadSafeQueue α) (value : α) : Option (Bool × ThreadSafeQueue α) :=
  if q.closed then some (false, q)
  else if q.items.length < q.capacity then
    some (true, { q with items := q.items ++ [value] })
  else none

/-- Enqueues only if there is room right now. -/
def tryPush (q : ThreadSafeQueue α) (value : α) : Bool × ThreadSafeQueue α :=
  if q.closed ∨ q.capacity ≤ q.items.length then (false, q)
  else (true, { q with items := q.items ++ [value] })

/-- Waits until an item is available, or until the queue is closed and drained. -/
def pop (q : ThreadSafeQueue α) : Option (Option α × ThreadSafeQueue α) :=
  match q.items with
  | [] => if q.closed then some (none, q) else none
  | value :: items => some (some value, { q with items })

/-- Dequeues only if an item is available right now. -/
def tryPop (q : ThreadSafeQueue α) : Option α × ThreadSafeQueue α :=
  match q.items with
  | [] => (none, q)
  | value :: items => (some value, { q with items })

/-- Refuses further pushes. -/
def close (q : ThreadSafeQueue α) : ThreadSafeQueue α := { q with closed := true }

/-! ## The calls as a type -/

inductive Call (α : Type) : Type where
  | push (value : α)
  | tryPush (value : α)
  | pop
  | tryPop
  | close
deriving DecidableEq, Repr

/-- A call that took effect, with what it returns. -/
inductive Effect (α : Type) : Type where
  | push (value : α) (returned : Bool)
  | tryPush (value : α) (returned : Bool)
  | pop (returned : Option α)
  | tryPop (returned : Option α)
  | close
deriving DecidableEq, Repr

def perform (q : ThreadSafeQueue α) : Call α → Option (Effect α × ThreadSafeQueue α)
  | .push value => (q.push value).map fun (returned, q) => (.push value returned, q)
  | .tryPush value =>
      let (returned, q) := q.tryPush value
      some (.tryPush value returned, q)
  | .pop => q.pop.map fun (returned, q) => (.pop returned, q)
  | .tryPop =>
      let (returned, q) := q.tryPop
      some (.tryPop returned, q)
  | .close => some (.close, q.close)

/-- The value a push enqueued. -/
def Effect.accepts : Effect α → Option α
  | .push value true | .tryPush value true => some value
  | _ => none

/-- The value a pop returned. -/
def Effect.takes : Effect α → Option α
  | .pop returned | .tryPop returned => returned
  | _ => none

/-! ## What the calls do to the items -/

variable {q q' : ThreadSafeQueue α} {value : α}

theorem push_true (h : q.push value = some (true, q')) :
    q.closed = false ∧ q.items.length < q.capacity ∧
      q' = { q with items := q.items ++ [value] } := by
  unfold push at h
  split at h
  · cases h
  · split at h <;> cases h
    exact ⟨Bool.eq_false_iff.mpr ‹_›, ‹_›, rfl⟩

theorem push_false (h : q.push value = some (false, q')) : q.closed = true ∧ q' = q := by
  unfold push at h
  split at h
  · cases h
    exact ⟨‹_›, rfl⟩
  · split at h <;> cases h

theorem tryPush_true (h : q.tryPush value = (true, q')) :
    q.closed = false ∧ q.items.length < q.capacity ∧
      q' = { q with items := q.items ++ [value] } := by
  unfold tryPush at h
  split at h
  · cases h
  · rename_i hroom
    rw [not_or, Nat.not_le, Bool.not_eq_true] at hroom
    cases h
    exact ⟨hroom.1, hroom.2, rfl⟩

theorem tryPush_false (h : q.tryPush value = (false, q')) : q' = q := by
  unfold tryPush at h
  split at h <;> cases h
  rfl

theorem pop_some (h : q.pop = some (some value, q')) :
    q.items = value :: q'.items ∧ q' = { q with items := q'.items } := by
  unfold pop at h
  split at h
  · split at h <;> cases h
  · cases h
    exact ⟨‹_›, rfl⟩

theorem pop_none (h : q.pop = some (none, q')) :
    q.closed = true ∧ q.items = [] ∧ q' = q := by
  unfold pop at h
  split at h
  · split at h <;> cases h
    exact ⟨‹_›, ‹_›, rfl⟩
  · cases h

variable {call : Call α} {effect : Effect α}

variable (q) in
/-- Everything a call can do. -/
inductive Performs : Call α → Effect α → ThreadSafeQueue α → Prop where
  | push {value : α} (hopen : q.closed = false) (hroom : q.items.length < q.capacity) :
      Performs (.push value) (.push value true) { q with items := q.items ++ [value] }
  | tryPush {value : α} (hopen : q.closed = false) (hroom : q.items.length < q.capacity) :
      Performs (.tryPush value) (.tryPush value true) { q with items := q.items ++ [value] }
  | pop {value : α} {items : List α} (hitems : q.items = value :: items) :
      Performs .pop (.pop (some value)) { q with items }
  | tryPop {value : α} {items : List α} (hitems : q.items = value :: items) :
      Performs .tryPop (.tryPop (some value)) { q with items }
  | pushRefused {value : α} (hclosed : q.closed = true) :
      Performs (.push value) (.push value false) q
  | tryPushRefused {value : α} : Performs (.tryPush value) (.tryPush value false) q
  | drained (hclosed : q.closed = true) (hitems : q.items = []) :
      Performs .pop (.pop none) q
  | tryPopRefused : Performs .tryPop (.tryPop none) q
  | close : Performs .close .close q.close

theorem perform_cases (h : q.perform call = some (effect, q')) :
    q.Performs call effect q' := by
  cases call with
  | push value =>
      obtain ⟨⟨returned, q₁⟩, hpush, heq⟩ := Option.map_eq_some_iff.mp h
      cases heq
      cases returned with
      | true =>
          obtain ⟨hopen, hroom, rfl⟩ := push_true hpush
          exact .push hopen hroom
      | false =>
          obtain ⟨hclosed, rfl⟩ := push_false hpush
          exact .pushRefused hclosed
  | tryPush value =>
      cases hpush : q.tryPush value with
      | mk returned q₁ =>
          rw [perform, hpush] at h
          cases h
          cases returned with
          | true =>
              obtain ⟨hopen, hroom, rfl⟩ := tryPush_true hpush
              exact .tryPush hopen hroom
          | false =>
              obtain rfl := tryPush_false hpush
              exact .tryPushRefused
  | pop =>
      obtain ⟨⟨returned, q₁⟩, hpop, heq⟩ := Option.map_eq_some_iff.mp h
      cases heq
      cases returned with
      | some value =>
          obtain ⟨hitems, hq⟩ := pop_some hpop
          rw [hq]
          exact .pop hitems
      | none =>
          obtain ⟨hclosed, hitems, rfl⟩ := pop_none hpop
          exact .drained hclosed hitems
  | tryPop =>
      simp only [perform, ThreadSafeQueue.tryPop] at h
      split at h <;> cases h
      · exact .tryPopRefused
      · exact .tryPop ‹_›
  | close =>
      cases h
      exact .close

/-- What goes in goes in behind, and what comes out comes out in front. -/
theorem Performs.items (h : q.Performs call effect q') :
    q.items ++ effect.accepts.toList = effect.takes.toList ++ q'.items := by
  cases h with
  | push | tryPush => rfl
  | pop hitems | tryPop hitems =>
      rw [hitems]
      exact List.append_nil _
  | _ => exact List.append_nil _

theorem Performs.bounded (h : q.Performs call effect q')
    (hq : q.items.length ≤ q.capacity) :
    q'.items.length ≤ q'.capacity ∧ q'.capacity = q.capacity := by
  cases h with
  | push hopen hroom | tryPush hopen hroom =>
      rw [List.length_append]
      exact ⟨hroom, rfl⟩
  | pop hitems | tryPop hitems =>
      rw [hitems] at hq
      exact ⟨Nat.le_of_succ_le hq, rfl⟩
  | _ => exact ⟨hq, rfl⟩

theorem Performs.closed_iff (h : q.Performs call effect q') :
    q'.closed = true ↔ q.closed = true ∨ effect = .close := by
  cases h with
  | close => simp [ThreadSafeQueue.close]
  | _ => simp

/-- A closed queue accepts nothing. -/
theorem Performs.accepts_none (h : q.Performs call effect q') (hclosed : q.closed = true) :
    effect.accepts = none := by
  cases h with
  | push hopen | tryPush hopen =>
      rw [hclosed] at hopen
      cases hopen
  | _ => rfl

theorem Performs.pop_none (h : q.Performs call (.pop none) q') :
    q.closed = true ∧ q.items = [] := by
  cases h with
  | drained hclosed hitems => exact ⟨hclosed, hitems⟩

end ThreadSafeQueue

end Exchange
