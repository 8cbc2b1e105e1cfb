import Exchange.Concurrent.ThreadSafeQueue
import Exchange.Framework.Monitor

/-!
# The queue under any interleaving

`ThreadSafeQueue` is a monitor: a mutex around its fields, and one condition
variable for each direction. Any number of threads make any of its calls. What the
values that went in and came out have to do with each other follows from what one
critical section does; that nobody sleeps through what it waits for follows from
the notifications a call posts after it.
-/

namespace Exchange.ThreadSafeQueue

open Framework

variable {α : Type}

inductive Condition : Type where
  | notEmpty
  | notFull
deriving DecidableEq, Repr

/-- Only the blocking calls wait. -/
def Call.waitsOn : Call α → Option Condition
  | .push _ => some .notFull
  | .pop => some .notEmpty
  | _ => none

/-- What is notified after the mutex has been released. A call that was refused or
found nothing returns without. -/
def Effect.notifies : Effect α → List (Notify Condition)
  | .push _ true | .tryPush _ true => [.one .notEmpty]
  | .pop (some _) | .tryPop (some _) => [.one .notFull]
  | .close => [.all .notEmpty, .all .notFull]
  | _ => []

def monitor (α : Type) : Monitor (ThreadSafeQueue α) (Call α) (Effect α) Condition where
  perform := perform
  waitsOn := Call.waitsOn
  notifies := Effect.notifies

/-- `n` threads at a queue, after the steps of `labels`. -/
def run (n capacity : ℕ) (labels : List (Monitor.Label (Call α) n)) :
    Option (Monitored (ThreadSafeQueue α) (Call α) (Effect α) Condition n) :=
  (monitor α).machine.run { shared := .construct capacity } labels

/-! ## First in, first out -/

/-- The values whose `push` or `tryPush` returned true, in that order. -/
def accepted (effects : List (Effect α)) : List α := effects.filterMap Effect.accepts

/-- The values that `pop` and `tryPop` returned, in that order. -/
def taken (effects : List (Effect α)) : List α := effects.filterMap Effect.takes

theorem accepted_snoc (effects : List (Effect α)) (effect : Effect α) :
    accepted (effects ++ [effect]) = accepted effects ++ effect.accepts.toList := by
  rw [accepted, List.filterMap_append]
  cases h : effect.accepts <;> simp [accepted, h]

theorem taken_snoc (effects : List (Effect α)) (effect : Effect α) :
    taken (effects ++ [effect]) = taken effects ++ effect.takes.toList := by
  rw [taken, List.filterMap_append]
  cases h : effect.takes <;> simp [taken, h]

/-- What an effect may be, given those before it. -/
def InOrder (before : List (Effect α)) (effect : Effect α) : Prop :=
  (.close ∈ before → effect.accepts = none) ∧
  (effect = .pop none → .close ∈ before ∧ taken before = accepted before)

/-- The queue together with all that has been done to it. -/
structure Accounted (capacity : ℕ) (q : ThreadSafeQueue α) (effects : List (Effect α)) :
    Prop where
  fifo : accepted effects = taken effects ++ q.items
  bounded : q.items.length ≤ q.capacity
  capacity_eq : q.capacity = if capacity = 0 then 1 else capacity
  closed : q.closed = true ↔ .close ∈ effects
  inOrder : ∀ before effect after, effects = before ++ effect :: after →
    InOrder before effect

theorem accounted_start (capacity : ℕ) :
    Accounted capacity (.construct capacity : ThreadSafeQueue α) [] where
  fifo := rfl
  bounded := Nat.zero_le _
  capacity_eq := rfl
  closed := ⟨nofun, nofun⟩
  inOrder before effect after h := by simp at h

theorem Accounted.perform {capacity : ℕ} {q q' : ThreadSafeQueue α}
    {effects : List (Effect α)} {call : Call α} {effect : Effect α}
    (h : Accounted capacity q effects) (hp : q.Performs call effect q') :
    Accounted capacity q' (effects ++ [effect]) := by
  obtain ⟨hbounded, hcapacity⟩ := hp.bounded h.bounded
  refine ⟨?_, hbounded, hcapacity.trans h.capacity_eq, ?_, ?_⟩
  · rw [accepted_snoc, taken_snoc, h.fifo, List.append_assoc, List.append_assoc, hp.items]
  · rw [hp.closed_iff, h.closed, List.mem_append, List.mem_singleton, eq_comm (a := effect)]
  · intro before e after hsplit
    -- Either the effect is the new one, or it stood there before.
    rcases List.eq_nil_or_concat after with rfl | ⟨after, last, rfl⟩
    · obtain ⟨rfl, heq⟩ := List.append_inj' hsplit rfl
      cases heq
      refine ⟨fun hmem => hp.accepts_none (h.closed.mpr hmem), ?_⟩
      rintro rfl
      obtain ⟨hclosed, hitems⟩ := hp.pop_none
      exact ⟨h.closed.mp hclosed, by rw [h.fifo, hitems, List.append_nil]⟩
    · rw [List.concat_eq_append, ← List.cons_append, ← List.append_assoc] at hsplit
      exact h.inOrder before e after (List.append_inj' hsplit rfl).1

/-- **A bounded FIFO.** However any number of threads interleave their calls: what
came out is a prefix of what went in, and the rest is in the queue; the queue stays
within its capacity; no push takes effect after a close and returns true; and `pop`
returns nothing only when the queue is closed and every accepted value was taken. -/
theorem queue_fifo {n capacity : ℕ} {labels : List (Monitor.Label (Call α) n)}
    {s : Monitored (ThreadSafeQueue α) (Call α) (Effect α) Condition n}
    (h : run n capacity labels = some s) :
    taken s.effects <+: accepted s.effects ∧
    accepted s.effects = taken s.effects ++ s.shared.items ∧
    s.shared.items.length ≤ s.shared.capacity ∧
    s.shared.capacity = (if capacity = 0 then 1 else capacity) ∧
    (∀ before effect after, s.effects = before ++ effect :: after → .close ∈ before →
      effect.accepts = none) ∧
    (∀ before after, s.effects = before ++ .pop none :: after →
      .close ∈ before ∧ taken before = accepted before) := by
  have haccounted : Accounted capacity s.shared s.effects :=
    Monitor.run_effects (M := monitor α) (accounted_start capacity)
      (fun hI hp => hI.perform (perform_cases hp)) h
  refine ⟨⟨_, haccounted.fifo.symm⟩, haccounted.fifo, haccounted.bounded,
    haccounted.capacity_eq, ?_, ?_⟩
  · intro before effect after hsplit
    exact (haccounted.inOrder before effect after hsplit).1
  · intro before after hsplit
    exact (haccounted.inOrder before _ after hsplit).2 rfl

/-- A producer fills the queue, a consumer empties it after the close and goes away. -/
def pushThenDrain : List (Monitor.Label (Call ℕ) 2) :=
  [.enter 0 (.push 7), .lock 0, .body 0, .notify 0 none, .leave 0,
    .enter 1 .close, .lock 1, .body 1, .notify 1 none, .notify 1 none, .leave 1,
    .enter 0 .pop, .lock 0, .body 0, .notify 0 none, .leave 0,
    .enter 0 .pop, .lock 0, .body 0, .leave 0]

theorem queue_fifo_drained :
    ∃ s, run 2 1 pushThenDrain = some s ∧
      s.effects = [.push 7 true, .close, .pop (some 7), .pop none] ∧
      taken s.effects <+: accepted s.effects := by
  have hrun : (run 2 1 pushThenDrain).map (·.effects) =
      some [.push 7 true, .close, .pop (some 7), .pop none] := by decide +kernel
  obtain ⟨s, hs, heq⟩ := Option.map_eq_some_iff.mp hrun
  exact ⟨s, hs, heq, (queue_fifo hs).1⟩

/-! ## Nobody sleeps through what it waits for -/

/-- What there is to wait for. -/
def supply (c : Condition) (q : ThreadSafeQueue α) : ℕ :=
  match c with
  | .notEmpty => q.items.length
  | .notFull => q.capacity - q.items.length

theorem Performs.paid {q q' : ThreadSafeQueue α} {call : Call α} {effect : Effect α}
    (h : q.Performs call effect q') (hopen' : q'.closed = false) (c : Condition) :
    supply c q' + (if call.waitsOn = some c then 1 else 0) ≤
      supply c q + effect.notifies.count (.one c) := by
  cases h with
  | push hopen hroom | tryPush hopen hroom =>
      cases c <;> simp [supply, Call.waitsOn, Effect.notifies]
      omega
  | pop hitems | tryPop hitems =>
      cases c <;> simp [supply, Call.waitsOn, Effect.notifies, hitems]
      omega
  | tryPushRefused | tryPopRefused => simp [Call.waitsOn]
  | pushRefused hclosed | drained hclosed =>
      rw [hclosed] at hopen'
      cases hopen'
  | close => cases hopen'

theorem monitor_supplies :
    (monitor α).Supplies supply (fun q => q.closed = true) where
  scarce {q call} h := by
    cases call with
    | push value =>
        replace h : q.push value = none := Option.map_eq_none_iff.mp h
        unfold push at h
        split at h
        · cases h
        · split at h
          · cases h
          · exact ⟨‹_›, .notFull, rfl, by simp only [supply]; omega⟩
    | pop =>
        replace h : q.pop = none := Option.map_eq_none_iff.mp h
        unfold pop at h
        split at h
        · rename_i hitems
          split at h
          · cases h
          · exact ⟨‹_›, .notEmpty, rfl, by rw [supply, hitems, List.length_nil]⟩
        · cases h
    | _ => cases h
  paid h hopen c := (perform_cases h).paid (Bool.eq_false_iff.mpr hopen) c
  shutting {q call effect q'} h hopen hshut c := by
    rcases (perform_cases h).closed_iff.mp hshut with hclosed | rfl
    · exact absurd hclosed hopen
    · cases c <;> simp [monitor, Effect.notifies]
  staysShut h hshut := (perform_cases h).closed_iff.mpr (Or.inl hshut)

/-- **No lost wakeup.** In every state that any number of threads can reach, if none
of them can go on except by waking spuriously, then no `pop` is waiting unless the
queue is open and empty, and no `push` unless it is open and full. -/
theorem queue_no_lost_wakeup {n capacity : ℕ} {labels : List (Monitor.Label (Call α) n)}
    {s : Monitored (ThreadSafeQueue α) (Call α) (Effect α) Condition n}
    (h : run n capacity labels = some s) (hquiet : (monitor α).Quiet s) :
    (∀ t, s.threads t = .waiting .pop →
      s.shared.items = [] ∧ s.shared.closed = false) ∧
    (∀ t value, s.threads t = .waiting (.push value) →
      s.shared.capacity ≤ s.shared.items.length ∧ s.shared.closed = false) := by
  constructor
  · intro t ht
    obtain ⟨hopen, hnone⟩ := Monitor.no_lost_wakeup monitor_supplies h hquiet ht rfl
    exact ⟨List.eq_nil_of_length_eq_zero hnone, Bool.eq_false_iff.mpr hopen⟩
  · intro t value ht
    obtain ⟨hopen, hnone⟩ := Monitor.no_lost_wakeup monitor_supplies h hquiet ht rfl
    exact ⟨Nat.sub_eq_zero_iff_le.mp hnone, Bool.eq_false_iff.mpr hopen⟩

/-- A second producer finds the queue full, is woken for nothing and waits again. -/
def twoProducers : List (Monitor.Label (Call ℕ) 2) :=
  [.enter 0 (.push 7), .lock 0, .body 0, .notify 0 none, .leave 0,
    .enter 1 (.push 8), .lock 1, .body 1, .wakeSpuriously 1, .lock 1, .body 1]

theorem queue_no_lost_wakeup_full :
    ∃ s, run 2 1 twoProducers = some s ∧ (monitor ℕ).Quiet s ∧
      s.threads 1 = .waiting (.push 8) ∧ s.shared.capacity ≤ s.shared.items.length := by
  have hrun : (run 2 1 twoProducers).map (fun s => (s.threads 1, decide
      ((monitor ℕ).Quiet s))) = some (.waiting (.push 8), true) := by decide +kernel
  obtain ⟨s, hs, heq⟩ := Option.map_eq_some_iff.mp hrun
  simp only [Prod.mk.injEq, decide_eq_true_eq] at heq
  obtain ⟨hwaiting, hquiet⟩ := heq
  exact ⟨s, hs, hquiet, hwaiting, ((queue_no_lost_wakeup hs hquiet).2 1 8 hwaiting).1⟩

end Exchange.ThreadSafeQueue
