import Mathlib
import Exchange.Net.Outcomes

/-!
# How much the server holds

Every queue between the reactor and the book is bounded, and each thread holds one
message at most. What was read of the clients and is neither applied nor rejected is
therefore bounded by the configuration, however fast they send: the rest is turned
away by the reactor, or waits unread.
-/

namespace Exchange.Net

open Framework

theorem Reactor.length_tasks_le (reactor : Reactor) : reactor.tasks.length ≤ 1 := by
  cases reactor <;> simp [Reactor.tasks]

theorem Worker.length_tasks_le (worker : Worker) : worker.tasks.length ≤ 1 := by
  cases worker <;> simp [Worker.tasks]

theorem EngineThread.length_tasks_le (engine : EngineThread) : engine.tasks.length ≤ 1 := by
  cases engine <;> simp [EngineThread.tasks]

namespace Server

variable {s s' t : Server}

/-! ## The queues keep their bounds -/

/-- No queue holds more than its capacity, which is that of the configuration. -/
structure Bounded (config : ServerConfig) (s : Server) : Prop where
  configured : s.config = config
  pool : s.pool.items.length ≤ s.pool.capacity
  commands : s.commands.items.length ≤ s.commands.capacity
  poolCapacity : s.pool.capacity = max 1 config.workerQueueCapacity
  commandCapacity : s.commands.capacity = max 1 config.commandQueueCapacity

theorem construct_capacity {α : Type} (capacity : ℕ) :
    (ThreadSafeQueue.construct capacity : ThreadSafeQueue α).capacity = max 1 capacity := by
  show (if capacity = 0 then 1 else capacity) = max 1 capacity
  split <;> omega

theorem bounded_start (config : ServerConfig) : Bounded config (start config) where
  configured := rfl
  pool := Nat.zero_le _
  commands := Nat.zero_le _
  poolCapacity := construct_capacity _
  commandCapacity := construct_capacity _

theorem Bounded.act {config : ServerConfig} {label : Label} (h : Bounded config s)
    (hact : s.act label = some t) : Bounded config t := by
  cases label with
  | decode session message =>
      simp only [Server.act, Server.decode] at hact
      split at hact <;> cases hact
      exact { h with }
  | enqueue =>
      simp only [Server.act, Server.enqueue] at hact
      split at hact
      · split at hact <;> cases hact
        · obtain ⟨_, hroom, rfl⟩ := ThreadSafeQueue.tryPush_true ‹_›
          refine { h with pool := ?_ }
          rw [List.length_append]
          exact hroom
        · obtain rfl := ThreadSafeQueue.tryPush_false ‹_›
          exact { h with }
      · cases hact
  | push w =>
      simp only [Server.act, Server.push] at hact
      split at hact
      · split at hact <;> cases hact
        · obtain ⟨_, hroom, rfl⟩ := ThreadSafeQueue.push_true ‹_›
          refine { h with commands := ?_ }
          rw [setWorker, List.length_append]
          exact hroom
        · obtain ⟨_, rfl⟩ := ThreadSafeQueue.push_false ‹_›
          exact { h with }
      · cases hact
  | take w =>
      simp only [Server.act, Server.take] at hact
      split at hact
      · split at hact
        · split at hact <;> cases hact
          · obtain ⟨_, _, rfl⟩ := ThreadSafeQueue.pop_none ‹_›
            exact { h with }
          · obtain ⟨hitems, hpool⟩ := ThreadSafeQueue.pop_some ‹_›
            have hlength := h.pool
            rw [hitems, List.length_cons] at hlength
            rw [hpool]
            exact { h with pool := Nat.le_of_succ_le hlength }
        · cases hact
      · cases hact
  | pop =>
      simp only [Server.act, Server.pop] at hact
      split at hact
      · split at hact <;> cases hact
        · obtain ⟨_, _, rfl⟩ := ThreadSafeQueue.pop_none ‹_›
          exact { h with }
        · obtain ⟨hitems, hcommands⟩ := ThreadSafeQueue.pop_some ‹_›
          have hlength := h.commands
          rw [hitems, List.length_cons] at hlength
          rw [hcommands]
          exact { h with commands := Nat.le_of_succ_le hlength }
      · cases hact
  | register w =>
      simp only [Server.act, Server.register] at hact
      split at hact
      · split at hact <;> cases hact <;> exact { h with }
      · cases hact
  | stop =>
      simp only [Server.act, Server.stop] at hact
      split at hact
      · cases hact
        exact { h with }
      all_goals first | cases hact | (split at hact <;> cases hact; exact { h with })
  | overload | leave | apply | reject =>
      simp only [Server.act, Server.overload, Server.leave, Server.apply, Server.reject] at hact
      split at hact <;> cases hact
      exact { h with }

theorem bounded_run {config : ServerConfig} {labels : List Label}
    (h : run config labels = some s) : Bounded config s := by
  refine Machine.run_invariant (I := Bounded config) ?_ (bounded_start config) h
  intro s label s' hs hstep
  obtain ⟨t, ht, rfl⟩ := Option.map_eq_some_iff.mp hstep
  exact { hs.act ht with }

/-! ## Where the messages are -/

/-- What the workers have in their hands. -/
def handled (s : Server) : List Task :=
  (List.range s.config.threadCount).flatMap fun w => (s.workers w).tasks

theorem count_handled (s : Server) (task : Task) : s.handled.count task = s.inHands task := by
  rw [handled, List.count_flatMap, inHands, tally, Finset.sum_eq_multiset_sum, Finset.range_val,
    ← Multiset.coe_range, Multiset.map_coe, Multiset.sum_coe]
  rfl

theorem length_handled_le (s : Server) : s.handled.length ≤ s.config.threadCount := by
  have hone : ∀ n ∈ (List.range s.config.threadCount).map fun w => (s.workers w).tasks.length,
      n ≤ 1 := by
    intro n hn
    obtain ⟨w, _, rfl⟩ := List.mem_map.mp hn
    exact (s.workers w).length_tasks_le
  rw [handled, List.length_flatMap]
  simpa using List.sum_le_card_nsmul _ 1 hone

/-- The messages that were read, by where they are now. -/
theorem Accounted.perm (h : s.Accounted) :
    s.received.Perm (s.reactor.tasks ++ s.pool.items ++ s.handled ++
      s.commands.items.map Entry.task ++ s.engine.tasks ++ s.applied.map Entry.task ++
      s.refused.map Prod.fst) := by
  rw [List.perm_iff_count]
  intro task
  rw [h task, places]
  simp only [List.count_append, count_handled, timesApplied, timesRefused]

/-- **Backpressure.** Of the messages read of all clients, however many, those that are
neither applied nor rejected fit into the two queues and the threads' hands. -/
theorem backpressure {config : ServerConfig} {labels : List Label}
    (h : run config labels = some s) :
    s.received.length ≤ s.applied.length + s.refused.length +
      (max 1 config.workerQueueCapacity + config.threadCount +
        max 1 config.commandQueueCapacity + 2) := by
  have hbounded := bounded_run h
  have hlength := (sound_run h).accounted.perm.length_eq
  have hpool := hbounded.poolCapacity ▸ hbounded.pool
  have hcommands := hbounded.commandCapacity ▸ hbounded.commands
  have hhands := hbounded.configured ▸ s.length_handled_le
  have hreactor := s.reactor.length_tasks_le
  have hengine := s.engine.length_tasks_le
  simp only [List.length_append, List.length_map] at hlength
  omega

/-- One message in every place there is: the queues hold one each, a worker is blocked on
the engine's, the engine is at a command, and the reactor holds the next message. -/
def everyPlaceTaken : List Label :=
  [.decode 5 (.cancel ⟨1⟩), .enqueue, .take 0, .push 0, .pop,
    .decode 5 (.cancel ⟨2⟩), .enqueue, .take 0, .push 0,
    .decode 5 (.cancel ⟨3⟩), .enqueue, .take 0, .decode 5 (.cancel ⟨4⟩), .enqueue,
    .decode 5 (.cancel ⟨5⟩)]

/-- The bound is reached. -/
theorem backpressure_everyPlaceTaken :
    ∃ s, run ⟨1, 1, 1⟩ everyPlaceTaken = some s ∧ s.received.length = 5 ∧
      s.applied.length + s.refused.length + (max 1 1 + 1 + max 1 1 + 2) = 5 ∧
      s.received.length ≤ s.applied.length + s.refused.length + (max 1 1 + 1 + max 1 1 + 2) := by
  have hrun : (run ⟨1, 1, 1⟩ everyPlaceTaken).map
      (fun s => (s.received.length, s.applied.length, s.refused.length)) = some (5, 0, 0) := by
    decide +kernel
  obtain ⟨s, hs, heq⟩ := Option.map_eq_some_iff.mp hrun
  simp only [Prod.mk.injEq] at heq
  obtain ⟨hreceived, happlied, hrefused⟩ := heq
  exact ⟨s, hs, hreceived, by rw [happlied, hrefused]; rfl, backpressure hs⟩

end Server

end Exchange.Net
