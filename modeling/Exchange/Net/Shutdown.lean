import Exchange.Framework.Progress
import Exchange.Net.Outcomes

/-!
# Stopping the server

`Server::stop` joins the reactor, then the workers, then the engine. A worker may be
blocked on a full engine queue, and only the engine makes room in it; the engine waits
for commands, and only workers bring them or the stop that joins it last. Every step
of a thread uses up some of the work that is left, and as long as `stop` has not
returned some thread can move, so no schedule leaves it hanging.
-/

namespace Exchange.Net

open Framework

/-! ## The work that is left -/

/-- Steps the reactor can still cause by itself: a decoded message may become a task. -/
def Reactor.work : Reactor → ℕ
  | .polling => 1
  | .decoded _ => 7
  | .refused _ => 2
  | .exited => 0

/-- Steps a worker can still cause, with those of the command it may push. -/
def Worker.work : Worker → ℕ
  | .idle => 1
  | .registering _ _ _ => 5
  | .pushing _ _ _ _ => 4
  | .rejecting _ _ => 2
  | .exited => 0

theorem Worker.work_begin (task : Task) (since : ℕ) : (Worker.begin task since).work ≤ 5 := by
  unfold Worker.begin
  cases task.message with
  | newOrder message => exact Nat.le_refl 5
  | cancel message | modify message => exact Nat.le_succ 4

def EngineThread.work : EngineThread → ℕ
  | .polling => 1
  | .applying _ => 2
  | .exited => 0

def Shutdown.work : Shutdown → ℕ
  | .notCalled => 4
  | .joiningReactor => 3
  | .joiningWorkers => 2
  | .joiningEngine => 1
  | .returned => 0

namespace Server

variable {s s' t : Server}

/-- The steps left in the workers' hands. -/
def workInHands (s : Server) : ℕ :=
  tally (Finset.range s.config.threadCount) Worker.work s.workers

/-- A bound on the steps the threads can take if no further message is decoded. -/
def work (s : Server) : ℕ :=
  s.reactor.work + 5 * s.pool.items.length + s.workInHands + 2 * s.commands.items.length +
    s.engine.work + s.shutdown.work

/-- What a worker's move takes off the work that is left. -/
theorem work_setWorker {s₁ : Server} {w : ℕ} {before worker : Worker}
    (hw : w < s₁.config.threadCount) (hbefore : s₁.workers w = before)
    (hless : s₁.work + worker.work + 1 ≤ s.work + before.work)
    (hreceived : s₁.received = s.received) :
    (s₁.setWorker w worker).work + 1 + 7 * s.received.length ≤
      s.work + 7 * (s₁.setWorker w worker).received.length := by
  have hhands : (s₁.setWorker w worker).workInHands + (s₁.workers w).work =
      s₁.workInHands + worker.work :=
    tally_update _ Worker.work (Finset.mem_range.mpr hw) _ _
  have hmove : (s₁.setWorker w worker).work + before.work = s₁.work + worker.work := by
    rw [hbefore] at hhands
    rw [work, work]
    change s₁.reactor.work + 5 * s₁.pool.items.length + (s₁.setWorker w worker).workInHands +
      2 * s₁.commands.items.length + s₁.engine.work + s₁.shutdown.work + before.work = _
    omega
  change _ ≤ s.work + 7 * s₁.received.length
  rw [hreceived]
  omega

/-- A step uses up work, unless it brings a message in. -/
theorem Step.work (hstaffed : s.Staffed) (h : s.Step t) :
    t.work + 1 + 7 * s.received.length ≤ s.work + 7 * t.received.length := by
  -- A worker that is at a task is one of the pool's.
  have hbusy : ∀ {w worker}, s.workers w = worker → worker ≠ .idle →
      w < s.config.threadCount := fun hw hne => hstaffed _ (hw ▸ hne)
  cases h with
  | decode hreactor | enqueue hreactor =>
      simp only [Server.work, workInHands, hreactor, Reactor.work, List.length_append,
        List.length_singleton]
      omega
  | saturated hreactor | overload hreactor | leave hreactor =>
      simp only [Server.work, workInHands, refuse, deliver, hreactor, Reactor.work]
      omega
  | @take w task items hworker hw hitems =>
      refine work_setWorker hw hworker ?_ rfl
      have hbegin := Worker.work_begin task s.clock
      change _ ≤ s.work + 1
      simp only [Server.work, workInHands, hitems, List.length_cons]
      omega
  | exit hworker hw =>
      exact work_setWorker hw hworker (Nat.le_refl _) rfl
  | build hworker | invalid hworker | refused hworker =>
      refine work_setWorker (hbusy hworker (by simp)) hworker ?_ rfl
      simp only [Server.work, workInHands, Worker.work]
      omega
  | reject hworker =>
      refine work_setWorker (hbusy hworker (by simp)) hworker ?_ rfl
      simp only [Server.work, workInHands, refuse, deliver, Worker.work]
      omega
  | push hworker =>
      refine work_setWorker (hbusy hworker (by simp)) hworker ?_ rfl
      simp only [Server.work, workInHands, List.length_append, List.length_singleton, Worker.work]
      omega
  | pop hengine hitems =>
      simp only [Server.work, workInHands, hengine, hitems, EngineThread.work, List.length_cons]
      omega
  | finish hengine | apply hengine =>
      simp only [Server.work, workInHands, hengine, EngineThread.work]
      omega
  | stop hshutdown | stopPool hshutdown | stopEngine hshutdown | stopped hshutdown =>
      simp only [Server.work, workInHands, ThreadSafeQueue.close, hshutdown, Shutdown.work]
      omega

/-! ## Some thread can move -/

/-- `stop` closes a queue once it has joined those who fill it, and the engine's queue
has room for a command at least. -/
structure Closing (s : Server) : Prop where
  pool : 1 ≤ joinsOver s.shutdown → s.pool.closed = true
  commands : 2 ≤ joinsOver s.shutdown → s.commands.closed = true
  room : 0 < s.commands.capacity

theorem closing_start (config : ServerConfig) : (start config).Closing where
  pool := nofun
  commands := nofun
  room := by
    show 0 < if config.commandQueueCapacity = 0 then 1 else config.commandQueueCapacity
    split <;> omega

theorem Closing.step (h : s.Closing) (hstep : s.Step t) : t.Closing := by
  cases hstep with
  | stop hshutdown => exact ⟨nofun, nofun, h.room⟩
  | stopPool hshutdown => exact ⟨fun _ => rfl, (absurd · (Nat.not_succ_le_self 1)), h.room⟩
  | stopEngine hshutdown =>
      exact ⟨fun _ => h.pool (by rw [hshutdown]; decide), fun _ => rfl, h.room⟩
  | stopped hshutdown =>
      exact ⟨fun _ => h.pool (by rw [hshutdown]; decide),
        fun _ => h.commands (by rw [hshutdown]; decide), h.room⟩
  | _ => exact { h with }

/-- Whether a step brings a message in. -/
def Label.decodes : Label → Bool
  | .decode _ _ => true
  | _ => false

/-- Some thread can move without reading a message. -/
def CanMove (s : Server) : Prop :=
  ∃ label : Label, label.decodes = false ∧ (s.act label).isSome = true

/-- The reactor never waits for another thread. -/
theorem canMove_reactor (h : s.reactor ≠ .exited) : s.CanMove := by
  cases hreactor : s.reactor with
  | polling => exact ⟨.leave, rfl, by simp [act, leave, hreactor]⟩
  | refused task => exact ⟨.overload, rfl, by simp [act, overload, hreactor]⟩
  | exited => exact absurd hreactor h
  | decoded task =>
      cases hpush : s.pool.tryPush task with
      | mk accepted pool =>
          cases accepted with
          | true | false => exact ⟨.enqueue, rfl, by simp [act, enqueue, hreactor, hpush]⟩

/-- The engine waits only while its queue is open and empty. -/
theorem canMove_engine (h : s.engine ≠ .exited)
    (hqueue : s.commands.closed = true ∨ s.commands.items ≠ []) : s.CanMove := by
  cases hengine : s.engine with
  | exited => exact absurd hengine h
  | applying entry => exact ⟨.apply, rfl, by simp [act, apply, hengine]⟩
  | polling =>
      cases hitems : s.commands.items with
      | cons entry items =>
          exact ⟨.pop, rfl, by simp [act, pop, hengine, ThreadSafeQueue.pop, hitems]⟩
      | nil =>
          have hclosed := hqueue.resolve_right (absurd hitems)
          exact ⟨.pop, rfl, by simp [act, pop, hengine, ThreadSafeQueue.pop, hitems, hclosed]⟩

/-- A worker of a closed pool waits only for room in the engine's queue, and the engine
can then make it. -/
theorem canMove_worker (hdrained : s.Drained) (hclosing : s.Closing)
    (hpool : s.pool.closed = true) {w : ℕ} (hw : w < s.config.threadCount)
    (h : s.workers w ≠ .exited) : s.CanMove := by
  cases hworker : s.workers w with
  | exited => exact absurd hworker h
  | rejecting task reply => exact ⟨.reject w, rfl, by simp [act, reject, hworker]⟩
  | registering task since message =>
      cases hbuild : buildOrder message with
      | ok | error => exact ⟨.register w, rfl, by simp [act, register, hworker, hbuild]⟩
  | idle =>
      cases hitems : s.pool.items with
      | nil =>
          exact ⟨.take w, rfl,
            by simp [act, take, hworker, hw, ThreadSafeQueue.pop, hitems, hpool]⟩
      | cons task items =>
          exact ⟨.take w, rfl, by simp [act, take, hworker, hw, ThreadSafeQueue.pop, hitems]⟩
  | pushing task since orderId command =>
      cases hpush : s.commands.push { command, task } with
      | some answer =>
          obtain ⟨accepted, commands⟩ := answer
          cases accepted with
          | true | false => exact ⟨.push w, rfl, by simp [act, push, hworker, hpush]⟩
      | none =>
          -- The queue is open and full, so the engine is still there and has work.
          unfold ThreadSafeQueue.push at hpush
          split at hpush
          · cases hpush
          rename_i hopen
          split at hpush
          · cases hpush
          rename_i hfull
          refine canMove_engine (fun hexited => hopen (hdrained.commands hexited).1) (Or.inr ?_)
          intro hnil
          rw [hnil] at hfull
          exact hfull hclosing.room

theorem canMove_stop (hsound : s.Sound) (hclosing : s.Closing)
    (hcalled : s.shutdown ≠ .notCalled) (hwaiting : s.shutdown ≠ .returned) : s.CanMove := by
  by_cases hreactor : s.reactor = .exited
  swap
  · exact canMove_reactor hreactor
  cases hshutdown : s.shutdown with
  | notCalled => exact absurd hshutdown hcalled
  | returned => exact absurd hshutdown hwaiting
  | joiningReactor =>
      exact ⟨.stop, rfl, by simp [act, stop, hshutdown, hreactor]⟩
  | joiningWorkers =>
      by_cases hworkers : s.workersExited = true
      · exact ⟨.stop, rfl, by simp [act, stop, hshutdown, hworkers]⟩
      · obtain ⟨w, hw, hworker⟩ : ∃ w < s.config.threadCount, s.workers w ≠ .exited := by
          simpa [workersExited] using hworkers
        exact canMove_worker hsound.drained hclosing
          (hclosing.pool (by rw [hshutdown]; decide)) hw hworker
  | joiningEngine =>
      by_cases hengine : s.engine = .exited
      · exact ⟨.stop, rfl, by simp [act, stop, hshutdown, hengine]⟩
      · exact canMove_engine hengine (Or.inl (hclosing.commands (by rw [hshutdown]; decide)))

/-! ## Every schedule ends -/

/-- What holds of a server from the start. -/
structure Running (s : Server) : Prop where
  sound : s.Sound
  closing : s.Closing

theorem Running.step {label : Label} (h : s.Running) (hstep : machine.step s label = some s') :
    s'.Running := by
  obtain ⟨t, ht, rfl⟩ := step_cases hstep
  obtain ⟨hstaffed, haccounted, hnumbered, hfaithful, hdrained⟩ := h.sound.step ht
  exact ⟨⟨hstaffed, haccounted, hnumbered, { hfaithful with }, { hdrained with }⟩,
    { h.closing.step ht with }⟩

theorem running_run {config : ServerConfig} {labels : List Label}
    (h : run config labels = some s) : s.Running :=
  Machine.run_invariant Running.step ⟨sound_start config, closing_start config⟩ h

theorem Running.work {label : Label} (h : s.Running) (hstep : machine.step s label = some s') :
    s'.work + 1 + 7 * s.received.length ≤ s.work + 7 * s'.received.length := by
  obtain ⟨t, ht, rfl⟩ := step_cases hstep
  have hwork := ht.work h.sound.staffed
  exact hwork

/-- A call of `stop` is not taken back. -/
theorem called_step {label : Label} (h : s.shutdown ≠ .notCalled)
    (hstep : machine.step s label = some s') : s'.shutdown ≠ .notCalled := by
  obtain ⟨t, ht, rfl⟩ := step_cases hstep
  cases ht with
  | stop | stopPool | stopEngine | stopped => exact nofun
  | _ => exact h

/-- A reactor that has left reads no more. -/
theorem unread_step {received : List Task} {label : Label}
    (h : s.reactor = .exited ∧ s.received = received)
    (hstep : machine.step s label = some s') : s'.reactor = .exited ∧ s'.received = received := by
  obtain ⟨t, ht, rfl⟩ := step_cases hstep
  cases ht with
  | decode hreactor | enqueue hreactor | saturated hreactor | overload hreactor | leave hreactor =>
      exact absurd (hreactor.symm.trans h.1) nofun
  | _ => exact h

/-- **Stopping never hangs.** After a call of `stop`, whatever the threads do next: the
steps they take are bounded by the work that was left and the messages read meanwhile,
none once the reactor has left; and as long as `stop` has not returned, some thread can
move without a message being read. -/
theorem stop_returns {config : ServerConfig} {labels more : List Label}
    (h : run config labels = some s) (hcalled : s.shutdown ≠ .notCalled)
    (hmore : machine.run s more = some s') :
    more.length + s'.work ≤ s.work + 7 * (s'.received.length - s.received.length) ∧
    (s.reactor = .exited → s'.received = s.received) ∧
    (s'.shutdown ≠ .returned →
      ∃ label t, label.decodes = false ∧ machine.step s' label = some t) := by
  have hrunning := running_run h
  refine ⟨?_, ?_, ?_⟩
  · have hlength : more.length + s'.work + 7 * s.received.length ≤
        s.work + 7 * s'.received.length :=
      Machine.run_length_le Running.step Running.work hrunning hmore
    omega
  · intro hreactor
    exact (Machine.run_invariant unread_step ⟨hreactor, rfl⟩ hmore).2
  · intro hwaiting
    have hrunning' := Machine.run_invariant Running.step hrunning hmore
    have hcalled' := Machine.run_invariant called_step hcalled hmore
    obtain ⟨label, hlabel, hact⟩ :=
      canMove_stop hrunning'.sound hrunning'.closing hcalled' hwaiting
    obtain ⟨t, ht⟩ := Option.isSome_iff_exists.mp hact
    exact ⟨label, _, hlabel, Option.map_eq_some_iff.mpr ⟨t, ht, rfl⟩⟩

/-- The engine's queue is full, the only worker is blocked on it, and `stop` has joined
the reactor and waits for the worker. -/
def blockedWorker : List Label :=
  [.decode 5 (.cancel ⟨1⟩), .enqueue, .decode 5 (.cancel ⟨2⟩), .enqueue, .take 0, .push 0,
    .take 0, .stop, .leave, .stop]

theorem stop_returns_blockedWorker :
    ∃ s, run { workerThreads := 1, commandQueueCapacity := 1 } blockedWorker = some s ∧
      machine.step s (.push 0) = none ∧ machine.step s .stop = none ∧
      ∃ label t, label.decodes = false ∧ machine.step s label = some t := by
  have hrun : (run { workerThreads := 1, commandQueueCapacity := 1 } blockedWorker).map
      (fun s => (s.shutdown, (s.act (.push 0)).isNone, (s.act .stop).isNone)) =
      some (.joiningWorkers, true, true) := by
    decide +kernel
  obtain ⟨s, hs, heq⟩ := Option.map_eq_some_iff.mp hrun
  simp only [Prod.mk.injEq, Option.isNone_iff_eq_none] at heq
  obtain ⟨hshutdown, hpush, hstop⟩ := heq
  refine ⟨s, hs, Option.map_eq_none_iff.mpr hpush, Option.map_eq_none_iff.mpr hstop, ?_⟩
  have hcalled : s.shutdown ≠ .notCalled := by rw [hshutdown]; exact nofun
  have hwaiting : s.shutdown ≠ .returned := by rw [hshutdown]; exact nofun
  have hstay : machine.run s [] = some s := rfl
  exact (stop_returns hs hcalled hstay).2.2 hwaiting

end Server

end Exchange.Net
