import Exchange.Framework.Tally
import Exchange.Net.Server

/-!
# One outcome for each message

A decoded message is in one place at a time: with the reactor, in the pool's queue,
with a worker, in the engine's queue, with the engine, or at one of its two ends,
applied or refused. The threads only move it on. When `Server::stop` has returned
all places but the ends are empty, because each join waited for a thread that leaves
its loop only when its queue is closed and drained.
-/

namespace Exchange.Net

open Framework

/-! ## Where a message is -/

def Reactor.tasks : Reactor → List Task
  | .decoded task | .refused task => [task]
  | _ => []

def Worker.tasks : Worker → List Task
  | .registering task _ _ | .pushing task _ _ _ | .rejecting task _ => [task]
  | _ => []

theorem Worker.tasks_begin (task : Task) (since : ℕ) :
    (Worker.begin task since).tasks = [task] := by
  unfold Worker.begin
  cases task.message <;> rfl

def EngineThread.tasks : EngineThread → List Task
  | .applying entry => [entry.task]
  | _ => []

/-- What `dispatch` makes of a message. -/
def commandOf : ClientMessage → Except String Command
  | .newOrder message => (buildOrder message).map .submit
  | .cancel message => .ok (.cancel message.orderId)
  | .modify message => .ok (.modify message.orderId message.quantity message.price)

/-- The command is the one its task asked for. -/
def Entry.Faithful (entry : Entry) : Prop :=
  commandOf entry.task.message = .ok entry.command

/-- A worker at a task means to do what the task asked for. -/
def Worker.Faithful : Worker → Prop
  | .registering task _ message => task.message = .newOrder message
  | .pushing task _ _ command => commandOf task.message = .ok command
  | _ => True

theorem Worker.faithful_begin (task : Task) (since : ℕ) :
    (Worker.begin task since).Faithful := by
  unfold Worker.begin
  cases hm : task.message with
  | newOrder message => exact hm
  | cancel message | modify message =>
      show commandOf task.message = _
      rw [hm]
      rfl

namespace Server

variable {s s' t : Server} {task : Task}

/-- In how many of the workers' hands `task` is. -/
def inHands (s : Server) (task : Task) : ℕ :=
  tally (Finset.range s.config.threadCount) (fun worker => worker.tasks.count task) s.workers

/-- How often `task` was run through `Engine::apply`. -/
def timesApplied (s : Server) (task : Task) : ℕ := (s.applied.map Entry.task).count task

/-- How many rejections were delivered for `task`. -/
def timesRefused (s : Server) (task : Task) : ℕ := (s.refused.map Prod.fst).count task

/-- All the places at which `task` is. -/
def places (s : Server) (task : Task) : ℕ :=
  s.reactor.tasks.count task + s.pool.items.count task + s.inHands task +
    (s.commands.items.map Entry.task).count task + s.engine.tasks.count task +
    s.timesApplied task + s.timesRefused task

/-! ## Nothing is lost, and nothing is doubled -/

/-- Only workers of the pool do anything. -/
def Staffed (s : Server) : Prop := ∀ w, s.workers w ≠ .idle → w < s.config.threadCount

theorem Staffed.setWorker (h : s.Staffed) {w : ℕ} {worker : Worker}
    (hw : w < s.config.threadCount) : (s.setWorker w worker).Staffed := by
  intro v hv
  by_cases hvw : v = w
  · exact hvw ▸ hw
  · apply h v
    rwa [setWorker_of_ne hvw] at hv

theorem Staffed.step (h : s.Staffed) (hstep : s.Step t) : t.Staffed := by
  have hbusy : ∀ {w worker}, s.workers w = worker → worker ≠ .idle →
      w < s.config.threadCount := fun hw hne => h _ (hw ▸ hne)
  cases hstep with
  | take _ hw | exit _ hw => exact Staffed.setWorker h hw
  | build hworker | invalid hworker | push hworker | refused hworker | reject hworker =>
      exact Staffed.setWorker h (hbusy hworker nofun)
  | _ => exact h

theorem inHands_setWorker {w : ℕ} (hw : w < s.config.threadCount) (worker : Worker)
    (task : Task) :
    (s.setWorker w worker).inHands task + (s.workers w).tasks.count task =
      s.inHands task + worker.tasks.count task :=
  tally_update _ (fun worker : Worker => worker.tasks.count task) (Finset.mem_range.mpr hw) _ _

/-- Every decoded message is in exactly one place. -/
def Accounted (s : Server) : Prop := ∀ task, s.received.count task = s.places task

theorem Accounted.step (h : s.Accounted) (hstaffed : s.Staffed) (hstep : s.Step t) :
    t.Accounted := by
  intro task
  have hbefore := h task
  have hbusy : ∀ {w worker}, s.workers w = worker → worker ≠ .idle →
      w < s.config.threadCount := fun hw hne => hstaffed _ (hw ▸ hne)
  unfold places timesApplied timesRefused at hbefore ⊢
  -- Each step moves one task from one place to the next.
  cases hstep with
  | decode hreactor | enqueue hreactor =>
      rw [hreactor] at hbefore
      simp only [Reactor.tasks, List.count_append, List.count_nil, inHands] at hbefore ⊢
      omega
  | saturated hreactor | leave hreactor =>
      rw [hreactor] at hbefore
      exact hbefore
  | overload hreactor =>
      rw [hreactor] at hbefore
      simp only [Reactor.tasks, refuse, deliver, List.map_append, List.map_cons,
        List.map_nil, List.count_append, List.count_nil, inHands] at hbefore ⊢
      omega
  | @take w task' items hworker hw hitems =>
      have hmoved := inHands_setWorker hw (Worker.begin task' s.clock) task
      rw [hworker, Worker.tasks_begin] at hmoved
      rw [hitems, List.count_cons] at hbefore
      simp only [Worker.tasks, List.count_cons, List.count_nil, inHands, setWorker]
        at hmoved hbefore ⊢
      omega
  | exit hworker hw =>
      have hmoved := inHands_setWorker hw .exited task
      rw [hworker] at hmoved
      simp only [Worker.tasks, List.count_nil, inHands, setWorker] at hmoved hbefore ⊢
      omega
  | @build w task' since message order hworker =>
      have hmoved := inHands_setWorker (hbusy hworker nofun)
        (.pushing task' since message.orderId (.submit order)) task
      rw [hworker] at hmoved
      simp only [Worker.tasks, inHands, setWorker] at hmoved hbefore ⊢
      omega
  | @invalid w task' since message hworker =>
      have hmoved := inHands_setWorker (hbusy hworker nofun)
        (.rejecting task' { orderId := 0, reason := .invalidOrder }) task
      rw [hworker] at hmoved
      simp only [Worker.tasks, inHands, setWorker] at hmoved hbefore ⊢
      omega
  | @refused w task' since orderId command hworker =>
      have hmoved := inHands_setWorker (hbusy hworker nofun)
        (.rejecting task' { orderId, reason := .overloaded }) task
      rw [hworker] at hmoved
      simp only [Worker.tasks, inHands, setWorker] at hmoved hbefore ⊢
      omega
  | push hworker =>
      have hmoved := inHands_setWorker (hbusy hworker nofun) .idle task
      rw [hworker] at hmoved
      simp only [Worker.tasks, List.map_append, List.map_cons, List.map_nil,
        List.count_append, List.count_nil, inHands, setWorker] at hmoved hbefore ⊢
      omega
  | reject hworker =>
      have hmoved := inHands_setWorker (hbusy hworker nofun) .idle task
      rw [hworker] at hmoved
      simp only [Worker.tasks, refuse, deliver, List.map_append, List.map_cons, List.map_nil,
        List.count_append, List.count_nil, inHands, setWorker] at hmoved hbefore ⊢
      omega
  | pop hengine hitems =>
      rw [hengine, hitems, List.map_cons, List.count_cons] at hbefore
      simp only [EngineThread.tasks, List.count_cons, List.count_nil, inHands] at hbefore ⊢
      omega
  | finish hengine =>
      rw [hengine] at hbefore
      exact hbefore
  | apply hengine =>
      rw [hengine] at hbefore
      simp only [EngineThread.tasks, List.map_append, List.map_cons, List.map_nil,
        List.count_append, List.count_nil, inHands] at hbefore ⊢
      omega
  | stop | stopPool | stopEngine | stopped => exact hbefore

/-- A message is decoded once: the numbers tell them all apart. -/
def Numbered (s : Server) : Prop :=
  s.received.map Task.number = List.range s.received.length

theorem Numbered.step (h : s.Numbered) (hstep : s.Step t) : t.Numbered := by
  cases hstep with
  | decode =>
      unfold Numbered at h ⊢
      rw [List.map_append, h, List.length_append, List.length_singleton, List.range_succ]
      rfl
  | _ => exact h

theorem Numbered.nodup (h : s.Numbered) : s.received.Nodup := by
  refine List.Nodup.of_map Task.number ?_
  rw [h]
  exact List.nodup_range

/-! ## Each outcome is the right one -/

/-- Commands are what was asked for, and rejections go to whoever asked. -/
structure Faithful (s : Server) : Prop where
  workers : ∀ w, (s.workers w).Faithful
  commands : ∀ entry ∈ s.commands.items, entry.Faithful
  engine : ∀ entry, s.engine = .applying entry → entry.Faithful
  applied : ∀ entry ∈ s.applied, entry.Faithful
  delivered : s.delivered = s.refused.map fun (task, reply) => (task.session, reply)

theorem Faithful.setWorker (h : s.Faithful) {w : ℕ} {worker : Worker}
    (hworker : worker.Faithful) : (s.setWorker w worker).Faithful := by
  refine { h with workers := fun v => ?_ }
  by_cases hv : v = w
  · rw [hv, setWorker_self]
    exact hworker
  · rw [setWorker_of_ne hv]
    exact h.workers v

theorem Faithful.refuse (h : s.Faithful) (task : Task) (reply : RejectedMessage) :
    (s.refuse task reply).Faithful := by
  refine { h with delivered := ?_ }
  show s.delivered ++ _ = (s.refused ++ _).map _
  rw [h.delivered, List.map_append]
  rfl

theorem Faithful.step (h : s.Faithful) (hstep : s.Step t) : t.Faithful := by
  have hkeep : ∀ byAccount pool, Faithful { s with byAccount, pool } :=
    fun _ _ => { h with }
  cases hstep with
  | overload => exact Faithful.refuse (s := { s with reactor := .polling }) { h with } _ _
  | @take w task items =>
      exact (hkeep s.byAccount _).setWorker (Worker.faithful_begin task _)
  | @build w task since message order hworker hbuild =>
      refine (hkeep _ s.pool).setWorker ?_
      have hmessage := h.workers w
      rw [hworker] at hmessage
      replace hmessage : task.message = .newOrder message := hmessage
      show commandOf task.message = _
      rw [hmessage, commandOf, hbuild]
      rfl
  | invalid => exact (hkeep _ s.pool).setWorker trivial
  | exit | refused => exact Faithful.setWorker h trivial
  | @push w task since orderId command entry hworker =>
      have hcommand := h.workers w
      rw [hworker] at hcommand
      refine Faithful.setWorker (s := { s with
        commands := { s.commands with items := s.commands.items ++ [Entry.mk command task] }
        entered := s.entered ++ [entry] }) { h with commands := ?_ } trivial
      intro entry hentry
      rcases List.mem_append.mp hentry with hentry | hentry
      · exact h.commands entry hentry
      · rw [List.mem_singleton.mp hentry]
        exact hcommand
  | reject => exact (h.refuse _ _).setWorker trivial
  | pop _ hitems =>
      refine { h with commands := ?_, engine := ?_ }
      · intro entry hentry
        exact h.commands entry (hitems ▸ List.mem_cons_of_mem _ hentry)
      · intro entry' hentry
        cases hentry
        exact h.commands _ (hitems ▸ List.mem_cons_self)
  | finish =>
      refine { h with engine := ?_ }
      intro entry hentry
      cases hentry
  | @apply entry hengine =>
      refine { h with engine := ?_, applied := ?_ }
      · intro entry' hentry
        cases hentry
      · intro entry' hentry
        rcases List.mem_append.mp hentry with hentry | hentry
        · exact h.applied entry' hentry
        · rw [List.mem_singleton.mp hentry]
          exact h.engine entry hengine
  | _ => exact { h with }

/-! ## A server that stopped has drained -/

/-- How many of its joins `stop` is past. -/
def joinsOver : Shutdown → ℕ
  | .notCalled | .joiningReactor => 0
  | .joiningWorkers => 1
  | .joiningEngine => 2
  | .returned => 3

/-- A thread that has left its loop left a closed and empty queue behind, and a
join that is over waited for its threads. -/
structure Drained (s : Server) : Prop where
  pool : ∀ w, s.workers w = .exited → s.pool.closed = true ∧ s.pool.items = []
  commands : s.engine = .exited → s.commands.closed = true ∧ s.commands.items = []
  reactor : 1 ≤ joinsOver s.shutdown → s.reactor = .exited
  workers : 2 ≤ joinsOver s.shutdown → ∀ w < s.config.threadCount, s.workers w = .exited
  engine : 3 ≤ joinsOver s.shutdown → s.engine = .exited

theorem mem_workersExited (h : s.workersExited = true) {w : ℕ}
    (hw : w < s.config.threadCount) : s.workers w = .exited := by
  simpa using List.all_eq_true.mp h w (List.mem_range.mpr hw)

/-- A worker that has not left its loop moves on, or leaves it as the pool's queue is
closed and drained. -/
theorem Drained.setWorker (h : s.Drained) {w : ℕ} {worker before : Worker}
    (hw : w < s.config.threadCount) (hworker : s.workers w = before)
    (hbefore : before ≠ .exited)
    (hexit : worker = .exited → s.pool.closed = true ∧ s.pool.items = []) :
    (s.setWorker w worker).Drained := by
  refine { h with pool := ?_, workers := ?_ }
  · intro v hv
    by_cases hvw : v = w
    · rw [hvw, setWorker_self] at hv
      exact hexit hv
    · rw [setWorker_of_ne hvw] at hv
      exact h.pool v hv
  · intro hjoined
    exact absurd (hworker.symm.trans (h.workers hjoined w hw)) hbefore

theorem Drained.step (h : s.Drained) (hstaffed : s.Staffed) (hstep : s.Step t) :
    t.Drained := by
  -- The reactor moves only while nobody has joined it, and the engine likewise.
  have hreading : s.reactor ≠ .exited → ∀ {P : Prop}, 1 ≤ joinsOver s.shutdown → P :=
    fun hne _ hjoined => absurd (h.reactor hjoined) hne
  have hrunning : s.engine ≠ .exited → ∀ {P : Prop}, 3 ≤ joinsOver s.shutdown → P :=
    fun hne _ hjoined => absurd (h.engine hjoined) hne
  have hbusy : ∀ {w worker}, s.workers w = worker → worker ≠ .idle →
      w < s.config.threadCount := fun hw hne => hstaffed _ (hw ▸ hne)
  cases hstep with
  | decode hreactor | saturated hreactor | leave hreactor =>
      exact { h with reactor := hreading (by rw [hreactor]; exact nofun) }
  | overload hreactor =>
      exact { h with reactor := hreading (by rw [hreactor]; exact nofun) }
  | enqueue hreactor hopen =>
      refine { h with pool := ?_, reactor := hreading (by rw [hreactor]; exact nofun) }
      intro w hw
      rw [(h.pool w hw).1] at hopen
      cases hopen
  | @take w task items hworker hw hitems =>
      have hpool : Drained { s with pool := { s.pool with items } } := by
        refine { h with pool := fun v hv => ?_ }
        rw [(h.pool v hv).2] at hitems
        cases hitems
      refine hpool.setWorker hw hworker nofun fun hexit => ?_
      have htasks := Worker.tasks_begin task s.clock
      rw [hexit] at htasks
      cases htasks
  | exit hworker hw hclosed hitems =>
      exact h.setWorker hw hworker nofun fun _ => ⟨hclosed, hitems⟩
  | build hworker | invalid hworker =>
      have hkeep : ∀ byAccount, Drained { s with byAccount } := fun _ => { h with }
      exact (hkeep _).setWorker (hbusy hworker nofun) hworker nofun nofun
  | push hworker hopen =>
      have hkeep : ∀ items entered, Drained
          { s with commands := { s.commands with items }, entered } := by
        refine fun _ _ => { h with commands := fun hexited => ?_ }
        rw [(h.commands hexited).1] at hopen
        cases hopen
      exact (hkeep _ _).setWorker (hbusy hworker nofun) hworker nofun nofun
  | refused hworker =>
      exact h.setWorker (hbusy hworker nofun) hworker nofun nofun
  | @reject w task reply hworker =>
      have hkeep : (s.refuse task reply).Drained := { h with }
      exact hkeep.setWorker (hbusy hworker nofun) hworker nofun nofun
  | pop hengine hitems =>
      exact { h with commands := nofun, engine := hrunning (by rw [hengine]; exact nofun) }
  | finish hengine hclosed hitems =>
      exact { h with commands := fun _ => ⟨hclosed, hitems⟩, engine := fun _ => rfl }
  | apply hengine =>
      exact { h with commands := nofun, engine := hrunning (by rw [hengine]; exact nofun) }
  | stop => exact { h with reactor := nofun, workers := nofun, engine := nofun }
  | stopPool _ hreactor =>
      refine { h with
        pool := fun w hw => ⟨rfl, (h.pool w hw).2⟩
        reactor := fun _ => hreactor, workers := ?_, engine := ?_ } <;>
      · intro hjoined
        simp [joinsOver] at hjoined
  | stopEngine hshutdown hworkers =>
      refine { h with
        commands := fun hexited => ⟨rfl, (h.commands hexited).2⟩
        reactor := fun _ => h.reactor (by rw [hshutdown]; decide)
        workers := fun _ w hw => mem_workersExited hworkers hw, engine := ?_ }
      intro hjoined
      simp [joinsOver] at hjoined
  | stopped hshutdown hengine =>
      exact { h with
        reactor := fun _ => h.reactor (by rw [hshutdown]; decide)
        workers := fun _ => h.workers (by rw [hshutdown]; decide)
        engine := fun _ => hengine }

/-! ## All of it, along a run -/

structure Sound (s : Server) : Prop where
  staffed : s.Staffed
  accounted : s.Accounted
  numbered : s.Numbered
  faithful : s.Faithful
  drained : s.Drained

theorem sound_start (config : ServerConfig) : (start config).Sound where
  staffed _ h := absurd rfl h
  accounted task := by
    simp [places, start, timesApplied, timesRefused, inHands, tally, Reactor.tasks,
      Worker.tasks, EngineThread.tasks, ThreadSafeQueue.construct]
  numbered := rfl
  faithful :=
    { workers := fun _ => trivial
      commands := List.forall_mem_nil _
      engine := fun _ hentry => by cases hentry
      applied := List.forall_mem_nil _
      delivered := rfl }
  drained := ⟨nofun, nofun, nofun, nofun, nofun⟩

theorem Sound.step (h : s.Sound) (hstep : s.Step t) : t.Sound where
  staffed := h.staffed.step hstep
  accounted := h.accounted.step h.staffed hstep
  numbered := h.numbered.step hstep
  faithful := h.faithful.step hstep
  drained := h.drained.step h.staffed hstep

theorem sound_run {config : ServerConfig} {labels : List Label}
    (h : run config labels = some s) : s.Sound := by
  refine Machine.run_invariant (I := Sound) ?_ (sound_start config) h
  intro s label s' hs hstep
  obtain ⟨t, ht, rfl⟩ := step_cases hstep
  obtain ⟨hstaffed, haccounted, hnumbered, hfaithful, hdrained⟩ := hs.step ht
  exact ⟨hstaffed, haccounted, hnumbered, { hfaithful with }, { hdrained with }⟩

theorem threadCount_pos (config : ServerConfig) : 0 < config.threadCount := by
  unfold ServerConfig.threadCount
  split <;> omega

/-- Once `stop` has returned, a message can only be at one of its ends. -/
theorem Sound.places_returned (h : s.Sound) (hstop : s.shutdown = .returned) (task : Task) :
    s.places task = s.timesApplied task + s.timesRefused task := by
  have hjoined : joinsOver s.shutdown = 3 := by rw [hstop, joinsOver]
  have hreactor := h.drained.reactor (by omega)
  have hworkers := h.drained.workers (by omega)
  have hengine := h.drained.engine (by omega)
  have hpool := (h.drained.pool 0 (hworkers 0 (threadCount_pos _))).2
  have hcommands := (h.drained.commands hengine).2
  have hhands : s.inHands task = 0 := by
    refine tally_eq_zero _ fun w hw => ?_
    rw [hworkers w (Finset.mem_range.mp hw)]
    rfl
  rw [places, hreactor, hpool, hhands, hcommands, hengine]
  simp [Reactor.tasks, EngineThread.tasks]

/-- **One outcome for each message.** When `stop` has returned, every message that
was decoded was either run through `Engine::apply` once, as the command it asked for,
and never rejected, or was never applied and had one rejection delivered to its
session. -/
theorem one_outcome {config : ServerConfig} {labels : List Label}
    (h : run config labels = some s) (hstop : s.shutdown = .returned)
    (htask : task ∈ s.received) :
    ((s.timesApplied task = 1 ∧ s.timesRefused task = 0) ∨
      (s.timesApplied task = 0 ∧ s.timesRefused task = 1)) ∧
    (∀ entry ∈ s.applied, entry.task = task →
      commandOf task.message = .ok entry.command) ∧
    s.delivered = s.refused.map (fun (task, reply) => (task.session, reply)) := by
  have hsound := sound_run h
  have hcount := hsound.accounted task
  rw [List.count_eq_one_of_mem hsound.numbered.nodup htask,
    hsound.places_returned hstop] at hcount
  refine ⟨by omega, ?_, hsound.faithful.delivered⟩
  rintro entry hentry rfl
  exact hsound.faithful.applied entry hentry

/-- Of two cancels the second finds the pool full, and `stop` comes while the first is
still in its queue. -/
def cancelTwice : List Label :=
  [.decode 5 (.cancel ⟨1⟩), .enqueue, .decode 5 (.cancel ⟨1⟩), .enqueue, .overload,
    .stop, .leave, .stop, .take 0, .push 0, .take 0, .stop, .pop, .apply, .pop, .stop]

theorem one_outcome_each :
    ∃ s, run { workerThreads := 1, workerQueueCapacity := 1 } cancelTwice = some s ∧
      s.shutdown = .returned ∧
      ((s.timesApplied ⟨5, .cancel ⟨1⟩, 0⟩ = 1 ∧ s.timesRefused ⟨5, .cancel ⟨1⟩, 0⟩ = 0) ∨
        (s.timesApplied ⟨5, .cancel ⟨1⟩, 0⟩ = 0 ∧
          s.timesRefused ⟨5, .cancel ⟨1⟩, 0⟩ = 1)) := by
  have hrun : (run { workerThreads := 1, workerQueueCapacity := 1 } cancelTwice).map
      (fun s => (s.shutdown, s.received)) =
      some (.returned, [⟨5, .cancel ⟨1⟩, 0⟩, ⟨5, .cancel ⟨1⟩, 1⟩]) := by decide +kernel
  obtain ⟨s, hs, heq⟩ := Option.map_eq_some_iff.mp hrun
  simp only [Prod.mk.injEq] at heq
  refine ⟨s, hs, heq.1, (one_outcome hs heq.1 ?_).1⟩
  rw [heq.2]
  exact List.mem_cons_self

end Server

end Exchange.Net
