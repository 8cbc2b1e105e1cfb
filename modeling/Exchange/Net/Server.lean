import Exchange.Concurrent.ThreadSafeQueue
import Exchange.Core.Apply
import Exchange.Framework.Line
import Exchange.Framework.Machine
import Exchange.Net.Protocol

/-!
# The server's threads

The way of a client message from the reactor through the worker pool to the
engine thread, and `Server::stop` beside it. A label names the thread that moves;
a step is one critical section or one stretch without shared state, so a list of
labels is an interleaving. What the engine does with a command is the subject of
`Core.Engine`, and here only which commands it gets.
-/

namespace Exchange.Net

open Framework

/-- `buildOrder`, with the text of the `InvalidOrderError` it throws. -/
def buildOrder (message : NewOrderMessage) : Except String BuiltOrder :=
  if message.quantity = 0 then .error "quantity must be positive"
  else
    match message.kind with
    | .limit =>
        .ok ⟨limitOrder message.orderId message.side message.account message.quantity
          message.price, .limit _ _ _ _ _⟩
    | .market =>
        .ok ⟨marketOrder message.orderId message.side message.account message.quantity,
          .market _ _ _ _⟩
    | .iceberg =>
        if message.displayQuantity = 0 then .error "an iceberg needs a display quantity"
        else
          .ok ⟨icebergOrder message.orderId message.side message.account message.quantity
            message.price message.displayQuantity, .iceberg _ _ _ _ _ _⟩

structure ServerConfig where
  workerThreads : ℕ := 2
  commandQueueCapacity : ℕ := 1024
  workerQueueCapacity : ℕ := 1024
deriving DecidableEq, Repr

/-- The pool clamps its size to at least one. -/
def ServerConfig.threadCount (config : ServerConfig) : ℕ :=
  if config.workerThreads = 0 then 1 else config.workerThreads

/-- Which `Session` object a message came in on. -/
abbrev SessionId : Type := ℕ

/-- What `onFrame` hands to the pool. -/
structure Task where
  session : SessionId
  message : ClientMessage
  /-- How many messages had been decoded before. No part of the source: it tells
  equal messages apart. -/
  number : ℕ
deriving DecidableEq, Repr

/-- A command in the engine's queue, with the task it came from. -/
structure Entry where
  command : Command
  task : Task
deriving DecidableEq

/-! ## Where the threads stand -/

inductive Reactor : Type where
  | polling
  /-- In `onFrame`, before `trySubmit`. -/
  | decoded (task : Task)
  /-- In `onFrame`, `trySubmit` having returned false. -/
  | refused (task : Task)
  | exited
deriving DecidableEq, Repr

/-- A worker in `ThreadPool::run`; `since` is when it took its task. -/
inductive Worker : Type where
  /-- In `pop`. -/
  | idle
  /-- In `dispatch`, before the account is registered. -/
  | registering (task : Task) (since : ℕ) (message : NewOrderMessage)
  /-- In `Engine::submit`; a refusal will name `orderId`. -/
  | pushing (task : Task) (since : ℕ) (orderId : OrderId) (command : Command)
  /-- In `dispatch`, before a rejection is delivered. -/
  | rejecting (task : Task) (reply : RejectedMessage)
  | exited
deriving DecidableEq

/-- Where `dispatch` begins for a task. -/
def Worker.begin (task : Task) (since : ℕ) : Worker :=
  match task.message with
  | .newOrder message => .registering task since message
  | .cancel message => .pushing task since message.orderId (.cancel message.orderId)
  | .modify message =>
      .pushing task since message.orderId
        (.modify message.orderId message.quantity message.price)

inductive EngineThread : Type where
  | polling
  | applying (entry : Entry)
  | exited
deriving DecidableEq

/-- How far a call of `Server::stop` has come. -/
inductive Shutdown : Type where
  | notCalled
  | joiningReactor
  | joiningWorkers
  | joiningEngine
  | returned
deriving DecidableEq, Repr

structure Server where
  config : ServerConfig
  reactor : Reactor := .polling
  pool : ThreadSafeQueue Task
  workers : ℕ → Worker := fun _ => .idle
  commands : ThreadSafeQueue Entry
  engine : EngineThread := .polling
  shutdown : Shutdown := .notCalled
  byAccount : AccountId → Option SessionId := fun _ => none
  /-- The rejections handed to `deliver`. -/
  delivered : List (SessionId × RejectedMessage) := []
  /-- The commands run through `Engine::apply`. -/
  applied : List Entry := []
  /-- How many steps were taken. This and what follows is no part of the source. -/
  clock : ℕ := 0
  /-- Every message that was decoded. -/
  received : List Task := []
  /-- The tasks whose commands entered the engine's queue, in that order, each with
  the worker that pushed it, when that worker took it and when it was pushed. -/
  entered : List (Served Task) := []
  /-- The tasks that were rejected, with what was handed to `deliver` for each. -/
  refused : List (Task × RejectedMessage) := []

namespace Server

/-- A server that has been started. -/
def start (config : ServerConfig) : Server :=
  { config
    pool := .construct config.workerQueueCapacity
    commands := .construct config.commandQueueCapacity }

def setWorker (s : Server) (w : ℕ) (worker : Worker) : Server :=
  { s with workers := Function.update s.workers w worker }

@[simp] theorem setWorker_self (s : Server) (w : ℕ) (worker : Worker) :
    (s.setWorker w worker).workers w = worker := Function.update_self ..

@[simp] theorem setWorker_of_ne {s : Server} {w v : ℕ} (h : v ≠ w) (worker : Worker) :
    (s.setWorker w worker).workers v = s.workers v := Function.update_of_ne h ..

def deliver (s : Server) (session : SessionId) (reply : RejectedMessage) : Server :=
  { s with delivered := s.delivered ++ [(session, reply)] }

/-- A rejection of `task` is delivered to its session. -/
def refuse (s : Server) (task : Task) (reply : RejectedMessage) : Server :=
  { s.deliver task.session reply with refused := s.refused ++ [(task, reply)] }

/-! ## The reactor thread -/

/-- `onFrame` up to the decoded message. Any session may be the next to be read. -/
def decode (s : Server) (session : SessionId) (message : ClientMessage) : Option Server :=
  match s.reactor with
  | .polling =>
      let task : Task := { session, message, number := s.received.length }
      some { s with reactor := .decoded task, received := s.received ++ [task] }
  | _ => none

/-- `trySubmit`. -/
def enqueue (s : Server) : Option Server :=
  match s.reactor with
  | .decoded task =>
      match s.pool.tryPush task with
      | (true, pool) => some { s with pool, reactor := .polling }
      | (false, pool) => some { s with pool, reactor := .refused task }
  | _ => none

/-- The rest of `onFrame` when the pool is saturated. -/
def overload (s : Server) : Option Server :=
  match s.reactor with
  | .refused task =>
      some ({ s with reactor := .polling }.refuse task
        { orderId := 0, reason := .overloaded })
  | _ => none

/-- `Reactor::run` ends, because it was told to or on an error. -/
def leave (s : Server) : Option Server :=
  match s.reactor with
  | .polling => some { s with reactor := .exited }
  | _ => none

/-! ## A worker thread -/

/-- `pop` on the pool's queue. -/
def take (s : Server) (w : ℕ) : Option Server :=
  match s.workers w with
  | .idle =>
      if w < s.config.threadCount then
        match s.pool.pop with
        | none => none
        | some (none, pool) => some ({ s with pool }.setWorker w .exited)
        | some (some task, pool) =>
            some ({ s with pool }.setWorker w (Worker.begin task s.clock))
      else none
  | _ => none

/-- The account is registered, and the order built. -/
def register (s : Server) (w : ℕ) : Option Server :=
  match s.workers w with
  | .registering task since message =>
      let s := { s with
        byAccount := Function.update s.byAccount message.account (some task.session) }
      match buildOrder message with
      | .ok order =>
          some (s.setWorker w (.pushing task since message.orderId (.submit order)))
      | .error _ =>
          some (s.setWorker w (.rejecting task { orderId := 0, reason := .invalidOrder }))
  | _ => none

/-- `Engine::submit`. -/
def push (s : Server) (w : ℕ) : Option Server :=
  match s.workers w with
  | .pushing task since orderId command =>
      match s.commands.push { command, task } with
      | none => none
      | some (true, commands) =>
          let entry : Served Task := ⟨⟨task, w, since⟩, s.clock⟩
          some ({ s with commands, entered := s.entered ++ [entry] }.setWorker w .idle)
      | some (false, commands) =>
          some ({ s with commands }.setWorker w
            (.rejecting task { orderId, reason := .overloaded }))
  | _ => none

def reject (s : Server) (w : ℕ) : Option Server :=
  match s.workers w with
  | .rejecting task reply => some ((s.refuse task reply).setWorker w .idle)
  | _ => none

/-! ## The engine thread -/

/-- `pop` on the engine's queue. -/
def pop (s : Server) : Option Server :=
  match s.engine with
  | .polling =>
      match s.commands.pop with
      | none => none
      | some (none, commands) => some { s with commands, engine := .exited }
      | some (some entry, commands) => some { s with commands, engine := .applying entry }
  | _ => none

def apply (s : Server) : Option Server :=
  match s.engine with
  | .applying entry =>
      some { s with engine := .polling, applied := s.applied ++ [entry] }
  | _ => none

/-! ## Stopping -/

/-- Every worker has left its loop. -/
def workersExited (s : Server) : Bool :=
  (List.range s.config.threadCount).all fun w => s.workers w = .exited

/-- The next thing `Server::stop` does. Each join waits for its thread. -/
def stop (s : Server) : Option Server :=
  match s.shutdown with
  | .notCalled => some { s with shutdown := .joiningReactor }
  | .joiningReactor =>
      if s.reactor = .exited then
        some { s with pool := s.pool.close, shutdown := .joiningWorkers }
      else none
  | .joiningWorkers =>
      if s.workersExited then
        some { s with commands := s.commands.close, shutdown := .joiningEngine }
      else none
  | .joiningEngine =>
      if s.engine = .exited then some { s with shutdown := .returned } else none
  | .returned => none

/-! ## All of them -/

inductive Label : Type where
  | decode (session : SessionId) (message : ClientMessage)
  | enqueue
  | overload
  | leave
  | take (w : ℕ)
  | register (w : ℕ)
  | push (w : ℕ)
  | reject (w : ℕ)
  | pop
  | apply
  | stop
deriving DecidableEq, Repr

/-- What the thread that moves does. -/
def act (s : Server) : Label → Option Server
  | .decode session message => s.decode session message
  | .enqueue => s.enqueue
  | .overload => s.overload
  | .leave => s.leave
  | .take w => s.take w
  | .register w => s.register w
  | .push w => s.push w
  | .reject w => s.reject w
  | .pop => s.pop
  | .apply => s.apply
  | .stop => s.stop

/-- Any thread that can move may be the next to. -/
def machine : Machine Server Label where
  step s label := (s.act label).map fun s' => { s' with clock := s.clock + 1 }

/-- The server after these steps, if they can be taken. -/
def run (config : ServerConfig) (labels : List Label) : Option Server :=
  machine.run (start config) labels

/-! ## What a step can do -/

variable (s : Server)

/-- The steps of all threads, apart from the clock. -/
inductive Step : Server → Prop where
  | decode {session : SessionId} {message : ClientMessage} (hreactor : s.reactor = .polling) :
      Step { s with
        reactor := .decoded ⟨session, message, s.received.length⟩
        received := s.received ++ [⟨session, message, s.received.length⟩] }
  | enqueue {task : Task} (hreactor : s.reactor = .decoded task)
      (hopen : s.pool.closed = false) :
      Step { s with
        pool := { s.pool with items := s.pool.items ++ [task] }, reactor := .polling }
  | saturated {task : Task} (hreactor : s.reactor = .decoded task) :
      Step { s with reactor := .refused task }
  | overload {task : Task} (hreactor : s.reactor = .refused task) :
      Step ({ s with reactor := .polling }.refuse task
        { orderId := 0, reason := .overloaded })
  | leave (hreactor : s.reactor = .polling) : Step { s with reactor := .exited }
  | take {w : ℕ} {task : Task} {items : List Task} (hworker : s.workers w = .idle)
      (hw : w < s.config.threadCount) (hitems : s.pool.items = task :: items) :
      Step ({ s with pool := { s.pool with items } }.setWorker w
        (Worker.begin task s.clock))
  | exit {w : ℕ} (hworker : s.workers w = .idle) (hw : w < s.config.threadCount)
      (hclosed : s.pool.closed = true) (hitems : s.pool.items = []) :
      Step (s.setWorker w .exited)
  | build {w : ℕ} {task : Task} {since : ℕ} {message : NewOrderMessage} {order : BuiltOrder}
      (hworker : s.workers w = .registering task since message)
      (hbuild : buildOrder message = .ok order) :
      Step ({ s with byAccount :=
        Function.update s.byAccount message.account (some task.session) }.setWorker w
          (.pushing task since message.orderId (.submit order)))
  | invalid {w : ℕ} {task : Task} {since : ℕ} {message : NewOrderMessage}
      (hworker : s.workers w = .registering task since message) :
      Step ({ s with byAccount :=
        Function.update s.byAccount message.account (some task.session) }.setWorker w
          (.rejecting task { orderId := 0, reason := .invalidOrder }))
  | push {w : ℕ} {task : Task} {since : ℕ} {orderId : OrderId} {command : Command}
      {entry : Served Task} (hworker : s.workers w = .pushing task since orderId command)
      (hopen : s.commands.closed = false) (hentry : entry = ⟨⟨task, w, since⟩, s.clock⟩) :
      Step ({ s with
        commands := { s.commands with items := s.commands.items ++ [Entry.mk command task] }
        entered := s.entered ++ [entry] }.setWorker w .idle)
  | refused {w : ℕ} {task : Task} {since : ℕ} {orderId : OrderId} {command : Command}
      (hworker : s.workers w = .pushing task since orderId command) :
      Step (s.setWorker w (.rejecting task { orderId, reason := .overloaded }))
  | reject {w : ℕ} {task : Task} {reply : RejectedMessage}
      (hworker : s.workers w = .rejecting task reply) :
      Step ((s.refuse task reply).setWorker w .idle)
  | pop {entry : Entry} {items : List Entry} (hengine : s.engine = .polling)
      (hitems : s.commands.items = entry :: items) :
      Step { s with commands := { s.commands with items }, engine := .applying entry }
  | finish (hengine : s.engine = .polling) (hclosed : s.commands.closed = true)
      (hitems : s.commands.items = []) : Step { s with engine := .exited }
  | apply {entry : Entry} (hengine : s.engine = .applying entry) :
      Step { s with engine := .polling, applied := s.applied ++ [entry] }
  | stop (hshutdown : s.shutdown = .notCalled) : Step { s with shutdown := .joiningReactor }
  | stopPool (hshutdown : s.shutdown = .joiningReactor) (hreactor : s.reactor = .exited) :
      Step { s with pool := s.pool.close, shutdown := .joiningWorkers }
  | stopEngine (hshutdown : s.shutdown = .joiningWorkers) (hworkers : s.workersExited) :
      Step { s with commands := s.commands.close, shutdown := .joiningEngine }
  | stopped (hshutdown : s.shutdown = .joiningEngine) (hengine : s.engine = .exited) :
      Step { s with shutdown := .returned }

variable {s} {s' : Server}

theorem act_cases {label : Label} (h : s.act label = some s') : s.Step s' := by
  cases label with
  | decode session message =>
      simp only [act, Server.decode] at h
      split at h <;> cases h
      exact .decode ‹_›
  | enqueue =>
      simp only [act, Server.enqueue] at h
      split at h
      · split at h <;> cases h
        · obtain ⟨hopen, _, rfl⟩ := ThreadSafeQueue.tryPush_true ‹_›
          exact .enqueue ‹_› hopen
        · obtain rfl := ThreadSafeQueue.tryPush_false ‹_›
          exact .saturated ‹_›
      · cases h
  | overload =>
      simp only [act, Server.overload] at h
      split at h <;> cases h
      exact .overload ‹_›
  | leave =>
      simp only [act, Server.leave] at h
      split at h <;> cases h
      exact .leave ‹_›
  | take w =>
      simp only [act, Server.take] at h
      split at h
      · split at h
        · split at h <;> cases h
          · obtain ⟨hclosed, hitems, rfl⟩ := ThreadSafeQueue.pop_none ‹_›
            exact .exit ‹_› ‹_› hclosed hitems
          · obtain ⟨hitems, hpool⟩ := ThreadSafeQueue.pop_some ‹_›
            rw [hpool]
            exact .take ‹_› ‹_› hitems
        · cases h
      · cases h
  | register w =>
      simp only [act, Server.register] at h
      split at h
      · split at h <;> cases h
        · exact .build ‹_› ‹_›
        · exact .invalid ‹_›
      · cases h
  | push w =>
      simp only [act, Server.push] at h
      split at h
      · split at h <;> cases h
        · obtain ⟨hopen, _, rfl⟩ := ThreadSafeQueue.push_true ‹_›
          exact .push ‹_› hopen rfl
        · obtain ⟨_, rfl⟩ := ThreadSafeQueue.push_false ‹_›
          exact .refused ‹_›
      · cases h
  | reject w =>
      simp only [act, Server.reject] at h
      split at h <;> cases h
      exact .reject ‹_›
  | pop =>
      simp only [act, Server.pop] at h
      split at h
      · split at h <;> cases h
        · obtain ⟨hclosed, hitems, rfl⟩ := ThreadSafeQueue.pop_none ‹_›
          exact .finish ‹_› hclosed hitems
        · obtain ⟨hitems, hcommands⟩ := ThreadSafeQueue.pop_some ‹_›
          rw [hcommands]
          exact .pop ‹_› hitems
      · cases h
  | apply =>
      simp only [act, Server.apply] at h
      split at h <;> cases h
      exact .apply ‹_›
  | stop =>
      simp only [act, Server.stop] at h
      split at h
      · cases h
        exact .stop ‹_›
      · split at h <;> cases h
        exact .stopPool ‹_› ‹_›
      · split at h <;> cases h
        exact .stopEngine ‹_› ‹_›
      · split at h <;> cases h
        exact .stopped ‹_› ‹_›
      · cases h

theorem step_cases {label : Label} (h : machine.step s label = some s') :
    ∃ t, s.Step t ∧ s' = { t with clock := s.clock + 1 } := by
  obtain ⟨t, ht, rfl⟩ := Option.map_eq_some_iff.mp h
  exact ⟨t, act_cases ht, rfl⟩

end Server

end Exchange.Net
