import Exchange.Net.Server

/-!
# The order of commands

The messages between the reactor and the engine's queue are a line, served by the
workers: the reactor lets them join, a worker takes the one in front, and pushing
its command serves it. So two commands enter the queue in the order in which their
messages were decoded, unless two workers held them at the same time.
-/

namespace Exchange.Net

open Framework

/-- A message on its way into the pool. -/
def Reactor.pending : Reactor → List Task
  | .decoded task => [task]
  | _ => []

/-- The task worker `w` may still push a command for. -/
def Worker.held (w : ℕ) : Worker → Option (Taken Task)
  | .registering task since _ => some ⟨task, w, since⟩
  | .pushing task since _ _ => some ⟨task, w, since⟩
  | _ => none

@[simp] theorem Worker.held_idle (w : ℕ) : Worker.idle.held w = none := rfl

theorem Worker.held_begin (w : ℕ) (task : Task) (since : ℕ) :
    (Worker.begin task since).held w = some ⟨task, w, since⟩ := by
  unfold Worker.begin
  cases task.message <;> rfl

namespace Server

/-- The line the messages stand in. -/
def line (s : Server) : Line Task where
  width := s.config.threadCount
  clock := s.clock
  arrived := s.received
  waiting := s.pool.items ++ s.reactor.pending
  hands w := (s.workers w).held w
  done := s.entered

/-- The step to `s'`, which takes one tick, is a move of the line. -/
def Advances (s s' : Server) : Prop :=
  Line.Move Task.number s.line { s' with clock := s.clock + 1 }.line

theorem hands_setWorker (workers : ℕ → Worker) (w : ℕ) (worker : Worker) :
    (fun v => (Function.update workers w worker v).held v) =
      Function.update (fun v => (workers v).held v) w (worker.held w) := by
  funext v
  by_cases hv : v = w
  · rw [hv, Function.update_self, Function.update_self]
  · rw [Function.update_of_ne hv, Function.update_of_ne hv]

section Step

variable {s s' : Server} {w : ℕ}

/-- Steps that change neither what the workers hold nor what entered. -/
theorem line_rest (hconfig : s'.config = s.config) (hreceived : s'.received = s.received)
    (hwaiting : (s'.pool.items ++ s'.reactor.pending).Sublist
      (s.pool.items ++ s.reactor.pending))
    (hhands : s'.line.hands = s.line.hands) (hentered : s'.entered = s.entered) :
    s.Advances s' := by
  have hline : { s' with clock := s.clock + 1 }.line =
      { s.line with clock := s.line.clock + 1
                    waiting := s'.pool.items ++ s'.reactor.pending } := by
    unfold line at hhands ⊢
    dsimp only at hhands ⊢
    rw [hconfig, hreceived, hhands, hentered]
  rw [Advances, hline]
  exact .leave _ hwaiting

/-- Steps after which worker `w` has nothing more to push. -/
theorem line_drop (hconfig : s'.config = s.config) (hreceived : s'.received = s.received)
    (hpool : s'.pool.items = s.pool.items) (hreactor : s'.reactor = s.reactor)
    (hentered : s'.entered = s.entered) (worker : Worker) (hheld : worker.held w = none)
    (hworkers : s'.workers = Function.update s.workers w worker) :
    s.Advances s' := by
  have hline : { s' with clock := s.clock + 1 }.line =
      { s.line with clock := s.line.clock + 1
                    hands := Function.update s.line.hands w none } := by
    unfold line
    dsimp only
    rw [hconfig, hreceived, hpool, hreactor, hentered, hworkers, hands_setWorker, hheld]
  rw [Advances, hline]
  exact .drop w

/-- A decoded message joins the line. -/
theorem line_decode {session : SessionId} {message : ClientMessage}
    (hreactor : s.reactor = .polling) :
    s.Advances { s with
      reactor := .decoded ⟨session, message, s.received.length⟩
      received := s.received ++ [⟨session, message, s.received.length⟩] } := by
  have hline : Server.line { s with
      reactor := .decoded ⟨session, message, s.received.length⟩
      received := s.received ++ [⟨session, message, s.received.length⟩]
      clock := s.clock + 1 } =
    { s.line with
      clock := s.line.clock + 1
      arrived := s.line.arrived ++ [⟨session, message, s.received.length⟩]
      waiting := s.line.waiting ++ [⟨session, message, s.received.length⟩] } := by
    simp [line, Reactor.pending, hreactor]
  rw [Advances, hline]
  exact .join _ rfl

theorem line_take {task : Task} {items : List Task} (hw : w < s.config.threadCount)
    (hitems : s.pool.items = task :: items) :
    s.Advances ({ s with pool := { s.pool with items } }.setWorker w
      (Worker.begin task s.clock)) := by
  have hline : { { s with pool := { s.pool with items } }.setWorker w
      (Worker.begin task s.clock) with clock := s.clock + 1 }.line =
    { s.line with
      clock := s.line.clock + 1
      waiting := items ++ s.reactor.pending
      hands := Function.update s.line.hands w (some ⟨task, w, s.line.clock⟩) } := by
    simp only [line, setWorker, hands_setWorker, Worker.held_begin]
  rw [Advances, hline]
  exact .take w task _ hw (congrArg (· ++ s.reactor.pending) hitems)

theorem line_push {task : Task} {since : ℕ} {orderId : OrderId} {command : Command}
    {entry : Served Task} {commands : ThreadSafeQueue Entry}
    (hworker : s.workers w = .pushing task since orderId command)
    (hentry : entry = ⟨⟨task, w, since⟩, s.clock⟩) :
    s.Advances ({ s with commands, entered := s.entered ++ [entry] }.setWorker w .idle) := by
  have hheld : s.line.hands w = some ⟨task, w, since⟩ := by
    show (s.workers w).held w = _
    rw [hworker]
    rfl
  have hline : { { s with commands, entered := s.entered ++ [entry] }.setWorker w .idle with
      clock := s.clock + 1 }.line =
    { s.line with
      clock := s.line.clock + 1
      hands := Function.update s.line.hands w none
      done := s.line.done ++ [entry] } := by
    simp only [line, setWorker, hands_setWorker, Worker.held_idle]
  rw [Advances, hline, hentry]
  exact .serve ⟨task, w, since⟩ hheld

/-- **Every step is a move of the line.** -/
theorem line_step {label : Label} (h : machine.step s label = some s') :
    Line.Move Task.number s.line s'.line := by
  obtain ⟨t, ht, rfl⟩ := step_cases h
  show s.Advances t
  cases ht with
  | decode hreactor => exact line_decode hreactor
  | @enqueue task hreactor =>
      -- The task is behind all others before the push and after it.
      refine line_rest rfl rfl ?_ rfl rfl
      rw [hreactor]
      show (s.pool.items ++ [task] ++ []).Sublist (s.pool.items ++ [task])
      rw [List.append_nil]
  | saturated | overload | leave =>
      exact line_rest rfl rfl ((List.nil_sublist _).append_left _) rfl rfl
  | take _ hw hitems => exact line_take hw hitems
  | exit => exact line_drop rfl rfl rfl rfl rfl .exited rfl rfl
  | build hworker =>
      -- The worker keeps its task and only gets on with it.
      refine line_rest rfl rfl (List.Sublist.refl _) ?_ rfl
      unfold line
      dsimp only [setWorker]
      rw [hands_setWorker]
      refine (Function.update_eq_self_iff).mpr ?_
      rw [hworker]
      rfl
  | @invalid w task =>
      exact line_drop rfl rfl rfl rfl rfl
        (.rejecting task { orderId := 0, reason := .invalidOrder }) rfl rfl
  | push hworker _ hentry => exact line_push hworker hentry
  | @refused w task since orderId =>
      exact line_drop rfl rfl rfl rfl rfl
        (.rejecting task { orderId, reason := .overloaded }) rfl rfl
  | reject => exact line_drop rfl rfl rfl rfl rfl .idle rfl rfl
  | pop | finish | apply | stop | stopPool | stopEngine | stopped =>
      exact line_rest rfl rfl (List.Sublist.refl _) rfl rfl

end Step

theorem line_start (config : ServerConfig) : (start config).line.Sound Task.number := by
  have hout : ∀ x, ¬ (start config).line.Out x := by
    rintro x (hx | ⟨d, hd, _⟩)
    · cases hx
    · cases hd
  exact {
    arrived := rfl
    sorted := .nil
    issued := fun _ hx => by cases hx
    out := fun x hx => absurd hx (hout x)
    ahead := fun x hx => absurd hx (hout x)
    inTurn := fun x _ hx => absurd hx (hout x)
    stamped := .nil
    past := fun _ hd => by cases hd
    holding := fun _ hd => by cases hd
    oneByOne := fun _ hd => by cases hd }

/-- **Commands enter in order, or were in two hands at once.** Of two messages, of
one session or of two, the one decoded first has its command enter the engine's
queue first, unless a second worker took the later one while the first was still
at the earlier, and was quicker. A single worker keeps them all in order. -/
theorem commands_in_order {config : ServerConfig} {labels : List Label} {s : Server}
    (h : run config labels = some s) {a b : Served Task} (ha : a ∈ s.entered)
    (hb : b ∈ s.entered) (hab : [a.item, b.item].Sublist s.received) :
    ([a, b].Sublist s.entered ∨
      (a.hand ≠ b.hand ∧ a.taken < b.taken ∧ b.taken < b.served ∧
        b.served < a.served)) ∧
    (config.threadCount = 1 → [a, b].Sublist s.entered) := by
  obtain ⟨hsound, hwidth⟩ := (line_start config).moves (Machine.run_simulates line_step h)
  refine ⟨hsound.order ha hb hab, fun hone => ?_⟩
  refine hsound.order_of_one ?_ ha hb hab
  rw [hwidth]
  exact Nat.le_of_eq hone

/-- Session 5 sends an order, and then its cancel. -/
def orderTask : Task := ⟨5, .newOrder ⟨1, 7, .buy, .limit, 100, 5, 0⟩, 0⟩

def cancelTask : Task := ⟨5, .cancel ⟨1⟩, 1⟩

/-- The reactor hands both to the pool. -/
def handedOver : List Label :=
  [.decode 5 orderTask.message, .enqueue, .decode 5 cancelTask.message, .enqueue]

/-- With two workers the cancel can be in the queue before the order it cancels. -/
theorem commands_overtake :
    ∃ s, run {} (handedOver ++ [.take 0, .take 1, .push 1, .register 0, .push 0]) = some s ∧
      s.received = [orderTask, cancelTask] ∧
      s.entered.map (·.item) = [cancelTask, orderTask] ∧
      s.commands.items.map (·.task) = [cancelTask, orderTask] := by
  have hrun : (run {} (handedOver ++ [.take 0, .take 1, .push 1, .register 0,
      .push 0])).map (fun s => (s.received, s.entered.map (·.item),
        s.commands.items.map (·.task))) =
      some ([orderTask, cancelTask], [cancelTask, orderTask],
        [cancelTask, orderTask]) := by decide +kernel
  obtain ⟨s, hs, heq⟩ := Option.map_eq_some_iff.mp hrun
  simp only [Prod.mk.injEq] at heq
  exact ⟨s, hs, heq⟩

/-- One worker pushes the order, then the cancel. -/
theorem commands_in_order_one :
    ∃ s, run { workerThreads := 1 }
        (handedOver ++ [.take 0, .register 0, .push 0, .take 0, .push 0]) = some s ∧
      [⟨⟨orderTask, 0, 4⟩, 6⟩, ⟨⟨cancelTask, 0, 7⟩, 8⟩].Sublist s.entered := by
  have hrun : (run { workerThreads := 1 } (handedOver ++ [.take 0, .register 0, .push 0,
      .take 0, .push 0])).map (fun s => (s.received, s.entered)) =
      some ([orderTask, cancelTask],
        [⟨⟨orderTask, 0, 4⟩, 6⟩, ⟨⟨cancelTask, 0, 7⟩, 8⟩]) := by decide +kernel
  obtain ⟨s, hs, heq⟩ := Option.map_eq_some_iff.mp hrun
  simp only [Prod.mk.injEq] at heq
  refine ⟨s, hs, (commands_in_order hs ?_ ?_ ?_).2 rfl⟩
  · rw [heq.2]
    exact List.mem_cons_self
  · rw [heq.2]
    exact List.mem_cons_of_mem _ List.mem_cons_self
  · rw [heq.1]

end Server

end Exchange.Net
