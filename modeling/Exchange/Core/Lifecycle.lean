import Exchange.Concurrent.ThreadSafeQueue
import Exchange.Core.Engine
import Exchange.Framework.Machine

/-!
# Starting and stopping the engine

`Engine::start`, `submit`, `trySubmit` and `stop` from any number of threads, beside
the engine thread itself. A step is one access to what the threads share. `start` and
`stop` each have a flag that lets the first caller through and turns the others back
at once; nothing ties the two flags to each other, and a `stop` that is turned back
does not wait for the one that got through. Nor does anything guard `thread_`: `start`
creates the thread and then assigns it, and a `stop` that asks in between whether there
is a thread to join is told that there is none.
-/

namespace Exchange

open Framework

/-- How far the `start` has come that set `started_`. -/
inductive Starter : Type where
  | notCalled
  /-- Before the thread is created. -/
  | launching
  /-- The thread runs, and `thread_` has not been assigned. -/
  | assigning
  | returned
deriving DecidableEq, Repr

/-- There is an engine thread, assigned to `thread_` or not. -/
def Starter.created : Starter → Bool
  | .assigning | .returned => true
  | _ => false

/-- How far the `stop` has come that set `stopping_`. -/
inductive Stopper : Type where
  | notCalled
  | closing
  | joining
  | flushing
  | returned
deriving DecidableEq, Repr

/-- Past the join, whether there was a thread to join or not. -/
def Stopper.pastJoin : Stopper → Bool
  | .flushing | .returned => true
  | _ => false

/-- Where the engine thread stands. -/
inductive EngineLoop : Type where
  /-- There is no engine thread. -/
  | notLaunched
  /-- Before `running_` is set. -/
  | launched
  /-- In `pop`. -/
  | polling
  | applying (command : Command)
  /-- Past the loop, before `running_` is cleared. -/
  | leaving
  | ended
deriving DecidableEq

/-- The command the engine thread is at. -/
def EngineLoop.atHand : EngineLoop → List Command
  | .applying command => [command]
  | _ => []

structure Lifecycle (L : Type) where
  queue : ThreadSafeQueue Command
  engine : Engine L
  running : Bool := false
  starter : Starter := .notCalled
  stopper : Stopper := .notCalled
  loop : EngineLoop := .notLaunched
  /-- The commands for which `submit` or `trySubmit` returned true, in the order the
  pushes took effect. This and what follows is no part of the source. -/
  accepted : List Command := []
  /-- The commands the engine thread is done with, in that order. -/
  handled : List Command := []
  /-- Some call of `stop` has returned. -/
  stopReturned : Bool := false

namespace Lifecycle

variable {E L : Type}

def construct (capacity : ℕ) (log : Option L) : Lifecycle L :=
  { queue := .construct capacity, engine := { log } }

/-! ## The callers -/

/-- `start`, up to its flag. -/
def start (s : Lifecycle L) : Lifecycle L :=
  match s.starter with
  | .notCalled => { s with starter := .launching }
  | _ => s

/-- The thread is created, and runs from here on. -/
def create (s : Lifecycle L) : Option (Lifecycle L) :=
  match s.starter with
  | .launching => some { s with loop := .launched, starter := .assigning }
  | _ => none

/-- `thread_` is assigned, and `start` returns. -/
def assign (s : Lifecycle L) : Option (Lifecycle L) :=
  match s.starter with
  | .assigning => some { s with starter := .returned }
  | _ => none

/-- `thread_.joinable()`. Only the `stop` that set `stopping_` joins, and it asks before
it does. -/
def joinable (s : Lifecycle L) : Bool :=
  s.starter = .returned

/-- The push of `submit` or `trySubmit` has taken effect. -/
def pushed (s : Lifecycle L) (command : Command) :
    Bool × ThreadSafeQueue Command → Lifecycle L
  | (true, queue) => { s with queue, accepted := s.accepted ++ [command] }
  | (false, queue) => { s with queue }

def submit (s : Lifecycle L) (command : Command) : Option (Lifecycle L) :=
  (s.queue.push command).map (s.pushed command)

def trySubmit (s : Lifecycle L) (command : Command) : Lifecycle L :=
  s.pushed command (s.queue.tryPush command)

/-- `stop`, up to its flag. -/
def stop (s : Lifecycle L) : Lifecycle L :=
  match s.stopper with
  | .notCalled => { s with stopper := .closing }
  | _ => { s with stopReturned := true }

def close (s : Lifecycle L) : Option (Lifecycle L) :=
  match s.stopper with
  | .closing => some { s with queue := s.queue.close, stopper := .joining }
  | _ => none

/-- Waits for the engine thread, if there is one to join. -/
def join (s : Lifecycle L) : Option (Lifecycle L) :=
  match s.stopper with
  | .joining =>
      if s.joinable = false ∨ s.loop = .ended then some { s with stopper := .flushing }
      else none
  | _ => none

/-- The log is flushed, and `stop` returns. -/
def flush (flushLog : L → E → L) (s : Lifecycle L) (io : E) : Option (Lifecycle L) :=
  match s.stopper with
  | .flushing =>
      some { s with
        engine := { s.engine with log := s.engine.log.map (flushLog · io) }
        stopper := .returned
        stopReturned := true }
  | _ => none

/-! ## The engine thread -/

def begin (s : Lifecycle L) : Option (Lifecycle L) :=
  match s.loop with
  | .launched => some { s with running := true, loop := .polling }
  | _ => none

def pop (s : Lifecycle L) : Option (Lifecycle L) :=
  match s.loop with
  | .polling =>
      match s.queue.pop with
      | none => none
      | some (none, queue) => some { s with queue, loop := .leaving }
      | some (some command, queue) => some { s with queue, loop := .applying command }
  | _ => none

def turn (log : CommandLog E L) (onFill : FillHandler) (s : Lifecycle L)
    (fails : ℕ → Bool) (io : E) : Option (Lifecycle L) :=
  match s.loop with
  | .applying command =>
      some { s with
        engine := s.engine.turn log onFill fails io command
        handled := s.handled ++ [command]
        loop := .polling }
  | _ => none

def finish (s : Lifecycle L) : Option (Lifecycle L) :=
  match s.loop with
  | .leaving => some { s with running := false, loop := .ended }
  | _ => none

/-! ## All of them -/

inductive Label (E : Type) : Type where
  | start
  | create
  | assign
  | submit (command : Command)
  | trySubmit (command : Command)
  | stop
  | close
  | join
  | flush (io : E)
  | begin
  | pop
  | turn (fails : ℕ → Bool) (io : E)
  | finish

/-- Any thread that can move may be the next to, until a turn of the engine runs into
a precondition: nothing is known of what follows. -/
def machine (log : CommandLog E L) (flushLog : L → E → L) (onFill : FillHandler) :
    Machine (Lifecycle L) (Label E) where
  step s label :=
    if s.engine.ended then none
    else
      match label with
      | .start => some s.start
      | .create => s.create
      | .assign => s.assign
      | .submit command => s.submit command
      | .trySubmit command => some (s.trySubmit command)
      | .stop => some s.stop
      | .close => s.close
      | .join => s.join
      | .flush io => s.flush flushLog io
      | .begin => s.begin
      | .pop => s.pop
      | .turn fails io => s.turn log onFill fails io
      | .finish => s.finish

/-! ## Calls that do not get in each other's way -/

/-- What the flags do not see to: a `stop` that is turned back comes after the other
one has joined; none asks for a thread to join between the creation of the thread and its
assignment; one that finds no thread leaves no command behind; and no thread is created
once a `stop` is past its join. -/
def Orderly (s : Lifecycle L) : Label E → Prop
  | .stop => s.stopper ≠ .notCalled → s.stopper.pastJoin = true
  | .join => s.starter ≠ .assigning ∧ (s.joinable = false → s.queue.items = [])
  | .create => s.stopper.pastJoin = false
  | _ => True

instance (s : Lifecycle L) : (label : Label E) → Decidable (s.Orderly label)
  | .stop =>
      inferInstanceAs (Decidable (s.stopper ≠ .notCalled → s.stopper.pastJoin = true))
  | .join =>
      inferInstanceAs (Decidable
        (s.starter ≠ .assigning ∧ (s.joinable = false → s.queue.items = [])))
  | .create => inferInstanceAs (Decidable (s.stopper.pastJoin = false))
  | .start | .assign | .submit _ | .trySubmit _ | .close | .flush _ | .begin | .pop
  | .turn _ _ | .finish => inferInstanceAs (Decidable True)

variable {log : CommandLog E L} {flushLog : L → E → L} {onFill : FillHandler}
  {s s' : Lifecycle L}

variable (log onFill s) in
/-- Everything an orderly step can do. -/
inductive Step : Lifecycle L → Prop where
  | idle : Step s
  | start (hstarter : s.starter = .notCalled) : Step { s with starter := .launching }
  | create (hstarter : s.starter = .launching) (hstopper : s.stopper.pastJoin = false) :
      Step { s with loop := .launched, starter := .assigning }
  | assign (hstarter : s.starter = .assigning) : Step { s with starter := .returned }
  | push {command : Command} (hopen : s.queue.closed = false) :
      Step { s with
        queue := { s.queue with items := s.queue.items ++ [command] }
        accepted := s.accepted ++ [command] }
  | stop (hstopper : s.stopper = .notCalled) : Step { s with stopper := .closing }
  | stopAgain (hstopper : s.stopper.pastJoin = true) : Step { s with stopReturned := true }
  | close (hstopper : s.stopper = .closing) :
      Step { s with queue := s.queue.close, stopper := .joining }
  | join (hstopper : s.stopper = .joining)
      (hloop : s.starter.created = false ∧ s.queue.items = [] ∨ s.loop = .ended) :
      Step { s with stopper := .flushing }
  | flush {log : Option L} (hstopper : s.stopper = .flushing) :
      Step { s with
        engine := { s.engine with log }, stopper := .returned, stopReturned := true }
  | begin (hloop : s.loop = .launched) : Step { s with running := true, loop := .polling }
  | pop {command : Command} {items : List Command} (hloop : s.loop = .polling)
      (hitems : s.queue.items = command :: items) :
      Step { s with queue := { s.queue with items }, loop := .applying command }
  | leave (hloop : s.loop = .polling) (hclosed : s.queue.closed = true)
      (hitems : s.queue.items = []) : Step { s with loop := .leaving }
  | turn {command : Command} {fails : ℕ → Bool} {io : E}
      (hloop : s.loop = .applying command) :
      Step { s with
        engine := s.engine.turn log onFill fails io command
        handled := s.handled ++ [command]
        loop := .polling }
  | finish (hloop : s.loop = .leaving) : Step { s with running := false, loop := .ended }

theorem created_eq_false (hassigning : s.starter ≠ .assigning) (hnone : s.joinable = false) :
    s.starter.created = false := by
  have hreturned : s.starter ≠ .returned := of_decide_eq_false hnone
  cases hstarter : s.starter with
  | notCalled | launching => rfl
  | assigning => exact absurd hstarter hassigning
  | returned => exact absurd hstarter hreturned

theorem push_cases {command : Command} {r : Bool × ThreadSafeQueue Command}
    (h : s.queue.push command = some r ∨ s.queue.tryPush command = r) :
    Step log onFill s (s.pushed command r) := by
  obtain ⟨returned, queue⟩ := r
  cases returned with
  | true =>
      rcases h with h | h
      · obtain ⟨hopen, _, rfl⟩ := ThreadSafeQueue.push_true h
        exact .push hopen
      · obtain ⟨hopen, _, rfl⟩ := ThreadSafeQueue.tryPush_true h
        exact .push hopen
  | false =>
      rcases h with h | h
      · obtain ⟨_, rfl⟩ := ThreadSafeQueue.push_false h
        exact .idle
      · obtain rfl := ThreadSafeQueue.tryPush_false h
        exact .idle

theorem step_cases {label : Label E}
    (h : ((machine log flushLog onFill).within Orderly).step s label = some s') :
    s.engine.ended = false ∧ Step log onFill s s' := by
  obtain ⟨horderly, h⟩ := Machine.within_step h
  simp only [machine] at h
  split at h
  · cases h
  rename_i hended
  refine ⟨Bool.eq_false_iff.mpr hended, ?_⟩
  cases label with
  | start =>
      cases h
      unfold Lifecycle.start
      split
      · exact .start ‹_›
      · exact .idle
  | create =>
      simp only [Lifecycle.create] at h
      split at h <;> cases h
      exact .create ‹_› horderly
  | assign =>
      simp only [Lifecycle.assign] at h
      split at h <;> cases h
      exact .assign ‹_›
  | submit command =>
      obtain ⟨r, hr, rfl⟩ := Option.map_eq_some_iff.mp h
      exact push_cases (Or.inl hr)
  | trySubmit command =>
      cases h
      exact push_cases (Or.inr rfl)
  | stop =>
      cases h
      unfold Lifecycle.stop
      split
      · exact .stop ‹_›
      · exact .stopAgain (horderly ‹_›)
  | close =>
      simp only [Lifecycle.close] at h
      split at h <;> cases h
      exact .close ‹_›
  | join =>
      simp only [Lifecycle.join] at h
      split at h
      · split at h <;> cases h
        rename_i hloop
        refine .join ‹_› (hloop.imp_left fun hnone => ?_)
        exact ⟨created_eq_false horderly.1 hnone, horderly.2 hnone⟩
      · cases h
  | flush io =>
      simp only [Lifecycle.flush] at h
      split at h <;> cases h
      exact .flush ‹_›
  | begin =>
      simp only [Lifecycle.begin] at h
      split at h <;> cases h
      exact .begin ‹_›
  | pop =>
      simp only [Lifecycle.pop] at h
      split at h
      · split at h <;> cases h
        · obtain ⟨hclosed, hitems, rfl⟩ := ThreadSafeQueue.pop_none ‹_›
          exact .leave ‹_› hclosed hitems
        · obtain ⟨hitems, hqueue⟩ := ThreadSafeQueue.pop_some ‹_›
          rw [hqueue]
          exact .pop ‹_› hitems
      · cases h
  | turn fails io =>
      simp only [Lifecycle.turn] at h
      split at h <;> cases h
      exact .turn ‹_›
  | finish =>
      simp only [Lifecycle.finish] at h
      split at h <;> cases h
      exact .finish ‹_›

/-! ## What orderly steps keep -/

structure Kept (s : Lifecycle L) : Prop where
  fifo : s.accepted = s.handled ++ s.loop.atHand ++ s.queue.items
  drained : s.loop = .leaving ∨ s.loop = .ended →
    s.queue.closed = true ∧ s.queue.items = []
  launched : s.starter.created = false → s.loop = .notLaunched
  running : s.loop = .notLaunched ∨ s.loop = .launched ∨ s.loop = .ended →
    s.running = false
  closed : s.stopper = .joining ∨ s.stopper.pastJoin = true → s.queue.closed = true
  joined : s.stopper.pastJoin = true →
    s.queue.items = [] ∧ (s.loop = .notLaunched ∨ s.loop = .ended)
  returned : s.stopReturned = true → s.stopper.pastJoin = true
  counted : s.engine.ended = false → s.engine.counted = s.handled.length
  survives : s.engine.ended = true → s.loop = .polling

theorem kept_construct (capacity : ℕ) (l : Option L) : (construct capacity l).Kept where
  fifo := rfl
  drained h := by rcases h with h | h <;> cases h
  launched _ := rfl
  running _ := rfl
  closed h := by rcases h with h | h <;> cases h
  joined := nofun
  returned := nofun
  counted _ := rfl
  survives := nofun

/-- The engine thread moves, which it does only while no `stop` is past its join: what
is to be shown is about the commands alone. -/
theorem Kept.engineThread (h : s.Kept) {loop before : EngineLoop}
    {queue : ThreadSafeQueue Command} {engine : Engine L} {running : Bool}
    {handled : List Command} (hloop : s.loop = before) (hnone : before ≠ .notLaunched)
    (hended : before ≠ .ended) (hclosed : queue.closed = s.queue.closed)
    (fifo : s.handled ++ before.atHand ++ s.queue.items =
      handled ++ loop.atHand ++ queue.items)
    (drained : loop = .leaving ∨ loop = .ended → queue.closed = true ∧ queue.items = [])
    (idle : loop = .notLaunched ∨ loop = .launched ∨ loop = .ended → running = false)
    (counted : engine.ended = false → engine.counted = handled.length)
    (survives : engine.ended = true → loop = .polling) :
    Kept { s with loop, queue, engine, running, handled } where
  fifo := h.fifo.trans (hloop ▸ fifo)
  drained := drained
  launched hstarter := absurd (hloop.symm.trans (h.launched hstarter)) hnone
  running := idle
  closed hc := hclosed.trans (h.closed hc)
  joined hpast := ((h.joined hpast).2.elim (fun hn => absurd (hloop.symm.trans hn) hnone)
    fun he => absurd (hloop.symm.trans he) hended)
  returned := h.returned
  counted := counted
  survives := survives

theorem Kept.step (h : s.Kept) (hended : s.engine.ended = false)
    (hstep : Step log onFill s s') : s'.Kept := by
  have hdead : ∀ {P : Prop}, s.engine.ended = true → P := by
    intro P hdead
    rw [hended] at hdead
    cases hdead
  -- No `stop` has returned while the first of them is before its join.
  have hearly : s.stopper.pastJoin = false → ∀ {P : Prop}, s.stopReturned = true → P := by
    intro hbefore P hreturned
    have hpast := h.returned hreturned
    rw [hbefore] at hpast
    cases hpast
  cases hstep with
  | idle => exact h
  | start hstarter =>
      exact { h with launched := fun _ => h.launched (by rw [hstarter]; rfl) }
  | create hstarter hstopper =>
      have hloop : s.loop = .notLaunched := h.launched (by rw [hstarter]; rfl)
      have hfifo := h.fifo
      rw [hloop] at hfifo
      exact { h with
        fifo := hfifo
        drained := fun hl => by rcases hl with hl | hl <;> cases hl
        launched := nofun
        running := fun _ => h.running (Or.inl hloop)
        joined := fun hpast => by rw [hstopper] at hpast; cases hpast
        survives := hdead }
  | assign hstarter => exact { h with launched := nofun }
  | push hopen =>
      have hnotClosed : ∀ {P : Prop}, s.queue.closed = true → P := by
        intro P hclosed
        rw [hclosed] at hopen
        cases hopen
      exact { h with
        fifo := by rw [h.fifo]; simp
        drained := fun hl => hnotClosed (h.drained hl).1
        joined := fun hpast => hnotClosed (h.closed (Or.inr hpast)) }
  | stop hstopper =>
      exact { h with
        closed := fun hc => by rcases hc with hc | hc <;> cases hc
        joined := nofun
        returned := hearly (by rw [hstopper]; rfl) }
  | stopAgain hstopper => exact { h with returned := fun _ => hstopper }
  | close hstopper =>
      exact { h with
        drained := fun hl => ⟨rfl, (h.drained hl).2⟩
        closed := fun _ => rfl
        joined := nofun
        returned := hearly (by rw [hstopper]; rfl) }
  | join hstopper hloop =>
      refine { h with
        closed := fun _ => h.closed (Or.inl hstopper)
        joined := fun _ => ?_
        returned := fun _ => rfl }
      rcases hloop with ⟨hnone, hitems⟩ | hover
      · exact ⟨hitems, Or.inl (h.launched hnone)⟩
      · exact ⟨(h.drained (Or.inr hover)).2, Or.inr hover⟩
  | flush hstopper =>
      have hpast : s.stopper.pastJoin = true := by rw [hstopper, Stopper.pastJoin]
      exact { h with
        closed := fun _ => h.closed (Or.inr hpast)
        joined := fun _ => h.joined hpast
        returned := fun _ => rfl }
  | begin hloop =>
      refine h.engineThread hloop nofun nofun rfl rfl ?_ ?_ h.counted fun _ => rfl
      · rintro (hl | hl) <;> cases hl
      · rintro (hl | hl | hl) <;> cases hl
  | pop hloop hitems =>
      refine h.engineThread hloop nofun nofun rfl ?_ ?_ ?_ h.counted hdead
      · simp [hitems, EngineLoop.atHand]
      · rintro (hl | hl) <;> cases hl
      · rintro (hl | hl | hl) <;> cases hl
  | leave hloop hclosed hitems =>
      refine h.engineThread hloop nofun nofun rfl rfl (fun _ => ⟨hclosed, hitems⟩) ?_
        h.counted hdead
      rintro (hl | hl | hl) <;> cases hl
  | turn hloop =>
      refine h.engineThread hloop nofun nofun rfl ?_ ?_ ?_ ?_ fun _ => rfl
      · simp [EngineLoop.atHand]
      · rintro (hl | hl) <;> cases hl
      · rintro (hl | hl | hl) <;> cases hl
      · intro halive
        rw [Engine.turn_counted onFill _ halive, h.counted hended, List.length_append]
        rfl
  | finish hloop =>
      exact h.engineThread hloop nofun nofun rfl rfl (fun _ => h.drained (Or.inl hloop))
        (fun _ => rfl) h.counted hdead

/-- **An orderly stop is a drained one.** Whenever a `stop` has returned, the engine
thread is not running, and the commands it took and counted, each once, are the accepted
ones in the order of their pushes. -/
theorem stop_drains {capacity : ℕ} {l : Option L} {labels : List (Label E)}
    (h : ((machine log flushLog onFill).within Orderly).run (construct capacity l) labels =
      some s)
    (hstop : s.stopReturned = true) :
    (s.loop = .notLaunched ∨ s.loop = .ended) ∧ s.running = false ∧
    s.handled = s.accepted ∧
    s.engine.processed + s.engine.rejected + s.engine.storageFailures =
      s.accepted.length := by
  have hkept : s.Kept := Machine.run_invariant (I := Kept)
    (fun hs hstep => hs.step (step_cases hstep).1 (step_cases hstep).2)
    (kept_construct capacity l) h
  obtain ⟨hitems, hloop⟩ := hkept.joined (hkept.returned hstop)
  have hhandled : s.handled = s.accepted := by
    rw [hkept.fifo, hitems]
    rcases hloop with hl | hl <;> rw [hl] <;> simp [EngineLoop.atHand]
  have halive : s.engine.ended = false := by
    refine Bool.eq_false_iff.mpr fun hdead => ?_
    have hpolling := hkept.survives hdead
    rcases hloop with hl | hl <;> rw [hpolling] at hl <;> cases hl
  refine ⟨hloop, hkept.running (hloop.imp_right Or.inr), hhandled, ?_⟩
  rw [← hhandled]
  exact hkept.counted halive

/-- An engine without a log, and a callback that never throws. -/
def plainMachine : Machine (Lifecycle Unit) (Label Unit) :=
  machine { append := fun l _ _ => (.ok 0, l) } (fun l _ => l) (fun _ _ => none)

theorem stop_drains_clean :
    ∃ s, (plainMachine.within Orderly).run (construct 4 none)
        [.start, .create, .submit (.cancel 1), .stop, .close, .begin, .assign, .pop,
          .turn (fun _ => false) (), .pop, .finish, .join, .stop, .flush ()] = some s ∧
      s.stopReturned = true ∧ s.accepted = [.cancel 1] ∧ s.handled = s.accepted := by
  have hrun : ((plainMachine.within Orderly).run (construct 4 none)
      [.start, .create, .submit (.cancel 1), .stop, .close, .begin, .assign, .pop,
        .turn (fun _ => false) (), .pop, .finish, .join, .stop, .flush ()]).map
      (fun s => (s.stopReturned, s.accepted)) = some (true, [.cancel 1]) := by
    decide +kernel
  obtain ⟨s, hs, heq⟩ := Option.map_eq_some_iff.mp hrun
  simp only [Prod.mk.injEq] at heq
  exact ⟨s, hs, heq.1, heq.2, (stop_drains hs heq.1).2.2.1⟩

/-- A `stop` has returned from this run, and the engine thread is still to take the cancel
that was accepted. -/
def LeavesCancel (labels : List (Label Unit)) : Prop :=
  ∃ s, plainMachine.run (construct 4 none) labels = some s ∧
    s.stopReturned = true ∧ s.loop = .polling ∧ s.running = true ∧
    s.accepted = [.cancel 1] ∧ s.handled = []

instance (labels : List (Label Unit)) : Decidable (LeavesCancel labels) :=
  decidable_of_iff ((plainMachine.run (construct 4 none) labels).any (fun s =>
      s.stopReturned = true ∧ s.loop = .polling ∧ s.running = true ∧
      s.accepted = [.cancel 1] ∧ s.handled = []) = true) (by
    simp only [Option.any_eq_true, decide_eq_true_eq, LeavesCancel])

/-- Three ways to it: a second `stop` is turned back; a `stop` comes before `start`, whose
thread is created afterwards; and a `stop` asks for a thread to join when the thread runs
and has not been assigned. -/
theorem stop_returns_early :
    LeavesCancel [.start, .create, .assign, .begin, .submit (.cancel 1), .stop, .stop] ∧
    LeavesCancel
      [.submit (.cancel 1), .stop, .close, .join, .flush (), .start, .create, .begin] ∧
    LeavesCancel
      [.start, .create, .begin, .submit (.cancel 1), .stop, .close, .join, .flush ()] := by
  decide +kernel

end Lifecycle

end Exchange
