import Mathlib
import Exchange.Concurrent.QueueThreads
import Exchange.Framework.MonitorCalls

/-!
# The worker pool

A fixed number of workers pop tasks off a bounded queue and run them until it is closed
and drained. Any other threads submit tasks or stop the pool, at any time and all at
once. The threads interleave at every access to the queue's mutex and its condition
variables, at every task and at every join; a task may throw.

A `stop` that finds the flag set returns at once, without waiting for the one that set
it: what is said here about a pool that has stopped is said about the latter.
-/

namespace Exchange

open Framework ThreadSafeQueue

/-- Where a thread of the pool, or one that calls it, stands. -/
inductive Stage (α : Type) : Type where
  /-- A caller, in no call. -/
  | away
  /-- In `submit` or `trySubmit`. -/
  | submitting
  /-- In the `stop` that set the flag, closing the queue. -/
  | closing
  /-- In that `stop`, past the joins of the first `k` workers. -/
  | joining (k : ℕ)
  /-- A worker, about to call `pop`. -/
  | polling
  /-- A worker in `pop`. -/
  | popping
  /-- A worker past the critical section of `pop`. -/
  | popped (result : Option α)
  | running (task : α)
  | exited
deriving DecidableEq, Repr

namespace Stage

variable {α : Type}

/-- What a call on the queue returns to. -/
def returns : Stage α → Stage α
  | .submitting => .away
  | .closing => .joining 0
  | .popped (some task) => .running task
  | .popped none => .exited
  | stage => stage

/-- What a critical section tells the thread. -/
def learns (effect : Effect α) (stage : Stage α) : Stage α :=
  match effect with
  | .pop result => .popped result
  | _ => stage

end Stage

/-- A pool of `count` workers, with `callers` threads beside it. -/
structure ThreadPool (α : Type) (count callers : ℕ) where
  queue : Monitored (ThreadSafeQueue α) (Call α) (Effect α) Condition (count + callers)
  stages : Fin (count + callers) → Stage α
  stopping : Bool := false
  completed : ℕ := 0
  failed : ℕ := 0
  /-- The tasks that were run, in the order they came to an end. This and what follows is
  no part of the source. -/
  ran : List α := []
  /-- The `stop` that set the flag has returned. -/
  stopped : Bool := false

namespace ThreadPool

variable {α : Type} {count callers : ℕ}

/-- The pool clamps its size to at least one. -/
def threadCount (threads : ℕ) : ℕ := if threads = 0 then 1 else threads

/-- A pool whose workers have been started. -/
def construct (count callers capacity : ℕ) : ThreadPool α count callers where
  queue := { shared := .construct capacity }
  stages t := if t.val < count then .polling else .away

/-- The thread of the `k`-th worker. -/
def worker (callers : ℕ) (k : Fin count) : Fin (count + callers) := Fin.castAdd callers k

section Steps

variable (p : ThreadPool α count callers) (t : Fin (count + callers))

def setStage (stage : Stage α) : ThreadPool α count callers :=
  { p with stages := Function.update p.stages t stage }

/-- Thread `t` enters a call of the queue. -/
def enter (call : Call α) (stage : Stage α) : Option (ThreadPool α count callers) :=
  (Monitor.enter p.queue t call).map fun queue => { p with queue }.setStage t stage

def submit (task : α) : Option (ThreadPool α count callers) :=
  match p.stages t with
  | .away => p.enter t (.push task) .submitting
  | _ => none

def trySubmit (task : α) : Option (ThreadPool α count callers) :=
  match p.stages t with
  | .away => p.enter t (.tryPush task) .submitting
  | _ => none

/-- `stop`, up to where it begins to close the queue, if it is the first. -/
def stop : Option (ThreadPool α count callers) :=
  match p.stages t with
  | .away =>
      if p.stopping then some p
      else { p with stopping := true }.enter t .close .closing
  | _ => none

/-- The next join of `stop`, and its return after the last. -/
def join : Option (ThreadPool α count callers) :=
  match p.stages t with
  | .joining k =>
      if h : k < count then
        match p.stages (worker callers ⟨k, h⟩) with
        | .exited => some (p.setStage t (.joining (k + 1)))
        | _ => none
      else some { p.setStage t .away with stopped := true }
  | _ => none

/-- A worker turns to `pop`. -/
def poll : Option (ThreadPool α count callers) :=
  match p.stages t with
  | .polling => p.enter t .pop .popping
  | _ => none

/-- A worker runs its task to the end, or until the task throws. -/
def call (throws : Bool) : Option (ThreadPool α count callers) :=
  match p.stages t with
  | .running task =>
      let p := { p with ran := p.ran ++ [task] }
      if throws then some ({ p with failed := p.failed + 1 }.setStage t .polling)
      else some ({ p with completed := p.completed + 1 }.setStage t .polling)
  | _ => none

/-- The critical section of a call on the queue. -/
def body : Option (ThreadPool α count callers) :=
  match p.queue.threads t with
  | .inside call =>
      ((monitor α).body p.queue t).map fun queue =>
        match p.queue.shared.perform call with
        | some (effect, _) => { p with queue }.setStage t ((p.stages t).learns effect)
        | none => { p with queue }
  | _ => none

def leave : Option (ThreadPool α count callers) :=
  (Monitor.leave p.queue t).map fun queue => { p with queue }.setStage t (p.stages t).returns

end Steps

inductive Label (α : Type) (n : ℕ) : Type where
  | submit (t : Fin n) (task : α)
  | trySubmit (t : Fin n) (task : α)
  | stop (t : Fin n)
  | join (t : Fin n)
  | poll (t : Fin n)
  | call (t : Fin n) (throws : Bool)
  | lock (t : Fin n)
  | body (t : Fin n)
  | notify (t : Fin n) (woken : Option (Fin n))
  | leave (t : Fin n)
  | wakeSpuriously (t : Fin n)
deriving DecidableEq, Repr

def act (p : ThreadPool α count callers) :
    Label α (count + callers) → Option (ThreadPool α count callers)
  | .submit t task => p.submit t task
  | .trySubmit t task => p.trySubmit t task
  | .stop t => p.stop t
  | .join t => p.join t
  | .poll t => p.poll t
  | .call t throws => p.call t throws
  | .lock t => (Monitor.lock p.queue t).map ({ p with queue := · })
  | .body t => p.body t
  | .notify t woken => ((monitor α).notify p.queue t woken).map ({ p with queue := · })
  | .leave t => p.leave t
  | .wakeSpuriously t => (Monitor.wakeSpuriously p.queue t).map ({ p with queue := · })

def machine (α : Type) (count callers : ℕ) :
    Machine (ThreadPool α count callers) (Label α (count + callers)) where
  step := act

/-- No thread can go on with what it is at, unless it wakes spuriously. -/
def Quiet (p : ThreadPool α count callers) : Prop :=
  (monitor α).Quiet p.queue ∧
    ∀ t, p.join t = none ∧ p.poll t = none ∧ ∀ throws, p.call t throws = none

instance (p : ThreadPool α count callers) : Decidable p.Quiet :=
  inferInstanceAs (Decidable ((monitor α).Quiet p.queue ∧
    ∀ t, p.join t = none ∧ p.poll t = none ∧ ∀ throws, p.call t throws = none))

/-! ## What a step can do -/

section Inversion

variable (p : ThreadPool α count callers)

@[simp] theorem setStage_self (t : Fin (count + callers)) (stage : Stage α) :
    (p.setStage t stage).stages t = stage := Function.update_self ..

variable {t : Fin (count + callers)} in
@[simp] theorem setStage_of_ne {u : Fin (count + callers)} (h : u ≠ t) (stage : Stage α) :
    (p.setStage t stage).stages u = p.stages u := Function.update_of_ne h ..

/-- The queue with thread `t` in a new phase. -/
def setPhase (t : Fin (count + callers)) (phase : Phase (Call α) Condition) :
    Monitored (ThreadSafeQueue α) (Call α) (Effect α) Condition (count + callers) :=
  Monitor.setThread p.queue t phase

inductive Step : ThreadPool α count callers → Prop where
  | submit {t : Fin (count + callers)} {call : Call α} {task : α} (ht : p.stages t = .away)
      (hphase : p.queue.threads t = .outside) (hcall : call = .push task ∨ call = .tryPush task) :
      Step ({ p with queue := p.setPhase t (.locking call) }.setStage t .submitting)
  | stop {t : Fin (count + callers)} (ht : p.stages t = .away)
      (hphase : p.queue.threads t = .outside) (hfirst : p.stopping = false) :
      Step ({ p with
        stopping := true, queue := p.setPhase t (.locking .close) }.setStage t .closing)
  | refused (hlate : p.stopping = true) : Step p
  | poll {t : Fin (count + callers)} (ht : p.stages t = .polling)
      (hphase : p.queue.threads t = .outside) :
      Step ({ p with queue := p.setPhase t (.locking .pop) }.setStage t .popping)
  | silent {queue : Monitored (ThreadSafeQueue α) (Call α) (Effect α) Condition (count + callers)}
      (hsilent : Monitor.Silent p.queue queue) : Step { p with queue }
  | perform {t : Fin (count + callers)} {call : Call α} {effect : Effect α}
      {shared : ThreadSafeQueue α} (hphase : p.queue.threads t = .inside call)
      (hperform : p.queue.shared.Performs call effect shared) :
      Step ({ p with
        queue := Monitor.setThread { p.queue with
          shared, mutex := none, effects := p.queue.effects ++ [effect] } t
            (.notifying effect.notifies) }.setStage t ((p.stages t).learns effect))
  | leave {t : Fin (count + callers)} (hphase : p.queue.threads t = .notifying []) :
      Step ({ p with queue := p.setPhase t .outside }.setStage t (p.stages t).returns)
  | call {t : Fin (count + callers)} {task : α} {completed failed : ℕ}
      (ht : p.stages t = .running task)
      (hcounts : completed + failed = p.completed + p.failed + 1) :
      Step ({ p with ran := p.ran ++ [task], completed, failed }.setStage t .polling)
  | join {t : Fin (count + callers)} {k : Fin count} (ht : p.stages t = .joining k)
      (hexited : p.stages (worker callers k) = .exited) :
      Step (p.setStage t (.joining (k + 1)))
  | stopped {t : Fin (count + callers)} {k : ℕ} (ht : p.stages t = .joining k)
      (hk : count ≤ k) : Step { p.setStage t .away with stopped := true }

variable {p} {p' : ThreadPool α count callers}

theorem enter_eq {t : Fin (count + callers)} {call : Call α} {stage : Stage α}
    (h : p.enter t call stage = some p') : p.queue.threads t = .outside ∧
      p' = { p with queue := p.setPhase t (.locking call) }.setStage t stage := by
  obtain ⟨queue, henter, rfl⟩ := Option.map_eq_some_iff.mp h
  unfold Monitor.enter at henter
  split at henter <;> cases henter
  exact ⟨‹_›, rfl⟩

theorem act_cases {label : Label α (count + callers)} (h : p.act label = some p') :
    p.Step p' := by
  cases label with
  | submit t task =>
      simp only [act, ThreadPool.submit] at h
      split at h
      · obtain ⟨hphase, rfl⟩ := enter_eq h
        exact .submit ‹_› hphase (Or.inl rfl)
      · cases h
  | trySubmit t task =>
      simp only [act, ThreadPool.trySubmit] at h
      split at h
      · obtain ⟨hphase, rfl⟩ := enter_eq h
        exact .submit ‹_› hphase (Or.inr rfl)
      · cases h
  | stop t =>
      simp only [act, ThreadPool.stop] at h
      split at h
      · split at h
        · cases h
          exact .refused ‹_›
        · obtain ⟨hphase, rfl⟩ := enter_eq h
          exact .stop ‹_› hphase (Bool.eq_false_iff.mpr ‹_›)
      · cases h
  | join t =>
      simp only [act, ThreadPool.join] at h
      split at h
      · split at h
        · rename_i hk
          split at h <;> cases h
          exact .join (k := ⟨_, hk⟩) ‹_› ‹_›
        · rename_i hk
          cases h
          exact .stopped ‹_› (Nat.le_of_not_lt hk)
      · cases h
  | poll t =>
      simp only [act, ThreadPool.poll] at h
      split at h
      · obtain ⟨hphase, rfl⟩ := enter_eq h
        exact .poll ‹_› hphase
      · cases h
  | call t throws =>
      simp only [act, ThreadPool.call] at h
      split at h
      · split at h <;> cases h
        · exact .call ‹_› (by omega)
        · exact .call ‹_› (by omega)
      · cases h
  | lock t =>
      obtain ⟨queue, hlock, rfl⟩ := Option.map_eq_some_iff.mp h
      exact .silent (Monitor.lock_silent hlock)
  | notify t woken =>
      obtain ⟨queue, hnotify, rfl⟩ := Option.map_eq_some_iff.mp h
      exact .silent (Monitor.notify_silent hnotify)
  | wakeSpuriously t =>
      obtain ⟨queue, hwake, rfl⟩ := Option.map_eq_some_iff.mp h
      exact .silent (Monitor.wakeSpuriously_silent hwake)
  | leave t =>
      obtain ⟨queue, hleave, rfl⟩ := Option.map_eq_some_iff.mp h
      unfold Monitor.leave at hleave
      split at hleave <;> cases hleave
      exact .leave ‹_›
  | body t =>
      simp only [act, ThreadPool.body] at h
      split at h
      · rename_i call hphase
        obtain ⟨queue, hbody, rfl⟩ := Option.map_eq_some_iff.mp h
        obtain ⟨call', hphase', hcases⟩ := Monitor.body_cases hbody
        cases hphase.symm.trans hphase'
        rcases hcases with ⟨hwaits, hsilent⟩ | ⟨effect, shared, hperform, rfl⟩
        · replace hwaits : p.queue.shared.perform call = none := hwaits
          rw [hwaits]
          exact .silent hsilent
        · replace hperform : p.queue.shared.perform call = some (effect, shared) := hperform
          rw [hperform]
          exact .perform hphase (perform_cases hperform)
      · cases h

end Inversion

/-! ## Where the threads can be -/

/-- What a thread that stands so says about its call on the queue and about the pool. -/
def Fits (p : ThreadPool α count callers) (t : Fin (count + callers)) (stage : Stage α)
    (phase : Phase (Call α) Condition) : Prop :=
  match stage with
  | .away => count ≤ t.val ∧ phase = .outside
  | .submitting => count ≤ t.val ∧
      ((∃ task, phase.At (.push task) ∨ phase.At (.tryPush task)) ∨ phase.Past)
  | .closing => count ≤ t.val ∧ (phase.At .close ∨ phase.Past ∧ p.queue.shared.closed = true)
  | .joining k => count ≤ t.val ∧ phase = .outside ∧ p.queue.shared.closed = true ∧
      ∀ i : Fin count, i.val < k → p.stages (worker callers i) = .exited
  | .polling | .running _ => t.val < count ∧ phase = .outside
  | .popping => t.val < count ∧ phase.At .pop
  | .popped result => t.val < count ∧ phase.Past ∧
      (result = none → p.queue.shared.closed = true ∧ p.queue.shared.items = [])
  | .exited => t.val < count ∧ phase = .outside ∧
      p.queue.shared.closed = true ∧ p.queue.shared.items = []

/-- What is never undone. -/
structure Onward (p p' : ThreadPool α count callers) : Prop where
  closed : p.queue.shared.closed = true → p'.queue.shared.closed = true
  drained : p.queue.shared.closed = true → p.queue.shared.items = [] → p'.queue.shared.items = []
  exited : ∀ t, p.stages t = .exited → p'.stages t = .exited

section Fits

variable {p p' : ThreadPool α count callers} {t : Fin (count + callers)} {stage : Stage α}
  {phase phase' : Phase (Call α) Condition}

theorem Fits.mono (h : p.Fits t stage phase) (honward : Onward p p')
    (hkeeps : phase.Keeps phase') : p'.Fits t stage phase' := by
  cases stage with
  | away | polling | running => exact ⟨h.1, hkeeps.outside h.2⟩
  | submitting =>
      refine ⟨h.1, h.2.imp ?_ hkeeps.past⟩
      rintro ⟨task, hat⟩
      exact ⟨task, hat.imp (hkeeps.within _) (hkeeps.within _)⟩
  | closing => exact ⟨h.1, h.2.imp (hkeeps.within _) (And.imp hkeeps.past honward.closed)⟩
  | joining k =>
      exact ⟨h.1, hkeeps.outside h.2.1, honward.closed h.2.2.1,
        fun i hi => honward.exited _ (h.2.2.2 i hi)⟩
  | popping => exact ⟨h.1, hkeeps.within _ h.2⟩
  | popped result =>
      refine ⟨h.1, hkeeps.past h.2.1, fun hnone => ?_⟩
      obtain ⟨hclosed, hitems⟩ := h.2.2 hnone
      exact ⟨honward.closed hclosed, honward.drained hclosed hitems⟩
  | exited =>
      obtain ⟨hworker, hout, hclosed, hitems⟩ := h
      exact ⟨hworker, hkeeps.outside hout, honward.closed hclosed,
        honward.drained hclosed hitems⟩

/-- One thread moves on from a stage that is not its last. -/
theorem onward_setStage {p₁ : ThreadPool α count callers} (hstages : p₁.stages = p.stages)
    (hclosed : p.queue.shared.closed = true → p₁.queue.shared.closed = true)
    (hdrained : p.queue.shared.closed = true → p.queue.shared.items = [] →
      p₁.queue.shared.items = [])
    (ht : p.stages t ≠ .exited) : Onward p (p₁.setStage t stage) where
  closed := hclosed
  drained := hdrained
  exited u hu := by
    have hut : u ≠ t := by
      rintro rfl
      exact ht hu
    rw [setStage_of_ne _ hut, hstages]
    exact hu

/-- One thread moves, and the others stay where they are. -/
theorem fits_setStage {p₁ : ThreadPool α count callers}
    (h : ∀ u, p.Fits u (p.stages u) (p.queue.threads u)) (hstages : p₁.stages = p.stages)
    (honward : Onward p (p₁.setStage t stage))
    (hphases : ∀ u, u ≠ t → p₁.queue.threads u = p.queue.threads u)
    (hmine : (p₁.setStage t stage).Fits t stage (p₁.queue.threads t)) (u : Fin (count + callers)) :
    (p₁.setStage t stage).Fits u ((p₁.setStage t stage).stages u)
      ((p₁.setStage t stage).queue.threads u) := by
  by_cases hu : u = t
  · subst hu
    rw [setStage_self]
    exact hmine
  · rw [setStage_of_ne _ hu, hstages]
    refine (h u).mono honward ?_
    change (p.queue.threads u).Keeps (p₁.queue.threads u)
    rw [hphases u hu]
    exact .refl _

/-- A thread in its critical section is in one of the calls the pool makes. -/
theorem Fits.inside {call : Call α} (h : p.Fits t stage (.inside call)) :
    (stage = .submitting ∧ ∃ task, call = .push task ∨ call = .tryPush task) ∨
      (stage = .closing ∧ call = .close) ∨ (stage = .popping ∧ call = .pop) := by
  have hat : ∀ {call' : Call α}, Phase.At call' (.inside call : Phase (Call α) Condition) →
      call = call' := by
    rintro call' (h | h | h) <;> cases h
    rfl
  have hpast : ¬ Phase.Past (.inside call : Phase (Call α) Condition) := by
    rintro ⟨pending, h⟩
    cases h
  cases stage with
  | submitting =>
      rcases h.2 with ⟨task, hcall⟩ | h
      · exact Or.inl ⟨rfl, task, hcall.imp hat hat⟩
      · exact absurd h hpast
  | closing =>
      rcases h.2 with h | ⟨h, _⟩
      · exact Or.inr (Or.inl ⟨rfl, hat h⟩)
      · exact absurd h hpast
  | popping => exact Or.inr (Or.inr ⟨rfl, hat h.2⟩)
  | popped => exact absurd h.2.1 hpast
  | away | polling | running => exact absurd h.2 nofun
  | joining | exited => exact absurd h.2.1 nofun

/-- What a critical section leaves of a closed queue. -/
theorem drained_perform {q q' : ThreadSafeQueue α} {call : Call α} {effect : Effect α}
    (h : q.Performs call effect q') (hclosed : q.closed = true) (hitems : q.items = []) :
    q'.items = [] := by
  have hmove := h.items
  rw [hitems, h.accepts_none hclosed] at hmove
  exact (List.append_eq_nil_iff.mp hmove.symm).2

theorem Step.onward (hstep : p.Step p') (h : ∀ u, p.Fits u (p.stages u) (p.queue.threads u)) :
    Onward p p' := by
  cases hstep with
  | submit ht | stop ht | poll ht | call ht | join ht =>
      exact onward_setStage rfl id (fun _ => id) (by rw [ht]; exact nofun)
  | refused => exact ⟨id, fun _ => id, fun _ => id⟩
  | silent hsilent =>
      refine ⟨?_, ?_, fun _ => id⟩ <;> rw [hsilent.shared]
      · exact id
      · exact fun _ => id
  | @perform t call effect shared hphase hperform =>
      refine onward_setStage rfl (fun hclosed => hperform.closed_iff.mpr (Or.inl hclosed))
        (drained_perform hperform) ?_
      intro hexited
      have hfits := h t
      rw [hexited, hphase] at hfits
      exact absurd hfits.2.1 nofun
  | @leave t hphase =>
      refine onward_setStage rfl id (fun _ => id) ?_
      intro hexited
      have hfits := h t
      rw [hexited, hphase] at hfits
      exact absurd hfits.2.1 nofun
  | @stopped t k ht hk =>
      show Onward p ({ p with stopped := true }.setStage t .away)
      exact onward_setStage rfl id (fun _ => id) (by rw [ht]; exact nofun)

theorem Step.fits (hstep : p.Step p') (h : ∀ u, p.Fits u (p.stages u) (p.queue.threads u)) :
    ∀ u, p'.Fits u (p'.stages u) (p'.queue.threads u) := by
  have honward := hstep.onward h
  have hself : ∀ (q : Monitored (ThreadSafeQueue α) (Call α) (Effect α) Condition
      (count + callers)) (t : Fin (count + callers)) (phase : Phase (Call α) Condition),
      (Monitor.setThread q t phase).threads t = phase := Monitor.setThread_self
  cases hstep with
  | refused => exact h
  | silent hsilent => exact fun u => (h u).mono honward (hsilent.threads u)
  | @submit t call task ht hphase hcall =>
      have hmine := h t
      rw [ht] at hmine
      refine fits_setStage h rfl honward (fun u hu => Monitor.setThread_of_ne _ hu _) ?_
      rw [setPhase, hself]
      exact ⟨hmine.1, Or.inl ⟨task, hcall.imp (fun heq => Or.inl (by rw [heq]))
        (fun heq => Or.inl (by rw [heq]))⟩⟩
  | @stop t ht hphase hfirst =>
      have hmine := h t
      rw [ht] at hmine
      refine fits_setStage h rfl honward (fun u hu => Monitor.setThread_of_ne _ hu _) ?_
      rw [setPhase, hself]
      exact ⟨hmine.1, Or.inl (Or.inl rfl)⟩
  | @poll t ht hphase =>
      have hmine := h t
      rw [ht] at hmine
      refine fits_setStage h rfl honward (fun u hu => Monitor.setThread_of_ne _ hu _) ?_
      rw [setPhase, hself]
      exact ⟨hmine.1, Or.inl rfl⟩
  | @perform t call effect shared hphase hperform =>
      have hmine := h t
      rw [hphase] at hmine
      refine fits_setStage h rfl honward (fun u hu => Monitor.setThread_of_ne _ hu _) ?_
      rw [hself]
      have hpast : Phase.Past (.notifying effect.notifies : Phase (Call α) Condition) := ⟨_, rfl⟩
      rcases hmine.inside with ⟨hstage, task, hcall⟩ | ⟨hstage, rfl⟩ | ⟨hstage, rfl⟩ <;>
        rw [hstage] at hmine ⊢
      · have hlearns : Stage.submitting.learns effect = .submitting := by
          rcases hcall with rfl | rfl <;> cases hperform <;> rfl
        rw [hlearns]
        exact ⟨hmine.1, Or.inr hpast⟩
      · cases hperform
        exact ⟨hmine.1, Or.inr ⟨hpast, rfl⟩⟩
      · cases hperform with
        | pop => exact ⟨hmine.1, hpast, fun hnone => absurd hnone nofun⟩
        | drained hclosed hitems => exact ⟨hmine.1, hpast, fun _ => ⟨hclosed, hitems⟩⟩
  | @leave t hphase =>
      have hmine := h t
      rw [hphase] at hmine
      refine fits_setStage h rfl honward (fun u hu => Monitor.setThread_of_ne _ hu _) ?_
      rw [setPhase, hself]
      have hat : ∀ call, ¬ Phase.At call (.notifying [] : Phase (Call α) Condition) := by
        rintro call (hat | hat | hat) <;> cases hat
      cases hstage : p.stages t with
      | submitting =>
          rw [hstage] at hmine
          exact ⟨hmine.1, rfl⟩
      | closing =>
          rw [hstage] at hmine
          rcases hmine.2 with hclose | ⟨_, hclosed⟩
          · exact absurd hclose (hat _)
          · exact ⟨hmine.1, rfl, hclosed, nofun⟩
      | popping =>
          rw [hstage] at hmine
          exact absurd hmine.2 (hat _)
      | popped result =>
          rw [hstage] at hmine
          cases result with
          | some task => exact ⟨hmine.1, rfl⟩
          | none => exact ⟨hmine.1, rfl, hmine.2.2 rfl⟩
      | away | polling | running =>
          rw [hstage] at hmine
          exact absurd hmine.2 nofun
      | joining | exited =>
          rw [hstage] at hmine
          exact absurd hmine.2.1 nofun
  | @call t task completed failed ht =>
      have hmine := h t
      rw [ht] at hmine
      exact fits_setStage h rfl honward (fun _ _ => rfl) hmine
  | @join t k ht hexited =>
      have hmine := h t
      rw [ht] at hmine
      obtain ⟨hcaller, hout, hclosed, hjoined⟩ := hmine
      refine fits_setStage h rfl honward (fun _ _ => rfl) ⟨hcaller, hout, hclosed, ?_⟩
      intro i hi
      apply honward.exited
      rcases Nat.lt_succ_iff_lt_or_eq.mp hi with hi | hi
      · exact hjoined i hi
      · rwa [Fin.ext hi]
  | @stopped t k ht hk =>
      have hmine := h t
      rw [ht] at hmine
      change ∀ u, Fits ({ p with stopped := true }.setStage t .away) u _ _
      exact fits_setStage h rfl honward (fun _ _ => rfl) ⟨hmine.1, hmine.2.1⟩

end Fits

/-! ## Tasks and stops -/

end ThreadPool

/-- The task a worker has taken and not finished. -/
def Stage.hand {α : Type} : Stage α → Multiset α
  | .popped (some task) | .running task => {task}
  | _ => 0

theorem Stage.hand_returns {α : Type} (stage : Stage α) : stage.returns.hand = stage.hand := by
  cases stage with
  | popped result => cases result <;> rfl
  | _ => rfl

namespace ThreadPool

variable {α : Type} {count callers : ℕ} {p p' : ThreadPool α count callers}

/-- What the pool's queue does is what a queue does. -/
theorem act_queue {label : Label α (count + callers)} (h : p.act label = some p') :
    p'.queue = p.queue ∨
      ∃ step, (monitor α).machine.step p.queue step = some p'.queue := by
  have henter : ∀ {p : ThreadPool α count callers} {t call stage},
      p.enter t call stage = some p' →
      ∃ step, (monitor α).machine.step p.queue step = some p'.queue := by
    intro p t call stage h
    obtain ⟨queue, hqueue, rfl⟩ := Option.map_eq_some_iff.mp h
    exact ⟨.enter t call, hqueue⟩
  cases label with
  | submit t task =>
      simp only [act, ThreadPool.submit] at h
      split at h
      · exact Or.inr (henter h)
      · cases h
  | trySubmit t task =>
      simp only [act, ThreadPool.trySubmit] at h
      split at h
      · exact Or.inr (henter h)
      · cases h
  | stop t =>
      simp only [act, ThreadPool.stop] at h
      split at h
      · split at h
        · cases h
          exact Or.inl rfl
        · obtain ⟨step, hstep⟩ := henter h
          exact Or.inr ⟨step, hstep⟩
      · cases h
  | poll t =>
      simp only [act, ThreadPool.poll] at h
      split at h
      · exact Or.inr (henter h)
      · cases h
  | join t =>
      simp only [act, ThreadPool.join] at h
      split at h
      · split at h
        · split at h <;> cases h
          exact Or.inl rfl
        · cases h
          exact Or.inl rfl
      · cases h
  | call t throws =>
      simp only [act, ThreadPool.call] at h
      split at h
      · split at h <;> cases h <;> exact Or.inl rfl
      · cases h
  | lock t =>
      obtain ⟨queue, hqueue, rfl⟩ := Option.map_eq_some_iff.mp h
      exact Or.inr ⟨.lock t, hqueue⟩
  | notify t woken =>
      obtain ⟨queue, hqueue, rfl⟩ := Option.map_eq_some_iff.mp h
      exact Or.inr ⟨.notify t woken, hqueue⟩
  | wakeSpuriously t =>
      obtain ⟨queue, hqueue, rfl⟩ := Option.map_eq_some_iff.mp h
      exact Or.inr ⟨.wakeSpuriously t, hqueue⟩
  | leave t =>
      obtain ⟨queue, hqueue, rfl⟩ := Option.map_eq_some_iff.mp h
      exact Or.inr ⟨.leave t, hqueue⟩
  | body t =>
      simp only [act, ThreadPool.body] at h
      split at h
      · obtain ⟨queue, hqueue, rfl⟩ := Option.map_eq_some_iff.mp h
        refine Or.inr ⟨.body t, hqueue.trans ?_⟩
        split <;> rfl
      · cases h

/-- Every task that was taken off the queue was run, or is in a worker's hands. -/
def InHands (p : ThreadPool α count callers) : Prop :=
  ((taken p.queue.effects : List α) : Multiset α) =
    p.ran + tally Finset.univ Stage.hand p.stages

theorem hand_setStage (p : ThreadPool α count callers) (t : Fin (count + callers))
    (stage : Stage α) : tally Finset.univ Stage.hand (p.setStage t stage).stages +
      (p.stages t).hand = tally Finset.univ Stage.hand p.stages + stage.hand :=
  tally_update _ Stage.hand (Finset.mem_univ t) _ _

/-- A thread moves on with the same in its hands. -/
theorem InHands.setStage {p₁ : ThreadPool α count callers} {t : Fin (count + callers)}
    {stage : Stage α} (h : p.InHands) (hstages : p₁.stages = p.stages) (hran : p₁.ran = p.ran)
    (heffects : p₁.queue.effects = p.queue.effects) (hhand : stage.hand = (p.stages t).hand) :
    (p₁.setStage t stage).InHands := by
  have hmove := hand_setStage p₁ t stage
  rw [hstages, hhand, add_left_inj] at hmove
  show ((taken p₁.queue.effects : List α) : Multiset α) = p₁.ran + _
  rw [heffects, hran, hmove]
  exact h

/-- A critical section hands a worker what it takes off the queue, and nobody else
anything. -/
theorem hand_learns {t : Fin (count + callers)} {call : Call α} {effect : Effect α}
    {shared : ThreadSafeQueue α} (hfits : p.Fits t (p.stages t) (.inside call))
    (hperform : p.queue.shared.Performs call effect shared) :
    (p.stages t).hand = 0 ∧
      ((p.stages t).learns effect).hand = (effect.takes.toList : Multiset α) := by
  rcases hfits.inside with ⟨hstage, task, rfl | rfl⟩ | ⟨hstage, rfl⟩ | ⟨hstage, rfl⟩ <;>
    rw [hstage] <;> cases hperform <;> exact ⟨rfl, rfl⟩

theorem InHands.step (h : p.InHands)
    (hfits : ∀ u, p.Fits u (p.stages u) (p.queue.threads u)) (hstep : p.Step p') :
    p'.InHands := by
  cases hstep with
  | refused => exact h
  | silent hsilent =>
      show ((taken _ : List α) : Multiset α) = _
      rw [hsilent.effects]
      exact h
  | submit ht | stop ht | poll ht | join ht =>
      exact h.setStage rfl rfl rfl (by rw [ht]; rfl)
  | @stopped t k ht =>
      change InHands ({ p with stopped := true }.setStage t .away)
      exact h.setStage rfl rfl rfl (by rw [ht]; rfl)
  | leave => exact h.setStage rfl rfl rfl (Stage.hand_returns _)
  | @call t task completed failed ht =>
      have hmove := hand_setStage { p with ran := p.ran ++ [task], completed, failed } t .polling
      rw [show p.stages t = _ from ht] at hmove
      show ((taken p.queue.effects : List α) : Multiset α) = ((p.ran ++ [task] : List α) : _) + _
      rw [h, ← Multiset.coe_add, add_assoc, add_comm ([task] : Multiset α)]
      exact congrArg (_ + ·) ((add_zero _).symm.trans hmove.symm)
  | @perform t call effect shared hphase hperform =>
      have hmine := hfits t
      rw [hphase] at hmine
      obtain ⟨hempty, hlearns⟩ := hand_learns hmine hperform
      have hmove := hand_setStage p t ((p.stages t).learns effect)
      rw [hempty, add_zero, hlearns] at hmove
      show ((taken (p.queue.effects ++ [effect]) : List α) : Multiset α) = p.ran + _
      rw [taken_snoc, ← Multiset.coe_add, h, add_assoc]
      exact congrArg (_ + ·) hmove.symm

/-- The `stop` that set the flag is under way, or has returned. -/
def Underway (p : ThreadPool α count callers) : Prop :=
  p.stopped = true ∨ ∃ t, p.stages t = .closing ∨ ∃ k, p.stages t = .joining k

/-- A thread in `stop` goes on in it. -/
theorem underway_setStage {p₁ : ThreadPool α count callers} {t : Fin (count + callers)}
    {stage : Stage α} (h : p.Underway) (hstages : p₁.stages = p.stages)
    (hstopped : p₁.stopped = p.stopped)
    (hmine : (p.stages t = .closing ∨ ∃ k, p.stages t = .joining k) →
      stage = .closing ∨ ∃ k, stage = .joining k) : (p₁.setStage t stage).Underway := by
  rcases h with h | ⟨u, hu⟩
  · exact Or.inl (hstopped.trans h)
  · refine Or.inr ⟨u, ?_⟩
    by_cases hut : u = t
    · subst hut
      rw [setStage_self]
      exact hmine hu
    · rw [setStage_of_ne _ hut, hstages]
      exact hu

theorem Underway.step (h : p.Underway)
    (hfits : ∀ u, p.Fits u (p.stages u) (p.queue.threads u)) (hstep : p.Step p') :
    p'.Underway := by
  have hother : ∀ {t} {stage : Stage α}, p.stages t = stage →
      (stage ≠ .closing ∧ ∀ k, stage ≠ .joining k) →
      ¬ (p.stages t = .closing ∨ ∃ k, p.stages t = .joining k) := by
    rintro t stage rfl ⟨hclosing, hjoining⟩ (heq | ⟨k, heq⟩)
    · exact hclosing heq
    · exact hjoining k heq
  cases hstep with
  | refused | silent => exact h
  | submit ht | poll ht | call ht =>
      exact underway_setStage h rfl rfl fun hin => absurd hin (hother ht ⟨nofun, nofun⟩)
  | stop => exact underway_setStage h rfl rfl fun _ => Or.inl rfl
  | join => exact underway_setStage h rfl rfl fun _ => Or.inr ⟨_, rfl⟩
  | stopped => exact Or.inl rfl
  | @leave t hphase =>
      refine underway_setStage h rfl rfl ?_
      rintro (hstage | ⟨k, hstage⟩)
      · rw [hstage]
        exact Or.inr ⟨0, rfl⟩
      · rw [hstage]
        exact Or.inr ⟨k, rfl⟩
  | @perform t call effect shared hphase hperform =>
      have hmine := hfits t
      rw [hphase] at hmine
      refine underway_setStage h rfl rfl fun hin => ?_
      rcases hmine.inside with ⟨hstage, _⟩ | ⟨hstage, rfl⟩ | ⟨hstage, _⟩
      · exact absurd hin (hother hstage ⟨nofun, nofun⟩)
      · rw [hstage]
        cases hperform
        exact Or.inl rfl
      · exact absurd hin (hother hstage ⟨nofun, nofun⟩)

/-! ## All of it, along a run -/

structure Sound (capacity : ℕ) (p : ThreadPool α count callers) : Prop where
  queued : ∃ labels, ThreadSafeQueue.run (count + callers) capacity labels = some p.queue
  fits : ∀ t, p.Fits t (p.stages t) (p.queue.threads t)
  inHands : p.InHands
  counts : p.completed + p.failed = p.ran.length
  underway : p.stopping = true → p.Underway
  stopped : p.stopped = true → ∀ k, p.stages (worker callers k) = .exited

theorem sound_construct (capacity : ℕ) :
    Sound capacity (construct count callers capacity : ThreadPool α count callers) where
  queued := ⟨[], rfl⟩
  fits t := by
    show Fits _ t (if t.val < count then .polling else .away) .outside
    split
    · exact ⟨‹_›, rfl⟩
    · exact ⟨Nat.le_of_not_lt ‹_›, rfl⟩
  inHands := by
    refine (tally_eq_zero _ fun t _ => ?_).symm.trans (zero_add _).symm
    show Stage.hand (if t.val < count then .polling else .away) = 0
    split <;> rfl
  counts := rfl
  underway := nofun
  stopped := nofun

theorem Sound.step {capacity : ℕ} {label : Label α (count + callers)} (h : Sound capacity p)
    (hact : (machine α count callers).step p label = some p') : Sound capacity p' := by
  have hstep := act_cases hact
  have honward := hstep.onward h.fits
  refine ⟨?_, hstep.fits h.fits, h.inHands.step h.fits hstep, ?_, ?_, ?_⟩
  · obtain ⟨labels, hrun⟩ := h.queued
    rcases act_queue hact with hqueue | ⟨step, hqueue⟩
    · exact ⟨labels, hqueue ▸ hrun⟩
    · exact ⟨labels ++ [step], Machine.run_snoc hrun hqueue⟩
  · cases hstep with
    | call ht hcounts =>
        show _ + _ = (p.ran ++ [_]).length
        rw [List.length_append, ← h.counts]
        exact hcounts
    | _ => exact h.counts
  · intro hstopping
    cases hstep with
    | @stop t => exact Or.inr ⟨t, Or.inl (setStage_self ..)⟩
    | refused hlate => exact h.underway hlate
    | _ => exact (h.underway hstopping).step h.fits (act_cases hact)
  · intro hstopped k
    cases hstep with
    | @stopped t n ht hk =>
        apply honward.exited
        have hmine := h.fits t
        rw [ht] at hmine
        exact hmine.2.2.2 k (Nat.lt_of_lt_of_le k.isLt hk)
    | _ => exact honward.exited _ (h.stopped hstopped k)

/-- A thread with something in its hands is a worker that has not exited. -/
theorem Fits.hand {t : Fin (count + callers)} {stage : Stage α}
    {phase : Phase (Call α) Condition} (h : p.Fits t stage phase)
    (hstage : t.val < count → stage = .exited) : stage.hand = 0 := by
  cases stage with
  | popped | running => exact absurd (hstage h.1) nofun
  | _ => rfl

theorem Sound.accounted {capacity : ℕ} (h : Sound capacity p) :
    Accounted capacity p.queue.shared p.queue.effects := by
  obtain ⟨labels, hrun⟩ := h.queued
  exact Monitor.run_effects (M := monitor α) (accounted_start capacity)
    (fun hI hp => hI.perform (perform_cases hp)) hrun

/-- When all workers have exited, what was accepted has been run. -/
theorem Sound.perm_ran {capacity : ℕ} (h : Sound capacity p) (hcount : 0 < count)
    (hexited : ∀ k, p.stages (worker callers k) = .exited) :
    (accepted p.queue.effects).Perm p.ran := by
  have hhands : tally Finset.univ Stage.hand p.stages = 0 := by
    refine tally_eq_zero _ fun t _ => (h.fits t).hand fun ht => ?_
    exact hexited ⟨t.val, ht⟩
  have hitems : p.queue.shared.items = [] := by
    have hfits := h.fits (worker callers ⟨0, hcount⟩)
    rw [hexited] at hfits
    exact hfits.2.2.2
  have htaken := h.inHands
  rw [InHands, hhands, add_zero] at htaken
  rw [h.accounted.fifo, hitems, List.append_nil]
  exact Multiset.coe_eq_coe.mp htaken

theorem threadCount_pos (threads : ℕ) : 0 < threadCount threads := by
  unfold threadCount
  split <;> omega

/-- **Accepted tasks are run once.** Under every interleaving of the workers with any
threads that submit and stop, and whichever tasks throw: the tasks whose submission
returned true are those that were run, those in the workers' hands and those in the queue,
each as often; a task that was run was counted once, as completed or as failed; and when
the `stop` that set the flag has returned, they have all been run. -/
theorem tasks_run_once {threads capacity : ℕ}
    {p : ThreadPool α (threadCount threads) callers}
    {labels : List (Label α (threadCount threads + callers))}
    (h : (machine α (threadCount threads) callers).run (construct _ callers capacity) labels =
      some p) :
    ((accepted p.queue.effects : List α) : Multiset α) =
      p.ran + tally Finset.univ Stage.hand p.stages + p.queue.shared.items ∧
    p.completed + p.failed = p.ran.length ∧
    (p.stopped = true → (accepted p.queue.effects).Perm p.ran) := by
  have hsound : Sound capacity p := Machine.run_invariant Sound.step (sound_construct capacity) h
  refine ⟨?_, hsound.counts, fun hstopped => ?_⟩
  · rw [hsound.accounted.fifo, ← Multiset.coe_add, hsound.inHands]
  · exact hsound.perm_ran (threadCount_pos threads) (hsound.stopped hstopped)

/-- The only worker, and two threads that call the pool. -/
def working : Fin (threadCount 0 + 2) := ⟨0, by decide⟩

def submitter : Fin (threadCount 0 + 2) := ⟨1, by decide⟩

def stopper : Fin (threadCount 0 + 2) := ⟨2, by decide⟩

/-- The worker waits for a task, which is submitted while another thread stops the pool. -/
def submitAndStop : List (Label ℕ (threadCount 0 + 2)) :=
  [.poll working, .lock working, .body working, .submit submitter 7, .lock submitter,
    .body submitter, .notify submitter (some working), .leave submitter, .stop stopper,
    .lock stopper, .body stopper, .notify stopper none, .notify stopper none, .leave stopper]

/-- The task throws; the worker finds the queue closed and exits, and is joined. -/
def drainAndJoin : List (Label ℕ (threadCount 0 + 2)) :=
  [.lock working, .body working, .notify working none, .leave working, .call working true,
    .poll working, .lock working, .body working, .leave working, .join stopper, .join stopper]

theorem tasks_run_once_inHand :
    ∃ p, (machine ℕ (threadCount 0) 2).run (construct _ 2 4)
        (submitAndStop ++ drainAndJoin.take 2) = some p ∧
      p.stages working = .popped (some 7) ∧
      ((accepted p.queue.effects : List ℕ) : Multiset ℕ) =
        p.ran + tally Finset.univ Stage.hand p.stages + p.queue.shared.items := by
  have hrun : ((machine ℕ (threadCount 0) 2).run (construct _ 2 4)
      (submitAndStop ++ drainAndJoin.take 2)).map (fun p => p.stages working) =
      some (.popped (some 7)) := by
    decide +kernel
  obtain ⟨p, hp, hstage⟩ := Option.map_eq_some_iff.mp hrun
  exact ⟨p, hp, hstage, (tasks_run_once hp).1⟩

/-! ## Stopping -/

/-- In a pool where nothing moves a thread is in no call, or waits on an open queue. -/
theorem Sound.rest {capacity : ℕ} (h : Sound capacity p) (hquiet : p.Quiet)
    (t : Fin (count + callers)) :
    p.queue.threads t = .outside ∨ p.queue.shared.closed = false ∧
      (p.queue.threads t = .waiting .pop ∨ ∃ task, p.queue.threads t = .waiting (.push task)) := by
  obtain ⟨labels, hrun⟩ := h.queued
  refine (Monitor.rest_cases monitor_supplies hrun hquiet.1 t).imp_right ?_
  rintro ⟨call, c, ht, hc, hopen⟩
  refine ⟨Bool.eq_false_iff.mpr hopen, ?_⟩
  cases call with
  | pop => exact Or.inl ht
  | push task => exact Or.inr ⟨task, ht⟩
  | tryPush | tryPop | close => cases hc

/-- A worker at which nothing moves has exited, once the queue is closed. -/
theorem Sound.exited_of_quiet {capacity : ℕ} (h : Sound capacity p) (hquiet : p.Quiet)
    (hclosed : p.queue.shared.closed = true) (k : Fin count) :
    p.stages (worker callers k) = .exited := by
  have hout : p.queue.threads (worker callers k) = .outside := by
    rcases h.rest hquiet (worker callers k) with hout | ⟨hopen, _⟩
    · exact hout
    · rw [hclosed] at hopen
      cases hopen
  have hfits := h.fits (worker callers k)
  obtain ⟨_, hpoll, hcall⟩ := hquiet.2 (worker callers k)
  rw [hout] at hfits
  cases hstage : p.stages (worker callers k) with
  | exited => rfl
  | polling =>
      rw [poll, hstage] at hpoll
      simp only [enter, Monitor.enter, hout] at hpoll
      cases hpoll
  | running task =>
      have hdone := hcall false
      rw [call, hstage] at hdone
      cases hdone
  | popping =>
      rw [hstage] at hfits
      rcases hfits.2 with hat | hat | hat <;> cases hat
  | popped result =>
      rw [hstage] at hfits
      obtain ⟨pending, hpast⟩ := hfits.2.1
      cases hpast
  | away | submitting | closing | joining =>
      rw [hstage] at hfits
      exact absurd k.isLt (Nat.not_lt.mpr hfits.1)

/-- A `stop` at which nothing moves has returned. -/
theorem Sound.not_joining {capacity : ℕ} (h : Sound capacity p) (hquiet : p.Quiet)
    (t : Fin (count + callers)) (k : ℕ) : p.stages t ≠ .joining k := by
  intro ht
  have hfits := h.fits t
  have hjoin := (hquiet.2 t).1
  rw [ht] at hfits
  rw [join, ht] at hjoin
  dsimp only at hjoin
  split at hjoin
  · rename_i hk
    rw [h.exited_of_quiet hquiet hfits.2.2.1 ⟨k, hk⟩] at hjoin
    cases hjoin
  · cases hjoin

theorem Sound.not_closing {capacity : ℕ} (h : Sound capacity p) (hquiet : p.Quiet)
    (t : Fin (count + callers)) : p.stages t ≠ .closing := by
  intro ht
  have hfits := h.fits t
  rw [ht] at hfits
  rcases h.rest hquiet t with hphase | ⟨_, hphase | ⟨task, hphase⟩⟩ <;>
    rw [hphase] at hfits <;>
    rcases hfits.2 with (hat | hat | hat) | ⟨⟨pending, hat⟩, _⟩ <;> cases hat

/-- **A pool that is told to stop does.** Once `stop` has been called and no thread can go
on, unless it wakes spuriously, the `stop` that set the flag has returned, all workers have
exited, no caller is left in a call, and all tasks that were accepted have been run and
counted. -/
theorem pool_stops {threads capacity : ℕ} {p : ThreadPool α (threadCount threads) callers}
    {labels : List (Label α (threadCount threads + callers))}
    (h : (machine α (threadCount threads) callers).run (construct _ callers capacity) labels =
      some p) (hstopping : p.stopping = true) (hquiet : p.Quiet) :
    p.stopped = true ∧
    (∀ t, p.stages t = if t.val < threadCount threads then .exited else .away) ∧
    (accepted p.queue.effects).Perm p.ran ∧
    p.completed + p.failed = (accepted p.queue.effects).length := by
  have hsound : Sound capacity p := Machine.run_invariant Sound.step (sound_construct capacity) h
  have hstopped : p.stopped = true := by
    rcases hsound.underway hstopping with hstopped | ⟨t, hclosing | ⟨k, hjoining⟩⟩
    · exact hstopped
    · exact absurd hclosing (hsound.not_closing hquiet t)
    · exact absurd hjoining (hsound.not_joining hquiet t k)
  have hexited := hsound.stopped hstopped
  have hperm := hsound.perm_ran (threadCount_pos threads) hexited
  refine ⟨hstopped, fun t => ?_, hperm, by rw [hsound.counts, hperm.length_eq]⟩
  split
  · rename_i ht
    exact hexited ⟨t.val, ht⟩
  · rename_i ht
    have hfits := hsound.fits t
    have hclosed : p.queue.shared.closed = true := by
      have hworker := hsound.fits (worker callers ⟨0, threadCount_pos threads⟩)
      rw [hexited] at hworker
      exact hworker.2.2.1
    have hout : p.queue.threads t = .outside := by
      rcases hsound.rest hquiet t with hout | ⟨hopen, _⟩
      · exact hout
      · rw [hclosed] at hopen
        cases hopen
    rw [hout] at hfits
    cases hstage : p.stages t with
    | away => rfl
    | submitting =>
        rw [hstage] at hfits
        rcases hfits.2 with ⟨task, (hat | hat | hat) | hat | hat | hat⟩ | ⟨pending, hat⟩ <;>
          cases hat
    | closing => exact absurd hstage (hsound.not_closing hquiet t)
    | joining k => exact absurd hstage (hsound.not_joining hquiet t k)
    | polling | popping | popped | running | exited =>
        rw [hstage] at hfits
        exact absurd hfits.1 ht

theorem pool_stops_drained :
    ∃ p, (machine ℕ (threadCount 0) 2).run (construct _ 2 4) (submitAndStop ++ drainAndJoin) =
        some p ∧ p.Quiet ∧ p.failed = 1 ∧
      p.stopped = true ∧ p.completed + p.failed = (accepted p.queue.effects).length := by
  have hrun : ((machine ℕ (threadCount 0) 2).run (construct _ 2 4)
      (submitAndStop ++ drainAndJoin)).map
        (fun p => (p.stopping, decide p.Quiet, p.failed)) = some (true, true, 1) := by
    decide +kernel
  obtain ⟨p, hp, heq⟩ := Option.map_eq_some_iff.mp hrun
  simp only [Prod.mk.injEq, decide_eq_true_eq] at heq
  obtain ⟨hstopping, hquiet, hfailed⟩ := heq
  have hstops := pool_stops hp hstopping hquiet
  exact ⟨p, hp, hquiet, hfailed, hstops.1, hstops.2.2.2⟩

end ThreadPool

end Exchange
