import Exchange.Net.Outbound
import Exchange.Net.Server

/-!
# Delivery: from a sender's thread to the socket

Only the reactor thread writes to sockets. A sender queues its bytes in the session,
records the descriptor in `needFlush_` and writes to the reactor's eventfd, three steps
with other threads between them; the reactor is woken, drains the eventfd, swaps the
pending lists and flushes what they name. Events are edge-triggered, so a hand-off that
is missed is not made up for.

Here are all sessions of a server with the reactor's loop. What a session does by itself
is `Connection.exec`; what goes through the pending lists, the eventfd and the tables of
the reactor is below. Threads that send and the reactor interleave operation by
operation, and the kernel answers as it likes within what epoll and eventfd promise.
-/

namespace Exchange.Net

open Framework

abbrev Fd : Type := ℕ

/-- What one `epoll_wait` reports at most. -/
def kMaxEventsPerWait : ℕ := 64

/-- The largest value an eventfd can hold. -/
def eventfdMax : ℕ := 2 ^ 64 - 2

inductive Event : Type where
  | wakeup
  | listener
  | socket (fd : Fd) (hup writable readable : Bool)
deriving DecidableEq, Repr

/-- What `::epoll_wait` returned. -/
inductive Polled : Type where
  | events (batch : List Event)
  | interrupted
  | failed
deriving DecidableEq, Repr

/-- What `::accept4` returned. -/
inductive Accepted : Type where
  | client (fd : Fd)
  /-- `EINTR` or `ECONNABORTED`. -/
  | retry
  /-- Nobody is left to accept, or another error. -/
  | failed
deriving DecidableEq, Repr

/-- How the environment answers, should it be asked. -/
structure Kernel extends World where
  polled : Polled := .interrupted
  client : Accepted := .failed
deriving DecidableEq, Repr

/-- A `Session` object, its descriptor, and what the last `::send` on it returned. -/
structure Endpoint where
  session : Session
  fd : Fd
  lastSend : Option Written := none

/-- The part of the server that sees to its sessions. A `Session` object is never reused
here, and its number is how many were accepted before it. -/
structure Delivery where
  maxOutboundBytes : ℕ
  endpoints : SessionId → Option Endpoint := fun _ => none
  accepted : ℕ := 0
  sessions : Fd → Option SessionId := fun _ => none
  /-- The descriptors of sessions in the reactor's `handlers_`. -/
  handlers : Fd → Bool := fun _ => false
  needFlush : List Fd := []
  needClose : List Fd := []
  /-- The value of the eventfd. -/
  counter : ℕ := 0
  /-- The eventfd has been written since epoll last reported it. -/
  armed : Bool := false
  stopping : Bool := false

/-- What a thread has to do next. -/
inductive Job : Type where
  /-- The head of the loop in `Reactor::run`. -/
  | run
  | epollWait
  /-- The body of the loop over the reported events. -/
  | handle (event : Event)
  | acceptReady
  | drainWakeup
  | servicePending
  /-- The body of the loop over the descriptors to flush. -/
  | flush (fd : Fd)
  /-- The body of the loop over the descriptors to close. -/
  | retire (fd : Fd)
  /-- `Reactor::stop`. -/
  | stop
  | wake
  /-- An operation on a session. -/
  | session (id : SessionId) (op : Op)
deriving DecidableEq, Repr

namespace Delivery

/-- `epoll_wait` has the eventfd to report. -/
def wakeupPending (d : Delivery) : Bool := d.armed && 0 < d.counter

/-- `Reactor::wake`. A write that would overflow the eventfd fails. -/
def wake (d : Delivery) : Delivery :=
  if d.counter < eventfdMax then { d with counter := d.counter + 1, armed := true } else d

/-- A client's session is created and registered. -/
def accept (d : Delivery) (fd : Fd) : Delivery :=
  { d with
    endpoints := Function.update d.endpoints d.accepted
      (some { session := { maxOutbound := d.maxOutboundBytes }, fd })
    handlers := Function.update d.handlers fd true
    sessions := Function.update d.sessions fd (some d.accepted)
    accepted := d.accepted + 1 }

/-- The callback that was registered for a session's descriptor. -/
def ready (d : Delivery) (fd : Fd) (hup writable readable : Bool) : List Job :=
  match d.sessions fd with
  | none => []
  | some id =>
      if hup then [.session id .close]
      else (if writable then [.session id .onWritable] else []) ++
        if readable then [.session id .onReadable] else []

end Delivery

/-- What the last `::send` returned, once this operation is done. -/
def Op.answer (world : World) (before : Option Written) : Op → Option Written
  | .write _ => some world.written
  | _ => before

/-- What a session does on its own. -/
def Endpoint.exec (world : World) (op : Op) (e : Endpoint) : Option (Endpoint × List Op) :=
  (Connection.exec world op { session := e.session }).map fun (c, ops) =>
    ({ e with session := c.session, lastSend := op.answer world e.lastSend }, ops)

namespace Delivery

/-- An operation on the session `id`, which is the object `e`. -/
def onSession (kernel : Kernel) (d : Delivery) (id : SessionId) (e : Endpoint) :
    Op → Option (Delivery × List Job)
  | .requestFlush =>
      some ({ d with needFlush := d.needFlush ++ [e.fd] }, [.session id .wake])
  | .closeHandler =>
      some ({ d with needClose := d.needClose ++ [e.fd] }, [.session id .wake])
  | .wake => some (d.wake, [])
  -- what the reactor does for all its sessions is no operation of one
  | .ready _ _ _ | .drainWakeup | .servicePending | .flushPending _ | .closePending _ => none
  | op =>
      (e.exec kernel.toWorld op).map fun (e, ops) =>
        ({ d with endpoints := Function.update d.endpoints id (some e) },
          ops.map (.session id))

def exec (kernel : Kernel) (job : Job) (d : Delivery) : Option (Delivery × List Job) :=
  match job with
  | .run => some (d, if d.stopping then [] else [.epollWait])
  | .epollWait =>
      match kernel.polled with
      | .events batch =>
          if 0 < batch.length ∧ batch.length ≤ kMaxEventsPerWait ∧
              batch.count .wakeup ≤ d.wakeupPending.toNat then
            some ({ d with armed := d.armed && !batch.contains .wakeup },
              batch.map .handle ++ [.run])
          else none
      | .interrupted => some (d, [.run])
      | .failed => some (d, [])
  | .handle .wakeup => some (d, [.drainWakeup])
  | .handle .listener => some (d, [.acceptReady])
  | .handle (.socket fd hup writable readable) =>
      some (d, if d.handlers fd then d.ready fd hup writable readable else [])
  | .acceptReady =>
      match kernel.client with
      | .client fd =>
          -- a session in the table keeps its descriptor open
          if d.sessions fd = none then some (d.accept fd, [.acceptReady]) else none
      | .retry => some (d, [.acceptReady])
      | .failed => some (d, [])
  | .drainWakeup =>
      -- `read` takes the whole value, and fails at zero
      if d.counter = 0 then some (d, [.servicePending])
      else some ({ d with counter := 0 }, [.drainWakeup])
  | .servicePending =>
      some ({ d with needFlush := [], needClose := [] },
        d.needFlush.map .flush ++ d.needClose.map .retire)
  | .flush fd =>
      some (d,
        match d.sessions fd with
        | none => []
        | some id => [.session id .onWritable])
  | .retire fd =>
      some ({ d with
        handlers := Function.update d.handlers fd false
        sessions := Function.update d.sessions fd none }, [])
  | .stop => some ({ d with stopping := true }, if d.stopping then [] else [.wake])
  | .wake => some (d.wake, [])
  | .session id op =>
      match d.endpoints id with
      | none => none
      | some e => d.onSession kernel id e op

/-- What a thread other than the reactor may call. -/
inductive Call : Type where
  | deliver (id : SessionId) (bytes : Bytes)
  | stop
deriving DecidableEq, Repr

def Call.entry : Call → List Job
  | .deliver id bytes => [.session id (.send .deliver bytes)]
  | .stop => [.stop]

def program : Program Delivery Job Kernel Call where
  entry := Call.entry
  exec := exec

/-- A started server: nobody has connected, and the reactor thread enters its loop. -/
def start {n : ℕ} (maxOutboundBytes : ℕ) (reactor : Fin n) : Threads Delivery Job n :=
  { shared := { maxOutboundBytes }
    todo := Function.update (fun _ => []) reactor [.run] }

end Delivery

/-! ## What a session owes its peer -/

/-- The operations after which the bytes of a session are accounted for: they lead to the
socket or to the session's end. -/
def Op.owes : Op → Bool
  | .requestFlush | .onWritable | .copy | .write _ | .erase _ | .close => true
  | _ => false

/-- What a session does by itself in a server, which follows up every `send`. -/
def Op.own : Op → Bool
  | .send .direct _ | .enqueue .direct _ | .requestFlush | .closeHandler | .wake => false
  | .ready _ _ _ | .drainWakeup | .servicePending | .flushPending _ | .closePending _ => false
  | _ => true

/-- **Whenever a session has something to send, an operation is left that sees to it or
the socket took no more**, or else that was so before. -/
theorem Connection.exec_unsent {world : World} {op : Op} {c c' : Connection} {ops : List Op}
    (h : Connection.exec world op c = some (c', ops)) (hop : op.own = true)
    (hopen : c'.session.closed = false) (hout : c'.session.outbound ≠ []) :
    (∃ op' ∈ ops, op'.owes = true) ∨
      ((∃ chunk, op = .write chunk) ∧ world.written = .wouldBlock) ∨
      op.owes = false ∧ c.session.closed = false ∧ c.session.outbound ≠ [] := by
  have now : ∀ {op' : Op} {ops : List Op}, op'.owes = true →
      ∃ x ∈ op' :: ops, x.owes = true := fun h => ⟨_, List.mem_cons_self, h⟩
  cases exec_cases h with
  | sendClosed hclosed => exact absurd hclosed (Bool.eq_false_iff.mp hopen)
  | sendOpen _ => exact Or.inr (Or.inr ⟨rfl, hopen, hout⟩)
  | overflow session _ hsession =>
      subst hsession
      cases hopen
  | @enqueue caller _ _ _ _ =>
      cases caller with
      | direct => cases hop
      | deliver => exact Or.inl (now rfl)
  | closeAgain hclosed => exact absurd hclosed (Bool.eq_false_iff.mp hopen)
  | close _ => cases hopen
  | read assembler hreads _ =>
      refine Or.inr (Or.inr ⟨?_, hopen, hout⟩)
      cases op <;> first | rfl | cases hreads
  | onWritable _ =>
      -- a session that is open goes on to copy
      cases h
      rw [hopen]
      exact Or.inl (now rfl)
  | copyNone hempty => exact absurd hempty hout
  | writeNone _ =>
      rw [exec] at h
      split at h
      · split at h
        · obtain ⟨-, rfl⟩ := Prod.mk.inj (Option.some.inj h)
          exact Or.inl (now rfl)
        · cases h
      · exact Or.inr (Or.inl ⟨⟨_, rfl⟩, ‹_›⟩)
      all_goals
        cases h
        exact Or.inl (now rfl)
  | dropSlow | copy | write | erase => exact Or.inl (now rfl)
  | _ => cases hop

/-- A session leads to its own operations and to the two that call on the server. -/
theorem Connection.exec_own {world : World} {op : Op} {c c' : Connection} {ops : List Op}
    (h : Connection.exec world op c = some (c', ops)) (hop : op.own = true) :
    ∀ op' ∈ ops, op'.own = true ∨ op' = .requestFlush ∨ op' = .closeHandler := by
  intro op' hop'
  cases exec_cases h with
  | @sendOpen caller _ _ =>
      cases List.mem_singleton.mp hop'
      exact Or.inl (by cases caller <;> first | rfl | cases hop)
  | sendClosed | overflow | enqueue =>
      rcases after_mem hop' with rfl | rfl
      · exact Or.inr (Or.inl rfl)
      · exact Or.inl rfl
  | dropSlow | copy | write | erase =>
      cases List.mem_singleton.mp hop'
      exact Or.inl rfl
  | close =>
      cases List.mem_singleton.mp hop'
      exact Or.inr (Or.inr rfl)
  | closeAgain | copyNone => cases hop'
  | read _ _ hops =>
      rcases hops op' hop' with hreads | rfl | rfl
      · cases op' <;> first | exact Or.inl rfl | cases hreads
      · exact Or.inl rfl
      · exact Or.inl rfl
  | onWritable hops =>
      cases hops op' hop'
      exact Or.inl rfl
  | writeNone hops =>
      rcases hops op' hop' with rfl | rfl <;> exact Or.inl rfl
  | _ => cases hop

/-! ## What a job can do -/

/-- The job does not stand between a sender and the socket. -/
def Job.aside : Job → Bool
  | .run | .epollWait | .handle .listener | .handle (.socket _ _ _ _) => true
  | .acceptReady | .stop => true
  | _ => false

/-- What the threads of a server may have to do for a session. -/
def Job.proper : Job → Bool
  | .session _ op => op.own || op == .requestFlush || op == .closeHandler || op == .wake
  | _ => true

def Job.onSession : Job → Bool
  | .session _ _ => true
  | _ => false

/-- What a thread other than the reactor may have to do. -/
def Job.called : Job → Bool
  | .session _ _ | .stop | .wake => true
  | _ => false

/-- `job'` may follow from `job`. -/
def Job.Follows (job job' : Job) : Prop :=
  job'.proper = true ∧ (job.called = true → job'.called = true)

namespace Delivery

variable (d : Delivery)

inductive Does : Job → Delivery → List Job → Prop where
  | aside {job : Job} {jobs : List Job} (stopping : Bool) (hjob : job.aside = true)
      (hjobs : ∀ job' ∈ jobs, job.Follows job') : Does job { d with stopping } jobs
  | poll {batch : List Event} {armed : Bool}
      (hwakeup : d.armed = true → armed = true ∨ .wakeup ∈ batch) :
      Does .epollWait { d with armed } (batch.map .handle ++ [.run])
  | rung : Does (.handle .wakeup) d [.drainWakeup]
  | accept {fd : Fd} (hfree : d.sessions fd = none) :
      Does .acceptReady (d.accept fd) [.acceptReady]
  | drained (hzero : d.counter = 0) : Does .drainWakeup d [.servicePending]
  | drain : Does .drainWakeup { d with counter := 0 } [.drainWakeup]
  | servicePending :
      Does .servicePending { d with needFlush := [], needClose := [] }
        (d.needFlush.map .flush ++ d.needClose.map .retire)
  | flush {fd : Fd} {id : SessionId} (hheld : d.sessions fd = some id) :
      Does (.flush fd) d [.session id .onWritable]
  | flushNone {fd : Fd} (hnone : d.sessions fd = none) : Does (.flush fd) d []
  | retire {fd : Fd} (handlers : Fd → Bool) :
      Does (.retire fd)
        { d with handlers, sessions := Function.update d.sessions fd none } []
  | wake {job : Job} (hjob : job = .wake ∨ ∃ id, job = .session id .wake) :
      Does job d.wake []
  | requestFlush {id : SessionId} {e : Endpoint} (he : d.endpoints id = some e) :
      Does (.session id .requestFlush) { d with needFlush := d.needFlush ++ [e.fd] }
        [.session id .wake]
  | closeHandler {id : SessionId} (needClose : List Fd) :
      Does (.session id .closeHandler) { d with needClose } [.session id .wake]
  | session {id : SessionId} {op : Op} {e : Endpoint} {c : Connection} {ops : List Op}
      {world : World} (he : d.endpoints id = some e)
      (hop : (Job.session id op).proper = true → op.own = true)
      (hexec : Connection.exec world op { session := e.session } = some (c, ops)) :
      Does (.session id op)
        { d with
          endpoints := Function.update d.endpoints id
            (some { e with session := c.session, lastSend := op.answer world e.lastSend }) }
        (ops.map (.session id))

variable {d} {d' : Delivery} {job : Job} {jobs : List Job} {kernel : Kernel}

/-- What epoll reports of a descriptor leads to one of three operations of its session. -/
theorem ready_all {p : Job → Prop} {fd : Fd} {hup writable readable : Bool}
    (hp : ∀ id, p (.session id .close) ∧ p (.session id .onWritable) ∧
      p (.session id .onReadable)) :
    ∀ job' ∈ d.ready fd hup writable readable, p job' := by
  intro job' hjob'
  unfold ready at hjob'
  split at hjob'
  · cases hjob'
  · rename_i id _
    obtain ⟨hclose, hwritable, hreadable⟩ := hp id
    split at hjob'
    · rwa [List.mem_singleton.mp hjob']
    · rcases List.mem_append.mp hjob' with hmem | hmem
      · obtain ⟨_, rfl⟩ : writable = true ∧ job' = _ := by simpa using hmem
        exact hwritable
      · obtain ⟨_, rfl⟩ : readable = true ∧ job' = _ := by simpa using hmem
        exact hreadable

theorem exec_cases (h : exec kernel job d = some (d', jobs)) : Does d job d' jobs := by
  cases job with
  | run =>
      cases h
      exact .aside d.stopping rfl (by split <;> simp [Job.Follows, Job.proper, Job.called])
  | epollWait =>
      rw [exec] at h
      split at h
      · split at h
        · rename_i batch _ _
          cases h
          refine .poll fun harmed => ?_
          by_cases hmem : Event.wakeup ∈ batch
          · exact Or.inr hmem
          · exact Or.inl (by simp [harmed, hmem])
        · cases h
      · cases h
        exact .aside d.stopping rfl (by simp [Job.Follows, Job.proper, Job.called])
      · cases h
        exact .aside d.stopping rfl (by simp)
  | handle event =>
      cases event with
      | wakeup => cases h; exact .rung
      | listener =>
          cases h
          exact .aside d.stopping rfl (by simp [Job.Follows, Job.proper, Job.called])
      | socket fd hup writable readable =>
          cases h
          refine .aside d.stopping rfl ?_
          split
          · exact ready_all fun _ => by simp [Job.Follows, Job.proper, Op.own, Job.called]
          · simp
  | acceptReady =>
      rw [exec] at h
      split at h
      · split at h <;> cases h
        exact .accept ‹_›
      · cases h
        exact .aside d.stopping rfl (by simp [Job.Follows, Job.proper, Job.called])
      · cases h
        exact .aside d.stopping rfl (by simp)
  | drainWakeup =>
      rw [exec] at h
      split at h <;> cases h
      · exact .drained ‹_›
      · exact .drain
  | servicePending => cases h; exact .servicePending
  | flush fd =>
      cases h
      cases hheld : d.sessions fd with
      | none => exact .flushNone hheld
      | some id => exact .flush hheld
  | retire fd => cases h; exact .retire _
  | stop =>
      cases h
      exact .aside true rfl (by split <;> simp [Job.Follows, Job.proper, Job.called])
  | wake => cases h; exact .wake (Or.inl rfl)
  | session id op =>
      rw [exec] at h
      split at h
      · cases h
      · rename_i e he
        unfold onSession at h
        split at h
        · cases h
          exact .requestFlush he
        · cases h
          exact .closeHandler _
        · cases h
          exact .wake (Or.inr ⟨id, rfl⟩)
        iterate 5 cases h
        obtain ⟨⟨e', ops⟩, hexec, heq⟩ := Option.map_eq_some_iff.mp h
        obtain ⟨⟨c, ops'⟩, hc, heq'⟩ := Option.map_eq_some_iff.mp hexec
        cases heq'
        cases heq
        refine .session he (fun hproper => ?_) hc
        simp_all [Job.proper]

/-! ## Nothing is left behind -/

/-- The tables name sessions that exist. -/
structure Tables (d : Delivery) : Prop where
  held : ∀ fd id, d.sessions fd = some id → ∃ e, d.endpoints id = some e ∧ e.fd = fd
  fresh : ∀ id, d.accepted ≤ id → d.endpoints id = none

@[simp] theorem wake_endpoints (d : Delivery) : d.wake.endpoints = d.endpoints := by
  unfold wake; split <;> rfl

@[simp] theorem wake_sessions (d : Delivery) : d.wake.sessions = d.sessions := by
  unfold wake; split <;> rfl

@[simp] theorem wake_accepted (d : Delivery) : d.wake.accepted = d.accepted := by
  unfold wake; split <;> rfl

@[simp] theorem wake_needFlush (d : Delivery) : d.wake.needFlush = d.needFlush := by
  unfold wake; split <;> rfl

@[simp] theorem wake_needClose (d : Delivery) : d.wake.needClose = d.needClose := by
  unfold wake; split <;> rfl

/-- After a wake the eventfd is not at zero, whether or not the write succeeded. -/
theorem wake_counter (d : Delivery) : 0 < d.wake.counter := by
  unfold wake
  split
  · exact Nat.succ_pos _
  · rename_i hfull
    exact lt_of_lt_of_le (by decide) (Nat.not_lt.mp hfull)

/-- A session that exists is not the next one to be accepted. -/
theorem Tables.ne_accepted (ht : Tables d) {id : SessionId} {e : Endpoint}
    (he : d.endpoints id = some e) : id ≠ d.accepted := by
  rintro rfl
  rw [ht.fresh _ le_rfl] at he
  cases he

theorem Does.tables (h : Does d job d' jobs) (ht : Tables d) : Tables d' := by
  cases h with
  | @accept fd hfree =>
      refine ⟨fun fd' id hfd => ?_, fun id hid => ?_⟩
      · by_cases hne : fd' = fd
        · subst hne
          cases (Function.update_self ..).symm.trans hfd
          exact ⟨_, Function.update_self .., rfl⟩
        · obtain ⟨e, he, hefd⟩ := ht.held fd' id ((Function.update_of_ne hne ..).symm.trans hfd)
          exact ⟨e, (Function.update_of_ne (ht.ne_accepted he) ..).trans he, hefd⟩
      · have hid : d.accepted < id := hid
        exact (Function.update_of_ne hid.ne' ..).trans (ht.fresh id hid.le)
  | @retire fd handlers =>
      refine ⟨fun fd' id hfd => ht.held fd' id ?_, ht.fresh⟩
      by_cases hne : fd' = fd
      · subst hne
        cases (Function.update_self ..).symm.trans hfd
      · exact (Function.update_of_ne hne ..).symm.trans hfd
  | wake _ => exact ⟨by simpa using ht.held, by simpa using ht.fresh⟩
  | @session id op e c ops world he _ _ =>
      refine ⟨fun fd id' hfd => ?_, fun id' hid' => ?_⟩
      · obtain ⟨e', he', hefd⟩ := ht.held fd id' hfd
        by_cases hne : id' = id
        · subst hne
          cases he.symm.trans he'
          exact ⟨_, Function.update_self .., hefd⟩
        · exact ⟨e', (Function.update_of_ne hne ..).trans he', hefd⟩
      · have hne : id' ≠ id := by
          rintro rfl
          cases he.symm.trans (ht.fresh _ hid')
        exact (Function.update_of_ne hne ..).trans (ht.fresh id' hid')
  | _ => exact ⟨ht.held, ht.fresh⟩

end Delivery

/-- The job sees to the bytes of the session `id` at descriptor `fd`. -/
def Job.owes (fd : Fd) (id : SessionId) : Job → Prop
  | .flush fd' => fd' = fd
  | .session id' op => id' = id ∧ op.owes = true
  | _ => False

/-- The job leads to the pending lists being served. -/
def Job.rouses : Job → Prop
  | .session _ .wake | .handle .wakeup | .drainWakeup | .servicePending => True
  | _ => False

/-- The job leads to the eventfd being drained. -/
def Job.drains : Job → Prop
  | .handle .wakeup | .drainWakeup => True
  | _ => False

/-- The session is open and has bytes to send. -/
structure Endpoint.Unsent (e : Endpoint) : Prop where
  isOpen : e.session.closed = false
  outbound : e.session.outbound ≠ []

namespace Delivery

open Program

variable {n : ℕ} {s : Threads Delivery Job n} {t reactor : Fin n} {d d' : Delivery} {job : Job}
  {rest jobs : List Job} {fd : Fd} {id : SessionId} {e : Endpoint}

/-- The bytes of a session are seen to, or its socket is full. -/
def Accounted (s : Threads Delivery Job n) (fd : Fd) (id : SessionId) (e : Endpoint) : Prop :=
  e.lastSend = some .wouldBlock ∨ fd ∈ s.shared.needFlush ∨ Awaits (Job.owes fd id) s

theorem Accounted.act (h : Accounted s fd id e) (ht : s.todo t = job :: rest)
    (hjob : ¬ job.owes fd id) (hflush : fd ∈ s.shared.needFlush → fd ∈ d'.needFlush) :
    Accounted (s.move t d' (jobs ++ rest)) fd id e := by
  rcases h with h | h | h
  · exact Or.inl h
  · exact Or.inr (Or.inl (hflush h))
  · exact Or.inr (Or.inr ((h.act ht d' jobs).resolve_left hjob))

theorem Accounted.left {job' : Job} (hmem : job' ∈ jobs) (howes : job'.owes fd id) :
    Accounted (s.move t d' (jobs ++ rest)) fd id e :=
  Or.inr (Or.inr (awaits_new hmem howes))

/-- What holds between any two operations of the threads. -/
structure Alert (reactor : Fin n) (s : Threads Delivery Job n) : Prop where
  tables : Tables s.shared
  proper : Everywhere (fun t job => job.proper = true ∧ (t ≠ reactor → job.called = true)) s
  owed : ∀ {fd id e}, s.shared.sessions fd = some id → s.shared.endpoints id = some e →
    e.Unsent → Accounted s fd id e
  roused : s.shared.needFlush ≠ [] → 0 < s.shared.counter ∨ Awaits Job.rouses s
  armed : 0 < s.shared.counter → s.shared.armed = true ∨ Awaits Job.drains s

/-- Jobs lead to jobs that may follow from them. -/
theorem Does.follows (h : Does d job d' jobs) (hjob : job.proper = true) :
    ∀ job' ∈ jobs, job.Follows job' := by
  intro job' hjob'
  cases h with
  | aside _ _ hjobs => exact hjobs job' hjob'
  | poll =>
      rcases List.mem_append.mp hjob' with hmem | hmem
      · obtain ⟨event, _, rfl⟩ := List.mem_map.mp hmem
        exact ⟨rfl, nofun⟩
      · cases List.mem_singleton.mp hmem
        exact ⟨rfl, nofun⟩
  | servicePending =>
      rcases List.mem_append.mp hjob' with hmem | hmem <;>
        obtain ⟨fd, _, rfl⟩ := List.mem_map.mp hmem <;> exact ⟨rfl, nofun⟩
  | session _ hop hexec =>
      obtain ⟨op', hop', rfl⟩ := List.mem_map.mp hjob'
      refine ⟨?_, fun _ => rfl⟩
      rcases Connection.exec_own hexec (hop hjob) op' hop' with hown | rfl | rfl
      · simp [Job.proper, hown]
      · rfl
      · rfl
  | flushNone | retire | wake => cases hjob'
  | rung | accept | drained | drain | flush =>
      cases List.mem_singleton.mp hjob'
      exact ⟨rfl, nofun⟩
  | requestFlush | closeHandler =>
      cases List.mem_singleton.mp hjob'
      exact ⟨rfl, fun _ => rfl⟩

theorem Alert.job_proper (h : Alert reactor s) (ht : s.todo t = job :: rest) :
    job.proper = true :=
  (h.proper t job (by rw [ht]; exact List.mem_cons_self)).1

/-- **No step leaves a session's bytes behind.** -/
theorem owed_act (h : Alert reactor s) (ht : s.todo t = job :: rest)
    (hdoes : Does s.shared job d' jobs) {fd : Fd} {id : SessionId} {e : Endpoint}
    (hheld : d'.sessions fd = some id) (he : d'.endpoints id = some e) (hunsent : e.Unsent) :
    Accounted (s.move t d' (jobs ++ rest)) fd id e := by
  have hproper := h.job_proper ht
  cases hdoes with
  | aside stopping hjob _ =>
      refine (h.owed hheld he hunsent).act ht ?_ (fun hmem => hmem)
      cases job with
      | flush | session => cases hjob
      | _ => exact not_false
  | poll | rung | drained | drain =>
      exact (h.owed hheld he hunsent).act ht not_false fun hmem => hmem
  | @accept fd' hfree =>
      by_cases hne : fd = fd'
      · -- the new session has nothing to send
        subst hne
        cases (Function.update_self ..).symm.trans hheld
        cases (Function.update_self ..).symm.trans he
        exact absurd rfl hunsent.outbound
      · replace hheld := (Function.update_of_ne hne ..).symm.trans hheld
        obtain ⟨e', he', _⟩ := h.tables.held fd id hheld
        replace he := (Function.update_of_ne (h.tables.ne_accepted he') ..).symm.trans he
        exact (h.owed hheld he hunsent).act ht not_false fun hmem => hmem
  | servicePending =>
      rcases h.owed hheld he hunsent with hfull | hmem | hawaits
      · exact Or.inl hfull
      · exact .left (List.mem_append_left _ (List.mem_map_of_mem hmem)) rfl
      · exact Or.inr (Or.inr ((hawaits.act ht _ _).resolve_left not_false))
  | @flush fd' id' hfd =>
      by_cases hne : fd' = fd
      · subst hne
        cases hfd.symm.trans hheld
        exact .left List.mem_cons_self ⟨rfl, rfl⟩
      · exact (h.owed hheld he hunsent).act ht hne fun hmem => hmem
  | @flushNone fd' hnone =>
      have hne : fd' ≠ fd := by
        rintro rfl
        cases hnone.symm.trans hheld
      exact (h.owed hheld he hunsent).act ht hne fun hmem => hmem
  | @retire fd' handlers =>
      by_cases hne : fd = fd'
      · subst hne
        cases (Function.update_self ..).symm.trans hheld
      · replace hheld := (Function.update_of_ne hne ..).symm.trans hheld
        exact (h.owed hheld he hunsent).act ht not_false fun hmem => hmem
  | wake hjob =>
      rw [wake_sessions] at hheld
      rw [wake_endpoints] at he
      refine (h.owed hheld he hunsent).act ht ?_ (by simp)
      rcases hjob with rfl | ⟨id', rfl⟩ <;> simp [Job.owes, Op.owes]
  | @requestFlush id' e' he' =>
      by_cases hne : id' = id
      · -- its descriptor has just been recorded
        subst hne
        cases he'.symm.trans he
        obtain ⟨e', he', rfl⟩ := h.tables.held fd _ hheld
        cases he'.symm.trans he
        exact Or.inr (Or.inl (List.mem_append_right _ List.mem_cons_self))
      · exact (h.owed hheld he hunsent).act ht (fun howes => hne howes.1)
          fun hmem => List.mem_append_left _ hmem
  | closeHandler _ =>
      refine (h.owed hheld he hunsent).act ht ?_ fun hmem => hmem
      simp [Job.owes, Op.owes]
  | @session id' op e' c ops world he' hop hexec =>
      by_cases hne : id = id'
      · subst hne
        cases (Function.update_self ..).symm.trans he
        rcases Connection.exec_unsent hexec (hop hproper) hunsent.isOpen hunsent.outbound with
          ⟨op', hop', howes⟩ | ⟨⟨chunk, rfl⟩, hfull⟩ | ⟨hquiet, hopen, hout⟩
        · exact .left (List.mem_map_of_mem hop') ⟨rfl, howes⟩
        · exact Or.inl (congrArg some hfull)
        · have hlast : op.answer world e'.lastSend = e'.lastSend := by
            cases op <;> first | rfl | cases hquiet
          have hold : Accounted s fd id e' := h.owed hheld he' ⟨hopen, hout⟩
          rw [hlast]
          exact hold.act ht (fun howes => by simp [howes.2] at hquiet) fun hmem => hmem
      · replace he := (Function.update_of_ne hne ..).symm.trans he
        exact (h.owed hheld he hunsent).act ht (fun howes => hne howes.1.symm)
          fun hmem => hmem

/-- A job that is aside, or a session's own, brings nobody to the pending lists. -/
theorem not_rouses (hjob : job.aside = true ∨ ∃ id op, job = .session id op ∧ op.own = true) :
    ¬ job.rouses := by
  rcases hjob with hjob | ⟨id, op, rfl, hop⟩
  · cases job with
    | handle event => cases event <;> first | exact not_false | cases hjob
    | drainWakeup | servicePending | session => cases hjob
    | _ => exact not_false
  · cases op <;> first | exact not_false | cases hop

theorem not_drains (h : ¬ job.rouses) : ¬ job.drains := by
  intro hdrains
  cases job with
  | handle event => cases event <;> first | exact h trivial | exact hdrains
  | drainWakeup => exact h trivial
  | _ => exact hdrains

/-- The reactor stays on its way to the pending lists until it serves them. -/
theorem rousing_act (hproper : job.proper = true) (ht : s.todo t = job :: rest)
    (hdoes : Does s.shared job d' jobs) (hjob : job ≠ .servicePending)
    (h : 0 < s.shared.counter ∨ Awaits Job.rouses s) :
    0 < d'.counter ∨ Awaits Job.rouses (s.move t d' (jobs ++ rest)) := by
  have keep : ¬ job.rouses →
      0 < s.shared.counter ∨ Awaits Job.rouses (s.move t d' (jobs ++ rest)) := by
    intro hrouses
    exact h.imp_right fun ha => (ha.act ht d' jobs).resolve_left hrouses
  cases hdoes with
  | aside stopping haside _ => exact keep (not_rouses (Or.inl haside))
  | poll | accept | flush | flushNone | retire => exact keep not_false
  | rung | drained | drain | requestFlush | closeHandler =>
      exact Or.inr (awaits_new List.mem_cons_self trivial)
  | servicePending => exact absurd rfl hjob
  | wake _ => exact Or.inl (wake_counter _)
  | session _ hop _ => exact keep (not_rouses (Or.inr ⟨_, _, rfl, hop hproper⟩))

/-- The pending lists are served together, and one that grows has a wake to follow. -/
theorem Does.pending (h : Does d job d' jobs) :
    job ≠ .servicePending ∧ (d'.needFlush = d.needFlush ∧ d'.needClose = d.needClose ∨
        ∃ id, .session id .wake ∈ jobs) ∨
      d'.needFlush = [] ∧ d'.needClose = [] := by
  cases h with
  | aside _ hjob _ =>
      refine Or.inl ⟨?_, Or.inl ⟨rfl, rfl⟩⟩
      rintro rfl
      cases hjob
  | servicePending => exact Or.inr ⟨rfl, rfl⟩
  | wake hjob =>
      refine Or.inl ⟨?_, Or.inl ⟨wake_needFlush d, wake_needClose d⟩⟩
      rcases hjob with rfl | ⟨id, rfl⟩ <;> simp
  | requestFlush | closeHandler => exact Or.inl ⟨by simp, Or.inr ⟨_, List.mem_cons_self⟩⟩
  | _ => exact Or.inl ⟨by simp, Or.inl ⟨rfl, rfl⟩⟩

/-- **Descriptors that wait to be flushed have the reactor on its way to them**, or the
eventfd is not at zero. -/
theorem roused_act (h : Alert reactor s) (ht : s.todo t = job :: rest)
    (hdoes : Does s.shared job d' jobs) (hsome : d'.needFlush ≠ []) :
    0 < d'.counter ∨ Awaits Job.rouses (s.move t d' (jobs ++ rest)) := by
  rcases hdoes.pending with ⟨hjob, ⟨hsame, _⟩ | ⟨_, hwake⟩⟩ | ⟨hserved, _⟩
  · exact rousing_act (h.job_proper ht) ht hdoes hjob (h.roused (hsame ▸ hsome))
  · exact Or.inr (awaits_new hwake trivial)
  · exact absurd hserved hsome

/-- **An eventfd that is not at zero will be reported, or is being drained.** -/
theorem armed_act (h : Alert reactor s) (ht : s.todo t = job :: rest)
    (hdoes : Does s.shared job d' jobs) (hpos : 0 < d'.counter) :
    d'.armed = true ∨ Awaits Job.drains (s.move t d' (jobs ++ rest)) := by
  have hproper := h.job_proper ht
  have keep : 0 < s.shared.counter → ¬ job.drains →
      s.shared.armed = true ∨ Awaits Job.drains (s.move t d' (jobs ++ rest)) := by
    intro hpos hjob
    exact (h.armed hpos).imp_right fun ha => (ha.act ht d' jobs).resolve_left hjob
  cases hdoes with
  | aside stopping hjob _ => exact keep hpos (not_drains (not_rouses (Or.inl hjob)))
  | poll hwakeup =>
      rcases keep hpos not_false with harmed | ha
      · refine (hwakeup harmed).imp_right fun hmem => ?_
        exact awaits_new (List.mem_append_left _ (List.mem_map_of_mem hmem)) trivial
      · exact Or.inr ha
  | rung => exact Or.inr (awaits_new List.mem_cons_self trivial)
  | drained hzero => exact absurd hzero hpos.ne'
  | drain => exact absurd rfl hpos.ne'
  | accept | servicePending | flush | flushNone | retire | requestFlush | closeHandler =>
      exact keep hpos not_false
  | wake hjob =>
      by_cases hroom : s.shared.counter < eventfdMax
      · exact Or.inl (by simp [Delivery.wake, hroom])
      · -- the write failed, and the eventfd was not at zero before
        have hsame : s.shared.wake = s.shared := if_neg hroom
        rw [hsame] at hpos ⊢
        refine (h.armed hpos).imp_right fun ha => (ha.act ht _ _).resolve_left ?_
        rcases hjob with rfl | ⟨id, rfl⟩ <;> exact not_false
  | session _ hop _ =>
      exact keep hpos (not_drains (not_rouses (Or.inr ⟨_, _, rfl, hop hproper⟩)))

variable {label : Program.Label Kernel Call n} {s' : Threads Delivery Job n}

theorem alert_step (h : Alert reactor s) (hstep : (program.machine n).step s label = some s') :
    Alert reactor s' := by
  cases Program.step_cases hstep with
  | @call t call ht =>
      refine ⟨h.tables, h.proper.update fun job hjob => ?_, fun hheld he hunsent => ?_,
        fun hsome => ?_, fun hpos => ?_⟩
      · cases call <;> cases List.mem_singleton.mp hjob <;> exact ⟨rfl, fun _ => rfl⟩
      · exact (h.owed hheld he hunsent).imp_right (Or.imp_right fun ha => ha.call ht _)
      · exact (h.roused hsome).imp_right fun ha => ha.call ht _
      · exact (h.armed hpos).imp_right fun ha => ha.call ht _
  | act ht hexec =>
      have hdoes := exec_cases hexec
      refine ⟨hdoes.tables h.tables, h.proper.act ht ?_, owed_act h ht hdoes,
        roused_act h ht hdoes, armed_act h ht hdoes⟩
      rintro ⟨hproper, hcalled⟩ job' hjob'
      obtain ⟨hproper', hcalled'⟩ := hdoes.follows hproper job' hjob'
      exact ⟨hproper', fun hne => hcalled' (hcalled hne)⟩

theorem alert_start (maxOutboundBytes : ℕ) (reactor : Fin n) :
    Alert reactor (start maxOutboundBytes reactor) where
  tables := ⟨nofun, fun _ _ => rfl⟩
  proper := by
    intro t job hjob
    by_cases hne : t = reactor
    · subst hne
      unfold start at hjob
      dsimp only at hjob
      rw [Function.update_self] at hjob
      cases List.mem_singleton.mp hjob
      exact ⟨rfl, fun h => absurd rfl h⟩
    · unfold start at hjob
      dsimp only at hjob
      rw [Function.update_of_ne hne] at hjob
      cases hjob
  owed := nofun
  roused hsome := absurd rfl hsome
  armed hpos := absurd hpos (lt_irrefl 0)

/-- The reactor is parked in `epoll_wait`. -/
def Idle (reactor : Fin n) (s : Threads Delivery Job n) : Prop := s.todo reactor = [.epollWait]

instance (reactor : Fin n) (s : Threads Delivery Job n) : Decidable (Idle reactor s) :=
  inferInstanceAs (Decidable (_ = _))

/-- No thread is in `deliver`. -/
def Delivered (s : Threads Delivery Job n) : Prop :=
  ∀ t, ∀ job ∈ s.todo t, job.onSession = false

instance (s : Threads Delivery Job n) : Decidable (Delivered s) :=
  inferInstanceAs (Decidable (∀ t, ∀ job ∈ s.todo t, job.onSession = false))

/-- With the reactor parked and nobody in `deliver`, nothing is awaited but a wait for
events, or a call to stop. -/
theorem Alert.not_awaits (h : Alert reactor s) (hidle : Idle reactor s)
    (hdelivered : Delivered s) {p : Job → Prop} (hwait : ¬ p .epollWait) (hstop : ¬ p .stop)
    (hwake : ¬ p .wake) : ¬ Awaits p s := by
  rintro ⟨t, job, hjob, hp⟩
  by_cases hne : t = reactor
  · subst hne
    rw [hidle] at hjob
    cases List.mem_singleton.mp hjob
    exact hwait hp
  · have hcalled := (h.proper t job hjob).2 hne
    cases job with
    | session id op => cases hdelivered t _ hjob
    | stop => exact hstop hp
    | wake => exact hwake hp
    | _ => cases hcalled

/-- **No stranded output.** With nobody in `deliver`, no wakeup to report and the reactor
waiting for events, a session that is registered, open and has bytes to send has a full
socket. -/
theorem no_stranded_output {labels : List (Program.Label Kernel Call n)}
    {maxOutboundBytes : ℕ}
    (hrun : (program.machine n).run (start maxOutboundBytes reactor) labels = some s)
    (hidle : Idle reactor s) (hdelivered : Delivered s)
    (hwakeup : s.shared.wakeupPending = false)
    (hheld : s.shared.sessions fd = some id) (he : s.shared.endpoints id = some e)
    (hopen : e.session.closed = false) (hout : e.session.outbound ≠ []) :
    e.lastSend = some .wouldBlock := by
  have h : Alert reactor s := Machine.run_invariant alert_step (alert_start _ _) hrun
  rcases h.owed hheld he ⟨hopen, hout⟩ with hfull | hflush | howed
  · exact hfull
  · -- somebody would have to wake the reactor, or the eventfd would be reported
    rcases h.roused (List.ne_nil_of_mem hflush) with hpos | hroused
    · rcases h.armed hpos with harmed | hdrained
      · simp [wakeupPending, harmed, hpos] at hwakeup
      · exact absurd hdrained (h.not_awaits hidle hdelivered not_false not_false not_false)
    · exact absurd hroused (h.not_awaits hidle hdelivered not_false not_false not_false)
  · exact absurd howed (h.not_awaits hidle hdelivered not_false not_false not_false)

/-- The reactor, and the thread beside it. -/
def polling : Fin 2 := ⟨0, Nat.zero_lt_two⟩

def serving : Fin 2 := ⟨1, Nat.one_lt_two⟩

/-- A client connects, three bytes are delivered to it, and the reactor is woken and finds
the socket full. -/
def fullSocket : List (Program.Label Kernel Call 2) :=
  [.act polling {}, .act polling { polled := .events [.listener] }, .act polling {},
    .act polling { client := .client 5 }, .act polling {}, .act polling {},
    .call serving (.deliver 0 [1, 2, 3]), .act serving {}, .act serving {},
    .act serving {}, .act serving {},
    .act polling { polled := .events [.wakeup] }, .act polling {}, .act polling {},
    .act polling {}, .act polling {}, .act polling {}, .act polling {}, .act polling {},
    .act polling { written := .wouldBlock }, .act polling {}]

theorem no_stranded_output_fullSocket :
    ∃ s e, (program.machine 2).run (start 64 0) fullSocket = some s ∧
      s.shared.endpoints 0 = some e ∧ e.session.outbound = [1, 2, 3] ∧
      e.lastSend = some .wouldBlock := by
  have hrun : ((program.machine 2).run (start 64 0) fullSocket).map
      (fun s => decide (Idle 0 s ∧ Delivered s ∧ s.shared.wakeupPending = false ∧
        s.shared.sessions 5 = some 0 ∧
        (s.shared.endpoints 0).map (fun e => (e.session.closed, e.session.outbound)) =
          some (false, [1, 2, 3]))) = some true := by
    decide +kernel
  obtain ⟨s, hs, hstate⟩ := Option.map_eq_some_iff.mp hrun
  obtain ⟨hidle, hdelivered, hwakeup, hheld, hsession⟩ := of_decide_eq_true hstate
  obtain ⟨e, he, hsession⟩ := Option.map_eq_some_iff.mp hsession
  obtain ⟨hopen, hout⟩ := Prod.mk.inj hsession
  refine ⟨s, e, hs, he, hout, ?_⟩
  exact no_stranded_output hs hidle hdelivered hwakeup hheld he hopen (by simp [hout])

end Delivery

end Exchange.Net
