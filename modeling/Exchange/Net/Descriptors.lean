import Exchange.Net.Closing
import Exchange.Net.Delivery

/-!
# Descriptors that are used again

The server files a session that closed under its descriptor, and the kernel gives the
number to another client once it is free. A number filed twice, or retired late, would take
the next client's session out of the tables. It does not happen: a descriptor is filed by
the close handler of the session that has it, which runs once and before the session leaves
the table, and no session gets the number before that.

Events are another matter. They name a descriptor, and go to the session that has it when
their turn comes: one that was reported of a session that is retired in the same round is
taken for the next client's.
-/

namespace Exchange.Net

open Framework

/-- An operation of a session leaves the flag set and the handler alone, or is the `close`
that sets the flag. -/
theorem Connection.exec_closed {world : World} {op : Op} {c c' : Connection} {ops : List Op}
    (h : Connection.exec world op c = some (c', ops)) (hop : op.own = true) :
    ((c.session.closed = true → c'.session.closed = true) ∧
        ∀ op' ∈ ops, op'.announces = 0) ∨
      op = .close ∧ c.session.closed = false ∧ c'.session.closed = true ∧
        ops = [.closeHandler] := by
  cases (exec_cases h).closing with
  | aside _ hclosed _ hops =>
      exact Or.inl ⟨fun hset => hclosed.trans hset, fun op' hop' => (hops op' hop').1⟩
  | overflow _ _ _ hclosed hops =>
      exact Or.inl ⟨fun _ => hclosed, fun op' hop' => (hops op' hop').1⟩
  | close hopen => exact Or.inr ⟨rfl, hopen, rfl, rfl⟩
  | _ => cases hop

/-- Invocations of the close handler of `id` a job stands for. -/
def Job.announces (id : SessionId) : Job → ℕ
  | .session id' op => if id' = id then op.announces else 0
  | _ => 0

/-- Retirements of `fd` a job stands for. -/
def Job.retires (fd : Fd) : Job → ℕ
  | .retire fd' => if fd' = fd then 1 else 0
  | _ => 0

/-- The job neither files a descriptor nor retires one. -/
def Job.idles : Job → Bool
  | .session _ op => op.announces == 0
  | .retire _ => false
  | _ => true

theorem Job.announces_of_idles {job : Job} (h : job.idles = true) (id : SessionId) :
    job.announces id = 0 := by
  cases job with
  | session id' op =>
      have hop : op.announces = 0 := by simpa [Job.idles] using h
      simp [Job.announces, hop]
  | _ => rfl

theorem Job.retires_of_idles {job : Job} (h : job.idles = true) (fd : Fd) :
    job.retires fd = 0 := by
  cases job with
  | retire => cases h
  | _ => rfl

namespace Delivery

variable {d d' : Delivery} {job : Job} {jobs : List Job} {kernel : Kernel}

/-! ## What a job does to the tables -/

structure SameTables (d d' : Delivery) : Prop where
  endpoints : d'.endpoints = d.endpoints
  sessions : d'.sessions = d.sessions
  handlers : d'.handlers = d.handlers
  needClose : d'.needClose = d.needClose

theorem sameTables_wake (d : Delivery) : SameTables d d.wake := by
  unfold wake
  split <;> exact ⟨rfl, rfl, rfl, rfl⟩

variable (d) in
inductive Registers : Job → Delivery → List Job → Prop where
  | aside {job : Job} {d' : Delivery} {jobs : List Job} (hsame : SameTables d d')
      (hjob : job.idles = true) (hjobs : ∀ job' ∈ jobs, job'.idles = true) : Registers job d' jobs
  | accept {fd : Fd} (hfree : d.sessions fd = none) :
      Registers .acceptReady (d.accept fd) [.acceptReady]
  | session {id : SessionId} {op : Op} {e e' : Endpoint} {ops : List Op}
      (he : d.endpoints id = some e) (hfd : e'.fd = e.fd)
      (hclosed : e.session.closed = true → e'.session.closed = true)
      (hop : op.announces = 0) (hops : ∀ op' ∈ ops, op'.announces = 0) :
      Registers (.session id op)
        { d with endpoints := Function.update d.endpoints id (some e') }
        (ops.map (.session id))
  | close {id : SessionId} {e e' : Endpoint} (he : d.endpoints id = some e)
      (hopen : e.session.closed = false) (hfd : e'.fd = e.fd)
      (hclosed : e'.session.closed = true) :
      Registers (.session id .close)
        { d with endpoints := Function.update d.endpoints id (some e') }
        [.session id .closeHandler]
  | closeHandler {id : SessionId} {e : Endpoint} (he : d.endpoints id = some e) :
      Registers (.session id .closeHandler) { d with needClose := d.needClose ++ [e.fd] }
        [.session id .wake]
  | servicePending :
      Registers .servicePending { d with needFlush := [], needClose := [] }
        (d.needFlush.map .flush ++ d.needClose.map .retire)
  | retire {fd : Fd} :
      Registers (.retire fd)
        { d with
          handlers := Function.update d.handlers fd false
          sessions := Function.update d.sessions fd none } []

theorem onSession_registers {id : SessionId} {e : Endpoint} {op : Op}
    (he : d.endpoints id = some e) (hproper : (Job.session id op).proper = true)
    (h : d.onSession kernel id e op = some (d', jobs)) :
    Registers d (.session id op) d' jobs := by
  unfold onSession at h
  split at h
  · cases h
    exact .aside ⟨rfl, rfl, rfl, rfl⟩ rfl (by simp [Job.idles, Op.announces])
  · cases h
    exact .closeHandler he
  · cases h
    exact .aside (sameTables_wake d) rfl (by simp)
  iterate 5 cases h
  obtain ⟨⟨e', ops⟩, hexec, heq⟩ := Option.map_eq_some_iff.mp h
  obtain ⟨⟨c, ops'⟩, hc, heq'⟩ := Option.map_eq_some_iff.mp hexec
  cases heq'
  cases heq
  have hown : op.own = true := by simp_all [Job.proper]
  rcases Connection.exec_closed hc hown with ⟨hclosed, hops⟩ | ⟨rfl, hopen, hclosed, rfl⟩
  · refine .session he rfl hclosed ?_ hops
    cases op <;> first | rfl | cases hown
  · exact .close he hopen rfl hclosed

theorem exec_registers (h : exec kernel job d = some (d', jobs)) (hproper : job.proper = true) :
    Registers d job d' jobs := by
  have same : SameTables d d := ⟨rfl, rfl, rfl, rfl⟩
  cases job with
  | run =>
      cases h
      exact .aside same rfl (by split <;> simp [Job.idles])
  | epollWait =>
      rw [exec] at h
      split at h
      · split at h
        · cases h
          refine .aside ⟨rfl, rfl, rfl, rfl⟩ rfl fun job' hjob' => ?_
          rcases List.mem_append.mp hjob' with hmem | hmem
          · obtain ⟨event, _, rfl⟩ := List.mem_map.mp hmem
            rfl
          · cases List.mem_singleton.mp hmem
            rfl
        · cases h
      · cases h
        exact .aside same rfl (by simp [Job.idles])
      · cases h
        exact .aside same rfl (by simp)
  | handle event =>
      cases event with
      | wakeup | listener =>
          cases h
          exact .aside same rfl (by simp [Job.idles])
      | socket fd hup writable readable =>
          cases h
          refine .aside same rfl ?_
          split
          · exact ready_all fun _ => ⟨rfl, rfl, rfl⟩
          · simp
  | acceptReady =>
      rw [exec] at h
      split at h
      · split at h <;> cases h
        exact .accept ‹_›
      · cases h
        exact .aside same rfl (by simp [Job.idles])
      · cases h
        exact .aside same rfl (by simp)
  | drainWakeup =>
      rw [exec] at h
      split at h <;> cases h <;>
        exact .aside ⟨rfl, rfl, rfl, rfl⟩ rfl (by simp [Job.idles])
  | servicePending => cases h; exact .servicePending
  | flush fd =>
      cases h
      exact .aside same rfl (by split <;> simp [Job.idles, Op.announces])
  | retire fd => cases h; exact .retire
  | stop =>
      cases h
      exact .aside ⟨rfl, rfl, rfl, rfl⟩ rfl (by split <;> simp [Job.idles])
  | wake => cases h; exact .aside (sameTables_wake d) rfl (by simp)
  | session id op =>
      rw [exec] at h
      split at h
      · cases h
      · exact onSession_registers ‹_› hproper h

/-! ## Sessions on their way out -/

/-- The session `id` is closed and still has its place in the table. -/
structure Leaving (d : Delivery) (fd : Fd) (id : SessionId) (e : Endpoint) : Prop where
  held : d.sessions fd = some id
  endpoint : d.endpoints id = some e
  closed : e.session.closed = true

/-- A session keeps its place until its descriptor is retired. -/
theorem Registers.stays (h : Registers d job d' jobs) {fd : Fd} {id : SessionId}
    (hheld : d.sessions fd = some id) (hjob : job.retires fd = 0) :
    d'.sessions fd = some id := by
  cases h with
  | aside hsame _ _ => exact hsame.sessions ▸ hheld
  | @accept fd' hfree =>
      refine (Function.update_of_ne ?_ ..).trans hheld
      rintro rfl
      cases hfree.symm.trans hheld
  | @retire fd' =>
      refine (Function.update_of_ne ?_ ..).trans hheld
      rintro rfl
      simp [Job.retires] at hjob
  | session | close | closeHandler | servicePending => exact hheld

/-- A session that is closed stays so, and keeps its descriptor. -/
theorem Registers.closed (h : Registers d job d' jobs) (ht : Tables d) {id : SessionId}
    {e : Endpoint} (he : d.endpoints id = some e) (hset : e.session.closed = true) :
    ∃ e', e'.fd = e.fd ∧ d'.endpoints id = some e' ∧ e'.session.closed = true := by
  cases h with
  | aside hsame _ _ => exact ⟨e, rfl, hsame.endpoints ▸ he, hset⟩
  | accept _ => exact ⟨e, rfl, (Function.update_of_ne (ht.ne_accepted he) ..).trans he, hset⟩
  | @session id' _ e₀ e' _ he₀ hfd hclosed _ _ =>
      by_cases hne : id = id'
      · subst hne
        cases he₀.symm.trans he
        exact ⟨e', hfd, Function.update_self .., hclosed hset⟩
      · exact ⟨e, rfl, (Function.update_of_ne hne ..).trans he, hset⟩
  | @close id' e₀ e' he₀ _ hfd hclosed =>
      by_cases hne : id = id'
      · subst hne
        cases he₀.symm.trans he
        exact ⟨e', hfd, Function.update_self .., hclosed⟩
      · exact ⟨e, rfl, (Function.update_of_ne hne ..).trans he, hset⟩
  | closeHandler | servicePending | retire => exact ⟨e, rfl, he, hset⟩

/-- A session on its way out stays so until its descriptor is retired. -/
theorem Registers.leaving (h : Registers d job d' jobs) (ht : Tables d) {fd : Fd}
    {id : SessionId} {e : Endpoint} (hl : Leaving d fd id e) (hjob : job.retires fd = 0) :
    ∃ e', e'.fd = e.fd ∧ Leaving d' fd id e' := by
  obtain ⟨e', hfd, he', hset⟩ := h.closed ht hl.endpoint hl.closed
  exact ⟨e', hfd, h.stays hl.held hjob, he', hset⟩

/-- A descriptor has a handler exactly if it has a session. -/
theorem Registers.handlers (h : Registers d job d' jobs)
    (hhandlers : ∀ fd, d.handlers fd = (d.sessions fd).isSome) (fd : Fd) :
    d'.handlers fd = (d'.sessions fd).isSome := by
  cases h with
  | aside hsame _ _ =>
      rw [hsame.handlers, hsame.sessions]
      exact hhandlers fd
  | @accept fd' _ =>
      by_cases hne : fd = fd'
      · simp [Delivery.accept, hne]
      · simp [Delivery.accept, hne, hhandlers fd]
  | @retire fd' =>
      by_cases hne : fd = fd'
      · simp [hne]
      · simp [hne, hhandlers fd]
  | session | close | closeHandler | servicePending => exact hhandlers fd

/-- A descriptor gets to a session when nobody has it, and the session is a new one. -/
theorem Registers.held (h : Registers d job d' jobs) (ht : Tables d) {fd : Fd}
    {id : SessionId} (hheld : d'.sessions fd = some id) :
    d.sessions fd = some id ∨ d.sessions fd = none ∧ d.endpoints id = none := by
  cases h with
  | aside hsame _ _ => exact Or.inl (hsame.sessions ▸ hheld)
  | @accept fd' hfree =>
      by_cases hne : fd = fd'
      · subst hne
        cases (Function.update_self ..).symm.trans hheld
        exact Or.inr ⟨hfree, ht.fresh _ le_rfl⟩
      · exact Or.inl ((Function.update_of_ne hne ..).symm.trans hheld)
  | @retire fd' =>
      by_cases hne : fd = fd'
      · subst hne
        cases (Function.update_self ..).symm.trans hheld
      · exact Or.inl ((Function.update_of_ne hne ..).symm.trans hheld)
  | session | close | closeHandler | servicePending => exact Or.inl hheld

/-- The handler of a session becomes due when the session is closed. -/
theorem Registers.announced (h : Registers d job d' jobs) (id : SessionId) :
    (jobs.map (Job.announces id)).sum = 0 ∨
      (jobs.map (Job.announces id)).sum = 1 ∧ ∃ e e', d.endpoints id = some e ∧
        e.session.closed = false ∧ d'.sessions = d.sessions ∧ e'.fd = e.fd ∧
        d'.endpoints id = some e' ∧ e'.session.closed = true := by
  cases h with
  | aside _ _ hjobs =>
      exact Or.inl (Program.sum_weightless fun job' hjob' =>
        Job.announces_of_idles (hjobs job' hjob') id)
  | session _ _ _ _ hops =>
      refine Or.inl (Program.sum_weightless fun job' hjob' => ?_)
      obtain ⟨op', hop', rfl⟩ := List.mem_map.mp hjob'
      simp [Job.announces, hops op' hop']
  | @close id' e e' he hopen hfd hclosed =>
      by_cases hid : id' = id
      · subst hid
        exact Or.inr ⟨by simp [Job.announces, Op.announces], e, e', he, hopen, rfl, hfd,
          Function.update_self .., hclosed⟩
      · exact Or.inl (by simp [Job.announces, hid])
  | servicePending =>
      refine Or.inl (Program.sum_weightless fun job' hjob' => ?_)
      rcases List.mem_append.mp hjob' with hmem | hmem <;>
        obtain ⟨fd, _, rfl⟩ := List.mem_map.mp hmem <;> rfl
  | accept | closeHandler | retire => exact Or.inl (by simp [Job.announces, Op.announces])

/-- A descriptor is filed by the handler of the session that has it. -/
theorem Registers.retired (h : Registers d job d' jobs) (fd : Fd) :
    d'.needClose.count fd + (jobs.map (Job.retires fd)).sum = d.needClose.count fd ∨
      d'.needClose.count fd + (jobs.map (Job.retires fd)).sum = d.needClose.count fd + 1 ∧
        ∃ id e, job = .session id .closeHandler ∧ d.endpoints id = some e ∧ e.fd = fd := by
  cases h with
  | aside hsame _ hjobs =>
      have hzero : (jobs.map (Job.retires fd)).sum = 0 :=
        Program.sum_weightless fun job' hjob' => Job.retires_of_idles (hjobs job' hjob') fd
      rw [hsame.needClose, hzero]
      exact Or.inl rfl
  | session _ _ _ _ _ =>
      refine Or.inl ?_
      rw [Program.sum_weightless fun job' hjob' => ?_]
      · rfl
      · obtain ⟨op', _, rfl⟩ := List.mem_map.mp hjob'
        rfl
  | @closeHandler id e he =>
      by_cases hfd : e.fd = fd
      · exact Or.inr ⟨by simp [Job.retires, hfd], id, e, rfl, he, hfd⟩
      · exact Or.inl (by simp [Job.retires, hfd])
  | servicePending =>
      refine Or.inl ?_
      have hflush : (d.needFlush.map fun fd' => Job.retires fd (.flush fd')).sum = 0 := by
        simp [Job.retires]
      have hclose : (d.needClose.map fun fd' => Job.retires fd (.retire fd')).sum =
          d.needClose.count fd := by
        induction d.needClose with
        | nil => rfl
        | cons fd' fds ih =>
            rw [List.map_cons, List.sum_cons, ih, List.count_cons, add_comm]
            simp [Job.retires]
      simp only [List.map_append, List.map_map, List.sum_append, List.count_nil, zero_add]
      exact (congrArg₂ (· + ·) hflush hclose).trans (zero_add _)
  | accept | close | retire => exact Or.inl rfl

section Runs

open Program

variable {n : ℕ} {s s' : Threads Delivery Job n} {t reactor : Fin n} {rest : List Job}
  {fd : Fd} {id : SessionId} {e : Endpoint}

/-- Invocations of the close handler of `id` that are due. -/
def asked (s : Threads Delivery Job n) (id : SessionId) : ℕ := load (Job.announces id) s

/-- How often `fd` is filed, or taken to be retired. -/
def filed (s : Threads Delivery Job n) (fd : Fd) : ℕ :=
  s.shared.needClose.count fd + load (Job.retires fd) s

/-- What the tables and the filed descriptors are, between any two operations. -/
structure Registered (s : Threads Delivery Job n) : Prop where
  handlers : ∀ fd, s.shared.handlers fd = (s.shared.sessions fd).isSome
  kept : ∀ {id e}, s.shared.endpoints id = some e → e.session.closed = false →
    s.shared.sessions e.fd = some id
  once : ∀ {fd id}, s.shared.sessions fd = some id → filed s fd + asked s id ≤ 1
  asked : ∀ {id}, 0 < asked s id → ∃ e, Leaving s.shared e.fd id e
  filed : ∀ {fd}, 0 < filed s fd → ∃ id e, Leaving s.shared fd id e

namespace Registered

/-- An open session is not on its way out. -/
theorem untouched (h : Registered s) (he : s.shared.endpoints id = some e)
    (hopen : e.session.closed = false) :
    Delivery.filed s e.fd = 0 ∧ Delivery.asked s id = 0 := by
  constructor
  · by_contra hpos
    obtain ⟨id', e', hl⟩ := h.filed (Nat.pos_of_ne_zero hpos)
    cases (h.kept he hopen).symm.trans hl.held
    cases he.symm.trans hl.endpoint
    cases hopen.symm.trans hl.closed
  · by_contra hpos
    obtain ⟨e', hl⟩ := h.asked (Nat.pos_of_ne_zero hpos)
    cases he.symm.trans hl.endpoint
    cases hopen.symm.trans hl.closed

/-- A descriptor that nobody has is not filed. -/
theorem filed_of_free (h : Registered s) (hfree : s.shared.sessions fd = none) :
    Delivery.filed s fd = 0 := by
  by_contra hpos
  obtain ⟨id, e, hl⟩ := h.filed (Nat.pos_of_ne_zero hpos)
  cases hfree.symm.trans hl.held

theorem filed_le (h : Registered s) (fd : Fd) : Delivery.filed s fd ≤ 1 := by
  cases hheld : s.shared.sessions fd with
  | none => exact (h.filed_of_free hheld).le.trans (Nat.zero_le 1)
  | some id =>
      have hle := h.once hheld
      omega

/-- A session whose handler is due has its descriptor, filed by nobody so far. -/
theorem asked_alone (h : Registered s) (hpos : 0 < Delivery.asked s id)
    (he : s.shared.endpoints id = some e) :
    Leaving s.shared e.fd id e ∧ Delivery.filed s e.fd = 0 ∧ Delivery.asked s id = 1 := by
  obtain ⟨e', hl⟩ := h.asked hpos
  cases he.symm.trans hl.endpoint
  have hle := h.once hl.held
  exact ⟨hl, by omega, by omega⟩

end Registered

/-- What is not filed is not retired. -/
theorem not_retired (ht : s.todo t = job :: rest) (hzero : filed s fd = 0) :
    job.retires fd = 0 := by
  have hle : job.retires fd ≤ load (Job.retires fd) s := weight_le_load ht
  unfold filed at hzero
  omega

theorem asked_act (ht : s.todo t = job :: rest) (d' : Delivery) (jobs : List Job)
    (id : SessionId) :
    asked (s.move t d' (jobs ++ rest)) id + job.announces id =
      asked s id + (jobs.map (Job.announces id)).sum :=
  load_act ht

theorem filed_act (ht : s.todo t = job :: rest) (d' : Delivery) (jobs : List Job) (fd : Fd) :
    filed (s.move t d' (jobs ++ rest)) fd + job.retires fd + s.shared.needClose.count fd =
      filed s fd + (d'.needClose.count fd + (jobs.map (Job.retires fd)).sum) := by
  have hload : load (Job.retires fd) (s.move t d' (jobs ++ rest)) + job.retires fd =
      load (Job.retires fd) s + (jobs.map (Job.retires fd)).sum := load_act ht
  unfold filed
  rw [Threads.move_shared]
  omega

/-- A handler about to run is due. -/
theorem asked_pos (ht : s.todo t = .session id .closeHandler :: rest) : 0 < asked s id := by
  have hweight : (Job.session id .closeHandler).announces id ≤ asked s id := weight_le_load ht
  simp only [Job.announces, Op.announces, if_true] at hweight
  exact hweight

section Step

variable (h : Registered s) (htables : Tables s.shared) (ht : s.todo t = job :: rest)
  (hreg : Registers s.shared job d' jobs)

include h htables ht hreg

/-- The handler is due for sessions on their way out only. -/
theorem asked_leaving (hpos : 0 < asked (s.move t d' (jobs ++ rest)) id) :
    ∃ e, Leaving d' e.fd id e := by
  have hact := asked_act ht d' jobs id
  by_cases hbefore : 0 < asked s id
  · obtain ⟨e, hl⟩ := h.asked hbefore
    -- were it retired now, it would have been filed besides
    have hjob : job.retires e.fd = 0 :=
      not_retired ht (h.asked_alone hbefore hl.endpoint).2.1
    obtain ⟨e', hfd, hl'⟩ := hreg.leaving htables hl hjob
    exact ⟨e', hfd ▸ hl'⟩
  · rcases hreg.announced id with hzero | ⟨_, e, e', he, hopen, hsessions, hfd, he', hclosed⟩
    · omega
    · exact ⟨e', by rw [hsessions, hfd]; exact h.kept he hopen, he', hclosed⟩

/-- Descriptors of sessions on their way out only are filed. -/
theorem filed_leaving (hpos : 0 < filed (s.move t d' (jobs ++ rest)) fd) :
    ∃ id e, Leaving d' fd id e := by
  have hact := filed_act ht d' jobs fd
  have hle := h.filed_le fd
  rcases hreg.retired fd with hsame | ⟨_, id, e, rfl, he, rfl⟩
  · have hbefore : 0 < filed s fd := by omega
    obtain ⟨id, e, hl⟩ := h.filed hbefore
    obtain ⟨e', _, hl'⟩ := hreg.leaving htables hl (by omega)
    exact ⟨id, e', hl'⟩
  · obtain ⟨hl, _⟩ := h.asked_alone (asked_pos ht) he
    obtain ⟨e', _, hl'⟩ := hreg.leaving htables hl rfl
    exact ⟨id, e', hl'⟩

/-- Nothing is filed twice. -/
theorem once_act (hheld : d'.sessions fd = some id) :
    filed (s.move t d' (jobs ++ rest)) fd + asked (s.move t d' (jobs ++ rest)) id ≤ 1 := by
  have hasked := asked_act ht d' jobs id
  have hfiled := filed_act ht d' jobs fd
  -- a handler that files the descriptor is the one of the session that has it
  have handler : ∀ {id' e}, job = .session id' .closeHandler →
      s.shared.endpoints id' = some e → e.fd = fd →
      Leaving s.shared fd id' e ∧ filed s fd = 0 ∧ asked s id' = 1 := by
    rintro id' e rfl he rfl
    exact h.asked_alone (asked_pos ht) he
  rcases hreg.held htables hheld with hold | ⟨hfree, hnew⟩
  · rcases hreg.announced id with hzero | ⟨hone, e, _, he, hopen, _⟩
    · rcases hreg.retired fd with hsame | ⟨hone, id', e, hjob, he, hfd⟩
      · have hle := h.once hold
        omega
      · obtain ⟨hl, hnone, hdue⟩ := handler hjob he hfd
        cases hold.symm.trans hl.held
        subst hjob
        simp only [Job.announces, Op.announces, Job.retires, if_true] at hasked hfiled
        omega
    · -- the session is being closed, and nothing of it is filed so far
      obtain ⟨e', he', rfl⟩ := htables.held fd id hold
      cases he.symm.trans he'
      obtain ⟨hnone, hdue⟩ := h.untouched he hopen
      rcases hreg.retired e.fd with hsame | ⟨_, id', e'', hjob, he'', hfd⟩
      · omega
      · obtain ⟨hl, _⟩ := handler hjob he'' hfd
        cases hold.symm.trans hl.held
        cases he.symm.trans hl.endpoint
        cases hopen.symm.trans hl.closed
  · -- the session is new
    have hnone := h.filed_of_free hfree
    have hdue : asked s id = 0 := by
      by_contra hpos
      obtain ⟨e, hl⟩ := h.asked (Nat.pos_of_ne_zero hpos)
      cases hnew.symm.trans hl.endpoint
    rcases hreg.announced id with hzero | ⟨_, e, _, he, _⟩
    · rcases hreg.retired fd with hsame | ⟨_, id', e, hjob, he, hfd⟩
      · omega
      · obtain ⟨hl, _⟩ := handler hjob he hfd
        cases hfree.symm.trans hl.held
    · cases hnew.symm.trans he

omit htables in
/-- An open session keeps its descriptor. -/
theorem kept_act (he : d'.endpoints id = some e) (hopen : e.session.closed = false) :
    d'.sessions e.fd = some id := by
  cases hreg with
  | aside hsame _ _ =>
      rw [hsame.endpoints] at he
      rw [hsame.sessions]
      exact h.kept he hopen
  | @accept fd hfree =>
      by_cases hne : id = s.shared.accepted
      · subst hne
        cases (Function.update_self ..).symm.trans he
        exact Function.update_self ..
      · have hkept := h.kept ((Function.update_of_ne hne ..).symm.trans he) hopen
        refine (Function.update_of_ne ?_ ..).trans hkept
        rintro rfl
        cases hfree.symm.trans hkept
  | @session id' _ e₀ e' _ he₀ hfd hclosed _ _ =>
      by_cases hne : id = id'
      · subst hne
        cases (Function.update_self ..).symm.trans he
        have hopen₀ : e₀.session.closed = false := by
          by_contra hset
          cases hopen.symm.trans (hclosed (Bool.eq_true_of_not_eq_false hset))
        rw [hfd]
        exact h.kept he₀ hopen₀
      · exact h.kept ((Function.update_of_ne hne ..).symm.trans he) hopen
  | @close id' e₀ e' he₀ _ hfd hclosed =>
      by_cases hne : id = id'
      · subst hne
        cases (Function.update_self ..).symm.trans he
        cases hopen.symm.trans hclosed
      · exact h.kept ((Function.update_of_ne hne ..).symm.trans he) hopen
  | closeHandler | servicePending => exact h.kept he hopen
  | @retire fd =>
      -- a descriptor that is retired was filed
      refine (Function.update_of_ne ?_ ..).trans (h.kept he hopen)
      rintro rfl
      have hjob := not_retired ht (h.untouched he hopen).1
      simp [Job.retires] at hjob

theorem registered_act : Registered (s.move t d' (jobs ++ rest)) where
  handlers := hreg.handlers h.handlers
  kept := kept_act h ht hreg
  once := once_act h htables ht hreg
  asked := asked_leaving h htables ht hreg
  filed := filed_leaving h htables ht hreg

end Step

/-! ## Runs -/

variable {label : Program.Label Kernel Call n}

theorem entry_idles (call : Call) : ∀ job ∈ program.entry call, job.idles = true := by
  intro job hjob
  cases call <;> cases List.mem_singleton.mp hjob <;> rfl

theorem registered_step (h : Registered s) (halert : Alert reactor s)
    (hstep : (program.machine n).step s label = some s') : Registered s' := by
  cases Program.step_cases hstep with
  | @call t call ht =>
      have hasked : ∀ id, asked (s.move t s.shared (program.entry call)) id = asked s id :=
        fun id => load_call ht fun job hjob => Job.announces_of_idles (entry_idles call job hjob) id
      have hfiled : ∀ fd, filed (s.move t s.shared (program.entry call)) fd = filed s fd := by
        intro fd
        unfold filed
        rw [load_call ht fun job hjob => Job.retires_of_idles (entry_idles call job hjob) fd]
        rfl
      refine ⟨h.handlers, h.kept, fun hheld => ?_, fun hpos => ?_, fun hpos => ?_⟩
      · rw [hasked, hfiled]
        exact h.once hheld
      · rw [hasked] at hpos
        exact h.asked hpos
      · rw [hfiled] at hpos
        exact h.filed hpos
  | act ht hexec =>
      exact registered_act h halert.tables ht (exec_registers hexec (halert.job_proper ht))

theorem registered_start (maxOutboundBytes : ℕ) (reactor : Fin n) :
    Registered (start maxOutboundBytes reactor) := by
  have hidle : ∀ t, ∀ job ∈ (start maxOutboundBytes reactor).todo t, job.idles = true := by
    intro t job hjob
    unfold start at hjob
    dsimp only at hjob
    by_cases hne : t = reactor
    · subst hne
      rw [Function.update_self] at hjob
      cases List.mem_singleton.mp hjob
      rfl
    · rw [Function.update_of_ne hne] at hjob
      cases hjob
  have hasked : ∀ id, asked (start maxOutboundBytes reactor) id = 0 := fun id =>
    load_eq_zero_iff.mpr fun t job hjob => Job.announces_of_idles (hidle t job hjob) id
  have hfiled : ∀ fd, filed (start maxOutboundBytes reactor) fd = 0 := by
    intro fd
    have hload : load (Job.retires fd) (start maxOutboundBytes reactor) = 0 :=
      load_eq_zero_iff.mpr fun t job hjob => Job.retires_of_idles (hidle t job hjob) fd
    unfold filed
    rw [hload]
    rfl
  refine ⟨fun _ => rfl, nofun, nofun, fun hpos => ?_, fun hpos => ?_⟩
  · exact absurd (hasked _) hpos.ne'
  · exact absurd (hfiled _) hpos.ne'

/-- **A descriptor is retired for the session that closed.** Whatever the senders, the
reactor and the kernel do, a descriptor is filed or about to be retired at most once, and
only while a closed session has it; no step takes an open session out of the table; and an
open session is registered under its descriptor, which no other open session has. Of whom an
event was reported plays no part: a hang-up closes the session that has the descriptor when
it is handled. -/
theorem retired_when_closed {labels : List (Program.Label Kernel Call n)}
    {maxOutboundBytes : ℕ}
    (hrun : (program.machine n).run (start maxOutboundBytes reactor) labels = some s) :
    (∀ fd, filed s fd ≤ 1 ∧ (0 < filed s fd → ∃ id e, Leaving s.shared fd id e ∧ e.fd = fd)) ∧
    (∀ label s' fd id e, (program.machine n).step s label = some s' →
      s.shared.sessions fd = some id → s.shared.endpoints id = some e →
      e.session.closed = false → s'.shared.sessions fd = some id) ∧
    (∀ id e, s.shared.endpoints id = some e → e.session.closed = false →
      s.shared.sessions e.fd = some id ∧ s.shared.handlers e.fd = true) ∧
    (∀ id id' e e', s.shared.endpoints id = some e → s.shared.endpoints id' = some e' →
      e.session.closed = false → e'.session.closed = false → e.fd = e'.fd → id = id') ∧
    ∀ t fd id writable readable rest env s',
      s.todo t = .handle (.socket fd true writable readable) :: rest →
      s.shared.sessions fd = some id → (program.machine n).step s (.act t env) = some s' →
      s'.shared = s.shared ∧ s'.todo t = .session id .close :: rest := by
  obtain ⟨halert, h⟩ : Alert reactor s ∧ Registered s :=
    Machine.run_invariant (I := fun s => Alert reactor s ∧ Registered s)
      (fun ⟨halert, h⟩ hstep => ⟨alert_step halert hstep, registered_step h halert hstep⟩)
      ⟨alert_start _ _, registered_start _ _⟩ hrun
  refine ⟨fun fd => ⟨h.filed_le fd, fun hpos => ?_⟩, ?_, fun id e he hopen => ?_, ?_, ?_⟩
  · obtain ⟨id, e, hl⟩ := h.filed hpos
    obtain ⟨e', he', hfd⟩ := halert.tables.held fd id hl.held
    cases he'.symm.trans hl.endpoint
    exact ⟨id, e, hl, hfd⟩
  · intro label s' fd id e hstep hheld he hopen
    obtain ⟨e', he', rfl⟩ := halert.tables.held fd id hheld
    cases he.symm.trans he'
    cases Program.step_cases hstep with
    | call ht => exact hheld
    | act ht hexec =>
        exact (exec_registers hexec (halert.job_proper ht)).stays hheld
          (not_retired ht (h.untouched he hopen).1)
  · have hkept := h.kept he hopen
    exact ⟨hkept, by rw [h.handlers, hkept]; rfl⟩
  · intro id id' e e' he he' hopen hopen' hfd
    have hheld := h.kept he hopen
    rw [hfd, h.kept he' hopen'] at hheld
    exact (Option.some.inj hheld).symm
  · intro t fd id writable readable rest env s' ht hheld hstep
    have hhandler : s.shared.handlers fd = true := by
      rw [h.handlers, hheld]
      rfl
    cases Program.step_cases hstep with
    | act ht' hexec =>
        cases ht.symm.trans ht'
        have hready : exec env (.handle (.socket fd true writable readable)) s.shared =
            some (s.shared, [.session id .close]) := by
          simp [exec, hhandler, ready, hheld]
        cases hready.symm.trans hexec
        exact ⟨rfl, Threads.move_self ..⟩

/-- A client is gone and its session has closed. The next round of events retires it, gives
its descriptor to another client, and comes to a hang-up that was reported of the first. -/
def usedAgain : List (Program.Label Kernel Call 2) :=
  [.act polling {}, .act polling { polled := .events [.listener] }, .act polling {},
    .act polling { client := .client 5 }, .act polling {}, .act polling {},
    .act polling { polled := .events [.socket 5 false false true] }, .act polling {},
    .act polling {}, .act polling { incoming := .eof }, .act polling {}, .act polling {},
    .act polling {}, .act polling {},
    .act polling { polled := .events [.wakeup, .listener, .socket 5 true false false] },
    .act polling {}, .act polling {}, .act polling {}, .act polling {}, .act polling {},
    .act polling {}, .act polling { client := .client 5 }, .act polling {}]

/-- The new client's session is open, and the hang-up closes it. -/
theorem retired_when_closed_usedAgain :
    ∃ s e, (program.machine 2).run (start 64 0) usedAgain = some s ∧
      s.shared.endpoints 1 = some e ∧ e.session.closed = false ∧ e.fd = 5 ∧ filed s 5 ≤ 1 ∧
      s.shared.sessions 5 = some 1 ∧ s.shared.handlers 5 = true ∧
      ∃ s', (program.machine 2).step s (.act polling {}) = some s' ∧
        s'.todo polling = [.session 1 .close, .run] := by
  have hrun : ((program.machine 2).run (start 64 0) usedAgain).map
      (fun s => (s.todo polling, ((program.machine 2).step s (.act polling {})).isSome,
        (s.shared.endpoints 1).map fun e => (e.session.closed, e.fd))) =
        some ([.handle (.socket 5 true false false), .run], true, some (false, 5)) := by
    decide +kernel
  obtain ⟨s, hs, hstate⟩ := Option.map_eq_some_iff.mp hrun
  simp only [Prod.mk.injEq] at hstate
  obtain ⟨htodo, hmoves, hendpoint⟩ := hstate
  obtain ⟨s', hstep⟩ := Option.isSome_iff_exists.mp hmoves
  obtain ⟨e, he, hsession⟩ := Option.map_eq_some_iff.mp hendpoint
  obtain ⟨hopen, hfd⟩ := Prod.mk.inj hsession
  obtain ⟨hfiled, _, hheld, _, hstale⟩ := retired_when_closed hs
  obtain ⟨hsessions, hhandlers⟩ := hheld 1 e he hopen
  rw [hfd] at hsessions hhandlers
  obtain ⟨_, hclosing⟩ := hstale polling 5 1 false false _ _ s' htodo hsessions hstep
  exact ⟨s, e, hs, he, hopen, hfd, (hfiled 5).1, hsessions, hhandlers, s', hstep, hclosing⟩

end Runs

end Delivery

end Exchange.Net
