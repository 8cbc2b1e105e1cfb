import Exchange.Core.Identity
import Exchange.Net.Outcomes

/-!
# Routing fills to sessions

A fill is reported to the sessions its two accounts are registered for. Workers
register the account of an order before they push its command, and the engine thread
looks the accounts of a fill up when it trades, which may be long after. Beside the
server's threads are here the book, the engine's pass over the fills of a command, and
the sessions that can go away under it.
-/

namespace Exchange.Net

open Framework

/-- The account a message registers. -/
def Task.account (task : Task) : Option AccountId :=
  match task.message with
  | .newOrder message => some message.account
  | _ => none

/-- One of these messages is a new order of this account, from this session. -/
def Owns (received : List Task) (session : SessionId) (account : AccountId) : Prop :=
  ∃ task ∈ received, task.session = session ∧ task.account = some account

instance (received : List Task) (session : SessionId) (account : AccountId) :
    Decidable (Owns received session account) :=
  inferInstanceAs (Decidable (∃ task ∈ received, _ ∧ _))

theorem Owns.mono {received received' : List Task} {session : SessionId} {account : AccountId}
    (h : Owns received session account) (hsub : received ⊆ received') :
    Owns received' session account := by
  obtain ⟨task, htask, hown⟩ := h
  exact ⟨task, hsub htask, hown⟩

/-- No account occurs in new orders of two sessions. -/
def OneSession (received : List Task) : Prop :=
  ∀ account session session', Owns received session account → Owns received session' account →
    session = session'

theorem OneSession.mono {received received' : List Task} (h : OneSession received')
    (hsub : received ⊆ received') : OneSession received :=
  fun account session session' hown hown' =>
    h account session session' (hown.mono hsub) (hown'.mono hsub)

end Exchange.Net

namespace Exchange

/-- The account on whose behalf a command trades. -/
def Command.account : Command → Option AccountId
  | .submit order => some order.1.account
  | _ => none

end Exchange

namespace Exchange.Net

open Framework

theorem buildOrder_account {message : NewOrderMessage} {order : BuiltOrder}
    (h : buildOrder message = .ok order) : order.1.account = message.account := by
  unfold buildOrder at h
  split at h
  · cases h
  · split at h
    · cases h
      rfl
    · cases h
      rfl
    · split at h <;> cases h
      rfl

/-! ## Accounts are registered before their orders trade -/

/-- The account a command trades for, if any, is registered. -/
def Known (byAccount : AccountId → Option SessionId) (command : Command) : Prop :=
  ∀ account, command.account = some account → byAccount account ≠ none

theorem Known.register {byAccount : AccountId → Option SessionId} {command : Command}
    (h : Known byAccount command) (account : AccountId) (session : SessionId) :
    Known (Function.update byAccount account (some session)) command := by
  intro account' haccount
  by_cases hne : account' = account
  · rw [hne, Function.update_self]
    exact nofun
  · rw [Function.update_of_ne hne]
    exact h account' haccount

/-- A command a worker is about to push trades for a registered account. -/
def Worker.Known (byAccount : AccountId → Option SessionId) : Worker → Prop
  | .pushing _ _ _ command => Net.Known byAccount command
  | _ => True

theorem Worker.known_begin (byAccount : AccountId → Option SessionId) (task : Task) (since : ℕ) :
    (Worker.begin task since).Known byAccount := by
  unfold Worker.begin
  split
  · trivial
  · exact nofun
  · exact nofun

theorem Worker.Known.register {byAccount : AccountId → Option SessionId} {worker : Worker}
    (h : worker.Known byAccount) (account : AccountId) (session : SessionId) :
    worker.Known (Function.update byAccount account (some session)) := by
  cases worker with
  | pushing => exact Net.Known.register h account session
  | _ => trivial

namespace Server

variable {s t : Server}

theorem Sound.received_of_worker (h : s.Sound) {w : ℕ} {task : Task}
    (htask : task ∈ (s.workers w).tasks) : task ∈ s.received := by
  have hw : w < s.config.threadCount := by
    refine h.staffed w fun hidle => ?_
    rw [hidle] at htask
    cases htask
  have hle : (s.workers w).tasks.count task ≤ s.inHands task :=
    Finset.single_le_sum (f := fun w => (s.workers w).tasks.count task)
      (fun _ _ => Nat.zero_le _) (Finset.mem_range.mpr hw)
  have hpos := List.count_pos_iff.mpr htask
  have hplaces := h.accounted task
  unfold places at hplaces
  exact List.count_pos_iff.mp (by omega)

/-- A step only adds to what was received. -/
theorem Step.received (h : s.Step t) : s.received ⊆ t.received := by
  cases h with
  | decode => exact List.subset_append_left _ _
  | _ => exact List.Subset.refl _

/-- An account's session is one that sent an order for it, and the account of every order
on its way to the book has one. -/
structure Registers (s : Server) : Prop where
  owned : ∀ account session, s.byAccount account = some session →
    Owns s.received session account
  workers : ∀ w, (s.workers w).Known s.byAccount
  queued : ∀ entry ∈ s.commands.items, Known s.byAccount entry.command
  applying : ∀ entry, s.engine = .applying entry → Known s.byAccount entry.command

theorem Registers.setWorker (h : s.Registers) {w : ℕ} {worker : Worker}
    (hworker : worker.Known s.byAccount) : (s.setWorker w worker).Registers := by
  refine { h with workers := fun v => ?_ }
  by_cases hv : v = w
  · rw [hv, setWorker_self]
    exact hworker
  · rw [setWorker_of_ne hv]
    exact h.workers v

/-- A worker registers the account of a message that was received. -/
theorem Registers.register (h : s.Registers) (hsound : s.Sound) {w : ℕ} {task : Task}
    {since : ℕ} {message : NewOrderMessage}
    (hworker : s.workers w = .registering task since message) :
    Registers { s with
      byAccount := Function.update s.byAccount message.account (some task.session) } := by
  have hreceived : task ∈ s.received :=
    hsound.received_of_worker (by rw [hworker]; exact List.mem_cons_self)
  have hmessage : task.message = .newOrder message := by
    have := hsound.faithful.workers w
    rwa [hworker] at this
  refine ⟨fun account session hfound => ?_, fun v => (h.workers v).register _ _,
    fun entry hentry => (h.queued entry hentry).register _ _,
    fun entry hentry => (h.applying entry hentry).register _ _⟩
  by_cases hne : account = message.account
  · subst hne
    cases (Function.update_self ..).symm.trans hfound
    exact ⟨task, hreceived, rfl, by rw [Task.account, hmessage]⟩
  · exact h.owned account session ((Function.update_of_ne hne ..).symm.trans hfound)

theorem Registers.step (h : s.Registers) (hsound : s.Sound) (hstep : s.Step t) :
    t.Registers := by
  have hkeep : ∀ pool, Registers { s with pool } := fun _ => { h with }
  cases hstep with
  | decode =>
      exact { h with owned := fun account session hfound =>
        (h.owned account session hfound).mono (List.subset_append_left _ _) }
  | take => exact (hkeep _).setWorker (Worker.known_begin _ _ _)
  | exit | refused => exact h.setWorker trivial
  | @build w task since message order hworker hbuild =>
      refine (h.register hsound hworker).setWorker fun account haccount => ?_
      cases haccount
      rw [buildOrder_account hbuild]
      dsimp only
      rw [Function.update_self]
      exact nofun
  | invalid hworker => exact (h.register hsound hworker).setWorker trivial
  | @push w task since orderId command entry hworker =>
      have hknown := h.workers w
      rw [hworker] at hknown
      refine Registers.setWorker (s := { s with
        commands := { s.commands with items := s.commands.items ++ [Entry.mk command task] }
        entered := s.entered ++ [entry] }) { h with queued := ?_ } trivial
      intro entry hentry
      rcases List.mem_append.mp hentry with hentry | hentry
      · exact h.queued entry hentry
      · rw [List.mem_singleton.mp hentry]
        exact hknown
  | reject => exact Registers.setWorker (s := s.refuse _ _) { h with } trivial
  | pop _ hitems =>
      refine { h with queued := fun entry hentry => ?_, applying := fun entry hentry => ?_ }
      · exact h.queued entry (hitems ▸ List.mem_cons_of_mem _ hentry)
      · cases hentry
        exact h.queued _ (hitems ▸ List.mem_cons_self)
  | finish | apply =>
      refine { h with applying := ?_ }
      intro entry hentry
      cases hentry
  | _ => exact { h with }

/-- No account is ever struck from the register. -/
theorem Step.registered (h : s.Step t) {account : AccountId} (hfound : s.byAccount account ≠ none) :
    t.byAccount account ≠ none := by
  have hupdate : ∀ (account' : AccountId) (session : SessionId),
      Function.update s.byAccount account' (some session) account ≠ none := by
    intro account' session
    by_cases hne : account = account'
    · rw [hne, Function.update_self]
      exact nofun
    · rwa [Function.update_of_ne hne]
  cases h with
  | build | invalid => exact hupdate _ _
  | _ => exact hfound

/-- With one session to an account, an account keeps the session it was registered for. -/
theorem Registers.stable (h : s.Registers) (hsound : s.Sound) (hstep : s.Step t)
    (hone : OneSession t.received) {account : AccountId} (hfound : s.byAccount account ≠ none) :
    t.byAccount account = s.byAccount account := by
  obtain ⟨session, hs⟩ := Option.ne_none_iff_exists'.mp hfound
  obtain ⟨session', ht⟩ := Option.ne_none_iff_exists'.mp (hstep.registered hfound)
  have hown := (h.owned account session hs).mono hstep.received
  have hown' := (h.step hsound hstep).owned account session' ht
  rw [hs, ht, hone account session session' hown hown']

end Server

/-! ## The engine's side -/

/-- `publishFill`: each side's account and what it is told, in the order of the calls. -/
def publishFill (fill : Fill) : List (AccountId × FillMessage) :=
  [(fill.aggressorAccount,
      { orderId := fill.aggressorId
        counterpartyOrderId := fill.restingId
        price := fill.price
        quantity := fill.quantity
        side := fill.aggressorSide }),
    (fill.restingAccount,
      { orderId := fill.restingId
        counterpartyOrderId := fill.aggressorId
        price := fill.price
        quantity := fill.quantity
        side := opposite fill.aggressorSide })]

/-- The server with its book and what the engine thread has to report. -/
structure Venue where
  server : Server
  memory : BookMemory := { state := {} }
  /-- What is left to report of the command the engine is at, once it has been applied to
  the book. -/
  outgoing : Option (List (AccountId × FillMessage)) := none
  /-- The sessions whose objects are gone. -/
  expired : SessionId → Bool := fun _ => false
  /-- The fill messages handed to `deliver`. -/
  handed : List (SessionId × FillMessage) := []
  /-- All fills of the commands applied so far, in the engine's order. No part of the
  source. -/
  fills : List Fill := []

namespace Venue

def start (config : ServerConfig) : Venue := { server := Server.start config }

/-- `Engine::apply` up to the fills. Whatever is thrown is caught in `Engine::run`. -/
def mutate (v : Venue) (fails : ℕ → Bool) : Option Venue :=
  match v.server.engine, v.outgoing with
  | .applying entry, none =>
      match applyCommand entry.command fails v.memory with
      | (.ok outcome, memory) =>
          some { v with
            memory
            fills := v.fills ++ outcome.fills
            outgoing := some (outcome.fills.flatMap publishFill) }
      | (.error _, memory) => some { v with memory, outgoing := some [] }
  | _, _ => none

/-- What `notify` hands on: nothing if the account is not registered, or if the session is
gone. -/
def notified (v : Venue) (account : AccountId) (message : FillMessage) :
    List (SessionId × FillMessage) :=
  match v.server.byAccount account with
  | none => []
  | some session => if v.expired session then [] else [(session, message)]

/-- One `notify` of `publishFill`. The source holds the lock over both of a fill; here
they are two steps, so that a session may expire between them. -/
def notify (v : Venue) : Option Venue :=
  match v.outgoing with
  | some ((account, message) :: rest) =>
      some { v with outgoing := some rest, handed := v.handed ++ v.notified account message }
  | _ => none

inductive Label : Type where
  /-- A step of the server's threads; `apply` is the end of `Engine::apply`. -/
  | server (label : Server.Label)
  | mutate (fails : ℕ → Bool)
  | notify
  /-- The last reference to a session is dropped. -/
  | expire (session : SessionId)

/-- `apply` waits until all of a command's fills are reported. -/
def finish (v : Venue) : Option Venue :=
  match v.outgoing with
  | some [] => (Server.machine.step v.server .apply).map fun server =>
      { v with server, outgoing := none }
  | _ => none

def machine : Machine Venue Label where
  step v label :=
    match label with
    | .server .apply => v.finish
    | .server label => (Server.machine.step v.server label).map fun server => { v with server }
    | .mutate fails => v.mutate fails
    | .notify => v.notify
    | .expire session => some { v with expired := Function.update v.expired session true }

def run (config : ServerConfig) (labels : List Label) : Option Venue :=
  machine.run (start config) labels

/-- The fill messages handed to a session. -/
def handedTo (v : Venue) (session : SessionId) : List FillMessage :=
  (v.handed.filter fun p => p.1 = session).map Prod.snd

/-! ## What a step can do -/

variable (v : Venue)

inductive Step : Venue → Prop where
  | server {t : Server} {outgoing : Option (List (AccountId × FillMessage))} (clock : ℕ)
      (ht : v.server.Step t) (hout : outgoing.getD [] = v.outgoing.getD []) :
      Step { v with server := { t with clock }, outgoing }
  | mutate {entry : Entry} {fails : ℕ → Bool} {outcome : ApplyOutcome} {memory : BookMemory}
      (hengine : v.server.engine = .applying entry) (hout : v.outgoing = none)
      (hrun : applyCommand entry.command fails v.memory = (.ok outcome, memory)) :
      Step { v with
        memory
        fills := v.fills ++ outcome.fills
        outgoing := some (outcome.fills.flatMap publishFill) }
  | caught {entry : Entry} {fails : ℕ → Bool} {ending : Ending} {memory : BookMemory}
      (hengine : v.server.engine = .applying entry) (hout : v.outgoing = none)
      (hrun : applyCommand entry.command fails v.memory = (.error ending, memory)) :
      Step { v with memory, outgoing := some [] }
  | notify {account : AccountId} {message : FillMessage}
      {rest : List (AccountId × FillMessage)}
      (hout : v.outgoing = some ((account, message) :: rest)) :
      Step { v with
        outgoing := some rest
        handed := v.handed ++ v.notified account message }
  | expire (session : SessionId) :
      Step { v with expired := Function.update v.expired session true }

variable {v} {v' : Venue}

theorem server_step {label : Server.Label}
    {outgoing : Option (List (AccountId × FillMessage))}
    (h : ((Server.machine.step v.server label).map fun server =>
      { v with server, outgoing }) = some v')
    (hout : outgoing.getD [] = v.outgoing.getD []) : v.Step v' := by
  obtain ⟨server, hserver, rfl⟩ := Option.map_eq_some_iff.mp h
  obtain ⟨t, ht, rfl⟩ := Server.step_cases hserver
  exact .server _ ht hout

theorem step_cases {label : Label} (h : machine.step v label = some v') : v.Step v' := by
  cases label with
  | server label =>
      cases label with
      | apply =>
          change v.finish = some v' at h
          unfold finish at h
          split at h
          · exact server_step h (by rw [‹v.outgoing = _›]; rfl)
          · cases h
      | _ => exact server_step h rfl
  | mutate fails =>
      change v.mutate fails = some v' at h
      unfold mutate at h
      split at h
      · split at h <;> cases h
        · exact .mutate ‹_› ‹_› ‹_›
        · exact .caught ‹_› ‹_› ‹_›
      · cases h
  | notify =>
      change v.notify = some v' at h
      unfold notify at h
      split at h <;> cases h
      exact .notify ‹_›
  | expire session =>
      cases h
      exact .expire session

/-! ## Every side of every fill reaches its session -/

/-- What `applyCommand` leaves in the book and reports has the accounts it found and the
one the command brought. -/
theorem applyCommand_parties {m m' : BookMemory} {command : Command} {fails : ℕ → Bool}
    {r : Except Ending ApplyOutcome} {P : AccountId → Prop} (h : WellFormed m)
    (hrun : applyCommand command fails m = (r, m'))
    (hrest : ∀ s, (m.state.view.ladder s).All fun _ x => P x.account)
    (hcommand : ∀ account, command.account = some account → P account) :
    WellFormed m' ∧ (∀ s, (m'.state.view.ladder s).All fun _ x => P x.account) ∧
      ∀ outcome, r = .ok outcome →
        ∀ f ∈ outcome.fills, f.Between fun _ account => P account := by
  have href := applyCommand_refines h command fails
  rw [hrun] at href
  cases href with
  | starved _ hm _ => exact ⟨h.of_frozen hm, by rw [hm.state]; exact hrest, nofun⟩
  | refused _ _ _ hm => exact ⟨h.of_frozen hm, by rw [hm.state]; exact hrest, nofun⟩
  | done outcome _ he hwf =>
      obtain ⟨out, rfl, ht⟩ := Market.applyCommand_ok he
      obtain ⟨hafter, hfills⟩ := ht.parties
        (P := fun _ account => P account) h.valid hrest (fun o ho => hcommand _ (by
          cases command <;> cases ho
          rfl))
      refine ⟨hwf, hafter, ?_⟩
      rintro outcome ⟨⟩ f hf
      exact hfills f (by cases out <;> exact hf)

/-- **Whoever rests in the book or has traded is registered.** -/
structure Enrolled (v : Venue) : Prop where
  sound : v.server.Sound
  registers : v.server.Registers
  wellFormed : WellFormed v.memory
  resting : ∀ s, (v.memory.state.view.ladder s).All fun _ x =>
    v.server.byAccount x.account ≠ none
  traded : ∀ f ∈ v.fills, f.Between fun _ account => v.server.byAccount account ≠ none

theorem Enrolled.step (h : v.Enrolled) (hstep : v.Step v') : v'.Enrolled := by
  cases hstep with
  | @server t outgoing clock ht _ =>
      obtain ⟨hstaffed, haccounted, hnumbered, hfaithful, hdrained⟩ := h.sound.step ht
      have hregisters := h.registers.step h.sound ht
      exact ⟨⟨hstaffed, haccounted, hnumbered, { hfaithful with }, { hdrained with }⟩,
        { hregisters with }, h.wellFormed,
        fun s e he x hx => ht.registered (h.resting s e he x hx),
        fun f hf => ⟨ht.registered (h.traded f hf).1, ht.registered (h.traded f hf).2⟩⟩
  | @mutate entry fails outcome memory hengine _ hrun =>
      obtain ⟨hwf, hrest, hfills⟩ := applyCommand_parties h.wellFormed hrun h.resting
        (h.registers.applying entry hengine)
      refine ⟨h.sound, h.registers, hwf, hrest, fun f hf => ?_⟩
      rcases List.mem_append.mp hf with hf | hf
      · exact h.traded f hf
      · exact hfills outcome rfl f hf
  | @caught entry fails ending memory hengine _ hrun =>
      obtain ⟨hwf, hrest, _⟩ := applyCommand_parties h.wellFormed hrun h.resting
        (h.registers.applying entry hengine)
      exact ⟨h.sound, h.registers, hwf, hrest, h.traded⟩
  | notify | expire => exact { h with }

/-- Both sides of a fill that was published or is about to be are registered. -/
theorem Enrolled.notice (h : v.Enrolled) {notice : AccountId × FillMessage}
    (hnotice : notice ∈ v.fills.flatMap publishFill) : v.server.byAccount notice.1 ≠ none := by
  obtain ⟨f, hf, hmem⟩ := List.mem_flatMap.mp hnotice
  obtain ⟨haggressor, hresting⟩ := h.traded f hf
  unfold publishFill at hmem
  rcases List.mem_cons.mp hmem with rfl | hmem
  · exact haggressor
  · rw [List.mem_singleton.mp hmem]
    exact hresting

/-- What was published of the engine's fills, and where it went. -/
structure Reported (v : Venue) (published : List (AccountId × FillMessage)) : Prop where
  split : v.fills.flatMap publishFill = published ++ v.outgoing.getD []
  /-- A session that is there got what was published for its accounts. -/
  handed : ∀ session, v.expired session = false → v.handedTo session =
    (published.filter fun n => v.server.byAccount n.1 = some session).map Prod.snd
  /-- Nothing else was handed to anyone. -/
  owned : ∀ p ∈ v.handed, ∃ account, (account, p.2) ∈ published ∧
    v.server.byAccount account = some p.1

variable {published : List (AccountId × FillMessage)}

theorem handedTo_append (handed : List (SessionId × FillMessage)) (session : SessionId) :
    { v with handed := v.handed ++ handed }.handedTo session =
      v.handedTo session ++ (handed.filter fun p => p.1 = session).map Prod.snd := by
  simp [handedTo]

/-- A session that is there is notified if the account is registered for it. -/
theorem notified_filter {session : SessionId} (hopen : v.expired session = false)
    (account : AccountId) (message : FillMessage) :
    ((v.notified account message).filter fun p => p.1 = session).map Prod.snd =
      ([(account, message)].filter fun n => v.server.byAccount n.1 = some session).map
        Prod.snd := by
  unfold notified
  cases hfound : v.server.byAccount account with
  | none => simp [hfound]
  | some session' =>
      by_cases hsame : session' = session
      · subst hsame
        simp [hfound, hopen]
      · cases v.expired session' <;> simp [hfound, hsame]

theorem mem_notified {account : AccountId} {message : FillMessage}
    {p : SessionId × FillMessage} (h : p ∈ v.notified account message) :
    p.2 = message ∧ v.server.byAccount account = some p.1 := by
  unfold notified at h
  split at h
  · cases h
  · split at h
    · cases h
    · cases List.mem_singleton.mp h
      exact ⟨rfl, ‹_›⟩

theorem Reported.notify (h : v.Reported published) {account : AccountId}
    {message : FillMessage} {rest : List (AccountId × FillMessage)}
    (hout : v.outgoing = some ((account, message) :: rest)) :
    Reported { v with
      outgoing := some rest
      handed := v.handed ++ v.notified account message } (published ++ [(account, message)]) := by
  refine ⟨?_, fun session hopen => ?_, fun p hp => ?_⟩
  · rw [List.append_assoc]
    exact h.split.trans (by rw [hout]; rfl)
  · replace hopen : v.expired session = false := hopen
    refine (handedTo_append _ session).trans ?_
    rw [h.handed session hopen, notified_filter hopen, List.filter_append, List.map_append]
  · rcases List.mem_append.mp hp with hp | hp
    · obtain ⟨account', hmem, hfound⟩ := h.owned p hp
      exact ⟨account', List.mem_append_left _ hmem, hfound⟩
    · obtain ⟨rfl, hfound⟩ := mem_notified hp
      exact ⟨account, List.mem_append_right _ List.mem_cons_self, hfound⟩

theorem Reported.step (h : v.Reported published) (henrolled : v.Enrolled)
    (hstep : v.Step v') (hone : OneSession v'.server.received) :
    ∃ published', v'.Reported published' := by
  cases hstep with
  | @server t outgoing clock ht hout =>
      -- with one session to an account, the register only grows
      have hstable : ∀ n ∈ published, t.byAccount n.1 = v.server.byAccount n.1 := by
        intro n hn
        refine henrolled.registers.stable henrolled.sound ht hone (henrolled.notice ?_)
        rw [h.split]
        exact List.mem_append_left _ hn
      refine ⟨published, ?_, fun session hopen => ?_, fun p hp => ?_⟩
      · exact h.split.trans (by rw [hout])
      · refine (h.handed session hopen).trans (congrArg (List.map Prod.snd) ?_)
        exact List.filter_congr fun n hn => by rw [hstable n hn]
      · obtain ⟨account, hmem, hfound⟩ := h.owned p hp
        exact ⟨account, hmem, (hstable _ hmem).trans hfound⟩
  | mutate _ hout _ =>
      refine ⟨published, ?_, h.handed, h.owned⟩
      rw [List.flatMap_append, h.split, hout, Option.getD_none, List.append_nil]
      rfl
  | caught _ hout _ =>
      refine ⟨published, ?_, h.handed, h.owned⟩
      rw [h.split, hout]
      rfl
  | notify hout => exact ⟨_, h.notify hout⟩
  | expire session =>
      refine ⟨published, h.split, fun session' hopen => h.handed session' ?_, h.owned⟩
      by_cases hsame : session' = session
      · subst hsame
        cases (Function.update_self ..).symm.trans hopen
      · exact (Function.update_of_ne hsame ..).symm.trans hopen

/-- Steps only add to what was received. -/
theorem Step.received (h : v.Step v') : v.server.received ⊆ v'.server.received := by
  cases h with
  | server _ ht _ => exact ht.received
  | _ => exact List.Subset.refl _

/-- What every run keeps. -/
structure Routed (v : Venue) : Prop where
  enrolled : v.Enrolled
  reported : OneSession v.server.received → ∃ published, v.Reported published

theorem Routed.step {label : Label} (h : v.Routed) (hstep : machine.step v label = some v') :
    v'.Routed := by
  have hcases := step_cases hstep
  refine ⟨h.enrolled.step hcases, fun hone => ?_⟩
  obtain ⟨published, hreported⟩ := h.reported (hone.mono hcases.received)
  exact hreported.step h.enrolled hcases hone

end Venue

end Exchange.Net
