import Exchange.Framework.Machine
import Exchange.Framework.Tally
import Mathlib.Data.Fintype.Option

/-!
# Monitors: a mutex, and condition variables to wait on

Calls run their critical sections one at a time. One that cannot take effect yet
releases the mutex and joins the wait set of a condition variable in the same step;
one that took effect posts its notifications afterwards, each in a step of its own.
A waiting thread may also wake without having been notified. Whatever woke it, it
has to take the mutex again and starts its critical section over.

A wakeup is lost if a thread waits for something that is there and nothing is left
that would wake it. `no_lost_wakeup` excludes that for every monitor whose calls
notify as often as they supply something to wait for.
-/

namespace Exchange.Framework

/-- A notification on the condition variable `c`. -/
inductive Notify (γ : Type) : Type where
  | one (c : γ)
  | all (c : γ)
deriving DecidableEq, Repr

structure Monitor (σ κ ε γ : Type) where
  /-- The critical section of a call, if the call need not wait. -/
  perform : σ → κ → Option (ε × σ)
  /-- What a call that has to wait waits on. -/
  waitsOn : κ → Option γ
  /-- What is posted, in this order, once the mutex is released. -/
  notifies : ε → List (Notify γ)

/-- Where a thread stands. -/
inductive Phase (κ γ : Type) : Type where
  /-- In no call. -/
  | outside
  /-- About to take the mutex, on entry or after a wait. -/
  | locking (call : κ)
  /-- Holding the mutex. -/
  | inside (call : κ)
  | waiting (call : κ)
  /-- Past the critical section, with notifications still to post. -/
  | notifying (pending : List (Notify γ))
deriving DecidableEq, Repr

/-- The shared state, with `n` threads at it. -/
structure Monitored (σ κ ε γ : Type) (n : ℕ) where
  shared : σ
  mutex : Option (Fin n) := none
  threads : Fin n → Phase κ γ := fun _ => .outside
  /-- The calls that took effect, in that order. -/
  effects : List ε := []

namespace Monitor

variable {σ κ ε γ : Type} {n : ℕ}

section SetThread

variable (s : Monitored σ κ ε γ n) (t : Fin n)

def setThread (phase : Phase κ γ) : Monitored σ κ ε γ n :=
  { s with threads := Function.update s.threads t phase }

@[simp] theorem setThread_shared (phase : Phase κ γ) :
    (setThread s t phase).shared = s.shared := rfl

@[simp] theorem setThread_self (phase : Phase κ γ) :
    (setThread s t phase).threads t = phase := Function.update_self ..

variable {t} in
@[simp] theorem setThread_of_ne {u : Fin n} (h : u ≠ t) (phase : Phase κ γ) :
    (setThread s t phase).threads u = s.threads u := Function.update_of_ne h ..

end SetThread

variable [DecidableEq γ] (M : Monitor σ κ ε γ)

def waits (c : γ) : Phase κ γ → Bool
  | .waiting call => M.waitsOn call = some c
  | _ => false

/-- What `notify_all` makes of a thread. -/
def awaken (c : γ) : Phase κ γ → Phase κ γ
  | .waiting call => if M.waitsOn call = some c then .locking call else .waiting call
  | phase => phase

/-! ## The steps of a thread -/

section Steps

variable (s : Monitored σ κ ε γ n) (t : Fin n)

def enter (call : κ) : Option (Monitored σ κ ε γ n) :=
  match s.threads t with
  | .outside => some (setThread s t (.locking call))
  | _ => none

def lock : Option (Monitored σ κ ε γ n) :=
  match s.threads t, s.mutex with
  | .locking call, none => some (setThread { s with mutex := some t } t (.inside call))
  | _, _ => none

/-- The critical section, up to where the mutex is released. -/
def body : Option (Monitored σ κ ε γ n) :=
  match s.threads t with
  | .inside call =>
      match M.perform s.shared call with
      | none => some (setThread { s with mutex := none } t (.waiting call))
      | some (effect, shared) =>
          some (setThread { s with
            shared, mutex := none, effects := s.effects ++ [effect] } t
              (.notifying (M.notifies effect)))
  | _ => none

/-- The next notification. `notify_one` wakes one of the waiting threads, any of
them, and is lost on an empty wait set. -/
def notify (woken : Option (Fin n)) : Option (Monitored σ κ ε γ n) :=
  match s.threads t with
  | .notifying (.one c :: pending) =>
      match woken with
      | some w =>
          match s.threads w with
          | .waiting call =>
              if M.waitsOn call = some c then
                some (setThread (setThread s w (.locking call)) t (.notifying pending))
              else none
          | _ => none
      | none =>
          if ∀ w, M.waits c (s.threads w) = false then
            some (setThread s t (.notifying pending))
          else none
  | .notifying (.all c :: pending) =>
      some (setThread { s with threads := fun w => M.awaken c (s.threads w) } t
        (.notifying pending))
  | _ => none

def leave : Option (Monitored σ κ ε γ n) :=
  match s.threads t with
  | .notifying [] => some (setThread s t .outside)
  | _ => none

/-- A wakeup that nobody asked for. -/
def wakeSpuriously : Option (Monitored σ κ ε γ n) :=
  match s.threads t with
  | .waiting call => some (setThread s t (.locking call))
  | _ => none

end Steps

inductive Label (κ : Type) (n : ℕ) : Type where
  | enter (t : Fin n) (call : κ)
  | lock (t : Fin n)
  | body (t : Fin n)
  | notify (t : Fin n) (woken : Option (Fin n))
  | leave (t : Fin n)
  | wakeSpuriously (t : Fin n)
deriving DecidableEq, Repr

def machine : Machine (Monitored σ κ ε γ n) (Label κ n) where
  step s label :=
    match label with
    | .enter t call => enter s t call
    | .lock t => lock s t
    | .body t => M.body s t
    | .notify t woken => M.notify s t woken
    | .leave t => leave s t
    | .wakeSpuriously t => wakeSpuriously s t

/-- No thread can go on with its call, unless it wakes spuriously. -/
def Quiet (s : Monitored σ κ ε γ n) : Prop :=
  ∀ t, lock s t = none ∧ M.body s t = none ∧ (∀ woken, M.notify s t woken = none) ∧
    leave s t = none

instance (s : Monitored σ κ ε γ n) : Decidable (M.Quiet s) :=
  inferInstanceAs (Decidable (∀ t, lock s t = none ∧ M.body s t = none ∧
    (∀ woken, M.notify s t woken = none) ∧ leave s t = none))

/-! ## What a step can do -/

section Run

variable {M} {s s' : Monitored σ κ ε γ n}

variable (M s) in
inductive Step : Monitored σ κ ε γ n → Prop where
  | enter {t : Fin n} {call : κ} (ht : s.threads t = .outside) :
      Step (setThread s t (.locking call))
  | lock {t : Fin n} {call : κ} (ht : s.threads t = .locking call) :
      Step (setThread { s with mutex := some t } t (.inside call))
  | wait {t : Fin n} {call : κ} (ht : s.threads t = .inside call)
      (hwait : M.perform s.shared call = none) :
      Step (setThread { s with mutex := none } t (.waiting call))
  | perform {t : Fin n} {call : κ} {effect : ε} {shared : σ}
      (ht : s.threads t = .inside call)
      (hperform : M.perform s.shared call = some (effect, shared)) :
      Step (setThread { s with
        shared, mutex := none, effects := s.effects ++ [effect] } t
          (.notifying (M.notifies effect)))
  | wakeOne {t w : Fin n} {c : γ} {pending : List (Notify γ)} {call : κ}
      (ht : s.threads t = .notifying (.one c :: pending))
      (hw : s.threads w = .waiting call) (hc : M.waitsOn call = some c) :
      Step (setThread (setThread s w (.locking call)) t (.notifying pending))
  | wakeNone {t : Fin n} {c : γ} {pending : List (Notify γ)}
      (ht : s.threads t = .notifying (.one c :: pending))
      (hnone : ∀ w, M.waits c (s.threads w) = false) :
      Step (setThread s t (.notifying pending))
  | wakeAll {t : Fin n} {c : γ} {pending : List (Notify γ)}
      (ht : s.threads t = .notifying (.all c :: pending)) :
      Step (setThread { s with threads := fun w => M.awaken c (s.threads w) } t
        (.notifying pending))
  | leave {t : Fin n} (ht : s.threads t = .notifying []) : Step (setThread s t .outside)
  | wakeSpuriously {t : Fin n} {call : κ} (ht : s.threads t = .waiting call) :
      Step (setThread s t (.locking call))

theorem step_cases {label : Label κ n} (h : M.machine.step s label = some s') :
    M.Step s s' := by
  cases label with
  | enter t call =>
      simp only [machine, enter] at h
      split at h <;> cases h
      exact .enter ‹_›
  | lock t =>
      simp only [machine, lock] at h
      split at h <;> cases h
      exact .lock ‹_›
  | body t =>
      simp only [machine, body] at h
      split at h
      · split at h <;> cases h
        · exact .wait ‹_› ‹_›
        · exact .perform ‹_› ‹_›
      · cases h
  | notify t woken =>
      simp only [machine, notify] at h
      split at h
      · split at h
        · split at h
          · split at h <;> cases h
            exact .wakeOne ‹_› ‹_› ‹_›
          · cases h
        · split at h <;> cases h
          exact .wakeNone ‹_› ‹_›
      · cases h
        exact .wakeAll ‹_›
      · cases h
  | leave t =>
      simp only [machine, leave] at h
      split at h <;> cases h
      exact .leave ‹_›
  | wakeSpuriously t =>
      simp only [machine, wakeSpuriously] at h
      split at h <;> cases h
      exact .wakeSpuriously ‹_›

/-- **Critical sections are atomic.** What every call preserves that takes effect
holds of the shared state and of the effects so far, whatever the threads do. -/
theorem run_effects {I : σ → List ε → Prop} {shared : σ}
    (hstart : I shared [])
    (hperform : ∀ {shared effects call effect shared'}, I shared effects →
      M.perform shared call = some (effect, shared') → I shared' (effects ++ [effect]))
    {labels : List (Label κ n)} (h : M.machine.run { shared } labels = some s) :
    I s.shared s.effects := by
  refine Machine.run_invariant (I := fun s : Monitored σ κ ε γ n => I s.shared s.effects)
    ?_ hstart h
  intro s label s' hI hstep
  cases step_cases hstep with
  | perform _ hp => exact hperform hI hp
  | _ => exact hI

end Run

/-! ## No wakeup is lost -/

/-- How a monitor's calls deal with what there is to wait for: `supply c` of it on
condition `c`, until the state is `shut` and nobody need wait any more. -/
structure Supplies (supply : γ → σ → ℕ) (shut : σ → Prop) : Prop where
  /-- A call waits only for what is not there. -/
  scarce : ∀ {s call}, M.perform s call = none →
    ¬ shut s ∧ ∃ c, M.waitsOn call = some c ∧ supply c s = 0
  /-- A call notifies once for each thing it supplies, and takes one of what it
  would have waited for. -/
  paid : ∀ {s call effect s'}, M.perform s call = some (effect, s') → ¬ shut s' → ∀ c,
    supply c s' + (if M.waitsOn call = some c then 1 else 0) ≤
      supply c s + (M.notifies effect).count (.one c)
  /-- The call that shuts notifies everyone. -/
  shutting : ∀ {s call effect s'}, M.perform s call = some (effect, s') → ¬ shut s →
    shut s' → ∀ c, .all c ∈ M.notifies effect
  staysShut : ∀ {s call effect s'}, M.perform s call = some (effect, s') → shut s → shut s'

/-- What a thread has in hand against a wakeup on `c` being lost: notifications it
will post, and itself if it is awake. -/
def tokens (c : γ) : Phase κ γ → ℕ
  | .locking call | .inside call => if M.waitsOn call = some c then 1 else 0
  | .notifying pending => pending.count (.one c)
  | _ => 0

variable {M} {s s' : Monitored σ κ ε γ n} {supply : γ → σ → ℕ} {shut : σ → Prop}

variable (M supply shut s) in
/-- While the state is open, a thread waits on `c` only if there are tokens for all
of the supply; once it is shut, only if everybody is still to be notified. -/
structure Attended : Prop where
  mutex : ∀ t, s.mutex = some t → ∃ call, s.threads t = .inside call
  covered : ¬ shut s.shared → ∀ c t, M.waits c (s.threads t) = true →
    supply c s.shared ≤ tally Finset.univ (M.tokens c) s.threads
  called : shut s.shared → ∀ c t, M.waits c (s.threads t) = true →
    ∃ u pending, s.threads u = .notifying pending ∧ .all c ∈ pending

theorem attended_start (shared : σ) :
    M.Attended ({ shared } : Monitored σ κ ε γ n) supply shut where
  mutex _ h := by cases h
  covered _ _ _ h := by cases h
  called _ _ _ h := by cases h

/-- The tokens after one thread has moved. -/
theorem tokens_setThread (c : γ) (t : Fin n) (phase : Phase κ γ) :
    tally Finset.univ (M.tokens c) (setThread s t phase).threads + M.tokens c (s.threads t) =
      tally Finset.univ (M.tokens c) s.threads + M.tokens c phase :=
  tally_update _ _ (Finset.mem_univ t) _ _

/-- Who waits after one thread has moved. -/
theorem waits_setThread {c : γ} {t u : Fin n} {phase : Phase κ γ}
    (h : M.waits c ((setThread s t phase).threads u) = true) :
    (u = t ∧ M.waits c phase = true) ∨ (u ≠ t ∧ M.waits c (s.threads u) = true) := by
  by_cases hu : u = t
  · subst hu
    rw [setThread_self] at h
    exact Or.inl ⟨rfl, h⟩
  · rw [setThread_of_ne _ hu] at h
    exact Or.inr ⟨hu, h⟩

/-- A thread that moves on without waiting, and with no fewer tokens and as much to
notify, leaves the others attended to. -/
theorem Attended.move (h : M.Attended s supply shut) {t : Fin n} {phase : Phase κ γ}
    {mutex : Option (Fin n)}
    (hmutex : ∀ u, mutex = some u → u ≠ t → s.mutex = some u)
    (hinside : mutex = some t → ∃ call, phase = .inside call)
    (hwaits : ∀ c, M.waits c phase = false)
    (htokens : ∀ c u, M.waits c (s.threads u) = true →
      M.tokens c (s.threads t) ≤ M.tokens c phase)
    (hall : ∀ c u pending, M.waits c (s.threads u) = true →
      s.threads t = .notifying pending → .all c ∈ pending →
      ∃ pending', phase = .notifying pending' ∧ .all c ∈ pending') :
    M.Attended (setThread { s with mutex } t phase) supply shut := by
  constructor
  · intro u hu
    by_cases hut : u = t
    · obtain ⟨call, hcall⟩ := hinside (hut ▸ hu)
      exact ⟨call, by rw [hut, setThread_self, hcall]⟩
    · obtain ⟨call, hcall⟩ := h.mutex u (hmutex u hu hut)
      exact ⟨call, by rw [setThread_of_ne _ hut, hcall]⟩
  · intro hopen c u hu
    rcases waits_setThread (s := { s with mutex }) hu with ⟨_, hw⟩ | ⟨_, hw⟩
    · rw [hwaits] at hw
      cases hw
    · have hcovered := h.covered hopen c u hw
      have hmoved := tokens_setThread (M := M) (s := { s with mutex }) c t phase
      have htok := htokens c u hw
      dsimp only [setThread] at hcovered hmoved ⊢
      omega
  · intro hshut c u hu
    rcases waits_setThread (s := { s with mutex }) hu with ⟨_, hw⟩ | ⟨_, hw⟩
    · rw [hwaits] at hw
      cases hw
    · obtain ⟨v, pending, hv, hmem⟩ := h.called hshut c u hw
      by_cases hvt : v = t
      · obtain ⟨pending', hphase, hmem'⟩ := hall c u pending hw (hvt ▸ hv) hmem
        exact ⟨t, pending', by rw [setThread_self, hphase], hmem'⟩
      · exact ⟨v, pending, by rw [setThread_of_ne _ hvt, hv], hmem⟩

theorem Attended.wait (h : M.Attended s supply shut) (hM : M.Supplies supply shut)
    {t : Fin n} {call : κ} (ht : s.threads t = .inside call)
    (hwait : M.perform s.shared call = none) :
    M.Attended (setThread { s with mutex := none } t (.waiting call)) supply shut := by
  obtain ⟨hopen, c₀, hc₀, hnone⟩ := hM.scarce hwait
  constructor
  · intro u hu
    cases hu
  · intro _ c u hu
    by_cases hc : c = c₀
    · rw [hc]
      exact Nat.le_trans (Nat.le_of_eq hnone) (Nat.zero_le _)
    · have hne : M.waitsOn call ≠ some c := by
        rw [hc₀]
        exact fun heq => hc (Option.some.inj heq).symm
      rcases waits_setThread (s := { s with mutex := none }) hu with ⟨_, hw⟩ | ⟨_, hw⟩
      · exact absurd (of_decide_eq_true hw) hne
      · have hcovered := h.covered hopen c u hw
        have hmoved := tokens_setThread (M := M) (s := { s with mutex := none }) c t
          (.waiting call)
        simp only [ht, tokens, if_neg hne] at hmoved
        exact Nat.le_trans hcovered (Nat.le_of_eq hmoved.symm)
  · intro hshut
    exact absurd hshut hopen

theorem Attended.perform (h : M.Attended s supply shut) (hM : M.Supplies supply shut)
    {t : Fin n} {call : κ} {effect : ε} {shared : σ} (ht : s.threads t = .inside call)
    (hperform : M.perform s.shared call = some (effect, shared)) :
    M.Attended (setThread { s with
      shared, mutex := none, effects := s.effects ++ [effect] } t
        (.notifying (M.notifies effect))) supply shut := by
  constructor
  · intro u hu
    cases hu
  · intro hopen c u hu
    rcases waits_setThread hu with ⟨_, hw⟩ | ⟨_, hw⟩
    · cases hw
    · have hcovered := h.covered (mt (hM.staysShut hperform) hopen) c u hw
      have hpaid := hM.paid hperform hopen c
      have hmoved := tokens_setThread (M := M) (s := s) c t (.notifying (M.notifies effect))
      simp only [ht, tokens] at hmoved
      dsimp only [setThread] at hmoved ⊢
      omega
  · intro hshut c u hu
    rcases waits_setThread hu with ⟨_, hw⟩ | ⟨_, hw⟩
    · cases hw
    · by_cases hbefore : shut s.shared
      · obtain ⟨v, pending, hv, hmem⟩ := h.called hbefore c u hw
        have hvt : v ≠ t := by
          rintro rfl
          rw [ht] at hv
          cases hv
        exact ⟨v, pending, by rw [setThread_of_ne _ hvt, hv], hmem⟩
      · exact ⟨t, _, setThread_self _ _ _, hM.shutting hperform hbefore hshut c⟩

/-- `notify_one` trades a notification for a thread that is awake. -/
theorem Attended.wakeOne (h : M.Attended s supply shut) {t w : Fin n} {c : γ}
    {pending : List (Notify γ)} {call : κ}
    (ht : s.threads t = .notifying (.one c :: pending))
    (hw : s.threads w = .waiting call) (hc : M.waitsOn call = some c) :
    M.Attended (setThread (setThread s w (.locking call)) t (.notifying pending))
      supply shut := by
  have htw : t ≠ w := by
    rintro rfl
    rw [ht] at hw
    cases hw
  have hkeep : ∀ {c' u}, M.waits c' ((setThread (setThread s w (.locking call)) t
      (.notifying pending)).threads u) = true → M.waits c' (s.threads u) = true := by
    intro c' u hu
    rcases waits_setThread hu with ⟨_, hu⟩ | ⟨_, hu⟩
    · cases hu
    · rcases waits_setThread hu with ⟨_, hu⟩ | ⟨_, hu⟩
      · cases hu
      · exact hu
  constructor
  · intro u hu
    obtain ⟨call', hcall⟩ := h.mutex u hu
    have hut : u ≠ t := by
      rintro rfl
      rw [ht] at hcall
      cases hcall
    have huw : u ≠ w := by
      rintro rfl
      rw [hw] at hcall
      cases hcall
    exact ⟨call', by rw [setThread_of_ne _ hut, setThread_of_ne _ huw, hcall]⟩
  · intro hopen c' u hu
    have hcovered := h.covered hopen c' u (hkeep hu)
    have hfirst := tokens_setThread (M := M) (s := s) c' w (.locking call)
    have hsecond := tokens_setThread (M := M) (s := setThread s w (.locking call)) c' t
      (.notifying pending)
    rw [setThread_of_ne _ htw] at hsecond
    -- One token less among the notifications, one more among the threads awake.
    simp only [ht, hw, hc, tokens, List.count_cons, beq_iff_eq, Notify.one.injEq,
      Option.some.injEq] at hfirst hsecond
    dsimp only [setThread_shared]
    omega
  · intro hshut c' u hu
    obtain ⟨v, pending', hv, hmem⟩ := h.called hshut c' u (hkeep hu)
    by_cases hvt : v = t
    · subst hvt
      rw [ht] at hv
      cases hv
      exact ⟨v, pending, setThread_self _ _ _, (List.mem_cons.mp hmem).resolve_left nofun⟩
    · have hvw : v ≠ w := by
        rintro rfl
        rw [hw] at hv
        cases hv
      exact ⟨v, pending', by rw [setThread_of_ne _ hvt, setThread_of_ne _ hvw, hv], hmem⟩

theorem waits_awaken {c c' : γ} {phase : Phase κ γ}
    (h : M.waits c' (M.awaken c phase) = true) :
    c' ≠ c ∧ M.waits c' phase = true := by
  unfold awaken at h
  split at h
  · rename_i call
    split at h
    · cases h
    · rename_i hne
      refine ⟨?_, h⟩
      rintro rfl
      exact hne (of_decide_eq_true h)
  · rename_i hphase
    unfold waits at h
    split at h
    · exact absurd rfl (hphase _)
    · cases h

theorem tokens_awaken {c c' : γ} (h : c' ≠ c) (phase : Phase κ γ) :
    M.tokens c' (M.awaken c phase) = M.tokens c' phase := by
  unfold awaken
  split
  · split
    · rename_i hc
      simp only [tokens, hc, Option.some.injEq, if_neg (Ne.symm h)]
    · rfl
  · rfl

theorem Attended.awaken (h : M.Attended s supply shut) (c : γ) :
    M.Attended { s with threads := fun w => M.awaken c (s.threads w) } supply shut := by
  constructor
  · intro u hu
    obtain ⟨call, hcall⟩ := h.mutex u hu
    refine ⟨call, ?_⟩
    show M.awaken c (s.threads u) = _
    rw [hcall]
    rfl
  · intro hopen c' u hu
    obtain ⟨hne, hw⟩ := waits_awaken hu
    refine Nat.le_trans (h.covered hopen c' u hw) (Nat.le_of_eq ?_)
    exact Finset.sum_congr rfl fun v _ => (tokens_awaken hne _).symm
  · intro hshut c' u hu
    obtain ⟨_, hw⟩ := waits_awaken hu
    obtain ⟨v, pending, hv, hmem⟩ := h.called hshut c' u hw
    refine ⟨v, pending, ?_, hmem⟩
    show M.awaken c (s.threads v) = _
    rw [hv]
    rfl

/-- A thread that does not hold the mutex moves on. -/
theorem Attended.advance (h : M.Attended s supply shut) {t : Fin n} {before phase : Phase κ γ}
    (ht : s.threads t = before) (hheld : ∀ call, before ≠ .inside call)
    (hwaits : ∀ c, M.waits c phase = false)
    (htokens : ∀ c u, M.waits c (s.threads u) = true → M.tokens c before ≤ M.tokens c phase)
    (hall : ∀ c u pending, M.waits c (s.threads u) = true → before = .notifying pending →
      .all c ∈ pending → ∃ pending', phase = .notifying pending' ∧ .all c ∈ pending') :
    M.Attended (setThread s t phase) supply shut := by
  subst ht
  refine h.move (fun _ hu _ => hu) ?_ hwaits htokens hall
  intro hmutex
  obtain ⟨call, hcall⟩ := h.mutex t hmutex
  exact absurd hcall (hheld call)

theorem Attended.step (h : M.Attended s supply shut) (hM : M.Supplies supply shut)
    (hstep : M.Step s s') : M.Attended s' supply shut := by
  cases hstep with
  | enter ht =>
      refine h.advance ht nofun (fun _ => rfl) (fun _ _ _ => Nat.zero_le _) ?_
      intro c u pending _ hpending
      cases hpending
  | lock ht =>
      refine h.move ?_ (fun _ => ⟨_, rfl⟩) (fun _ => rfl) ?_ ?_
      · intro u hu hne
        exact absurd (Option.some.inj hu).symm hne
      · intro c _ _
        rw [ht]
        exact Nat.le_refl _
      · intro c _ pending _ hpending
        rw [ht] at hpending
        cases hpending
  | wait ht hwait => exact h.wait hM ht hwait
  | perform ht hperform => exact h.perform hM ht hperform
  | wakeOne ht hw hc => exact h.wakeOne ht hw hc
  | @wakeNone t c pending ht hnone =>
      refine h.advance ht nofun (fun _ => rfl) ?_ ?_
      · -- The notification is lost on `c`, where nobody waits.
        intro c' u hu
        have hne : c ≠ c' := by
          rintro rfl
          rw [hnone u] at hu
          cases hu
        rw [tokens, tokens, List.count_cons_of_ne (by simpa using hne)]
      · intro c' _ pending' _ hpending hmem
        cases hpending
        exact ⟨pending, rfl, (List.mem_cons.mp hmem).resolve_left nofun⟩
  | @wakeAll t c pending ht =>
      have hsame : M.awaken c (s.threads t) = .notifying (.all c :: pending) := by
        rw [ht]
        rfl
      refine (h.awaken c).advance hsame nofun (fun _ => rfl) ?_ ?_
      · intro c' _ _
        rw [tokens, tokens, List.count_cons_of_ne (by simp)]
      · intro c' u pending' hu hpending hmem
        cases hpending
        obtain ⟨hne, _⟩ := waits_awaken hu
        refine ⟨pending, rfl, (List.mem_cons.mp hmem).resolve_left ?_⟩
        exact fun heq => hne (Notify.all.inj heq)
  | leave ht =>
      refine h.advance ht nofun (fun _ => rfl) (fun _ _ _ => Nat.le_refl _) ?_
      intro c u pending _ hpending hmem
      cases hpending
      cases hmem
  | wakeSpuriously ht =>
      refine h.advance ht nofun (fun _ => rfl) (fun _ _ _ => Nat.zero_le _) ?_
      intro c u pending _ hpending
      cases hpending

/-- When nothing moves, every thread is outside or waits. -/
theorem Attended.rest (h : M.Attended s supply shut) (hquiet : M.Quiet s) (t : Fin n) :
    s.threads t = .outside ∨ ∃ call, s.threads t = .waiting call := by
  have hinside : ∀ u call, s.threads u ≠ .inside call := by
    intro u call hu
    have hbody := (hquiet u).2.1
    simp only [body, hu] at hbody
    cases hp : M.perform s.shared call <;> rw [hp] at hbody <;> cases hbody
  have hmutex : s.mutex = none := by
    cases hm : s.mutex with
    | none => rfl
    | some u =>
        obtain ⟨call, hcall⟩ := h.mutex u hm
        exact absurd hcall (hinside u call)
  obtain ⟨hlock, _, hnotify, hleave⟩ := hquiet t
  cases ht : s.threads t with
  | outside => exact Or.inl rfl
  | waiting call => exact Or.inr ⟨call, rfl⟩
  | inside call => exact absurd ht (hinside t call)
  | locking call =>
      simp only [lock, ht, hmutex] at hlock
      cases hlock
  | notifying pending =>
      cases pending with
      | nil =>
          simp only [leave, ht] at hleave
          cases hleave
      | cons notice pending =>
          cases notice with
          | all c =>
              have hall := hnotify none
              simp only [notify, ht] at hall
              cases hall
          | one c =>
              -- A thread that waits could be woken; if none does, the post is lost.
              have hone := hnotify none
              simp only [notify, ht] at hone
              split at hone
              · cases hone
              · rename_i hsome
                push Not at hsome
                obtain ⟨w, hw⟩ := hsome
                have hwake := hnotify (some w)
                simp only [notify, ht] at hwake
                cases hphase : s.threads w with
                | waiting call =>
                    rw [hphase] at hw hwake
                    have hc : M.waitsOn call = some c := by simpa [waits] using hw
                    simp only [hc, if_pos] at hwake
                    cases hwake
                | _ =>
                    rw [hphase] at hw
                    exact absurd rfl hw

/-- **No lost wakeup.** In every state the threads can reach and in which none can
go on unless it wakes spuriously, a thread that waits does so on an open state with
nothing there of what it waits for. -/
theorem no_lost_wakeup (hM : M.Supplies supply shut) {shared : σ}
    {labels : List (Label κ n)} (h : M.machine.run { shared } labels = some s)
    (hquiet : M.Quiet s) {t : Fin n} {call : κ} {c : γ}
    (ht : s.threads t = .waiting call) (hc : M.waitsOn call = some c) :
    ¬ shut s.shared ∧ supply c s.shared = 0 := by
  have hattended : M.Attended s supply shut :=
    Machine.run_invariant (I := fun s => M.Attended s supply shut)
      (fun hs hstep => hs.step hM (step_cases hstep)) (attended_start shared) h
  have hwaits : M.waits c (s.threads t) = true := by
    rw [ht]
    exact decide_eq_true hc
  have hopen : ¬ shut s.shared := by
    intro hshut
    obtain ⟨u, pending, hu, _⟩ := hattended.called hshut c t hwaits
    rcases hattended.rest hquiet u with hrest | ⟨_, hrest⟩ <;> rw [hu] at hrest <;>
      cases hrest
  refine ⟨hopen, Nat.le_zero.mp (Nat.le_trans (hattended.covered hopen c t hwaits) ?_)⟩
  refine Nat.le_of_eq (tally_eq_zero _ fun u _ => ?_)
  rcases hattended.rest hquiet u with hu | ⟨call', hu⟩ <;> rw [hu] <;> rfl

end Monitor

end Exchange.Framework
