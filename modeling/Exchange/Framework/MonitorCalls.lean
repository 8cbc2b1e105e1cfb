import Exchange.Framework.Monitor

/-!
# The course of a call on a monitor

A thread in a call is before its critical section, waiting or not, and then past it,
with notifications to post. Most steps of a monitor move threads within these two parts;
what a client of the monitor sees are the entry, the critical section that takes effect
and the return.
-/

namespace Exchange.Framework

variable {κ γ : Type}

/-- In this call, before its critical section has taken effect. -/
def Phase.At (call : κ) (phase : Phase κ γ) : Prop :=
  phase = .locking call ∨ phase = .inside call ∨ phase = .waiting call

/-- Past the critical section. -/
def Phase.Past (phase : Phase κ γ) : Prop := ∃ pending, phase = .notifying pending

/-- The thread is in the same part of the same call as before. -/
structure Phase.Keeps (before after : Phase κ γ) : Prop where
  outside : before = .outside → after = .outside
  within : ∀ call, before.At call → after.At call
  past : before.Past → after.Past

theorem Phase.Keeps.refl (phase : Phase κ γ) : phase.Keeps phase := ⟨id, fun _ => id, id⟩

/-- A move within the part of the call before its critical section. -/
theorem Phase.Keeps.of_at {before after : Phase κ γ} {call : κ} (h : before.At call)
    (h' : after.At call) : before.Keeps after where
  outside hout := by rcases h with h | h | h <;> rw [h] at hout <;> cases hout
  within call' hat := by
    have heq : call = call' := by
      rcases h with h | h | h <;> rcases hat with hat | hat | hat <;> rw [h] at hat <;>
        cases hat <;> rfl
    exact heq ▸ h'
  past hpast := by
    obtain ⟨pending, hpast⟩ := hpast
    rcases h with h | h | h <;> rw [h] at hpast <;> cases hpast

/-- A move within the part after it. -/
theorem Phase.Keeps.of_past {before after : Phase κ γ} (h : before.Past) (h' : after.Past) :
    before.Keeps after where
  outside hout := by
    obtain ⟨pending, rfl⟩ := h
    cases hout
  within call hat := by
    obtain ⟨pending, rfl⟩ := h
    rcases hat with hat | hat | hat <;> cases hat
  past _ := h'

namespace Monitor

variable {σ ε : Type} {n : ℕ} {s s' : Monitored σ κ ε γ n} {t : Fin n}

/-- A step that its clients do not see. -/
structure Silent (s s' : Monitored σ κ ε γ n) : Prop where
  shared : s'.shared = s.shared
  effects : s'.effects = s.effects
  threads : ∀ t, (s.threads t).Keeps (s'.threads t)

theorem keeps_setThread {phase : Phase κ γ} {s₁ : Monitored σ κ ε γ n}
    (h : (s.threads t).Keeps phase) (h₁ : ∀ u, (s.threads u).Keeps (s₁.threads u)) (u : Fin n) :
    (s.threads u).Keeps ((setThread s₁ t phase).threads u) := by
  by_cases hu : u = t
  · subst hu
    rw [setThread_self]
    exact h
  · rw [setThread_of_ne s₁ hu]
    exact h₁ u

theorem lock_silent (h : lock s t = some s') : Silent s s' := by
  unfold lock at h
  split at h <;> cases h
  rename_i call ht _
  exact ⟨rfl, rfl, keeps_setThread (.of_at (Or.inl ht) (Or.inr (Or.inl rfl))) fun _ => .refl _⟩

theorem wakeSpuriously_silent (h : wakeSpuriously s t = some s') : Silent s s' := by
  unfold wakeSpuriously at h
  split at h <;> cases h
  rename_i call ht
  exact ⟨rfl, rfl, keeps_setThread (.of_at (Or.inr (Or.inr ht)) (Or.inl rfl)) fun _ => .refl _⟩

variable {M : Monitor σ κ ε γ}

/-- The critical section of a call waits, or takes effect. -/
theorem body_cases (h : M.body s t = some s') : ∃ call, s.threads t = .inside call ∧
    (M.perform s.shared call = none ∧ Silent s s' ∨
      ∃ effect shared, M.perform s.shared call = some (effect, shared) ∧
        s' = setThread { s with
          shared, mutex := none, effects := s.effects ++ [effect] } t
            (.notifying (M.notifies effect))) := by
  unfold body at h
  split at h
  · rename_i call ht
    refine ⟨call, ht, ?_⟩
    split at h <;> cases h
    · refine Or.inl ⟨‹_›, rfl, rfl, ?_⟩
      exact keeps_setThread (.of_at (Or.inr (Or.inl ht)) (Or.inr (Or.inr rfl))) fun _ => .refl _
    · exact Or.inr ⟨_, _, ‹_›, rfl⟩
  · cases h

/-- Every thread that waits does so on some condition. -/
def Waits (M : Monitor σ κ ε γ) (s : Monitored σ κ ε γ n) : Prop :=
  ∀ t call, s.threads t = .waiting call → ∃ c, M.waitsOn call = some c

theorem Waits.setThread {phase : Phase κ γ} (h : M.Waits s)
    (hphase : ∀ call, phase = .waiting call → ∃ c, M.waitsOn call = some c) :
    M.Waits (setThread s t phase) := by
  intro u call hu
  by_cases hut : u = t
  · subst hut
    rw [setThread_self] at hu
    exact hphase call hu
  · rw [setThread_of_ne s hut] at hu
    exact h u call hu

variable [DecidableEq γ]

theorem keeps_awaken (c : γ) (phase : Phase κ γ) : phase.Keeps (M.awaken c phase) := by
  unfold awaken
  split
  · split
    · exact .of_at (Or.inr (Or.inr rfl)) (Or.inl rfl)
    · exact .refl _
  · exact .refl _

theorem notify_silent {woken : Option (Fin n)} (h : M.notify s t woken = some s') :
    Silent s s' := by
  have hpast : ∀ {pending pending' : List (Notify γ)}, s.threads t = .notifying pending →
      (s.threads t).Keeps (.notifying pending') :=
    fun ht => .of_past ⟨_, ht⟩ ⟨_, rfl⟩
  unfold notify at h
  split at h
  · rename_i ht
    split at h
    · split at h
      · rename_i w _ call hw
        split at h <;> cases h
        refine ⟨rfl, rfl, keeps_setThread (hpast ht) ?_⟩
        exact keeps_setThread (.of_at (Or.inr (Or.inr hw)) (Or.inl rfl)) fun _ => .refl _
      · cases h
    · split at h <;> cases h
      exact ⟨rfl, rfl, keeps_setThread (hpast ht) fun _ => .refl _⟩
  · rename_i ht
    cases h
    exact ⟨rfl, rfl, keeps_setThread (hpast ht) fun _ => keeps_awaken _ _⟩
  · cases h

theorem awaken_waiting {c : γ} {phase : Phase κ γ} {call : κ}
    (h : M.awaken c phase = .waiting call) : phase = .waiting call := by
  unfold awaken at h
  split at h
  · split at h <;> cases h
    rfl
  · exact h

theorem Waits.step {supply : γ → σ → ℕ} {shut : σ → Prop} (hM : M.Supplies supply shut)
    (h : M.Waits s) (hstep : M.Step s s') : M.Waits s' := by
  cases hstep with
  | enter | wakeNone | leave | wakeSpuriously => exact h.setThread nofun
  | @lock t call ht =>
      have hlocked : M.Waits { s with mutex := some t } := h
      exact hlocked.setThread nofun
  | @wait t call ht hwait =>
      obtain ⟨_, c, hc, _⟩ := hM.scarce hwait
      have hreleased : M.Waits { s with mutex := none } := h
      refine hreleased.setThread ?_
      rintro call' ⟨⟩
      exact ⟨c, hc⟩
  | @perform t call effect shared ht hperform =>
      have hdone : M.Waits { s with
        shared, mutex := none, effects := s.effects ++ [effect] } := h
      exact hdone.setThread nofun
  | @wakeOne t w c pending call ht hw hc =>
      have hwoken : M.Waits (Monitor.setThread s w (.locking call)) := h.setThread nofun
      exact hwoken.setThread nofun
  | @wakeAll t c pending ht =>
      have hwoken : M.Waits { s with threads := fun w => M.awaken c (s.threads w) } :=
        fun u call hu => h u call (awaken_waiting hu)
      exact hwoken.setThread nofun

/-- When nothing moves, a thread is outside, or waits on an open state for what is not
there. -/
theorem rest_cases {supply : γ → σ → ℕ} {shut : σ → Prop} (hM : M.Supplies supply shut)
    {shared : σ} {labels : List (Label κ n)} (h : M.machine.run { shared } labels = some s)
    (hquiet : M.Quiet s) (t : Fin n) :
    s.threads t = .outside ∨ ∃ call c, s.threads t = .waiting call ∧
      M.waitsOn call = some c ∧ ¬ shut s.shared := by
  have hattended : M.Attended s supply shut :=
    Machine.run_invariant (I := fun s => M.Attended s supply shut)
      (fun hs hstep => hs.step hM (step_cases hstep)) (attended_start shared) h
  have hwaits : M.Waits s :=
    Machine.run_invariant (I := M.Waits) (fun hs hstep => hs.step hM (step_cases hstep))
      (fun _ _ hu => by cases hu) h
  refine (hattended.rest hquiet t).imp_right ?_
  rintro ⟨call, ht⟩
  obtain ⟨c, hc⟩ := hwaits t call ht
  exact ⟨call, c, ht, hc, (no_lost_wakeup hM h hquiet ht hc).1⟩

end Monitor

end Exchange.Framework
