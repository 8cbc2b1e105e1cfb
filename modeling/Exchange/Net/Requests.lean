import Exchange.Net.Delivery

/-!
# Requests to the reactor

Other threads ask the reactor to flush a session, to retire one and to stop. Each writes
what it asks for first and to the eventfd afterwards, and the reactor looks at the flag
before it waits and at the lists after it has drained the eventfd. So a reactor that waits
while something is asked of it is about to be woken: the kernel has the eventfd to report,
or a thread has still to write to it.
-/

namespace Exchange.Net

open Framework

/-- The job writes to the eventfd. -/
def Job.wakes : Job → Prop
  | .wake | .session _ .wake => True
  | _ => False

namespace Delivery

open Program

variable {n : ℕ} {s s' : Threads Delivery Job n} {t reactor : Fin n} {d d' : Delivery}
  {job : Job} {rest jobs : List Job} {kernel : Kernel}

/-! ## The reactor's loop -/

@[simp] theorem wake_stopping (d : Delivery) : d.wake.stopping = d.stopping := by
  unfold wake; split <;> rfl

/-- The flag is set by `stop`, which goes on to wake the reactor; the reactor finds it clear
before it waits; and nothing else leads to the two steps of the loop. -/
theorem exec_loop (h : exec kernel job d = some (d', jobs)) :
    (d'.stopping = true → d.stopping = true ∨ jobs = [.wake]) ∧
      (.epollWait ∈ jobs → job = .run ∧ d.stopping = false ∧ d' = d ∧ jobs = [.epollWait]) ∧
      (.run ∈ jobs → job = .epollWait ∧ .run ∉ jobs.dropLast) := by
  cases job with
  | run =>
      cases h
      cases d.stopping <;> simp
  | epollWait =>
      rw [exec] at h
      split at h
      · split at h <;> cases h
        exact ⟨Or.inl, by simp, by simp⟩
      · cases h
        exact ⟨Or.inl, by simp, by simp⟩
      · cases h
        exact ⟨Or.inl, by simp, by simp⟩
  | handle event =>
      cases event with
      | wakeup | listener =>
          cases h
          exact ⟨Or.inl, by simp, by simp⟩
      | socket fd hup writable readable =>
          have hready : ∀ job' ∈ d.ready fd hup writable readable, job'.onSession = true :=
            ready_all fun _ => ⟨rfl, rfl, rfl⟩
          cases h
          refine ⟨Or.inl, fun hmem => ?_, fun hmem => ?_⟩ <;> split at hmem
          · cases hready _ hmem
          · cases hmem
          · cases hready _ hmem
          · cases hmem
  | acceptReady =>
      rw [exec] at h
      split at h
      · split at h <;> cases h
        exact ⟨Or.inl, by simp, by simp⟩
      · cases h
        exact ⟨Or.inl, by simp, by simp⟩
      · cases h
        exact ⟨Or.inl, by simp, by simp⟩
  | drainWakeup =>
      rw [exec] at h
      split at h <;> cases h <;> exact ⟨Or.inl, by simp, by simp⟩
  | flush fd =>
      cases h
      cases d.sessions fd <;> exact ⟨Or.inl, by simp, by simp⟩
  | stop =>
      cases h
      cases d.stopping <;> simp
  | wake =>
      cases h
      exact ⟨by simp, by simp, by simp⟩
  | servicePending | retire fd =>
      cases h
      exact ⟨Or.inl, by simp, by simp⟩
  | session id op =>
      cases exec_cases h with
      | aside _ hjob _ => cases hjob
      | wake _ => exact ⟨by simp, by simp, by simp⟩
      | requestFlush | closeHandler | session => exact ⟨Or.inl, by simp, by simp⟩

/-! ## Nothing asked of the reactor is overlooked -/

/-- What holds between any two operations, besides `Alert`. -/
structure Heeds (reactor : Fin n) (s : Threads Delivery Job n) : Prop where
  waiting : .epollWait ∈ s.todo reactor → Idle reactor s
  running : .run ∉ (s.todo reactor).dropLast
  closing : s.shared.needClose ≠ [] → 0 < s.shared.counter ∨ Awaits Job.rouses s
  stopping : s.shared.stopping = true → Idle reactor s →
    0 < s.shared.counter ∨ Awaits Job.wakes s

theorem closing_act (h : Heeds reactor s) (hproper : job.proper = true)
    (ht : s.todo t = job :: rest) (hdoes : Does s.shared job d' jobs)
    (hsome : d'.needClose ≠ []) :
    0 < d'.counter ∨ Awaits Job.rouses (s.move t d' (jobs ++ rest)) := by
  rcases hdoes.pending with ⟨hjob, ⟨_, hsame⟩ | ⟨_, hwake⟩⟩ | ⟨_, hserved⟩
  · exact rousing_act hproper ht hdoes hjob (h.closing (hsame ▸ hsome))
  · exact Or.inr (awaits_new hwake trivial)
  · exact absurd hserved hsome

/-- A thread beside the reactor leaves the eventfd as it is, or writes to it. -/
theorem Does.counter_of_called (h : Does d job d' jobs) (hcalled : job.called = true) :
    0 < d'.counter ∨ d'.counter = d.counter ∧ ¬ job.wakes := by
  cases h with
  | aside _ hjob _ =>
      refine Or.inr ⟨rfl, fun hwakes => ?_⟩
      cases job with
      | wake | session => cases hjob
      | _ => exact hwakes
  | wake _ => exact Or.inl (wake_counter _)
  | requestFlush | closeHandler => exact Or.inr ⟨rfl, not_false⟩
  | @session id op _ _ _ _ _ hop _ =>
      by_cases hwakes : (Job.session id op).wakes
      · cases op with
        | wake => cases hop rfl
        | _ => exact hwakes.elim
      · exact Or.inr ⟨rfl, hwakes⟩
  | _ => cases hcalled

theorem stopping_act (h : Heeds reactor s) (halert : Alert reactor s)
    (ht : s.todo t = job :: rest) (hexec : exec kernel job s.shared = some (d', jobs))
    (hset : d'.stopping = true) (hidle : Idle reactor (s.move t d' (jobs ++ rest))) :
    0 < d'.counter ∨ Awaits Job.wakes (s.move t d' (jobs ++ rest)) := by
  by_cases hne : t = reactor
  · -- the reactor found the flag clear before it went to wait
    subst hne
    have htodo : jobs ++ rest = [.epollWait] := by simpa [Idle] using hidle
    have hmem : Job.epollWait ∈ jobs ++ rest := by simp [htodo]
    rcases List.mem_append.mp hmem with hnew | hold
    · obtain ⟨_, hclear, rfl, _⟩ := (exec_loop hexec).2.1 hnew
      cases hset.symm.trans hclear
    · have hwait : s.todo t = [.epollWait] :=
        h.waiting (by rw [ht]; exact List.mem_cons_of_mem _ hold)
      rw [ht] at hwait
      obtain ⟨_, rfl⟩ := List.cons.inj hwait
      cases hold
  · have hbefore : Idle reactor s := by
      unfold Idle at hidle ⊢
      rwa [Threads.move_of_ne _ _ _ (Ne.symm hne)] at hidle
    have hmem : job ∈ s.todo t := by rw [ht]; exact List.mem_cons_self
    have hcalled := (halert.proper t job hmem).2 hne
    rcases (exec_loop hexec).1 hset with hold | rfl
    · rcases (exec_cases hexec).counter_of_called hcalled with hpos | ⟨hsame, hwakes⟩
      · exact Or.inl hpos
      · rw [hsame]
        exact (h.stopping hold hbefore).imp_right fun ha =>
          (ha.act ht d' jobs).resolve_left hwakes
    · exact Or.inr (awaits_new List.mem_cons_self trivial)

/-- The reactor waits with nothing else to do, and comes to the head of its loop last. -/
theorem loop_act (h : Heeds reactor s) (ht : s.todo reactor = job :: rest)
    (hexec : exec kernel job s.shared = some (d', jobs)) :
    (.epollWait ∈ jobs ++ rest → jobs ++ rest = [.epollWait]) ∧
      .run ∉ (jobs ++ rest).dropLast := by
  obtain ⟨_, hwaits, hruns⟩ := exec_loop hexec
  have hrunning := h.running
  rw [ht] at hrunning
  -- a reactor that waits, or is at the head of its loop, has nothing else to do
  have halone : job = .epollWait ∨ job = .run → rest = [] := by
    rintro (rfl | rfl)
    · have hwait : s.todo reactor = [.epollWait] :=
        h.waiting (by rw [ht]; exact List.mem_cons_self)
      rw [ht] at hwait
      exact (List.cons.inj hwait).2
    · by_contra hrest
      rw [List.dropLast_cons_of_ne_nil hrest] at hrunning
      exact hrunning List.mem_cons_self
  constructor
  · intro hmem
    rcases List.mem_append.mp hmem with hnew | hold
    · obtain ⟨hjob, _, _, hjobs⟩ := hwaits hnew
      rw [hjobs, halone (Or.inr hjob)]
      rfl
    · have hwait : s.todo reactor = [.epollWait] :=
        h.waiting (by rw [ht]; exact List.mem_cons_of_mem _ hold)
      rw [ht] at hwait
      obtain ⟨_, rfl⟩ := List.cons.inj hwait
      cases hold
  · intro hmem
    by_cases hrest : rest = []
    · subst hrest
      rw [List.append_nil] at hmem
      exact (hruns (List.mem_of_mem_dropLast hmem)).2 hmem
    · rw [List.dropLast_append_of_ne_nil hrest] at hmem
      rcases List.mem_append.mp hmem with hnew | hold
      · exact hrest (halone (Or.inl (hruns hnew).1))
      · rw [List.dropLast_cons_of_ne_nil hrest] at hrunning
        exact hrunning (List.mem_cons_of_mem _ hold)

variable {label : Program.Label Kernel Call n}

theorem heeds_step (h : Heeds reactor s) (halert : Alert reactor s)
    (hstep : (program.machine n).step s label = some s') : Heeds reactor s' := by
  cases Program.step_cases hstep with
  | @call t call ht =>
      have hclosing := fun hsome => (h.closing hsome).imp_right fun ha =>
        ha.call ht (program.entry call)
      by_cases hne : t = reactor
      · -- a reactor that has left its loop may call as any thread may
        subst hne
        have hentry : ∀ job ∈ program.entry call, job ≠ .epollWait := by
          intro job hjob
          cases call <;> cases List.mem_singleton.mp hjob <;> simp
        refine ⟨fun hmem => ?_, ?_, hclosing, fun _ hidle => ?_⟩
        · rw [Threads.move_self] at hmem
          exact absurd rfl (hentry _ hmem)
        · rw [Threads.move_self]
          cases call <;> exact List.not_mem_nil
        · unfold Idle at hidle
          rw [Threads.move_self] at hidle
          exact absurd rfl (hentry .epollWait (by simp [hidle]))
      · have hsame : (s.move t s.shared (program.entry call)).todo reactor = s.todo reactor :=
          Threads.move_of_ne _ _ _ (Ne.symm hne)
        refine ⟨fun hmem => ?_, hsame ▸ h.running, hclosing, fun hset hidle => ?_⟩
        · exact hsame.trans (h.waiting (hsame ▸ hmem))
        · exact (h.stopping hset (hsame.symm.trans hidle)).imp_right fun ha => ha.call ht _
  | @act t env job rest jobs d' ht hexec =>
      have hclosing := closing_act h (halert.job_proper ht) ht (exec_cases hexec)
      have hstopping := stopping_act h halert ht hexec
      by_cases hne : t = reactor
      · subst hne
        obtain ⟨hwaiting, hrunning⟩ := loop_act h ht hexec
        refine ⟨fun hmem => ?_, ?_, hclosing, hstopping⟩
        · rw [Threads.move_self] at hmem
          exact (Threads.move_self ..).trans (hwaiting hmem)
        · rw [Threads.move_self]
          exact hrunning
      · have hsame : (s.move t d' (jobs ++ rest)).todo reactor = s.todo reactor :=
          Threads.move_of_ne _ _ _ (Ne.symm hne)
        refine ⟨fun hmem => ?_, hsame ▸ h.running, hclosing, hstopping⟩
        exact hsame.trans (h.waiting (hsame ▸ hmem))

theorem heeds_start (maxOutboundBytes : ℕ) (reactor : Fin n) :
    Heeds reactor (start maxOutboundBytes reactor) := by
  have htodo : (start maxOutboundBytes reactor).todo reactor = [.run] := by
    unfold start
    simp
  refine ⟨fun hmem => ?_, ?_, fun hsome => absurd rfl hsome, nofun⟩
  · rw [htodo] at hmem
    cases List.mem_singleton.mp hmem
  · rw [htodo]
    exact List.not_mem_nil

/-- While the reactor waits, only calls of other threads are under way. -/
theorem Alert.called_of_idle (h : Alert reactor s) (hidle : Idle reactor s) {p : Job → Prop}
    (hwait : ¬ p .epollWait) (hawaits : Awaits p s) :
    ∃ t, ∃ job ∈ s.todo t, p job ∧ job.called = true := by
  obtain ⟨t, job, hjob, hp⟩ := hawaits
  refine ⟨t, job, hjob, hp, (h.proper t job hjob).2 ?_⟩
  rintro rfl
  rw [hidle] at hjob
  cases List.mem_singleton.mp hjob
  exact hwait hp

/-- **No request to the reactor is lost.** Whatever the threads and the kernel do, if the
reactor waits for events while a descriptor is to be flushed or retired, or while it is to
stop, then epoll has the eventfd to report, or a thread is about to write to it. -/
theorem no_request_lost {labels : List (Program.Label Kernel Call n)} {maxOutboundBytes : ℕ}
    (hrun : (program.machine n).run (start maxOutboundBytes reactor) labels = some s)
    (hidle : Idle reactor s)
    (hasked : s.shared.needFlush ≠ [] ∨ s.shared.needClose ≠ [] ∨ s.shared.stopping = true) :
    s.shared.wakeupPending = true ∨ Awaits Job.wakes s := by
  obtain ⟨halert, h⟩ : Alert reactor s ∧ Heeds reactor s :=
    Machine.run_invariant (I := fun s => Alert reactor s ∧ Heeds reactor s)
      (fun ⟨halert, h⟩ hstep => ⟨alert_step halert hstep, heeds_step h halert hstep⟩)
      ⟨alert_start _ _, heeds_start _ _⟩ hrun
  -- the reactor itself is not on its way to the eventfd
  have hpending : 0 < s.shared.counter → s.shared.wakeupPending = true := by
    intro hpos
    rcases halert.armed hpos with harmed | hdrains
    · simp [wakeupPending, harmed, hpos]
    · obtain ⟨t, job, _, hdrains, hcalled⟩ := halert.called_of_idle hidle not_false hdrains
      cases job with
      | session | stop | wake => cases hdrains
      | _ => cases hcalled
  have hwaking : Awaits Job.rouses s → Awaits Job.wakes s := by
    intro hrouses
    obtain ⟨t, job, hjob, hrouses, hcalled⟩ := halert.called_of_idle hidle not_false hrouses
    refine ⟨t, job, hjob, ?_⟩
    cases job with
    | session id op => cases op <;> first | exact trivial | cases hrouses
    | stop | wake => cases hrouses
    | _ => cases hcalled
  rcases hasked with hflush | hclose | hstop
  · exact (halert.roused hflush).imp hpending hwaking
  · exact (h.closing hclose).imp hpending hwaking
  · exact (h.stopping hstop hidle).imp_left hpending

/-- The reactor waits, and a thread has just set the flag. -/
def stopCalled : List (Program.Label Kernel Call 2) :=
  [.act polling {}, .call serving .stop, .act serving {}]

theorem no_request_lost_stopCalled :
    ∃ s, (program.machine 2).run (start 64 0) stopCalled = some s ∧ Idle 0 s ∧
      s.shared.stopping = true ∧ (s.shared.wakeupPending = true ∨ Awaits Job.wakes s) := by
  have hrun : ((program.machine 2).run (start 64 0) stopCalled).map
      (fun s => decide (Idle 0 s ∧ s.shared.stopping = true)) = some true := by
    decide +kernel
  obtain ⟨s, hs, hstate⟩ := Option.map_eq_some_iff.mp hrun
  obtain ⟨hidle, hstop⟩ := of_decide_eq_true hstate
  exact ⟨s, hs, hidle, hstop, no_request_lost hs hidle (Or.inr (Or.inr hstop))⟩

end Delivery

end Exchange.Net
