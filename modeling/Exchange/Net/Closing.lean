import Exchange.Net.Session

/-!
# Closing a session

`close` may be called by any thread, and whoever sets the flag first invokes the close
handler, which files the descriptor for the reactor to retire. The flag is also set by a
`send` that finds the buffer too full. Nobody invokes the handler then: the `close` that
follows finds the flag set, and the session stays registered and held for good. So a
closed session is retired exactly if no `send` ever overflows the buffer of an open one.
-/

namespace Exchange.Net

open Framework

/-- Invocations of the close handler an operation stands for. -/
def Op.announces : Op → ℕ
  | .closeHandler => 1
  | _ => 0

/-- Descriptors an operation has taken from `needClose_` and not retired yet. -/
def Op.takes : Op → ℕ
  | .closePending count => count
  | _ => 0

/-- The operations that file the descriptor, wake the reactor and retire it. -/
def Op.closing : Op → Bool
  | .closeHandler | .wake | .drainWakeup | .servicePending | .closePending _ => true
  | _ => false

/-- The reactor's own operations, in which no call on the session is in progress. -/
def Op.ofReactor : Op → Bool
  | .ready _ _ _ | .drainWakeup | .servicePending | .flushPending _ | .closePending _ => true
  | _ => false

namespace Connection

/-! ## What an operation does to the closing of a session -/

section Does

variable (c : Connection)

/-- What the closing of the session rests on is as it was. -/
structure Aside (c' : Connection) : Prop where
  needClose : c'.needClose = c.needClose
  wakeup : c'.wakeup = c.wakeup
  registered : c'.registered = c.registered
  held : c'.held = c.held
  closes : c'.closes = c.closes
  retirements : c'.retirements = c.retirements

inductive Closing : Op → Connection → List Op → Prop where
  | aside {op : Op} {c' : Connection} {ops : List Op} (hsame : Aside c c')
      (hclosed : c'.session.closed = c.session.closed) (hop : op.closing = false)
      (hops : ∀ op' ∈ ops, op'.announces = 0 ∧ op'.takes = 0) : Closing op c' ops
  /-- The flag is set, and the handler is left out. -/
  | overflow {caller : Caller} {bytes : Bytes} {c' : Connection} {ops : List Op}
      (hopen : c.session.closed = false)
      (hfull : ¬ c.session.outbound.length + bytes.length ≤ c.session.maxOutbound)
      (hsame : Aside c c') (hclosed : c'.session.closed = true)
      (hops : ∀ op' ∈ ops, op'.announces = 0 ∧ op'.takes = 0) :
      Closing (.enqueue caller bytes) c' ops
  | close (hopen : c.session.closed = false) :
      Closing .close { c with session := { c.session with closed := true } } [.closeHandler]
  | closeHandler :
      Closing .closeHandler
        { c with needClose := c.needClose + 1, closes := c.closes + 1 } [.wake]
  | wake : Closing .wake { c with wakeup := true } []
  | drainWakeup : Closing .drainWakeup { c with wakeup := false } [.servicePending]
  | servicePending :
      Closing .servicePending { c with needFlush := 0, needClose := 0 }
        [.flushPending c.needFlush, .closePending c.needClose]
  | closeNone : Closing (.closePending 0) c []
  | closePending {count : ℕ} :
      Closing (.closePending (count + 1))
        { c with registered := false, held := false, retirements := c.retirements + 1 }
        [.closePending count]

variable {c} {c' : Connection} {op : Op} {ops : List Op}

theorem after_weightless (caller : Caller) (result : Bool) :
    ∀ op ∈ caller.after result, op.announces = 0 ∧ op.takes = 0 := by
  cases caller <;> cases result <;> simp [Caller.after, Op.announces, Op.takes]

theorem aside_session (session : Session) : Aside c { c with session } :=
  ⟨rfl, rfl, rfl, rfl, rfl, rfl⟩

theorem Aside.returned (h : Aside c c') (bytes : Bytes) (result : Bool) :
    Aside c (c'.returned bytes result) :=
  { h with }

theorem Does.closing (h : Does c op c' ops) : Closing c op c' ops := by
  have hsame : Aside c c := aside_session c.session
  cases h with
  | sendClosed _ => exact .aside (hsame.returned _ _) rfl rfl (after_weightless _ _)
  | sendOpen _ => exact .aside hsame rfl rfl (by simp [Op.announces, Op.takes])
  | @overflow caller bytes session hfull hsession =>
      have haside := (aside_session (c := c) session).returned bytes false
      have hset : session.closed = true := by rw [hsession]
      cases hclosed : c.session.closed with
      | true => exact .aside haside (hset.trans hclosed.symm) rfl (after_weightless _ _)
      | false => exact .overflow hclosed hfull haside hset (after_weightless _ _)
  | enqueue session _ hsession =>
      have hkept : session.closed = c.session.closed := by rw [hsession]
      exact .aside ((aside_session session).returned _ _) hkept rfl (after_weightless _ _)
  | close hopen => exact .close hopen
  | closeHandler => exact .closeHandler
  | wake => exact .wake
  | drainWakeup => exact .drainWakeup
  | servicePending => exact .servicePending
  | closeNone => exact .closeNone
  | closePending => exact .closePending
  | read assembler hop hops =>
      refine .aside (aside_session _) rfl ?_ fun op' hop' => ?_
      · cases op <;> first | rfl | cases hop
      · rcases hops op' hop' with hreads | rfl | rfl
        · cases op' <;> first | exact ⟨rfl, rfl⟩ | cases hreads
        · exact ⟨rfl, rfl⟩
        · exact ⟨rfl, rfl⟩
  | onWritable hops =>
      refine .aside hsame rfl rfl fun op' hop' => ?_
      cases hops op' hop'
      exact ⟨rfl, rfl⟩
  | writeNone hops =>
      refine .aside hsame rfl rfl fun op' hop' => ?_
      rcases hops op' hop' with rfl | rfl <;> exact ⟨rfl, rfl⟩
  | ready hops =>
      refine .aside hsame rfl rfl fun op' hop' => ?_
      rcases hops op' hop' with rfl | rfl | rfl <;> exact ⟨rfl, rfl⟩
  | flushPending hops =>
      refine .aside hsame rfl rfl fun op' hop' => ?_
      rcases hops op' hop' with rfl | ⟨rest, rfl⟩ <;> exact ⟨rfl, rfl⟩
  | closeAgain _ | copyNone _ => exact .aside hsame rfl rfl nofun
  | copy _ => exact .aside hsame rfl rfl (by simp [Op.announces, Op.takes])
  | erase => exact .aside (aside_session _) rfl rfl (by simp [Op.announces, Op.takes])
  | dropSlow | requestFlush | write _ =>
      exact .aside { hsame with } rfl rfl (by simp [Op.announces, Op.takes])

end Does

/-! ## Nothing is filed twice or lost -/

section Runs

variable {n : ℕ} {maxOutbound : ℕ} {s s' : Threads Connection Op n}
  {label : Program.Label World Call n}

/-- Descriptors that passes over the pending lists have taken and not retired yet. -/
def taken (s : Threads Connection Op n) : ℕ := Program.load Op.takes s

/-- Invocations of the close handler that are due. -/
def due (s : Threads Connection Op n) : ℕ := Program.load Op.announces s

/-- Each invocation of the close handler filed the descriptor, which is still filed, or
taken by a pass, or retired; and the reactor has not been left asleep. -/
structure Filed (s : Threads Connection Op n) : Prop where
  places : s.shared.needClose + taken s + s.shared.retirements = s.shared.closes
  registered : s.shared.registered = decide (s.shared.retirements = 0)
  held : s.shared.held = decide (s.shared.retirements = 0)
  woken : s.shared.needClose = 0 ∨ s.shared.wakeup = true ∨
    Program.Awaits (fun op => op = .wake ∨ op = .servicePending) s

theorem entry_weightless (call : Call) :
    ∀ op ∈ program.entry call, op.announces = 0 ∧ op.takes = 0 := by
  intro op hop
  cases List.mem_singleton.mp hop
  cases call <;> exact ⟨rfl, rfl⟩

theorem filed_call (h : Filed s) {t : Fin n} (ht : s.todo t = []) (call : Call) :
    Filed (s.move t s.shared (program.entry call)) := by
  refine ⟨?_, h.registered, h.held, ?_⟩
  · have hload : taken (s.move t s.shared (program.entry call)) = taken s :=
      Program.load_call ht fun op hop => (entry_weightless call op hop).2
    rw [hload]
    exact h.places
  · exact h.woken.imp id (Or.imp id fun hawaits => hawaits.call ht _)

/-- Filed, taken and retired descriptors stay in balance with the handler's invocations
if the operation keeps them so. -/
theorem places_act (h : Filed s) {t : Fin n} {op : Op} {rest ops : List Op}
    {c' : Connection} (ht : s.todo t = op :: rest)
    (hbalance : c'.needClose + (ops.map Op.takes).sum + c'.retirements +
      s.shared.closes = s.shared.needClose + op.takes + s.shared.retirements + c'.closes) :
    c'.needClose + taken (s.move t c' (ops ++ rest)) + c'.retirements = c'.closes := by
  have hload : taken (s.move t c' (ops ++ rest)) + op.takes =
      taken s + (ops.map Op.takes).sum := Program.load_act ht
  have hplaces := h.places
  omega

/-- An operation that neither wakes the reactor nor empties the lists leaves it as it
was. -/
theorem woken_act (h : Filed s) {t : Fin n} {op : Op} {rest : List Op} (ops : List Op)
    {c' : Connection} (ht : s.todo t = op :: rest) (hneed : c'.needClose = s.shared.needClose)
    (hwakeup : c'.wakeup = s.shared.wakeup) (hwake : op ≠ .wake)
    (hservice : op ≠ .servicePending) :
    c'.needClose = 0 ∨ c'.wakeup = true ∨
      Program.Awaits (fun op => op = .wake ∨ op = .servicePending)
        (s.move t c' (ops ++ rest)) := by
  rcases h.woken with hnone | hwoken | hawaits
  · exact Or.inl (hneed.trans hnone)
  · exact Or.inr (Or.inl (hwakeup.trans hwoken))
  · exact Or.inr (Or.inr ((hawaits.act ht c' ops).resolve_left
      (not_or.mpr ⟨hwake, hservice⟩)))

theorem filed_aside (h : Filed s) {t : Fin n} {op : Op} {rest ops : List Op}
    {c' : Connection} (ht : s.todo t = op :: rest) (hop : op.closing = false)
    (hsame : Aside s.shared c') (hops : ∀ op' ∈ ops, op'.announces = 0 ∧ op'.takes = 0) :
    Filed (s.move t c' (ops ++ rest)) := by
  have htakes : op.takes = 0 := by cases op <;> first | rfl | cases hop
  refine ⟨places_act h ht ?_, ?_, ?_, ?_⟩
  · rw [Threads.move_shared, htakes, Program.sum_weightless fun op' hop' => (hops op' hop').2,
      hsame.needClose, hsame.retirements, hsame.closes]
  · rw [Threads.move_shared, hsame.registered, hsame.retirements]
    exact h.registered
  · rw [Threads.move_shared, hsame.held, hsame.retirements]
    exact h.held
  · refine woken_act h ops ht hsame.needClose hsame.wakeup ?_ ?_ <;>
      · rintro rfl
        cases hop

theorem filed_act (h : Filed s) {t : Fin n} {op : Op} {rest ops : List Op}
    {c' : Connection} (ht : s.todo t = op :: rest) (hdoes : Closing s.shared op c' ops) :
    Filed (s.move t c' (ops ++ rest)) := by
  cases hdoes with
  | aside hsame _ hop hops => exact filed_aside h ht hop hsame hops
  | overflow _ _ hsame _ hops => exact filed_aside h ht rfl hsame hops
  | close _ =>
      refine ⟨places_act h ht ?_, h.registered, h.held, woken_act h _ ht rfl rfl nofun nofun⟩
      simp [Op.takes]
  | closeHandler =>
      refine ⟨places_act h ht ?_, h.registered, h.held, Or.inr (Or.inr ?_)⟩
      · simp [Op.takes]
        omega
      · exact Program.awaits_new List.mem_cons_self (Or.inl rfl)
  | wake =>
      refine ⟨places_act h ht ?_, h.registered, h.held, Or.inr (Or.inl rfl)⟩
      simp [Op.takes]
  | drainWakeup =>
      refine ⟨places_act h ht ?_, h.registered, h.held, Or.inr (Or.inr ?_)⟩
      · simp [Op.takes]
      · exact Program.awaits_new List.mem_cons_self (Or.inr rfl)
  | servicePending =>
      refine ⟨places_act h ht ?_, h.registered, h.held, Or.inl rfl⟩
      simp [Op.takes]
  | closeNone =>
      refine ⟨places_act h ht ?_, h.registered, h.held, woken_act h _ ht rfl rfl nofun nofun⟩
      simp [Op.takes]
  | closePending =>
      refine ⟨places_act h ht ?_, ?_, ?_, woken_act h _ ht rfl rfl nofun nofun⟩
      · simp [Op.takes]
        omega
      · exact (decide_eq_false (Nat.succ_ne_zero _)).symm
      · exact (decide_eq_false (Nat.succ_ne_zero _)).symm

theorem filed_step (h : Filed s) (hstep : (program.machine n).step s label = some s') :
    Filed s' := by
  cases Program.step_cases hstep with
  | call ht => exact filed_call h ht _
  | act ht hexec => exact filed_act h ht (exec_cases hexec).closing

theorem filed_accept : Filed (accept maxOutbound n) where
  places := by
    have hload : taken (accept maxOutbound n) = 0 := Program.load_eq_zero_iff.mpr nofun
    rw [hload]
    rfl
  registered := rfl
  held := rfl
  woken := Or.inl rfl

/-! ## Who sets the flag invokes the handler -/

/-- What a thread is about to put into the buffer. -/
def inHand : List Op → Option Bytes
  | .enqueue _ bytes :: _ => some bytes
  | _ => none

/-- The buffer of an open session has room for what is about to be put into it. -/
def HasRoom (c : Connection) (todo : List Op) : Prop :=
  ∀ bytes ∈ inHand todo,
    c.session.outbound.length + bytes.length ≤ c.session.maxOutbound ∨
      c.session.closed = true

instance (c : Connection) (todo : List Op) : Decidable (c.HasRoom todo) :=
  inferInstanceAs (Decidable (∀ bytes ∈ inHand todo,
    c.session.outbound.length + bytes.length ≤ c.session.maxOutbound ∨
      c.session.closed = true))

def Fits (s : Threads Connection Op n) : Program.Label World Call n → Prop
  | .call _ _ => True
  | .act t _ => s.shared.HasRoom (s.todo t)

instance (s : Threads Connection Op n) (label : Program.Label World Call n) :
    Decidable (Fits s label) :=
  match label with
  | .call _ _ => inferInstanceAs (Decidable True)
  | .act t _ => inferInstanceAs (Decidable (s.shared.HasRoom (s.todo t)))

/-- The handler was invoked, or is due, exactly if the flag is set. -/
def Announced (s : Threads Connection Op n) : Prop :=
  s.shared.closes + due s = if s.shared.session.closed then 1 else 0

theorem announced_act (h : Announced s) {t : Fin n} {op : Op} {rest ops : List Op}
    {c' : Connection} {world : World} (ht : s.todo t = op :: rest)
    (hfits : Fits s (.act t world)) (hdoes : Closing s.shared op c' ops) :
    Announced (s.move t c' (ops ++ rest)) := by
  have hload : due (s.move t c' (ops ++ rest)) + op.announces =
      due s + (ops.map Op.announces).sum := Program.load_act ht
  unfold Announced at h ⊢
  generalize hdue : due (s.move t c' (ops ++ rest)) = due' at hload
  rw [Threads.move_shared]
  cases hdoes with
  | aside hsame hclosed hop hops =>
      have hannounces : op.announces = 0 := by cases op <;> first | rfl | cases hop
      rw [hannounces, Program.sum_weightless fun op' hop' => (hops op' hop').1, add_zero,
        add_zero] at hload
      rw [hload, hsame.closes, hclosed]
      exact h
  | overflow hopen hfull _ _ _ =>
      change s.shared.HasRoom (s.todo t) at hfits
      rw [ht] at hfits
      rcases hfits _ rfl with hroom | hclosed
      · exact absurd hroom hfull
      · rw [hopen] at hclosed
        cases hclosed
  | close hopen =>
      simp [Op.announces] at hload
      rw [hopen] at h
      simp at h ⊢
      omega
  | closeHandler =>
      simp [Op.announces] at hload
      dsimp only
      omega
  | _ =>
      simp [Op.announces] at hload
      rw [hload]
      exact h

theorem announced_step (h : Announced s)
    (hstep : ((program.machine n).within Fits).step s label = some s') : Announced s' := by
  obtain ⟨hfits, hmove⟩ := Machine.within_step hstep
  cases Program.step_cases hmove with
  | @call t call ht =>
      have hload : due (s.move t s.shared (program.entry call)) = due s :=
        Program.load_call ht fun op hop => (entry_weightless call op hop).1
      unfold Announced
      rw [hload]
      exact h
  | act ht hexec => exact announced_act h ht hfits (exec_cases hexec).closing

theorem announced_accept : Announced (accept maxOutbound n) := by
  have hload : due (accept maxOutbound n) = 0 := Program.load_eq_zero_iff.mpr nofun
  unfold Announced
  rw [hload]
  rfl

/-! ## The flag without the handler -/

/-- The flag is set, and nobody has invoked the handler or will. -/
structure Lost (s : Threads Connection Op n) : Prop where
  closed : s.shared.session.closed = true
  closes : s.shared.closes = 0
  nobody : Program.Everywhere (fun _ op => op ≠ .closeHandler) s

theorem lost_act (h : Lost s) {t : Fin n} {op : Op} {rest ops : List Op}
    {c' : Connection} (ht : s.todo t = op :: rest) (hdoes : Closing s.shared op c' ops) :
    Lost (s.move t c' (ops ++ rest)) := by
  have hop : op ≠ .closeHandler := h.nobody t op (by rw [ht]; exact List.mem_cons_self)
  cases hdoes with
  | aside hsame hclosed _ hops =>
      refine ⟨hclosed.trans h.closed, hsame.closes.trans h.closes, h.nobody.act ht ?_⟩
      rintro _ op' hop' rfl
      cases (hops _ hop').1
  | overflow hopen _ _ _ _ => exact absurd (hopen.symm.trans h.closed) nofun
  | close hopen => exact absurd (hopen.symm.trans h.closed) nofun
  | closeHandler => exact absurd rfl hop
  | _ => exact ⟨h.closed, h.closes, h.nobody.act ht (by simp)⟩

theorem lost_step (h : Lost s) (hstep : (program.machine n).step s label = some s') :
    Lost s' := by
  cases Program.step_cases hstep with
  | @call t call ht =>
      refine ⟨h.closed, h.closes, h.nobody.update ?_⟩
      rintro op hop rfl
      cases call <;> cases List.mem_singleton.mp hop
  | act ht hexec => exact lost_act h ht (exec_cases hexec).closing

theorem nobody_of_due (h : due s = 0) :
    Program.Everywhere (fun _ op => op ≠ .closeHandler) s := by
  rintro t op hop rfl
  cases Program.load_eq_zero_iff.mp h t _ hop

/-- A send that overflows the buffer of an open session loses it. -/
theorem lost_of_overflow (h : Announced s) (hfull : ¬ Fits s label)
    (hstep : (program.machine n).step s label = some s') : Lost s' := by
  cases Program.step_cases hstep with
  | call _ => exact absurd trivial hfull
  | @act t world op rest ops c' ht hexec =>
      change ¬ s.shared.HasRoom (s.todo t) at hfull
      rw [ht] at hfull
      cases exec_cases hexec with
      | overflow session _ hsession =>
          have hopen : s.shared.session.closed = false :=
            Bool.eq_false_of_not_eq_true fun hclosed => hfull fun _ _ => Or.inr hclosed
          unfold Announced at h
          rw [hopen, if_neg nofun] at h
          obtain ⟨hcloses, hdue⟩ := Nat.add_eq_zero_iff.mp h
          refine ⟨by rw [hsession]; rfl, hcloses, (nobody_of_due hdue).act ht ?_⟩
          rintro _ op hop rfl
          cases (after_weightless _ _ _ hop).1
      | enqueue _ hfits _ =>
          refine absurd (fun bytes hbytes => ?_) hfull
          cases hbytes
          exact Or.inl hfits
      | read _ hreads _ =>
          refine absurd (fun bytes hbytes => ?_) hfull
          cases op <;> cases hreads <;> cases hbytes
      | _ => exact absurd nofun hfull

/-! ## A pass of the reactor -/

/-- Over a closed session the flushes of a pass do nothing. -/
theorem pass_flushes {t : Fin n} {rest : List Op} (count : ℕ)
    (ht : s.todo t = .flushPending count :: rest)
    (hclosed : s.shared.session.closed = true) :
    ∃ s', Relation.ReflTransGen (program.Moves t) s s' ∧ s'.todo t = rest ∧
      s'.shared = s.shared := by
  induction count generalizing s with
  | zero => exact ⟨_, .single (Program.moves_act {} ht rfl), Threads.move_self .., rfl⟩
  | succ count ih =>
      have hexec : exec {} (.flushPending (count + 1)) s.shared = some (s.shared,
        (if s.shared.held then [.onWritable] else []) ++ [.flushPending count]) := rfl
      have hmove := Program.moves_act (P := program) {} ht hexec
      cases hheld : s.shared.held with
      | false =>
          rw [hheld] at hmove
          obtain ⟨s', hruns, htodo, hshared⟩ := ih (Threads.move_self ..) hclosed
          exact ⟨s', .head hmove hruns, htodo, hshared⟩
      | true =>
          rw [hheld] at hmove
          have hwritable : exec {} .onWritable s.shared = some (s.shared, []) := by
            rw [exec, hclosed]
            rfl
          have hmove' := Program.moves_act (P := program) ({} : World)
            (Threads.move_self s t s.shared (.onWritable :: .flushPending count :: rest))
            hwritable
          obtain ⟨s', hruns, htodo, hshared⟩ := ih (Threads.move_self ..) hclosed
          exact ⟨s', .head hmove (.head hmove' hruns), htodo, hshared⟩

theorem pass_closes {t : Fin n} {rest : List Op} (count : ℕ)
    (ht : s.todo t = .closePending count :: rest) :
    ∃ s', Relation.ReflTransGen (program.Moves t) s s' ∧ s'.todo t = rest ∧
      s'.shared.retirements = s.shared.retirements + count := by
  induction count generalizing s with
  | zero => exact ⟨_, .single (Program.moves_act {} ht rfl), Threads.move_self .., rfl⟩
  | succ count ih =>
      have hmove := Program.moves_act (P := program) {} ht rfl
      obtain ⟨s', hruns, htodo, hretired⟩ := ih (Threads.move_self ..)
      refine ⟨s', .head hmove hruns, htodo, hretired.trans ?_⟩
      show s.shared.retirements + 1 + count = _
      omega

theorem pass_takes {t : Fin n} (ht : s.todo t = []) :
    ∃ s', Relation.ReflTransGen (program.Moves t) s s' ∧
      s'.todo t =
        [.flushPending s.shared.needFlush, .closePending s.shared.needClose] ∧
      s'.shared = { s.shared with wakeup := false, needFlush := 0, needClose := 0 } := by
  have hcalled := Program.moves_call (P := program) ht Call.drainWakeup
  have hdrained := Program.moves_act (P := program) ({} : World)
    (Threads.move_self s t s.shared [.drainWakeup]) rfl
  have htaking := Program.moves_act (P := program) ({} : World)
    (Threads.move_self (s.move t s.shared [.drainWakeup]) t
      { s.shared with wakeup := false } [.servicePending]) rfl
  exact ⟨_, .head hcalled (.head hdrained (.single htaking)), Threads.move_self .., rfl⟩

/-- A pass of an idle thread retires everything that is filed. -/
theorem pass_retires {t : Fin n} (ht : s.todo t = [])
    (hclosed : s.shared.session.closed = true) :
    ∃ s', Relation.ReflTransGen (program.Moves t) s s' ∧ s'.todo t = [] ∧
      s'.shared.retirements = s.shared.retirements + s.shared.needClose := by
  obtain ⟨taking, htaking, htodo, hshared⟩ := pass_takes ht
  obtain ⟨flushed, hflushed, htodo', hshared'⟩ := pass_flushes _ htodo (by rw [hshared, hclosed])
  obtain ⟨s', hs', hidle, hretired⟩ := pass_closes _ htodo'
  refine ⟨s', htaking.trans (hflushed.trans hs'), hidle, ?_⟩
  rw [hretired, hshared', hshared]

/-! ## Retiring a closed session -/

/-- No call on the session is in progress. -/
def Quiet (s : Threads Connection Op n) : Prop :=
  Program.Everywhere (fun _ op => op.ofReactor = true) s

instance (s : Threads Connection Op n) : Decidable (Quiet s) :=
  inferInstanceAs (Decidable (∀ t, ∀ op ∈ s.todo t, op.ofReactor = true))

/-- The handler was invoked exactly once, so the descriptor is filed, with the reactor
woken, or taken by a pass, or retired; and whichever thread is the reactor, once all are
idle a pass of it leaves the descriptor unregistered and the session dropped. -/
structure Retired (s : Threads Connection Op n) : Prop where
  once : s.shared.closes = 1
  place : s.shared.needClose + taken s + s.shared.retirements = 1
  woken : s.shared.needClose = 0 ∨ s.shared.wakeup = true ∨
    Program.Awaits (fun op => op = .servicePending) s
  dropped : 0 < s.shared.retirements →
    s.shared.registered = false ∧ s.shared.held = false
  pass : (∀ u, s.todo u = []) → ∀ reactor, ∃ s',
    Relation.ReflTransGen (program.Moves reactor) s s' ∧ s'.todo reactor = [] ∧
      s'.shared.registered = false ∧ s'.shared.held = false

theorem Filed.dropped (h : Filed s) (hretired : 0 < s.shared.retirements) :
    s.shared.registered = false ∧ s.shared.held = false := by
  have hne := decide_eq_false (Nat.ne_of_gt hretired)
  exact ⟨h.registered.trans hne, h.held.trans hne⟩

theorem filed_moves {t : Fin n} (h : Filed s)
    (hmoves : Relation.ReflTransGen (program.Moves t) s s') : Filed s' := by
  induction hmoves with
  | refl => exact h
  | tail _ hmove ih =>
      rcases hmove with ⟨call, hstep⟩ | ⟨world, hstep⟩
      · exact filed_step ih hstep
      · exact filed_step ih hstep

theorem retired_of_once (h : Filed s) (hquiet : Quiet s)
    (hclosed : s.shared.session.closed = true) (honce : s.shared.closes = 1) : Retired s := by
  have hplace := h.places.trans honce
  refine ⟨honce, hplace, ?_, h.dropped, ?_⟩
  · refine h.woken.imp id (Or.imp id ?_)
    rintro ⟨t, op, hop, rfl | rfl⟩
    · cases hquiet t _ hop
    · exact ⟨t, _, hop, rfl⟩
  · intro hidle reactor
    have htaken : taken s = 0 := Program.load_eq_zero_iff.mpr fun t op hop => by
      rw [hidle t] at hop
      cases hop
    obtain ⟨s', hmoves, hdone, hretired⟩ := pass_retires (hidle reactor) hclosed
    exact ⟨s', hmoves, hdone, (filed_moves h hmoves).dropped (by omega)⟩

/-- **A closed session is retired exactly if no send overflowed the buffer of the open
session**, for every interleaving of the calls of any number of threads. -/
theorem session_retired {labels : List (Program.Label World Call n)}
    (h : (program.machine n).run (accept maxOutbound n) labels = some s)
    (hclosed : s.shared.session.closed = true) (hquiet : Quiet s) :
    Retired s ↔
      ((program.machine n).within Fits).run (accept maxOutbound n) labels = some s := by
  have hfiled := Machine.run_invariant (I := Filed) filed_step filed_accept h
  constructor
  · intro hretired
    rcases Machine.run_within_or Fits h with hwithin | ⟨front, label, back, mid, hfront,
      hfull, hback⟩
    · exact hwithin
    · have hannounced := Machine.run_invariant (I := Announced) announced_step
        announced_accept hfront
      obtain ⟨next, hnext, hrest⟩ := Option.bind_eq_some_iff.mp hback
      have hlost := Machine.run_invariant (I := Lost) lost_step
        (lost_of_overflow hannounced hfull hnext) hrest
      exact absurd (hlost.closes.symm.trans hretired.once) nofun
  · intro hwithin
    have hannounced := Machine.run_invariant (I := Announced) announced_step
      announced_accept hwithin
    have hdue : due s = 0 := Program.load_eq_zero_iff.mpr fun t op hop => by
      have hreactor := hquiet t op hop
      cases op <;> first | rfl | cases hreactor
    unfold Announced at hannounced
    rw [hclosed, if_pos rfl, hdue, add_zero] at hannounced
    exact retired_of_once hfiled hquiet hclosed hannounced

end Runs

/-- The peer hangs up while two threads close the session as well. -/
def closedThrice : List (Program.Label World Call 3) :=
  [.call 0 (.ready true false false), .call 1 .close, .act 0 {}, .call 2 .close, .act 1 {},
    .act 0 {}, .act 2 {}, .act 1 {}, .act 1 {}]

theorem session_retired_thrice :
    ∃ s, (program.machine 3).run (accept 64 3) closedThrice = some s ∧ Retired s := by
  have hrun : (((program.machine 3).within Fits).run (accept 64 3) closedThrice).map
      (fun s => decide (s.shared.session.closed = true ∧ Quiet s)) = some true := by
    decide +kernel
  obtain ⟨s, hs, hstate⟩ := Option.map_eq_some_iff.mp hrun
  obtain ⟨hclosed, hquiet⟩ := of_decide_eq_true hstate
  have hplain := Machine.run_of_within hs
  exact ⟨s, hplain, (session_retired hplain hclosed hquiet).mpr hs⟩

/-- The thread beside the reactor. -/
def deliverer : Fin 2 := ⟨1, Nat.one_lt_two⟩

/-- More is delivered to a client than its buffer may hold. -/
def slowClient : List (Program.Label World Call 2) :=
  [.call deliverer (.deliver [1, 2, 3, 4, 5]), .act deliverer {}, .act deliverer {},
    .act deliverer {}, .act deliverer {}]

/-- The session is closed and no call is in progress, but the handler was not invoked,
nothing is filed, and the session is registered and held. -/
theorem slow_client_kept :
    ∃ s, (program.machine 2).run (accept 4 2) slowClient = some s ∧
      s.shared.session.closed = true ∧ Quiet s ∧ s.shared.closes = 0 ∧
      s.shared.needClose = 0 ∧ s.shared.registered = true ∧ s.shared.held = true := by
  have hrun : ((program.machine 2).run (accept 4 2) slowClient).map
      (fun s => decide (s.shared.session.closed = true ∧ Quiet s ∧ s.shared.closes = 0 ∧
        s.shared.needClose = 0 ∧ s.shared.registered = true ∧ s.shared.held = true)) =
        some true := by
    decide +kernel
  obtain ⟨s, hs, hstate⟩ := Option.map_eq_some_iff.mp hrun
  exact ⟨s, hs, of_decide_eq_true hstate⟩

end Connection

end Exchange.Net
