import Exchange.Store.Forgetting
import Exchange.Store.Journal

/-!
# The log and the book

A recovery of the file an engine leaves, against the book the engine holds. A
replay of the commands the log took runs beside the engine; the book it builds
looks like the live one as long as no iceberg that was logged as a limit order
outgrows its display.
-/

namespace Exchange

open Framework WriteAheadLog

/-! ## What books are compared by -/

structure OrderImage where
  id : OrderId
  account : AccountId
  remaining : Quantity
  visible : Quantity
  sequence : Sequence
deriving DecidableEq, Repr

def Order.image (o : Order) : OrderImage :=
  { id := o.id, account := o.account, remaining := o.remaining,
    visible := o.visibleQty, sequence := o.sequence }

/-- One side of a book: its price levels, best first, each with its queue. -/
def Book.image (b : Book) (s : Side) : List (Price × List OrderImage) :=
  (b.side s).levels.entries.map fun e => (e.1, e.2.orders.map fun n => n.order.image)

def Ladder.image (l : Ladder) : List (Price × List OrderImage) :=
  l.map fun e => (e.1, e.2.map Order.image)

theorem Book.image_eq (b : Book) (s : Side) : b.image s = (b.view.ladder s).image := by
  rw [Book.view_ladder]
  unfold Book.image Ladder.image ladderOf
  rw [List.map_map]
  refine List.map_congr_left fun e _ => ?_
  simp [Function.comp_def]

theorem forget_image (o : Order) :
    o.forget.image = { o.image with visible := o.remaining } := by
  obtain ⟨_, _, _, _, _, kind⟩ := o
  cases kind <;> rfl

/-- The forgetful image of a ladder looks the same exactly if what lost its type
shows all it has. -/
theorem image_forgetIn (lost : List OrderId) (l : Ladder) :
    (l.mapOrders (forgetIn lost)).image = l.image ↔
      ∀ o ∈ l.orders, o.id ∈ lost → o.visibleQty = o.remaining := by
  have hone : ∀ o, (forgetIn lost o).image = o.image ↔
      (o.id ∈ lost → o.visibleQty = o.remaining) := by
    intro o
    unfold forgetIn
    split
    · rename_i hlost
      rw [forget_image]
      simp [hlost, Order.image, eq_comm]
    · rename_i hlost
      simp [hlost]
  unfold Ladder.image Ladder.mapOrders
  rw [List.map_map, List.map_inj_left]
  simp only [Function.comp_def, Prod.mk.injEq, true_and, List.map_map, List.map_inj_left,
    hone, Ladder.mem_orders]
  constructor
  · rintro h o ⟨e, he, ho⟩
    exact h e he o ho
  · exact fun h e he o ho => h o ⟨e, he, ho⟩

/-! ## A replay beside the run -/

abbrev Applied : Type := List (Command × Except Ending ApplyOutcome)

/-- The ids whose orders the log has as limit orders though they are icebergs. -/
def lostIds (applied : Applied) : List OrderId := applied.foldl lostAfter []

/-- A replay that has kept up with a run. -/
structure Mirrors (memory : BookMemory) (applied : Applied) (ended : Bool)
    (st : Replaying) : Prop where
  live : WellFormed memory
  replayed : WellFormed st.memory
  view : st.memory.state.view = memory.state.view.mapOrders (forgetIn (lostIds applied))
  outcomes : st.outcomes = applied.map Prod.snd
  result : st.result.isOk = !ended

section Mirrors

variable {memory : BookMemory} {applied : Applied} {ended : Bool} {st : Replaying}

theorem lostIds_snoc (applied : Applied) (x : Command × Except Ending ApplyOutcome) :
    lostIds (applied ++ [x]) = lostAfter (lostIds applied) x := by
  unfold lostIds
  rw [List.foldl_append, List.foldl_cons, List.foldl_nil]

theorem lostAfter_error (lost : List OrderId) (c : Command) (f : Ending) :
    lostAfter lost (c, .error f) = lost := by
  cases c <;> rfl

theorem Mirrors.image (h : Mirrors memory applied ended st) :
    (∀ s, st.memory.state.image s = memory.state.image s) ↔
      ∀ s, ∀ o ∈ (memory.state.view.ladder s).orders, o.id ∈ lostIds applied →
        o.visibleQty = o.remaining := by
  refine forall_congr' fun s => ?_
  rw [Book.image_eq, Book.image_eq, h.view, Market.ladder_mapOrders]
  exact image_forgetIn _ _

/-- A refusal of the market, as the engine and the report see it. -/
theorem isOk_note {f : Ending} {M : Market} {c : Command} (h : M.applyCommand c = .error f)
    (report : RecoveryReport) (n : Sequence) :
    (report.note n (.error f)).isOk = Engine.caught (.error f) := by
  unfold Market.applyCommand at h
  cases hop : M.apply c.op with
  | ok r => rw [hop] at h; cases h
  | error f' =>
      rw [hop] at h
      cases h
      rcases Market.apply_error hop with ⟨what, rfl⟩ | rfl <;> rfl

/-- **One command, on both sides.** -/
theorem Mirrors.step (h : Mirrors memory applied false st)
    (hw : AllWhole (lostIds applied) memory.state.view) (c : Command) (n : Sequence) :
    Mirrors (applyCommand c plenty memory).2
      (applied ++ [(c, (applyCommand c plenty memory).1)])
      (!Engine.caught (applyCommand c plenty memory).1)
      (replayOne plenty st ⟨n, c.stored⟩) := by
  obtain ⟨report, hreport⟩ : ∃ report, st.result = .ok report := by
    cases hr : st.result with
    | ok report => exact ⟨report, rfl⟩
    | error f =>
        have := h.result
        rw [hr] at this
        cases this
  have hsim := applyCommand_stored hw c
  rw [← h.view] at hsim
  obtain ⟨hwf, hlive⟩ := applyCommand_plenty h.live c
  obtain ⟨hwf', hrep⟩ := applyCommand_plenty h.replayed c.stored
  unfold replayOne
  rw [hreport]
  dsimp only
  -- The markets end alike, so the books succeed together or fail together.
  rcases hlive with ⟨f, hM, hr, hstate⟩ | ⟨out, hr, hM⟩
  · rw [hM] at hsim
    rcases hrep with ⟨f', hN, hr', hstate'⟩ | ⟨out', _, hN⟩
    · rw [hN] at hsim
      cases hsim
      refine ⟨hwf, hwf', ?_, ?_, ?_⟩
      · rw [hr, lostIds_snoc, lostAfter_error, hstate, hstate']
        exact h.view
      · rw [hr, hr', h.outcomes, List.map_append]
        rfl
      · rw [hr, hr', Bool.not_not]
        exact isOk_note hN report n
    · rw [hN] at hsim
      cases hsim
  · rw [hM] at hsim
    rcases hrep with ⟨f', hN, _, _⟩ | ⟨out', hr', hN⟩
    · rw [hN] at hsim
      cases hsim
    · rw [hN] at hsim
      obtain ⟨rfl, hview⟩ := Prod.mk.inj (Except.ok.inj hsim)
      refine ⟨hwf, hwf', ?_, ?_, ?_⟩
      · rw [hr, lostIds_snoc]
        exact hview
      · rw [hr, hr', h.outcomes, List.map_append]
        rfl
      · rw [hr, hr', RecoveryReport.note]
        split <;> rfl

end Mirrors

/-! ## Runs -/

namespace Engine

variable {e : Engine WriteAheadLog} {io : AppendIo} {command : Command}
  (onFill : FillHandler)

/-- The command does not amend an order that lost its type beyond its display size
and back into the book. -/
def KeepsKind (e : Engine WriteAheadLog) (command : Command) : Prop :=
  Exchange.KeepsKind (lostIds e.applied) e.memory.state.view command

instance (e : Engine WriteAheadLog) (command : Command) : Decidable (e.KeepsKind command) :=
  inferInstanceAs (Decidable (Exchange.KeepsKind _ _ _))

/-- The replay of logged commands into a fresh book. -/
def replaying (report : RecoveryReport) (commands : List Command) : Replaying :=
  ((numbered 1 commands).map WalRecord.stored).foldl (replayOne plenty)
    { result := .ok report, memory := { state := {} } }

theorem replaying_snoc (report : RecoveryReport) (commands : List Command) (c : Command) :
    replaying report (commands ++ [c]) =
      replayOne plenty (replaying report commands)
        ⟨1 + UInt64.ofNat commands.length, c.stored⟩ := by
  unfold replaying
  rw [numbered_append, List.map_append, List.foldl_append]
  rfl

/-- The engine and a replay of what it applied. -/
def Mirrored (e : Engine WriteAheadLog) : Prop :=
  ∀ report, Mirrors e.memory e.applied e.ended
    (replaying report (e.applied.map Prod.fst))

/-- The log, the book and a replay are in step. -/
structure InStep (e : Engine WriteAheadLog) : Prop where
  journals : e.Journals
  mirrored : e.Mirrored
  whole : AllWhole (lostIds e.applied) e.memory.state.view

theorem inStep_start (config : WalConfig) (now : Time) :
    InStep { log := some (construct config none now) } where
  journals := journals_start config now
  mirrored report := ⟨wellFormed_empty, wellFormed_empty, rfl, rfl, rfl⟩
  whole s e he := by cases s <;> cases he

theorem InStep.turn_mirrored (h : e.InStep) (going : e.ended = false)
    (hsafe : e.LogSafe io command) :
    (e.turn walLog onFill plenty io command).Mirrored := by
  intro report
  cases (turn_safe onFill h.journals hsafe).2 with
  | logged _ _ hm happ hend =>
      have hmir := h.mirrored report
      rw [going] at hmir
      rw [hm, happ, hend, going, Bool.false_or, List.map_append, List.map_singleton,
        replaying_snoc]
      exact hmir.step h.whole command _
  | refused _ hm happ hend =>
      rw [hm, happ, hend]
      exact h.mirrored report

/-- **A turn that keeps the log safe and the types keeps everything in step.** -/
theorem InStep.turn (h : e.InStep) (going : e.ended = false) (hsafe : e.LogSafe io command)
    (hkeeps : e.logs io command = true → e.KeepsKind command) :
    (e.turn walLog onFill plenty io command).InStep := by
  obtain ⟨hj, hturned⟩ := turn_safe onFill h.journals hsafe
  refine ⟨hj, h.turn_mirrored onFill going hsafe, ?_⟩
  cases hturned with
  | logged hlogs _ hm happ _ =>
      have hlive := (h.mirrored {}).live
      rw [hm, happ, lostIds_snoc]
      rcases (applyCommand_plenty hlive command).2 with ⟨f, _, hr, hstate⟩ | ⟨out, hr, hM⟩
      · -- A command the book refuses changes neither the book nor what is lost.
        rw [hr, lostAfter_error, hstate]
        exact h.whole
      · rw [hr]
        exact (allWhole_step hlive.valid h.whole hM).1 (hkeeps hlogs)
  | refused _ hm happ _ =>
      rw [hm, happ]
      exact h.whole

/-- A recovery of the file is the replay of what was applied. -/
theorem Journals.recovered (h : e.Journals) :
    ∃ report,
      e.recovered.memory = (replaying report (e.applied.map Prod.fst)).memory ∧
      e.recovered.outcomes = (replaying report (e.applied.map Prod.fst)).outcomes ∧
      e.recovered.result = (replaying report (e.applied.map Prod.fst)).result := by
  obtain ⟨log, hl, torn, hlog, _⟩ := h
  have hdisk : e.disk = some log.file.bytes := by
    unfold disk
    rw [hl]
    rfl
  unfold Engine.recovered recoverBookOnly replaying
  rw [hdisk, hlog.replay]
  exact ⟨_, rfl, rfl, rfl⟩

/-- The recovered book looks like the live one. -/
def Agrees (e : Engine WriteAheadLog) : Prop :=
  ∀ s, e.recovered.memory.state.image s = e.memory.state.image s

theorem agrees_iff (hj : e.Journals) (hm : e.Mirrored) :
    e.Agrees ↔ ∀ s, ∀ o ∈ (e.memory.state.view.ladder s).orders,
      o.id ∈ lostIds e.applied → o.visibleQty = o.remaining := by
  obtain ⟨report, hmemory, _⟩ := hj.recovered
  unfold Agrees
  rw [hmemory]
  exact (hm report).image

theorem InStep.agrees (h : e.InStep) :
    e.Agrees ∧ e.recovered.outcomes = e.applied.map Prod.snd ∧
      e.recovered.result.isOk = !e.ended := by
  refine ⟨?_, ?_⟩
  · rw [agrees_iff h.journals h.mirrored]
    intro s o ho hlost
    obtain ⟨entry, hentry, hmem⟩ := Ladder.mem_orders.mp ho
    exact (h.whole s entry hentry o hmem hlost).visibleQty
  · obtain ⟨report, _, houtcomes, hresult⟩ := h.journals.recovered
    rw [houtcomes, hresult]
    exact ⟨(h.mirrored report).outcomes, (h.mirrored report).result⟩

/-- **The condition is needed.** Once a command is logged that breaks it, the
books differ. -/
theorem InStep.turn_agrees (h : e.InStep) (going : e.ended = false)
    (hsafe : e.LogSafe io command) (hlogs : e.logs io command = true) :
    (e.turn walLog onFill plenty io command).Agrees ↔ e.KeepsKind command := by
  obtain ⟨hj, hturned⟩ := turn_safe onFill h.journals hsafe
  refine ⟨fun hagrees => ?_, fun hkeeps =>
    (h.turn onFill going hsafe fun _ => hkeeps).agrees.1⟩
  rw [agrees_iff hj (h.turn_mirrored onFill going hsafe)] at hagrees
  have hlive := (h.mirrored {}).live
  obtain ⟨hm, happ⟩ := hturned.of_logs hlogs
  rcases (applyCommand_plenty hlive command).2 with ⟨f, hM, _⟩ | ⟨out, hr, hM⟩
  · exact keepsKind_of_error hM
  · by_contra hn
    -- The order that outgrew its display stands out in the book.
    obtain ⟨s, o, ho, hlost, hne⟩ := (allWhole_step hlive.valid h.whole hM).2 hn
    rw [hm, happ, lostIds_snoc, hr] at hagrees
    exact hne (hagrees s o ho hlost)

end Engine

/-! ## Recovery reproduces the live book -/

/-- Neither a `write` nor a sync fails. Short and interrupted writes are no
failures. -/
def AppendIo.Faultless (io : AppendIo) : Prop :=
  (∀ reply ∈ io.writes, reply ≠ .failed ∧ reply ≠ .wrote 0) ∧ io.syncFails = false

instance (io : AppendIo) : Decidable io.Faultless :=
  inferInstanceAs (Decidable (_ ∧ _))

theorem writeFully_faultless : ∀ (replies : List WriteReply) (bytes : Bytes),
    (∀ reply ∈ replies, reply ≠ .failed ∧ reply ≠ .wrote 0) →
      (writeFully replies bytes).2 = true := by
  intro replies
  induction replies with
  | nil =>
      intro bytes _
      cases bytes <;> rfl
  | cons reply replies ih =>
      intro bytes h
      obtain ⟨hreply, hreplies⟩ := List.forall_mem_cons.mp h
      cases bytes with
      | nil => cases reply <;> rfl
      | cons b bytes =>
          cases reply with
          | interrupted => exact ih _ hreplies
          | failed => exact absurd rfl hreply.1
          | wrote n =>
              have hpos : 0 < n := by
                rw [Nat.pos_iff_ne_zero]
                rintro rfl
                exact hreply.2 rfl
              rw [writeFully, if_pos hpos]
              · exact ih _ hreplies
              · exact List.cons_ne_nil _ _

theorem AppendIo.Faultless.goesThrough {io : AppendIo} (h : io.Faultless)
    (log : WriteAheadLog) (command : Command) : log.goesThrough io command = true := by
  rw [goesThrough_eq (writeFully_faultless _ _ h.1), h.2, Bool.and_false]
  rfl

namespace Engine

variable {config : WalConfig} {now : Time} {onFill : FillHandler}
  {e : Engine WriteAheadLog} {io : AppendIo} {command : Command}

theorem InStep.logs (h : e.InStep) (hio : io.Faultless) (command : Command) :
    e.logs io command = true := by
  obtain ⟨log, hl, _⟩ := h.journals
  unfold Engine.logs
  rw [hl]
  exact hio.goesThrough log command

theorem Clean.logSafe (h : e.Clean) (hio : io.Faultless) (command : Command) :
    e.LogSafe io command := by
  intro log hl
  unfold Safe
  rw [if_pos (hio.goesThrough log command)]
  exact h log hl

theorem reaches_faultless (h : Reaches config now onFill
    (fun e io command => io.Faultless ∧ e.KeepsKind command) e) :
    e.InStep ∧ e.Clean := by
  induction h with
  | start =>
      refine ⟨inStep_start config now, fun log hl => ?_⟩
      cases hl
      rfl
  | turn io command _ going ok ih =>
      obtain ⟨hstep, hclean⟩ := ih
      have hsafe := hclean.logSafe ok.1 command
      refine ⟨hstep.turn onFill going hsafe fun _ => ok.2, ?_⟩
      cases (turn_safe onFill hstep.journals hsafe).2 with
      | logged _ hclean' => exact hclean'
      | refused hno =>
          rw [hstep.logs ok.1 command] at hno
          cases hno

/-- **Recovery reproduces the live book** in every run in which no order that was
logged without its type is amended beyond its display size and back into the book.
The books look the same and the same fills were produced. From any state of such
a run, a command that breaks the condition makes the books differ. -/
theorem recovery_reproduces (h : Reaches config now onFill
    (fun e io command => io.Faultless ∧ e.KeepsKind command) e) :
    e.Agrees ∧ e.recovered.outcomes = e.applied.map Prod.snd ∧
    e.recovered.result.isOk = !e.ended ∧
    ∀ io command, e.ended = false → io.Faultless →
      (e.turn walLog onFill plenty io command).applied =
        e.applied ++ [(command, (applyCommand command plenty e.memory).1)] ∧
      ((e.turn walLog onFill plenty io command).Agrees ↔ e.KeepsKind command) := by
  obtain ⟨hstep, hclean⟩ := reaches_faultless h
  obtain ⟨hagrees, houtcomes, hresult⟩ := hstep.agrees
  refine ⟨hagrees, houtcomes, hresult, fun io command going hio => ?_⟩
  have hsafe := hclean.logSafe hio command
  have hlogs := hstep.logs hio command
  exact ⟨((turn_safe onFill hstep.journals hsafe).2.of_logs hlogs).2,
    hstep.turn_agrees onFill going hsafe hlogs⟩

/-- An engine on a fresh log. -/
def fresh (policy : SyncPolicy) : Engine WriteAheadLog :=
  { log := some (construct { path := "wal", policy } none 0) }

/-- A callback that never throws. -/
def quiet : FillHandler := fun _ _ => none

/-- The turns of a run one after the other. -/
def turns (e : Engine WriteAheadLog) : List (AppendIo × Command) → Engine WriteAheadLog
  | [] => e
  | (io, command) :: steps => turns (e.turn walLog quiet plenty io command) steps

/-- Every turn is one that is allowed. -/
def Allows (allowed : Engine WriteAheadLog → AppendIo → Command → Prop)
    (e : Engine WriteAheadLog) : List (AppendIo × Command) → Prop
  | [] => True
  | (io, command) :: steps => e.ended = false ∧ allowed e io command ∧
      Allows allowed (e.turn walLog quiet plenty io command) steps

instance decidableAllows (allowed : Engine WriteAheadLog → AppendIo → Command → Prop)
    [∀ e io command, Decidable (allowed e io command)] :
    ∀ (e : Engine WriteAheadLog) steps, Decidable (Allows allowed e steps)
  | _, [] => .isTrue trivial
  | e, (io, command) :: steps =>
      have := decidableAllows allowed (e.turn walLog quiet plenty io command) steps
      inferInstanceAs (Decidable (_ ∧ _ ∧ _))

theorem Reaches.turns {allowed : Engine WriteAheadLog → AppendIo → Command → Prop} :
    ∀ (steps : List (AppendIo × Command)) {e : Engine WriteAheadLog},
      Reaches config now quiet allowed e → Allows allowed e steps →
        Reaches config now quiet allowed (e.turns steps)
  | [], _, h, _ => h
  | (io, command) :: steps, _, h, hsteps =>
      Reaches.turns steps (.turn io command h hsteps.1 hsteps.2.1) hsteps.2.2

/-- An iceberg of ten lots that shows ten. -/
def wholeIceberg : BuiltOrder := ⟨icebergOrder 1 .buy 7 10 100 10, .iceberg _ _ _ _ _ _⟩

/-- Amended to twenty lots, the live iceberg shows ten of them and the recovered
limit order all. -/
theorem recovery_reveals :
    let e := (fresh .batch).turns [({}, .submit wholeIceberg), ({}, .modify 1 20 none)]
    Reaches { path := "wal" } 0 quiet (fun _ io _ => io.Faultless) e ∧
    e.memory.state.image .buy = [(100, [⟨1, 7, 20, 10, 2⟩])] ∧
    e.recovered.memory.state.image .buy = [(100, [⟨1, 7, 20, 20, 2⟩])] :=
  ⟨Reaches.turns _ .start (by decide +kernel), by decide +kernel, by decide +kernel⟩

/-- Amended to eight lots, it is the same in both. -/
theorem recovery_reproduces_reduced :
    let e := (fresh .batch).turns [({}, .submit wholeIceberg), ({}, .modify 1 8 none)]
    e.applied.length = 2 ∧ e.Agrees ∧ e.recovered.outcomes = e.applied.map Prod.snd := by
  have hrun : Reaches { path := "wal" } 0 quiet
      (fun e io command => io.Faultless ∧ e.KeepsKind command)
      ((fresh .batch).turns [({}, .submit wholeIceberg), ({}, .modify 1 8 none)]) :=
    Reaches.turns _ .start (by decide +kernel)
  obtain ⟨hagrees, houtcomes, _⟩ := recovery_reproduces hrun
  exact ⟨by decide +kernel, hagrees, houtcomes⟩

/-! ## The log and the book, whatever storage does -/

theorem reaches_journals (h : Reaches config now onFill
    (fun e io command => e.LogSafe io command) e) : e.Journals := by
  induction h with
  | start => exact journals_start config now
  | turn io command _ _ ok ih => exact (turn_safe onFill ih ok).1

theorem reaches_inStep (h : Reaches config now onFill
    (fun e io command => e.LogSafe io command ∧
      (e.logs io command = true → e.KeepsKind command)) e) : e.InStep := by
  induction h with
  | start => exact inStep_start config now
  | turn io command _ going ok ih => exact ih.turn onFill going ok.1 ok.2

theorem Journals.same (h : e.Journals) :
    List.Forall₂ Command.Same (e.applied.map Prod.fst)
      ((replay e.disk).records.map WalRecord.command) := by
  obtain ⟨log, hl, torn, hlog, _⟩ := h
  have hcommands : ∀ n commands, List.Forall₂ Command.Same commands
      (((numbered n commands).map WalRecord.stored).map WalRecord.command) := by
    intro n commands
    induction commands generalizing n with
    | nil => exact .nil
    | cons c commands ih => exact .cons (WalRecord.same_stored ⟨n, c⟩).command (ih _)
  unfold disk
  rw [hl, Option.map_some, hlog.replay]
  exact hcommands 1 _

/-- **The log and the book agree** in every run in which an append goes through
only on a file without a torn end, and none that fails leaves a record to be read.
The file then holds the commands that were applied and no others, and while no type
is lost besides, the recovered book is the live one. -/
theorem log_and_book_agree :
    (Reaches config now onFill (fun e io command => e.LogSafe io command) e →
      List.Forall₂ Command.Same (e.applied.map Prod.fst)
        ((replay e.disk).records.map WalRecord.command)) ∧
    (Reaches config now onFill (fun e io command => e.LogSafe io command ∧
        (e.logs io command = true → e.KeepsKind command)) e →
      e.Agrees ∧ e.recovered.outcomes = e.applied.map Prod.snd ∧
        e.recovered.result.isOk = !e.ended) :=
  ⟨fun h => (reaches_journals h).same, fun h => (reaches_inStep h).agrees⟩

/-- A bid of five lots at 100. -/
def bid (id : OrderId) : Command :=
  .submit ⟨limitOrder id .buy 7 5 100, .limit _ _ _ _ _⟩

/-- One byte of the first record is written before the write fails. -/
def writtenBehind : Engine WriteAheadLog :=
  (fresh .batch).turns [({ writes := [.wrote 1, .failed] }, bid 1), ({}, bid 2)]

/-- The record is written, and forcing it out fails. -/
def unforced : Engine WriteAheadLog :=
  (fresh .always).turns [({ syncFails := true }, bid 1)]

/-- Nothing behind a torn record is replayed, and a record that was written but not
forced out is replayed although it was never applied. -/
theorem log_and_book_disagree :
    (Reaches { path := "wal" } 0 quiet (fun _ _ _ => True) writtenBehind ∧
      writtenBehind.memory.state.image .buy = [(100, [⟨2, 7, 5, 5, 1⟩])] ∧
      writtenBehind.recovered.memory.state.image .buy = []) ∧
    (Reaches { path := "wal", policy := .always } 0 quiet (fun _ _ _ => True) unforced ∧
      unforced.memory.state.image .buy = [] ∧
      unforced.recovered.memory.state.image .buy = [(100, [⟨1, 7, 5, 5, 1⟩])]) := by
  refine ⟨⟨Reaches.turns _ .start ?_, ?_, ?_⟩, Reaches.turns _ .start ?_, ?_, ?_⟩
  all_goals decide +kernel

/-- A bid is applied; the write of a second one fails after a byte, and that of a
third at once. -/
def tornRun : List (AppendIo × Command) :=
  [({}, bid 1), ({ writes := [.wrote 1, .failed] }, bid 2),
    ({ writes := [.failed] }, bid 3)]

theorem log_and_book_agree_torn :
    ((fresh .batch).turns tornRun).storageFailures = 2 ∧
    List.Forall₂ Command.Same (((fresh .batch).turns tornRun).applied.map Prod.fst)
      ((replay ((fresh .batch).turns tornRun).disk).records.map WalRecord.command) ∧
    ((fresh .batch).turns tornRun).Agrees := by
  have hsafe : Reaches { path := "wal" } 0 quiet
      (fun e io command => e.LogSafe io command) ((fresh .batch).turns tornRun) :=
    Reaches.turns _ .start (by decide +kernel)
  have hkeeps : Reaches { path := "wal" } 0 quiet
      (fun e io command => e.LogSafe io command ∧
        (e.logs io command = true → e.KeepsKind command))
      ((fresh .batch).turns tornRun) :=
    Reaches.turns _ .start (by decide +kernel)
  exact ⟨by decide +kernel, log_and_book_agree.1 hsafe, (log_and_book_agree.2 hkeeps).1⟩

end Engine

end Exchange
