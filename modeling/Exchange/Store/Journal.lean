import Exchange.Core.Engine
import Exchange.Store.History

/-!
# An engine on a log

The engine with a write-ahead log, its runs, and what its file holds. The file is
in step with the commands the log took as long as an append goes through only on a
file without a torn end, and none that fails leaves a record to be read.
-/

namespace Exchange

open Framework WriteAheadLog

/-! ## An engine on a log -/

def walLog : CommandLog AppendIo WriteAheadLog where
  append log io command :=
    match log.append io command with
    | (.ok sequence, log) => (.ok sequence, log)
    | (.error _, log) => (.error .storageError, log)

/-- The runs of an engine that starts on an empty log and never lacks memory, each
turn with what the kernel does and the next command. -/
inductive Engine.Reaches (config : WalConfig) (now : Time) (onFill : FillHandler)
    (allowed : Engine WriteAheadLog → AppendIo → Command → Prop) :
    Engine WriteAheadLog → Prop where
  | start : Reaches config now onFill allowed { log := some (construct config none now) }
  | turn {e : Engine WriteAheadLog} (io : AppendIo) (command : Command)
      (h : Reaches config now onFill allowed e) (going : e.ended = false)
      (ok : allowed e io command) :
      Reaches config now onFill allowed (e.turn walLog onFill plenty io command)

/-- The file behind the log. -/
def Engine.disk (e : Engine WriteAheadLog) : Option Bytes := e.log.map (·.file.bytes)

/-- The book a recovery of the file builds. -/
def Engine.recovered (e : Engine WriteAheadLog) : Recovered :=
  recoverBookOnly plenty e.disk { state := {} }

/-! ## Appends that keep the log in step -/

namespace WriteAheadLog

/-- What stands behind the last intact record. -/
def tail (log : WriteAheadLog) : Bytes :=
  log.file.bytes.drop (replay (some log.file.bytes)).validBytes

/-- The whole record is written, and forced out if that is due. -/
def goesThrough (log : WriteAheadLog) (io : AppendIo) (command : Command) : Bool :=
  let (written, complete) := writeFully io.writes (encodeRecord log.nextSequence command)
  complete && !((log.count written).shouldSync io.checkedAt && io.syncFails)

/-- An append that goes through finds nothing torn at the end of the file, and one
that fails leaves no record there that could be read. -/
def Safe (log : WriteAheadLog) (io : AppendIo) (command : Command) : Prop :=
  if log.goesThrough io command then log.tail = []
  else (decodeRecord (log.tail ++
    (writeFully io.writes (encodeRecord log.nextSequence command)).1)).accepted = none

instance (log : WriteAheadLog) (io : AppendIo) (command : Command) :
    Decidable (log.Safe io command) :=
  inferInstanceAs (Decidable (if log.goesThrough io command then log.tail = [] else _ = _))

/-- The file holds these commands, and the log goes on where they end. -/
def Journaled (log : WriteAheadLog) (commands : List Command) : Prop :=
  ∃ torn, Logged (some log.file.bytes) commands torn ∧
    (torn = [] → log.nextSequence = 1 + UInt64.ofNat commands.length)

variable {log : WriteAheadLog} {io : AppendIo} {command : Command}
  {commands : List Command}

theorem tail_eq {torn : Bytes} (h : Logged (some log.file.bytes) commands torn) :
    log.tail = torn := by
  have hsplit : log.file.bytes = _ := h.split
  unfold tail
  rw [h.replay]
  dsimp only
  rw [hsplit, List.drop_left]

theorem logged_torn {torn more : Bytes} (h : Logged (some log.file.bytes) commands torn)
    (hmore : (decodeRecord (torn ++ more)).accepted = none) :
    Logged (some (log.file.bytes ++ more)) commands (torn ++ more) := by
  constructor
  · have hsplit : log.file.bytes = _ := h.split
    rw [Option.getD_some, hsplit, List.append_assoc]
  · cases hne : torn ++ more with
    | nil => exact walFormat.scan_nil
    | cons b bytes =>
        rw [hne] at hmore
        exact walFormat.scan_stuck (List.cons_ne_nil _ _) hmore

theorem journaled_count {torn : Bytes}
    (h : Logged (some log.file.bytes) commands torn) (hnil : torn = [])
    (hnext : log.nextSequence = 1 + UInt64.ofNat commands.length) :
    (log.count (encodeRecord log.nextSequence command)).Journaled
      (commands ++ [command]) ∧
    (log.count (encodeRecord log.nextSequence command)).tail = [] := by
  have hlog : Logged (some (log.count (encodeRecord log.nextSequence command)).file.bytes)
      (commands ++ [command]) [] := by
    refine ⟨?_, walFormat.scan_nil⟩
    have hsplit : log.file.bytes = _ := h.split
    show log.file.bytes ++ _ = _
    rw [numbered_append, walFormat.stream_append, ← hnext, hsplit, hnil]
    simp [numbered, walFormat]
  refine ⟨⟨[], hlog, fun _ => ?_⟩, tail_eq hlog⟩
  show log.nextSequence + 1 = _
  rw [hnext, List.length_append, UInt64.ofNat_add, UInt64.add_assoc]
  rfl

theorem goesThrough_eq
    (hw : (writeFully io.writes (encodeRecord log.nextSequence command)).2 = true) :
    log.goesThrough io command =
      !((log.count (encodeRecord log.nextSequence command)).shouldSync io.checkedAt &&
        io.syncFails) := by
  unfold goesThrough
  rw [writeFully_complete hw]
  rfl

/-- **One append.** If it goes through the file holds the command, and if it fails
the file holds what it held. -/
theorem append_safe (h : log.Journaled commands) (hsafe : log.Safe io command) :
    (log.goesThrough io command = true ∧ ∃ sequence log',
      log.append io command = (.ok sequence, log') ∧
        log'.Journaled (commands ++ [command]) ∧ log'.tail = []) ∨
    (log.goesThrough io command = false ∧ ∃ e log',
      log.append io command = (.error e, log') ∧ log'.Journaled commands) := by
  obtain ⟨torn, hlog, hnext⟩ := h
  unfold Safe at hsafe
  rw [tail_eq hlog] at hsafe
  have happ := append_appended log io command
  cases hres : log.append io command with
  | mk r log' =>
      rw [hres] at happ
      cases happ with
      | torn e front hw hpre hlt =>
          right
          have hgoes : log.goesThrough io command = false := by
            unfold goesThrough
            rw [hw]
            rfl
          rw [if_neg (by rw [hgoes]; exact Bool.false_ne_true), hw] at hsafe
          refine ⟨hgoes, e, _, rfl, torn ++ front, logged_torn hlog hsafe, fun hnil => ?_⟩
          exact hnext (List.append_eq_nil_iff.mp hnil).1
      | unsynced e hw hs hf =>
          right
          have hgoes : log.goesThrough io command = false := by
            rw [goesThrough_eq hw, hs, hf]
            rfl
          rw [if_neg (by rw [hgoes]; exact Bool.false_ne_true),
            writeFully_complete hw] at hsafe
          refine ⟨hgoes, e, _, rfl, _, logged_torn hlog hsafe, fun hnil => ?_⟩
          -- A record lies behind the last intact one now, whatever it is worth.
          have hpos := walFormat.encode_length_pos ⟨log.nextSequence, command⟩
          rw [List.length_pos_iff] at hpos
          exact absurd (List.append_eq_nil_iff.mp hnil).2 hpos
      | buffered hw hs =>
          left
          have hgoes : log.goesThrough io command = true := by
            rw [goesThrough_eq hw, hs]
            rfl
          rw [if_pos hgoes] at hsafe
          exact ⟨hgoes, _, _, rfl, journaled_count hlog hsafe (hnext hsafe)⟩
      | synced hw hs hf =>
          left
          have hgoes : log.goesThrough io command = true := by
            rw [goesThrough_eq hw, hs, hf]
            rfl
          rw [if_pos hgoes] at hsafe
          exact ⟨hgoes, _, _, rfl, journaled_count hlog hsafe (hnext hsafe)⟩

end WriteAheadLog

/-! ## Turns -/

namespace Engine

variable {e e' : Engine WriteAheadLog} {io : AppendIo} {command : Command}

/-- The engine has a log, and its file holds the commands that were applied. -/
def Journals (e : Engine WriteAheadLog) : Prop :=
  ∃ log, e.log = some log ∧ log.Journaled (e.applied.map Prod.fst)

/-- What the kernel does this turn keeps the log in step. -/
def LogSafe (e : Engine WriteAheadLog) (io : AppendIo) (command : Command) : Prop :=
  ∀ log ∈ e.log, log.Safe io command

instance (e : Engine WriteAheadLog) (io : AppendIo) (command : Command) :
    Decidable (e.LogSafe io command) :=
  inferInstanceAs (Decidable (∀ log ∈ e.log, _))

/-- Nothing torn is at the end of the file. -/
def Clean (e : Engine WriteAheadLog) : Prop := ∀ log ∈ e.log, log.tail = []

/-- Whether the log takes the command. -/
def logs (e : Engine WriteAheadLog) (io : AppendIo) (command : Command) : Bool :=
  e.log.any fun log => log.goesThrough io command

/-- A command the log takes is applied, and no other. -/
inductive Turned (e : Engine WriteAheadLog) (io : AppendIo) (command : Command)
    (e' : Engine WriteAheadLog) : Prop where
  | logged (hlogs : e.logs io command = true) (hclean : e'.Clean)
      (hmemory : e'.memory = (applyCommand command plenty e.memory).2)
      (happlied : e'.applied =
        e.applied ++ [(command, (applyCommand command plenty e.memory).1)])
      (hended : e'.ended = (e.ended || !caught (applyCommand command plenty e.memory).1))
  | refused (hlogs : e.logs io command = false) (hmemory : e'.memory = e.memory)
      (happlied : e'.applied = e.applied) (hended : e'.ended = e.ended)

theorem Turned.of_logs (h : Turned e io command e') (hlogs : e.logs io command = true) :
    e'.memory = (applyCommand command plenty e.memory).2 ∧
    e'.applied = e.applied ++ [(command, (applyCommand command plenty e.memory).1)] := by
  cases h with
  | logged _ _ hmemory happlied => exact ⟨hmemory, happlied⟩
  | refused hno =>
      rw [hlogs] at hno
      cases hno

theorem journals_start (config : WalConfig) (now : Time) :
    Journals { log := some (construct config none now) } :=
  ⟨_, rfl, [], ⟨rfl, walFormat.scan_nil⟩, fun _ => rfl⟩

/-- **One turn.** -/
theorem turn_safe (onFill : FillHandler) (h : e.Journals) (hsafe : e.LogSafe io command) :
    (e.turn walLog onFill plenty io command).Journals ∧
      Turned e io command (e.turn walLog onFill plenty io command) := by
  obtain ⟨log, hl, hj⟩ := h
  have hlogs : e.logs io command = log.goesThrough io command := by
    unfold logs
    rw [hl]
    rfl
  rcases append_safe hj (hsafe log hl) with
    ⟨hgoes, n, log', ha, hj', htail⟩ | ⟨hgoes, err, log', ha, hj'⟩
  · have hwal : walLog.append log io command = (.ok n, log') := by
      unfold walLog
      dsimp only
      rw [ha]
    obtain ⟨hm, hlog', happ, hend⟩ := turn_logged onFill plenty hl hwal
    refine ⟨⟨log', hlog', ?_⟩, .logged (hlogs.trans hgoes) ?_ hm happ hend⟩
    · rw [happ, List.map_append]
      exact hj'
    · intro l hmem
      rw [hlog'] at hmem
      cases hmem
      exact htail
  · have hwal : walLog.append log io command = (.error .storageError, log') := by
      unfold walLog
      dsimp only
      rw [ha]
    obtain ⟨hm, hlog', happ, hend⟩ := turn_refused onFill plenty hl hwal
    refine ⟨⟨log', hlog', ?_⟩, .refused (hlogs.trans hgoes) hm happ hend⟩
    rw [happ]
    exact hj'

end Engine

end Exchange
