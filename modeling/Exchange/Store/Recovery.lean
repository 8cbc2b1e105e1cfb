import Exchange.Store.WriteAheadLog

/-!
# Recovery

Rebuilding a book from the log, through the function the engine calls at run
time. A refusal by the book is counted and the replay goes on; anything else
that leaves `applyCommand` ends it, and then the file is not trimmed.
-/

namespace Exchange

open Framework WriteAheadLog

structure RecoveryReport where
  recordsReplayed : ℕ := 0
  recordsRejected : ℕ := 0
  fillsReplayed : ℕ := 0
  /-- Fills said to have been written to the database. -/
  fillsPersisted : ℕ := 0
  logTruncated : Bool := false
  validBytes : ℕ := 0
  lastSequence : Sequence := 0
deriving DecidableEq, Repr

/-- What a record adds to the report. -/
def RecoveryReport.note (report : RecoveryReport) (sequence : Sequence) :
    Except Ending ApplyOutcome → Except Ending RecoveryReport
  | .ok outcome =>
      let report := { report with
        fillsReplayed := report.fillsReplayed + outcome.fills.length
        lastSequence := sequence }
      if outcome.accepted then
        .ok { report with recordsReplayed := report.recordsReplayed + 1 }
      else .ok { report with recordsRejected := report.recordsRejected + 1 }
  | .error (.throws (.invalidOrder _)) =>
      .ok { report with
        recordsRejected := report.recordsRejected + 1
        lastSequence := sequence }
  | .error f => .error f

/-- A replay under way: the report or what ended it, the book, and how each
record ended, of which the source keeps the counts only. -/
structure Replaying where
  result : Except Ending RecoveryReport
  memory : BookMemory
  outcomes : List (Except Ending ApplyOutcome) := []

/-- Applies one record, folding a refusal into the report. -/
def replayOne (fails : ℕ → Bool) (st : Replaying) (record : WalRecord) : Replaying :=
  match st.result with
  | .error _ => st
  | .ok report =>
      let (r, memory) := applyCommand record.command fails st.memory
      { result := report.note record.sequence r
        memory
        outcomes := st.outcomes ++ [r] }

/-- A recovery, with the disk it leaves. -/
structure Recovered where
  result : Except Ending RecoveryReport
  disk : Option Bytes
  memory : BookMemory
  outcomes : List (Except Ending ApplyOutcome)

/-- Replays into a book without touching any database. -/
def recoverBookOnly (fails : ℕ → Bool) (disk : Option Bytes) (memory : BookMemory) :
    Recovered :=
  let replayed := replay disk
  let report : RecoveryReport :=
    { logTruncated := replayed.truncated, validBytes := replayed.validBytes }
  let st := replayed.records.foldl (replayOne fails) { result := .ok report, memory }
  { result := st.result
    -- Trimmed only after every intact record has been applied.
    disk :=
      match st.result with
      | .ok _ => if replayed.truncated then truncateTo disk replayed.validBytes else disk
      | .error _ => disk
    memory := st.memory
    outcomes := st.outcomes }

end Exchange
