import Exchange.Store.WalRecord

/-!
# The write-ahead log

The log object, with the file behind its descriptor. What the kernel does during
one append is an argument: how it answers each `write`, whether the sync goes
through, and what the clock says. A failing append keeps what it did before the
failure: the file and the counters are returned with the error.

The `size_t` counters are natural numbers here: each grows by one an append, so
none wraps within 2^64 of them.
-/

namespace Exchange

open Framework

/-- When the log is forced to stable storage. -/
inductive SyncPolicy : Type where
  | always
  | batch
  | never
deriving DecidableEq, Repr

/-- Readings of the steady clock, in nanoseconds. -/
abbrev Time : Type := ℕ

structure WalConfig where
  path : String
  policy : SyncPolicy := .batch
  batchRecords : ℕ := 64
  /-- Ten milliseconds. -/
  batchInterval : Time := 10000000
deriving DecidableEq, Repr

structure StorageError where
  what : String
deriving DecidableEq, Repr

def describe (what path reason : String) : StorageError :=
  ⟨what ++ " '" ++ path ++ "': " ++ reason⟩

/-! ## The kernel's side -/

/-- How the kernel answers one call of `write`. -/
inductive WriteReply : Type where
  /-- It took this many bytes, or all if there are fewer. -/
  | wrote (bytes : ℕ)
  | interrupted
  | failed
deriving DecidableEq, Repr

/-- What the kernel does during one append. -/
structure AppendIo where
  /-- The answers to successive calls of `write`. A call beyond them takes
  everything it is offered. -/
  writes : List WriteReply := []
  syncFails : Bool := false
  /-- What `strerror` says of a failure. -/
  reason : String := ""
  /-- The clock as `shouldSync` reads it, and as `syncNow` does. -/
  checkedAt : Time := 0
  syncedAt : Time := 0
deriving DecidableEq, Repr

/-- Writes the whole buffer, retrying short writes: the bytes that reached the
file, and whether all did. -/
def writeFully : List WriteReply → Bytes → Bytes × Bool
  | _, [] => ([], true)
  | [], bytes => (bytes, true)
  | .wrote n :: replies, bytes =>
      if 0 < n then
        let r := writeFully replies (bytes.drop n)
        (bytes.take n ++ r.1, r.2)
      else ([], false)
  | .interrupted :: replies, bytes => writeFully replies bytes
  | .failed :: _, _ => ([], false)

/-- The file, and how much of it the last `fdatasync` found there. -/
structure LogFile where
  bytes : Bytes := []
  durable : ℕ := 0
deriving DecidableEq, Repr

/-! ## Replay -/

structure ReplayResult where
  records : List WalRecord := []
  /-- Offset of the first byte not part of an intact record. -/
  validBytes : ℕ := 0
  /-- The tail was damaged rather than merely absent. -/
  truncated : Bool := false
deriving DecidableEq

namespace WriteAheadLog

/-- Reads every intact record from a log file, stopping at the first incomplete
or corrupt one. No file is a log without records. -/
def replay : Option Bytes → ReplayResult
  | none => {}
  | some contents =>
      let found := walFormat.scan contents
      { records := found.records, validBytes := found.offset, truncated := found.damaged }

/-- Discards everything after `validBytes`. -/
def truncateTo (disk : Option Bytes) (validBytes : ℕ) : Option Bytes :=
  disk.map (·.take validBytes)

end WriteAheadLog

/-! ## The log object -/

structure WriteAheadLog where
  config : WalConfig
  file : LogFile
  nextSequence : Sequence := 1
  recordsWritten : ℕ := 0
  syncCount : ℕ := 0
  sinceSync : ℕ := 0
  lastSync : Time
deriving DecidableEq

namespace WriteAheadLog

/-- The constructor: opens or creates the file, and continues the sequence of
what is in it. -/
def construct (config : WalConfig) (disk : Option Bytes) (now : Time) : WriteAheadLog :=
  { config
    file := { bytes := disk.getD [] }
    nextSequence :=
      match (replay disk).records.getLast? with
      | none => 1
      | some last => last.sequence + 1
    lastSync := now }

def shouldSync (log : WriteAheadLog) (now : Time) : Bool :=
  match log.config.policy with
  | .always => true
  | .never => false
  | .batch =>
      log.config.batchRecords ≤ log.sinceSync ||
        log.config.batchInterval ≤ now - log.lastSync

/-- The log once `fdatasync` has gone through. -/
def forced (log : WriteAheadLog) (now : Time) : WriteAheadLog :=
  { log with
    file := { log.file with durable := log.file.bytes.length }
    syncCount := log.syncCount + 1
    sinceSync := 0
    lastSync := now }

def syncNow (log : WriteAheadLog) (io : AppendIo) :
    Except StorageError Unit × WriteAheadLog :=
  if io.syncFails then (.error (describe "fdatasync WAL" log.config.path io.reason), log)
  else (.ok (), log.forced io.syncedAt)

/-- The log once `written` has reached the file. -/
def extend (log : WriteAheadLog) (written : Bytes) : WriteAheadLog :=
  { log with file := { log.file with bytes := log.file.bytes ++ written } }

/-- The log once a whole record has reached the file and is counted. -/
def count (log : WriteAheadLog) (record : Bytes) : WriteAheadLog :=
  { log.extend record with
    nextSequence := log.nextSequence + 1
    recordsWritten := log.recordsWritten + 1
    sinceSync := log.sinceSync + 1 }

/-- Appends a command and applies the sync policy. -/
def append (log : WriteAheadLog) (io : AppendIo) (command : Command) :
    Except StorageError Sequence × WriteAheadLog :=
  let sequence := log.nextSequence
  let record := encodeRecord sequence command
  match writeFully io.writes record with
  | (written, false) =>
      (.error (describe "write to WAL" log.config.path io.reason), log.extend written)
  | (written, true) =>
      let log := log.count written
      if log.shouldSync io.checkedAt then
        match log.syncNow io with
        | (.ok (), log) => (.ok sequence, log)
        | (.error e, log) => (.error e, log)
      else (.ok sequence, log)

/-- Forces everything written so far, whatever the policy. -/
def flush (log : WriteAheadLog) (io : AppendIo) :
    Except StorageError Unit × WriteAheadLog := log.syncNow io

def lastSequence (log : WriteAheadLog) : Sequence := log.nextSequence - 1

end WriteAheadLog

/-! ## What an append can do -/

/-- The whole buffer reaches the file, or a proper part of its front does. -/
theorem writeFully_cases : ∀ (replies : List WriteReply) (bytes : Bytes),
    writeFully replies bytes = (bytes, true) ∨
      ∃ front, front <+: bytes ∧ front.length < bytes.length ∧
        writeFully replies bytes = (front, false) := by
  intro replies
  induction replies with
  | nil =>
      intro bytes
      cases bytes <;> exact Or.inl rfl
  | cons reply replies ih =>
      intro bytes
      cases bytes with
      | nil => exact Or.inl (by cases reply <;> rfl)
      | cons b bytes =>
          have hnothing : ([] : Bytes) <+: b :: bytes ∧
              ([] : Bytes).length < (b :: bytes).length :=
            ⟨List.nil_prefix, Nat.succ_pos _⟩
          cases reply with
          | interrupted => exact ih (b :: bytes)
          | failed => exact Or.inr ⟨[], hnothing.1, hnothing.2, rfl⟩
          | wrote n =>
              rw [writeFully]
              split
              · rename_i hpos
                -- Short writes add up: what the rest of the loop leaves out is
                -- what the whole leaves out.
                rcases ih ((b :: bytes).drop n) with h | ⟨front, hpre, hlt, h⟩
                · left
                  rw [h]
                  dsimp only
                  rw [List.take_append_drop]
                · right
                  refine ⟨(b :: bytes).take n ++ front, ?_, ?_, by rw [h]⟩
                  · have hcat := (List.prefix_append_right_inj
                      ((b :: bytes).take n)).mpr hpre
                    rwa [List.take_append_drop] at hcat
                  · rw [List.length_drop] at hlt
                    rw [List.length_append, List.length_take]
                    omega
              · exact Or.inr ⟨[], hnothing.1, hnothing.2, rfl⟩
              · exact fun h => (List.cons_ne_nil _ _ h).elim

theorem writeFully_complete {replies : List WriteReply} {bytes : Bytes}
    (h : (writeFully replies bytes).2 = true) : writeFully replies bytes = (bytes, true) := by
  rcases writeFully_cases replies bytes with hall | ⟨front, _, _, hpart⟩
  · exact hall
  · rw [hpart] at h
    cases h

namespace WriteAheadLog

variable {log : WriteAheadLog} {io : AppendIo} {command : Command}

/-- Everything an append can do, by what reached the file. -/
inductive Appended (log : WriteAheadLog) (io : AppendIo) (command : Command) :
    Except StorageError Sequence × WriteAheadLog → Prop where
  /-- The write failed part of the way. -/
  | torn (e : StorageError) (front : Bytes)
      (hw : writeFully io.writes (encodeRecord log.nextSequence command) = (front, false))
      (hpre : front <+: encodeRecord log.nextSequence command)
      (hlt : front.length < (encodeRecord log.nextSequence command).length) :
      Appended log io command (.error e, log.extend front)
  /-- The record is written and the sync failed. -/
  | unsynced (e : StorageError)
      (hw : (writeFully io.writes (encodeRecord log.nextSequence command)).2 = true)
      (hs : (log.count (encodeRecord log.nextSequence command)).shouldSync
        io.checkedAt = true)
      (hf : io.syncFails = true) :
      Appended log io command
        (.error e, log.count (encodeRecord log.nextSequence command))
  /-- The record is written, and no sync is due. -/
  | buffered
      (hw : (writeFully io.writes (encodeRecord log.nextSequence command)).2 = true)
      (hs : (log.count (encodeRecord log.nextSequence command)).shouldSync
        io.checkedAt = false) :
      Appended log io command
        (.ok log.nextSequence, log.count (encodeRecord log.nextSequence command))
  /-- The record is written and forced out. -/
  | synced
      (hw : (writeFully io.writes (encodeRecord log.nextSequence command)).2 = true)
      (hs : (log.count (encodeRecord log.nextSequence command)).shouldSync
        io.checkedAt = true)
      (hf : io.syncFails = false) :
      Appended log io command
        (.ok log.nextSequence,
          (log.count (encodeRecord log.nextSequence command)).forced io.syncedAt)

theorem append_appended (log : WriteAheadLog) (io : AppendIo) (command : Command) :
    Appended log io command (log.append io command) := by
  unfold append
  rcases writeFully_cases io.writes (encodeRecord log.nextSequence command) with
    h | ⟨front, hpre, hlt, h⟩
  · have hw : (writeFully io.writes (encodeRecord log.nextSequence command)).2 = true := by
      rw [h]
    dsimp only
    rw [h]
    dsimp only
    by_cases hs : (log.count (encodeRecord log.nextSequence command)).shouldSync
        io.checkedAt = true
    · rw [if_pos hs, syncNow]
      by_cases hf : io.syncFails = true
      · rw [if_pos hf]
        exact .unsynced _ hw hs hf
      · rw [if_neg hf]
        exact .synced hw hs (by simpa using hf)
    · rw [if_neg hs]
      exact .buffered hw (by simpa using hs)
  · dsimp only
    rw [h]
    exact .torn _ front h hpre hlt

end WriteAheadLog

end Exchange
