import Exchange.Store.Ledger
import Exchange.Store.Recovery

/-!
# Recovery with a database

`recover` replays the log like `recoverBookOnly`, asks the store for the highest fill
sequence it holds, and counts as persisted the fills of every record numbered above it.
It writes nothing to the store. So the store holds the replayed fills afterwards only if
it held them before, and the count agrees with the rows that were added only if it is
zero.
-/

namespace Exchange

open Framework WriteAheadLog

/-- Applies one record with a report of its own, and adds that to the report. -/
def recoverOne (fails : ℕ → Bool) (persistedThrough : Sequence) (st : Replaying)
    (record : WalRecord) : Replaying :=
  match st.result with
  | .error _ => st
  | .ok report =>
      let step := replayOne fails { st with result := .ok {} } record
      { step with
        result := step.result.map fun one =>
          { report with
            recordsReplayed := report.recordsReplayed + one.recordsReplayed
            recordsRejected := report.recordsRejected + one.recordsRejected
            fillsReplayed := report.fillsReplayed + one.fillsReplayed
            lastSequence := record.sequence
            -- Only counted: the fill is not recorded.
            fillsPersisted :=
              if record.sequence > persistedThrough then
                report.fillsPersisted + one.fillsReplayed
              else report.fillsPersisted } }

/-- A recovery, with the disk and the store it leaves. -/
structure RecoveredStore extends Recovered where
  store : Database

def recover (fails : ℕ → Bool) (disk : Option Bytes) (memory : BookMemory)
    (store : Database) : RecoveredStore :=
  let replayed := replay disk
  let report : RecoveryReport :=
    { logTruncated := replayed.truncated, validBytes := replayed.validBytes }
  let persistedThrough := store.lastFillSequence
  let st := replayed.records.foldl (recoverOne fails persistedThrough)
    { result := .ok report, memory }
  { result := st.result
    disk :=
      match st.result with
      | .ok _ => if replayed.truncated then truncateTo disk replayed.validBytes else disk
      | .error _ => disk
    memory := st.memory
    outcomes := st.outcomes
    store }

/-! ## The same replay as without a database -/

def RecoveryReport.forgetPersisted (report : RecoveryReport) : RecoveryReport :=
  { report with fillsPersisted := 0 }

def Replaying.forgetPersisted (st : Replaying) : Replaying :=
  { st with result := st.result.map RecoveryReport.forgetPersisted }

/-- What a record adds to the count of persisted fills. -/
def countedFor (through : Sequence) (record : WalRecord)
    (r : Except Ending ApplyOutcome) : ℕ :=
  if record.sequence > through then (fillsOf r).length else 0

section Replay

variable {fails : ℕ → Bool} {through : Sequence}

/-- Adding up a report of one record's own is noting the record and counting its
fills. -/
theorem note_map (report : RecoveryReport) (record : WalRecord)
    (r : Except Ending ApplyOutcome) :
    ((RecoveryReport.note {} record.sequence r).map fun one =>
      { report with
        recordsReplayed := report.recordsReplayed + one.recordsReplayed
        recordsRejected := report.recordsRejected + one.recordsRejected
        fillsReplayed := report.fillsReplayed + one.fillsReplayed
        lastSequence := record.sequence
        fillsPersisted :=
          if record.sequence > through then report.fillsPersisted + one.fillsReplayed
          else report.fillsPersisted }) =
      (report.note record.sequence r).map fun noted =>
        { noted with
          fillsPersisted := report.fillsPersisted + countedFor through record r } := by
  unfold countedFor
  cases r with
  | ok outcome =>
      simp only [RecoveryReport.note, fillsOf]
      cases outcome.accepted <;> split <;> simp [Except.map]
  | error f =>
      cases f with
      | throws e => cases e <;> simp [RecoveryReport.note, Except.map, fillsOf]
      | undefined p => rfl
      | terminate => rfl

theorem recoverOne_error {st : Replaying} {f : Ending} (h : st.result = .error f)
    (record : WalRecord) : recoverOne fails through st record = st := by
  unfold recoverOne
  rw [h]

theorem replayOne_error {st : Replaying} {f : Ending} (h : st.result = .error f)
    (record : WalRecord) : replayOne fails st record = st := by
  unfold replayOne
  rw [h]

theorem recoverOne_ok {st : Replaying} {report : RecoveryReport} (h : st.result = .ok report)
    (record : WalRecord) :
    recoverOne fails through st record =
      { replayOne fails st record with
        result := (replayOne fails st record).result.map fun noted =>
          { noted with
            fillsPersisted := report.fillsPersisted +
              countedFor through record (applyCommand record.command fails st.memory).1 } } := by
  unfold recoverOne replayOne
  rw [h]
  dsimp only
  rw [note_map]

/-- Noting a record does not look at the count. -/
theorem note_forget (report : RecoveryReport) (sequence : Sequence)
    (r : Except Ending ApplyOutcome) :
    report.forgetPersisted.note sequence r =
      (report.note sequence r).map RecoveryReport.forgetPersisted := by
  cases r with
  | ok outcome =>
      simp only [RecoveryReport.note]
      cases outcome.accepted <;> rfl
  | error f =>
      cases f with
      | throws e => cases e <;> rfl
      | undefined p => rfl
      | terminate => rfl

/-- The count is all that differs. -/
theorem recoverOne_forget (st : Replaying) (record : WalRecord) :
    (recoverOne fails through st record).forgetPersisted =
      replayOne fails st.forgetPersisted record := by
  cases hresult : st.result with
  | error f =>
      have hforget : st.forgetPersisted.result = .error f := by
        unfold Replaying.forgetPersisted
        rw [hresult]
        rfl
      rw [recoverOne_error hresult, replayOne_error hforget]
  | ok report =>
      rw [recoverOne_ok hresult]
      unfold replayOne Replaying.forgetPersisted
      rw [hresult]
      dsimp only [Except.map]
      rw [note_forget]
      cases report.note record.sequence (applyCommand record.command fails st.memory).1 <;> rfl

theorem recover_forget (records : List WalRecord) (st : Replaying) :
    (records.foldl (recoverOne fails through) st).forgetPersisted =
      records.foldl (replayOne fails) st.forgetPersisted := by
  induction records generalizing st with
  | nil => rfl
  | cons record records ih =>
      rw [List.foldl_cons, List.foldl_cons, ih, recoverOne_forget]

/-! ## The count -/

/-- What all records add to the count. -/
def counted (through : Sequence) (records : List WalRecord)
    (outcomes : List (Except Ending ApplyOutcome)) : ℕ :=
  (List.zipWith (countedFor through) records outcomes).sum

theorem foldl_error (records : List WalRecord) {st : Replaying} {f : Ending}
    (h : st.result = .error f) : records.foldl (recoverOne fails through) st = st := by
  induction records with
  | nil => rfl
  | cons record records ih => rw [List.foldl_cons, recoverOne_error h, ih]

/-- One record's part in the count. -/
theorem recoverOne_counts {st : Replaying} {report report' : RecoveryReport}
    (h : st.result = .ok report) (record : WalRecord)
    (h' : (recoverOne fails through st record).result = .ok report') :
    ∃ r, (recoverOne fails through st record).outcomes = st.outcomes ++ [r] ∧
      report'.fillsPersisted = report.fillsPersisted + countedFor through record r := by
  refine ⟨(applyCommand record.command fails st.memory).1, ?_, ?_⟩
  · rw [recoverOne_ok h]
    unfold replayOne
    rw [h]
  · rw [recoverOne_ok h] at h'
    cases hnoted : (replayOne fails st record).result with
    | error f =>
        rw [hnoted] at h'
        cases h'
    | ok noted =>
        rw [hnoted] at h'
        cases h'
        rfl

theorem recover_counts (records : List WalRecord) {st : Replaying}
    {report report' : RecoveryReport} (h : st.result = .ok report)
    (h' : (records.foldl (recoverOne fails through) st).result = .ok report') :
    ∃ outcomes, (records.foldl (recoverOne fails through) st).outcomes =
        st.outcomes ++ outcomes ∧
      report'.fillsPersisted = report.fillsPersisted + counted through records outcomes := by
  induction records generalizing st report with
  | nil =>
      rw [List.foldl_nil, h] at h'
      cases h'
      exact ⟨[], (List.append_nil _).symm, rfl⟩
  | cons record records ih =>
      rw [List.foldl_cons] at h' ⊢
      cases hone : (recoverOne fails through st record).result with
      | error f =>
          rw [foldl_error records hone, hone] at h'
          cases h'
      | ok one =>
          obtain ⟨r, houtcomes, hcount⟩ := recoverOne_counts h record hone
          obtain ⟨outcomes, hrest, htotal⟩ := ih hone h'
          refine ⟨r :: outcomes, ?_, ?_⟩
          · rw [hrest, houtcomes, List.append_assoc]
            rfl
          · rw [htotal, hcount, Nat.add_assoc]
            rfl

end Replay

/-! ## What the store should hold -/

/-- How each record of the log ends when it is replayed into a fresh book. -/
def replayOutcomes (fails : ℕ → Bool) (disk : Option Bytes) :
    List (Except Ending ApplyOutcome) :=
  (recoverBookOnly fails disk { state := {} }).outcomes

/-- The fills a replay of the log produces. -/
def replayedFills (fails : ℕ → Bool) (disk : Option Bytes) : List Fill :=
  (replayOutcomes fails disk).flatMap fillsOf

/-- The store holds these fills, each once, with its two postings. -/
def Database.Holds (store : Database) (fills : List Fill) : Prop :=
  (store.fills.rows.map FillRow.asFill).Perm fills ∧
    ∀ row ∈ store.fills.rows,
      ((store.ledger.filter (·.fillSeq = row.seq)).map PostingRow.entry).Perm
        [(row.buyer, -row.value), (row.seller, row.value)]

instance (store : Database) (fills : List Fill) : Decidable (store.Holds fills) :=
  inferInstanceAs (Decidable ((store.fills.rows.map FillRow.asFill).Perm fills ∧
    ∀ row ∈ store.fills.rows,
      ((store.ledger.filter (·.fillSeq = row.seq)).map PostingRow.entry).Perm
        [(row.buyer, -row.value), (row.seller, row.value)]))

/-- No record numbered above what the store holds produces a fill. -/
def NoneBeyond (fails : ℕ → Bool) (disk : Option Bytes) (store : Database) : Prop :=
  ∀ x ∈ (replay disk).records.zip (replayOutcomes fails disk),
    x.1.sequence > store.lastFillSequence → fillsOf x.2 = []

theorem counted_eq_zero_iff {through : Sequence} {records : List WalRecord}
    {outcomes : List (Except Ending ApplyOutcome)} :
    counted through records outcomes = 0 ↔
      ∀ x ∈ records.zip outcomes, x.1.sequence > through → fillsOf x.2 = [] := by
  unfold counted
  rw [← List.map_uncurry_zip_eq_zipWith, List.sum_eq_zero_iff]
  constructor
  · intro h x hx hbeyond
    have hzero := h _ (List.mem_map_of_mem hx)
    change countedFor through x.1 x.2 = 0 at hzero
    rw [countedFor, if_pos hbeyond] at hzero
    exact List.length_eq_zero_iff.mp hzero
  · intro h n hn
    obtain ⟨x, hx, rfl⟩ := List.mem_map.mp hn
    change countedFor through x.1 x.2 = 0
    unfold countedFor
    split
    · rw [h x hx ‹_›]
      rfl
    · rfl

section Recover

variable {fails : ℕ → Bool} {disk : Option Bytes} {store : Database}
  {report : RecoveryReport}

/-- A recovery with a database replays as one without. -/
theorem recover_outcomes :
    (recover fails disk { state := {} } store).outcomes = replayOutcomes fails disk := by
  let report : RecoveryReport :=
    { logTruncated := (replay disk).truncated, validBytes := (replay disk).validBytes }
  let fresh : Replaying := { result := .ok report, memory := { state := {} } }
  have hforget : ((replay disk).records.foldl (recoverOne fails store.lastFillSequence)
      fresh).forgetPersisted = (replay disk).records.foldl (replayOne fails) fresh :=
    recover_forget (replay disk).records fresh
  have houtcomes := congrArg Replaying.outcomes hforget
  exact houtcomes

theorem recover_fillsPersisted
    (h : (recover fails disk { state := {} } store).result = .ok report) :
    report.fillsPersisted =
      counted store.lastFillSequence (replay disk).records (replayOutcomes fails disk) := by
  obtain ⟨outcomes, houtcomes, hcount⟩ := recover_counts (replay disk).records rfl h
  have hsame : outcomes = replayOutcomes fails disk := by
    rw [← recover_outcomes]
    exact houtcomes.symm
  rw [hcount, hsame]
  exact Nat.zero_add _

/-- **A recovery leaves the database as it found it.** So after it the store holds the
replayed fills, and the count of persisted fills is the number of rows it added, exactly
if the store held them all before and no record beyond what it held produces a fill. -/
theorem recovery_leaves_store
    (h : (recover fails disk { state := {} } store).result = .ok report) :
    ((recover fails disk { state := {} } store).store.Holds (replayedFills fails disk) ∧
      report.fillsPersisted =
        (recover fails disk { state := {} } store).store.fills.rows.length -
          store.fills.rows.length) ↔
      store.Holds (replayedFills fails disk) ∧ NoneBeyond fails disk store := by
  have hstore : (recover fails disk { state := {} } store).store = store := rfl
  rw [hstore, Nat.sub_self, recover_fillsPersisted h, counted_eq_zero_iff]
  rfl

end Recover

/-! ## A log of one trade -/

def tradeLog : Bytes :=
  encodeRecord 1 (.submit ⟨limitOrder 1 .sell 1 10 100, .limit _ _ _ _ _⟩) ++
    encodeRecord 2 (.submit ⟨limitOrder 2 .buy 2 10 100, .limit _ _ _ _ _⟩)

/-- A store with both parties' accounts. -/
def openedStore : Database :=
  (Database.fresh.insertAccount ⟨1, 100000⟩).insertAccount ⟨2, 100000⟩

/-- The store before anything of the trade reached it. The recovery reports one fill as
persisted, and adds none. -/
theorem recovery_forgets_trade :
    openedStore.fills.rows.map FillRow.asFill = (replayedFills plenty (some tradeLog)).take 0 ∧
      (∀ fill ∈ replayedFills plenty (some tradeLog),
        fill.aggressorAccount.column ∈ openedStore.accounts.keys ∧
          fill.restingAccount.column ∈ openedStore.accounts.keys) ∧
      (replayedFills plenty (some tradeLog)).length = 1 ∧
      (recover plenty (some tradeLog) { state := {} } openedStore).result.toOption.map
        (·.fillsPersisted) = some 1 ∧
      (recover plenty (some tradeLog) { state := {} } openedStore).store.fills.rows = [] :=
  ⟨rfl, by decide +kernel, by decide +kernel, by decide +kernel, rfl⟩

/-- The store once the fill was recorded under its record's number. -/
def tradedStore : Database :=
  (openedStore.recordFill (fun _ => none) 2 ⟨2, 1, 100, 10, 2, 1, .buy⟩ 0).2

theorem recovery_leaves_traded :
    ∃ report, (recover plenty (some tradeLog) { state := {} } tradedStore).result = .ok report ∧
      tradedStore.Holds (replayedFills plenty (some tradeLog)) ∧ report.fillsPersisted = 0 := by
  have hholds : tradedStore.Holds (replayedFills plenty (some tradeLog)) := by decide +kernel
  have hbeyond : NoneBeyond plenty (some tradeLog) tradedStore := by
    unfold NoneBeyond
    decide +kernel
  obtain ⟨report, hreport⟩ : ∃ report,
      (recover plenty (some tradeLog) { state := {} } tradedStore).result = .ok report := by
    have hok : (recover plenty (some tradeLog) { state := {} } tradedStore).result.isOk = true := by
      decide +kernel
    cases hresult : (recover plenty (some tradeLog) { state := {} } tradedStore).result with
    | ok report => exact ⟨report, rfl⟩
    | error f =>
        rw [hresult] at hok
        cases hok
  obtain ⟨hafter, hcount⟩ := (recovery_leaves_store hreport).mpr ⟨hholds, hbeyond⟩
  exact ⟨report, hreport, hafter, hcount.trans (Nat.sub_self _)⟩

end Exchange
