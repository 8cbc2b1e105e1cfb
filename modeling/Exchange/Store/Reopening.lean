import Exchange.Store.History

/-!
# Cutting and reopening a log

`History` follows a log from its first record on. Here the file is anything: a
stream of records cut at any byte, or whatever a constructor finds when it opens
the log.

A cut stream replays as the records that lie wholly before the cut. A log that
opens on an undamaged file continues it. One that opens on a damaged file writes
its records behind the damage, and returns from every append all the same; no
replay gets to them, unless the damage is short and they happen to complete it. A
recovery that goes first takes the damage away.
-/

namespace Exchange

open Framework WriteAheadLog

/-! ## A log cut at any byte -/

/-- **A cut log replays as an exact prefix.** The records found are those whose
encodings end within the cut; the rest counts as damage unless the cut falls
between two records. -/
theorem cut_replays_prefix (records : List WalRecord) {n : ℕ}
    (hn : n ≤ (walFormat.stream records).length) :
    ∃ k ≤ records.length,
      (∀ j ≤ records.length,
        (walFormat.stream (records.take j)).length ≤ n ↔ j ≤ k) ∧
      List.Forall₂ WalRecord.Same (records.take k)
        (replay (some ((walFormat.stream records).take n))).records ∧
      (replay (some ((walFormat.stream records).take n))).validBytes =
        (walFormat.stream (records.take k)).length ∧
      ((replay (some ((walFormat.stream records).take n))).truncated = true ↔
        ∀ j ≤ records.length, (walFormat.stream (records.take j)).length ≠ n) := by
  have hleft : ((walFormat.stream records).take n).length = n := List.length_take_of_le hn
  obtain ⟨k, torn, hcut⟩ := walFormat.exists_cut records _ (List.take_prefix n _)
  have hsplit := congrArg List.length hcut.split
  rw [hleft, List.length_append] at hsplit
  have hscan : walFormat.scan ((walFormat.stream records).take n) =
      { records := (records.take k).map WalRecord.stored
        offset := (walFormat.stream (records.take k)).length
        damaged := !torn.isEmpty } := by
    rw [hcut.split, walFormat.scan_stream, hcut.scan_torn]
    simp [walFormat]
  have hwithin : ∀ j ≤ records.length,
      (walFormat.stream (records.take j)).length ≤ n ↔ j ≤ k := by
    intro j hj
    constructor
    · intro hle
      exact hcut.covers hj (by rwa [hleft])
    · intro hjk
      have hmono := walFormat.stream_take_le records hjk
      omega
  refine ⟨k, hcut.bound, hwithin, ?_, ?_, ?_⟩
  · rw [replay_eq, Option.getD_some, hscan, List.forall₂_map_right_iff]
    exact List.forall₂_same.mpr fun r _ => r.same_stored
  · rw [replay_eq, Option.getD_some, hscan]
  · rw [replay_eq, Option.getD_some, hscan]
    dsimp only
    constructor
    · intro htorn j hj hjn
      have hne : 0 < torn.length := by
        rw [List.length_pos_iff]
        simpa using htorn
      -- A boundary at the cut is no further than the last record found.
      have hmono := walFormat.stream_take_le records ((hwithin j hj).mp (Nat.le_of_eq hjn))
      omega
    · intro hno
      have hk := hno k hcut.bound
      have hne : torn ≠ [] := by
        rintro rfl
        rw [List.length_nil] at hsplit
        omega
      simpa using hne

/-- A bid and its cancel. -/
def bidCancelled : List WalRecord :=
  [⟨1, .submit ⟨limitOrder 1 .buy 7 5 100, bid_built⟩⟩, ⟨2, .cancel 1⟩]

/-- Cut three bytes into the cancel. -/
theorem cut_replays_bid :
    58 ≤ (walFormat.stream bidCancelled).length ∧
    ∃ k ≤ 2,
      (∀ j ≤ 2, (walFormat.stream (bidCancelled.take j)).length ≤ 58 ↔ j ≤ k) ∧
      List.Forall₂ WalRecord.Same (bidCancelled.take k)
        (replay (some ((walFormat.stream bidCancelled).take 58))).records ∧
      (replay (some ((walFormat.stream bidCancelled).take 58))).truncated = true := by
  have hn : 58 ≤ (walFormat.stream bidCancelled).length := by decide +kernel
  obtain ⟨k, hk, hwithin, hsame, _, htorn⟩ := cut_replays_prefix bidCancelled hn
  refine ⟨hn, k, hk, hwithin, hsame, htorn.mpr ?_⟩
  decide +kernel

/-! ## A log opened on any file -/

section Reopened

variable {disk : Option Bytes} {config : WalConfig} {now : Time} {records : List WalRecord}
  {log : WriteAheadLog}

/-- What is in the file of a log that was opened and appended to. -/
theorem Appends.bytes (h : Appends (construct config disk now) records log) :
    log.file.bytes = disk.getD [] ++ walFormat.stream records := by
  obtain ⟨hnumbered, hst⟩ := h.standing rfl
  rw [hst.bytes, ← hnumbered]
  rfl

/-- A log numbers on from the last record it found, damage behind it or not. -/
theorem Appends.sequences (h : Appends (construct config disk now) records log) :
    records.map WalRecord.sequence = (List.range records.length).map (fun i =>
      (replay disk).records.getLast?.elim 0 WalRecord.sequence + UInt64.ofNat (i + 1)) := by
  have hnext : (construct config disk now).nextSequence =
      (replay disk).records.getLast?.elim 0 WalRecord.sequence + 1 := by
    unfold construct
    cases (replay disk).records.getLast? <;> rfl
  rw [(h.standing rfl).1, numbered_sequences, numbered_length, List.length_map, hnext]
  refine List.map_congr_left fun i _ => ?_
  rw [UInt64.ofNat_add, UInt64.add_assoc, UInt64.add_comm 1]
  rfl

/-- Behind an intact record the appended ones are found. -/
theorem Appends.found (h : Appends (construct config disk now) records log)
    (hintact : (replay disk).truncated = false) :
    (replay (some log.file.bytes)).records =
        (replay disk).records ++ records.map WalRecord.stored ∧
      (replay (some log.file.bytes)).truncated = false := by
  rw [replay_eq disk] at hintact
  have hstream := walFormat.scan_stream records []
  rw [List.append_nil, walFormat.scan_nil] at hstream
  rw [replay_eq disk, replay_eq, Option.getD_some, h.bytes,
    walFormat_local.scan_append hintact, hstream]
  exact ⟨by simp [walFormat], rfl⟩

/-- Behind damage that has room for it, the first of the appended records is not found:
a replay would have found it in the damage. -/
theorem Appends.lost {r : WalRecord} (h : Appends (construct config disk now) (r :: records) log)
    (hroom : (encodeRecord r.sequence r.command).length ≤
      (disk.getD []).length - (replay disk).validBytes)
    {appended : List WalRecord} (hsame : List.Forall₂ WalRecord.Same (r :: records) appended) :
    (replay (some log.file.bytes)).records ≠ (replay disk).records ++ appended := by
  intro hfound
  cases hsame with
  | @cons _ r' _ appended hr _ =>
  rw [replay_eq disk] at hroom hfound
  rw [replay_eq, Option.getD_some, h.bytes, walFormat_local.scan_behind] at hfound
  obtain ⟨n, hread⟩ := walFormat.read_of_scan (List.append_cancel_left hfound)
  have haccepts := accepted_eq_some.mp hread
  have hn : n = (encodeRecord r.sequence r.command).length :=
    haccepts.consumed_eq.trans hr.length.symm
  -- Its bytes lie within the damage, where the scan stopped.
  have hwithin : Accepts ((disk.getD []).drop (walFormat.scan (disk.getD [])).offset) r' n := by
    apply haccepts.congr
    rw [List.take_append_of_le_length]
    rw [List.length_drop, hn]
    exact hroom
  have hstopped := walFormat.read_stopped (disk.getD [])
  rw [show walFormat.read _ = _ from accepted_eq_some.mpr hwithin] at hstopped
  cases hstopped

/-- **A reopened log continues**, if the file it opens on ends with its last intact
record, or if nothing is appended: every append that returned is found behind what was
there. It does not continue if the damage is no shorter than the first record appended.
In either case the numbers go on from the last one that is intact. -/
theorem reopened_log_continues (h : Appends (construct config disk now) records log) :
    (records = [] ∨ (replay disk).truncated = false →
      (∃ appended, List.Forall₂ WalRecord.Same records appended ∧
        (replay (some log.file.bytes)).records = (replay disk).records ++ appended) ∧
      (replay (some log.file.bytes)).truncated = (replay disk).truncated) ∧
    ((∃ r ∈ records.head?, (encodeRecord r.sequence r.command).length ≤
        (disk.getD []).length - (replay disk).validBytes) →
      ¬ ∃ appended, List.Forall₂ WalRecord.Same records appended ∧
        (replay (some log.file.bytes)).records = (replay disk).records ++ appended) ∧
    records.map WalRecord.sequence = (List.range records.length).map (fun i =>
      (replay disk).records.getLast?.elim 0 WalRecord.sequence + UInt64.ofNat (i + 1)) := by
  refine ⟨?_, ?_, h.sequences⟩
  · rintro (rfl | hintact)
    · have hbytes := h.bytes
      rw [walFormat.stream_nil, List.append_nil] at hbytes
      rw [replay_eq disk, replay_eq, Option.getD_some, hbytes]
      exact ⟨⟨[], .nil, (List.append_nil _).symm⟩, rfl⟩
    · obtain ⟨hfound, hclean⟩ := h.found hintact
      refine ⟨⟨records.map WalRecord.stored, ?_, hfound⟩, hclean.trans hintact.symm⟩
      rw [List.forall₂_map_right_iff]
      exact List.forall₂_same.mpr fun r _ => r.same_stored
  · rintro ⟨r, hhead, hroom⟩ ⟨appended, hsame, hfound⟩
    obtain ⟨rest, rfl⟩ := List.head?_eq_some_iff.mp hhead
    exact h.lost hroom hsame hfound

end Reopened

theorem Appends.single {log : WriteAheadLog} {io : AppendIo} {command : Command}
    {sequence : Sequence} (h : (log.append io command).1 = .ok sequence) :
    Appends log [⟨sequence, command⟩] (log.append io command).2 :=
  .snoc io command sequence .nil (Prod.ext h rfl)

/-- The bid is in the file, and its cancel is appended: it is found, unless as many bytes
stand between them as a cancel takes. -/
theorem reopened_log_continues_bid :
    (replay (some (tornCancel.take 55))).truncated = false ∧
    (∃ log, Appends (construct { path := "wal" } (some (tornCancel.take 55)) 0)
        [⟨2, .cancel 1⟩] log ∧
      (∃ appended, List.Forall₂ WalRecord.Same [⟨2, .cancel 1⟩] appended ∧
        (replay (some log.file.bytes)).records =
          (replay (some (tornCancel.take 55))).records ++ appended) ∧
      (replay (some log.file.bytes)).truncated = false) ∧
    ∃ log, Appends (construct { path := "wal" }
        (some (tornCancel.take 55 ++ List.replicate 25 0)) 0) [⟨2, .cancel 1⟩] log ∧
      ¬ ∃ appended, List.Forall₂ WalRecord.Same [⟨2, .cancel 1⟩] appended ∧
        (replay (some log.file.bytes)).records =
          (replay (some (tornCancel.take 55 ++ List.replicate 25 0))).records ++ appended := by
  have hintact : (replay (some (tornCancel.take 55))).truncated = false := by
    decide +kernel
  have hok : ((construct { path := "wal" } (some (tornCancel.take 55)) 0).append { }
      (.cancel 1)).1 = .ok 2 := by decide +kernel
  have hdamaged : ((construct { path := "wal" }
      (some (tornCancel.take 55 ++ List.replicate 25 0)) 0).append { } (.cancel 1)).1 =
        .ok 2 := by decide +kernel
  obtain ⟨hfound, hclean⟩ :=
    (reopened_log_continues (Appends.single hok)).1 (Or.inr hintact)
  exact ⟨hintact, ⟨_, Appends.single hok, hfound, hclean.trans hintact⟩,
    _, Appends.single hdamaged,
    (reopened_log_continues (Appends.single hdamaged)).2.1 ⟨_, rfl, by decide +kernel⟩⟩

/-- Damage shorter than a record need not be in the way: this cancel ends with the byte it
begins with. Cut off before its last byte and then appended, it is read from the cut record
and the first byte behind it. -/
example :
    let cancel := encodeRecord 1 (.cancel 0x1100000000000000)
    (replay (some (cancel.take 24))).truncated = true ∧
    (replay (some (cancel.take 24 ++ cancel))).records =
      [⟨1, .cancel 0x1100000000000000⟩] := by
  decide +kernel

/-- **What is appended behind a torn record is lost.** The bid is in the file, with
three bytes of its cancel. The log opens on it, numbers on, and the cancel is
appended again without an error; a replay finds the bid and no cancel. -/
theorem appended_behind_torn :
    ∃ log, Appends (construct { path := "wal" } (some tornCancel) 0) [⟨2, .cancel 1⟩] log ∧
      (replay (some tornCancel)).records.length = 1 ∧
      (replay (some log.file.bytes)).records = (replay (some tornCancel)).records ∧
      (replay (some log.file.bytes)).validBytes = 55 := by
  have hok : ((construct { path := "wal" } (some tornCancel) 0).append { }
      (.cancel 1)).1 = .ok 2 := by decide +kernel
  exact ⟨_, Appends.single hok, by decide +kernel, by decide +kernel, by decide +kernel⟩

end Exchange
