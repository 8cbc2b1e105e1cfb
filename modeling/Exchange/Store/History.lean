import Exchange.Store.Recovery

/-!
# History across crashes

An epoch recovers the log, opens it, appends, and crashes, perhaps in the middle
of an append; the crash leaves a prefix of what was written, with everything that
was there at the start and everything the last sync forced out. `Survives` is what
a recovery can find after any number of epochs. All of it is a cut stream of
records numbered from one, so each recovery continues the history of the one
before.
-/

namespace Exchange

open Framework WriteAheadLog

/-! ## Epochs -/

/-- The records of commands appended one after the other. -/
def numbered : Sequence → List Command → List WalRecord
  | _, [] => []
  | sequence, command :: commands =>
      { sequence, command } :: numbered (sequence + 1) commands

/-- Appends that all returned, with the records they put down. -/
inductive Appends (log : WriteAheadLog) : List WalRecord → WriteAheadLog → Prop where
  | nil : Appends log [] log
  | snoc {records : List WalRecord} {log' log'' : WriteAheadLog} (io : AppendIo)
      (command : Command) (sequence : Sequence) (h : Appends log records log')
      (ha : log'.append io command = (.ok sequence, log'')) :
      Appends log (records ++ [⟨sequence, command⟩]) log''

/-- What a crash may leave of the file, with the record of an append that was
under way. -/
structure Crash (opened log : WriteAheadLog) (pending : Option WalRecord)
    (left : Bytes) : Prop where
  next : ∀ r ∈ pending, r.sequence = log.nextSequence
  written : left <+: log.file.bytes ++ walFormat.stream pending.toList
  began : opened.file.bytes.length ≤ left.length
  synced : log.file.durable ≤ left.length

/-- A recovery of `disk` into a fresh book, with memory for all of it. -/
def recoverFresh (disk : Option Bytes) : Recovered :=
  recoverBookOnly plenty disk { state := {} }

/-- A recovery of `disk` that returns, and the disk it leaves. -/
def Recovers (disk disk' : Option Bytes) : Prop :=
  ∃ report, (recoverFresh disk).result = .ok report ∧ (recoverFresh disk).disk = disk'

/-- From `disk`, the appends of `returned` return under `config`, that of `pending`
does not, and a crash leaves `left`. -/
def Runs (disk : Option Bytes) (config : WalConfig) (returned : List WalRecord)
    (pending : Option WalRecord) (left : Bytes) : Prop :=
  ∃ now log, Appends (construct config disk now) returned log ∧
    Crash (construct config disk now) log pending left

/-- The disks a recovery can find, starting from none. -/
inductive Survives : Option Bytes → Prop where
  | start : Survives none
  | epoch {disk disk' : Option Bytes} {config : WalConfig} {returned : List WalRecord}
      {pending : Option WalRecord} {left : Bytes} (h : Survives disk)
      (recovered : Recovers disk disk') (ran : Runs disk' config returned pending left) :
      Survives (some left)

/-! ## Appending -/

theorem numbered_append (sequence : Sequence) (commands commands' : List Command) :
    numbered sequence (commands ++ commands') =
      numbered sequence commands ++
        numbered (sequence + UInt64.ofNat commands.length) commands' := by
  induction commands generalizing sequence with
  | nil => simp [numbered]
  | cons command commands ih =>
      have hnext : sequence + 1 + UInt64.ofNat commands.length =
          sequence + UInt64.ofNat (commands.length + 1) := by
        rw [UInt64.ofNat_add, UInt64.add_assoc, UInt64.add_comm 1]
        rfl
      rw [List.cons_append, numbered, numbered, ih, hnext]
      rfl

@[simp] theorem numbered_length (sequence : Sequence) (commands : List Command) :
    (numbered sequence commands).length = commands.length := by
  induction commands generalizing sequence with
  | nil => rfl
  | cons command commands ih => rw [numbered, List.length_cons, ih, List.length_cons]

theorem numbered_take (sequence : Sequence) (commands : List Command) (k : ℕ) :
    (numbered sequence commands).take k = numbered sequence (commands.take k) := by
  induction commands generalizing sequence k with
  | nil => simp [numbered]
  | cons command commands ih =>
      cases k with
      | zero => rfl
      | succ k => rw [numbered, List.take_succ_cons, List.take_succ_cons, numbered, ih]

/-- How a log stands against the commands appended since it was opened. The last
`sinceSync` of them may not have been forced out. -/
structure Standing (opened : WriteAheadLog) (commands : List Command)
    (log : WriteAheadLog) : Prop where
  config : log.config = opened.config
  next : log.nextSequence = opened.nextSequence + UInt64.ofNat commands.length
  bytes : log.file.bytes =
    opened.file.bytes ++ walFormat.stream (numbered opened.nextSequence commands)
  unsynced : log.sinceSync ≤ commands.length
  forced : (opened.file.bytes ++ walFormat.stream (numbered opened.nextSequence
      (commands.take (commands.length - log.sinceSync)))).length ≤
    max opened.file.bytes.length log.file.durable
  always : opened.config.policy = .always → log.sinceSync = 0
  batch : opened.config.policy = .batch →
    log.sinceSync < max 1 opened.config.batchRecords

section Standing

variable {opened log log' : WriteAheadLog} {commands : List Command} {io : AppendIo}
  {command : Command} {sequence : Sequence}

theorem shouldSync_false {now : Time} (h : log.shouldSync now = false) :
    log.config.policy ≠ .always ∧
      (log.config.policy = .batch → log.sinceSync < log.config.batchRecords) := by
  unfold shouldSync at h
  constructor
  · intro hp
    rw [hp] at h
    cases h
  · intro hp
    rw [hp] at h
    simp only [Bool.or_eq_false_iff, decide_eq_false_iff_not, Nat.not_le] at h
    exact h.1

/-- One append that returned. -/
theorem Standing.append (h : Standing opened commands log)
    (ha : log.append io command = (.ok sequence, log')) :
    sequence = log.nextSequence ∧ Standing opened (commands ++ [command]) log' := by
  have hnext : log.nextSequence + 1 =
      opened.nextSequence + UInt64.ofNat (commands ++ [command]).length := by
    rw [h.next, List.length_append, UInt64.ofNat_add, UInt64.add_assoc]
    rfl
  have hbytes : log.file.bytes ++ encodeRecord log.nextSequence command =
      opened.file.bytes ++
        walFormat.stream (numbered opened.nextSequence (commands ++ [command])) := by
    rw [h.bytes, numbered_append, walFormat.stream_append, h.next, List.append_assoc]
    simp [numbered, walFormat]
  have happ := append_appended log io command
  rw [ha] at happ
  cases happ with
  | buffered _ hs =>
      obtain ⟨hne, hbatch⟩ := shouldSync_false hs
      refine ⟨rfl, ⟨h.config, hnext, hbytes, ?_, ?_, ?_, ?_⟩⟩
      · have := h.unsynced
        simpa [count] using this
      · -- The commands known to be forced out are those of before.
        have hold : (commands ++ [command]).take ((commands ++ [command]).length -
            (log.sinceSync + 1)) = commands.take (commands.length - log.sinceSync) := by
          rw [List.length_append, List.length_singleton, Nat.add_sub_add_right]
          exact List.take_append_of_le_length (Nat.sub_le _ _)
        show (opened.file.bytes ++ walFormat.stream (numbered opened.nextSequence
          ((commands ++ [command]).take ((commands ++ [command]).length -
            (log.sinceSync + 1))))).length ≤ _
        rw [hold]
        exact h.forced
      · intro hp
        rw [← h.config] at hp
        exact absurd hp hne
      · intro hp
        rw [← h.config] at hp ⊢
        have hlt : log.sinceSync + 1 < log.config.batchRecords := hbatch hp
        show log.sinceSync + 1 < _
        omega
  | synced _ hs hf =>
      refine ⟨rfl, ⟨h.config, hnext, hbytes, Nat.zero_le _, ?_, fun _ => rfl, fun _ => ?_⟩⟩
      · show (opened.file.bytes ++ walFormat.stream (numbered opened.nextSequence
          ((commands ++ [command]).take ((commands ++ [command]).length - 0)))).length ≤ _
        rw [Nat.sub_zero, List.take_length, ← hbytes]
        exact Nat.le_max_right _ _
      · exact Nat.lt_of_lt_of_le Nat.zero_lt_one (Nat.le_max_left _ _)

/-- **Appending, all of it.** -/
theorem Appends.standing {records : List WalRecord} (hsince : opened.sinceSync = 0)
    (h : Appends opened records log) :
    records = numbered opened.nextSequence (records.map WalRecord.command) ∧
      Standing opened (records.map WalRecord.command) log := by
  induction h with
  | nil =>
      refine ⟨rfl, ⟨rfl, ?_, ?_, ?_, ?_, fun _ => hsince, fun _ => ?_⟩⟩
      · exact (UInt64.add_zero _).symm
      · exact (List.append_nil _).symm
      · rw [hsince]
        exact Nat.le_refl 0
      · simp [numbered]
      · rw [hsince]
        exact Nat.lt_of_lt_of_le Nat.zero_lt_one (Nat.le_max_left _ _)
  | snoc io command sequence _ ha ih =>
      obtain ⟨hrecords, hstanding⟩ := ih
      obtain ⟨rfl, hnext⟩ := hstanding.append ha
      refine ⟨?_, ?_⟩
      · rw [List.map_append, numbered_append, ← hrecords, ← hstanding.next]
        rfl
      · rw [List.map_append]
        exact hnext

end Standing

/-! ## What the disk holds -/

/-- A stream of records numbered from one, and perhaps something behind it that
cannot be read. -/
structure Logged (disk : Option Bytes) (commands : List Command) (torn : Bytes) :
    Prop where
  split : disk.getD [] = walFormat.stream (numbered 1 commands) ++ torn
  torn : walFormat.scan torn = { records := [], offset := 0, damaged := !torn.isEmpty }

theorem replay_eq (disk : Option Bytes) :
    replay disk =
      { records := (walFormat.scan (disk.getD [])).records
        validBytes := (walFormat.scan (disk.getD [])).offset
        truncated := (walFormat.scan (disk.getD [])).damaged } := by
  cases disk with
  | none =>
      rw [Option.getD_none, walFormat.scan_nil]
      rfl
  | some contents => rfl

theorem stored_map_sequence (records : List WalRecord) :
    (records.map WalRecord.stored).map WalRecord.sequence =
      records.map WalRecord.sequence := by
  rw [List.map_map]
  rfl

section Logged

variable {disk disk' : Option Bytes} {commands : List Command} {torn : Bytes}

theorem Logged.replay (h : Logged disk commands torn) :
    replay disk =
      { records := (numbered 1 commands).map WalRecord.stored
        validBytes := (walFormat.stream (numbered 1 commands)).length
        truncated := !torn.isEmpty } := by
  rw [replay_eq, h.split, walFormat.scan_stream, h.torn]
  simp [walFormat]

/-- A recovery takes the torn part away and nothing else. -/
theorem Logged.recovers (h : Logged disk commands torn) (hr : Recovers disk disk') :
    Logged disk' commands [] := by
  obtain ⟨report, hok, rfl⟩ := hr
  have hdisk : (recoverFresh disk).disk =
      if (!torn.isEmpty) = true then
        truncateTo disk (walFormat.stream (numbered 1 commands)).length
      else disk := by
    unfold recoverFresh recoverBookOnly at hok ⊢
    rw [h.replay] at hok ⊢
    dsimp only at hok ⊢
    rw [hok]
  refine ⟨?_, walFormat.scan_nil⟩
  rw [hdisk, List.append_nil]
  by_cases htorn : torn = []
  · rw [htorn]
    simpa [htorn] using h.split
  · rw [if_pos (by simpa using htorn)]
    cases disk with
    | none =>
        have hnil := h.split
        rw [Option.getD_none] at hnil
        exact absurd (List.append_eq_nil_iff.mp hnil.symm).2 htorn
    | some contents =>
        have hsplit : contents = _ := h.split
        show contents.take _ = _
        rw [hsplit, List.take_left]

theorem numbered_getLast? (sequence : Sequence) (commands : List Command) (c : Command) :
    (numbered sequence (commands ++ [c])).getLast? =
      some ⟨sequence + UInt64.ofNat commands.length, c⟩ := by
  rw [numbered_append]
  exact List.getLast?_concat

/-- Opening a log continues its numbers. -/
theorem Logged.next (h : Logged disk commands torn) (config : WalConfig) (now : Time) :
    (construct config disk now).nextSequence = 1 + UInt64.ofNat commands.length := by
  unfold construct
  rw [h.replay]
  dsimp only
  rw [List.getLast?_map]
  rcases List.eq_nil_or_concat commands with rfl | ⟨front, c, rfl⟩
  · rfl
  · rw [List.concat_eq_append, numbered_getLast?]
    show 1 + UInt64.ofNat front.length + 1 = 1 + UInt64.ofNat (front ++ [c]).length
    rw [List.length_append, UInt64.ofNat_add, UInt64.add_assoc]
    rfl

/-- What is appended to a clean log and what it held are one stream. -/
theorem Logged.continues (h : Logged disk commands []) (config : WalConfig) (now : Time)
    (later : List Command) :
    (construct config disk now).file.bytes ++
        walFormat.stream (numbered (construct config disk now).nextSequence later) =
      walFormat.stream (numbered 1 (commands ++ later)) := by
  have hopened : (construct config disk now).file.bytes =
      walFormat.stream (numbered 1 commands) := by
    have hsplit := h.split
    rwa [List.append_nil] at hsplit
  rw [hopened, h.next config now, numbered_append, walFormat.stream_append]

/-- The append a crash interrupts took the next number. -/
theorem Crash.numbered {opened log : WriteAheadLog} {pending : Option WalRecord}
    {left : Bytes} (h : Crash opened log pending left) :
    pending.toList =
      numbered log.nextSequence (pending.toList.map WalRecord.command) := by
  cases pending with
  | none => rfl
  | some r =>
      rw [← h.next r rfl]
      rfl

/-- **One epoch.** What a crash leaves is the old records, then a first part of
those appended, short of it by no more than the policy allows. -/
theorem Logged.runs {config : WalConfig} {returned : List WalRecord}
    {pending : Option WalRecord} {left : Bytes} (h : Logged disk commands [])
    (hr : Runs disk config returned pending left) :
    ∃ appended, returned ++ pending.toList =
        numbered (1 + UInt64.ofNat commands.length) appended ∧
      ∃ kept ≤ appended.length, ∃ torn,
        Logged (some left) (commands ++ appended.take kept) torn ∧
        (config.policy = .always → returned.length ≤ kept) ∧
        (config.policy = .batch →
          returned.length - kept < max 1 config.batchRecords) := by
  obtain ⟨now, log, happ, hcrash⟩ := hr
  have hnext := h.next config now
  obtain ⟨hreturned, hst⟩ := happ.standing rfl
  generalize hcs : returned.map WalRecord.command = applied at hreturned hst
  have hlen : returned.length = applied.length := by rw [← hcs, List.length_map]
  have hpending := hcrash.numbered
  generalize pending.toList.map WalRecord.command = begun at hpending
  have happended : returned ++ pending.toList =
      numbered (1 + UInt64.ofNat commands.length) (applied ++ begun) := by
    rw [numbered_append, ← hnext, ← hreturned, ← hst.next, ← hpending]
  -- Old and new records are one stream, and the crash cuts it.
  have hstream := h.continues config now
  have hwritten := hcrash.written
  rw [hst.bytes, List.append_assoc, ← walFormat.stream_append, hpending, hst.next,
    ← numbered_append, hstream] at hwritten
  obtain ⟨k, torn, hcut⟩ := walFormat.exists_cut _ _ hwritten
  have hcovers : ∀ j ≤ applied.length,
      (walFormat.stream (numbered 1 (commands ++ applied.take j))).length ≤
        left.length → commands.length + j ≤ k := by
    intro j hj hle
    apply hcut.covers
    · rw [numbered_length, List.length_append, List.length_append]
      omega
    · rw [numbered_take, List.take_length_add_append,
        List.take_append_of_le_length hj]
      exact hle
  have hbegan : commands.length ≤ k := by
    apply hcovers 0 (Nat.zero_le _)
    rw [List.take_zero, ← hstream]
    exact (List.append_nil _).symm ▸ hcrash.began
  have hforced : commands.length + (applied.length - log.sinceSync) ≤ k := by
    apply hcovers _ (Nat.sub_le _ _)
    rw [← hstream]
    exact Nat.le_trans hst.forced (Nat.max_le.mpr ⟨hcrash.began, hcrash.synced⟩)
  have hk : k ≤ commands.length + (applied ++ begun).length := by
    simpa using hcut.bound
  have hunsynced := hst.unsynced
  refine ⟨applied ++ begun, happended, k - commands.length, by omega, torn,
    ⟨?_, ?_⟩, ?_, ?_⟩
  · have htake : (commands ++ (applied ++ begun)).take k =
        commands ++ (applied ++ begun).take (k - commands.length) := by
      rw [List.take_append, List.take_of_length_le hbegan]
    rw [← htake, ← numbered_take]
    exact hcut.split
  · exact hcut.scan_torn
  · intro hp
    have hzero := hst.always hp
    omega
  · intro hp
    have hlt := hst.batch hp
    have hbatch : (construct config disk now).config.batchRecords =
        config.batchRecords := rfl
    rw [hbatch] at hlt
    omega

/-- **Whatever survives is a history.** -/
theorem Survives.logged (h : Survives disk) : ∃ commands torn, Logged disk commands torn := by
  induction h with
  | start => exact ⟨[], [], rfl, walFormat.scan_nil⟩
  | epoch _ recovered ran ih =>
      obtain ⟨commands, torn, hlog⟩ := ih
      obtain ⟨_, _, kept, _, torn', hlog', _⟩ := (hlog.recovers recovered).runs ran
      exact ⟨_, torn', hlog'⟩

end Logged

theorem numbered_sequences (sequence : Sequence) (commands : List Command) :
    (numbered sequence commands).map WalRecord.sequence =
      (List.range commands.length).map fun i => sequence + UInt64.ofNat i := by
  induction commands generalizing sequence with
  | nil => rfl
  | cons command commands ih =>
      rw [numbered, List.map_cons, ih, List.length_cons, List.range_succ_eq_map,
        List.map_cons, List.map_map]
      congr 1
      · exact (UInt64.add_zero _).symm
      · refine List.map_congr_left fun i _ => ?_
        show sequence + 1 + UInt64.ofNat i = sequence + UInt64.ofNat (i + 1)
        rw [UInt64.ofNat_add, UInt64.add_assoc, UInt64.add_comm 1]
        rfl

/-- **Durable history.** After every recovery the log is intact and its records
are numbered from one without a gap. When commands are then appended and a crash
strikes, the next recovery finds the same records, then a first part of those
appended; how many are missing whose append returned the sync policy bounds. -/
theorem durable_history {disk disk' : Option Bytes} (h : Survives disk)
    (hr : Recovers disk disk') :
    (replay disk').truncated = false ∧
    (replay disk').records.map WalRecord.sequence =
      (List.range (replay disk').records.length).map (fun i => UInt64.ofNat (i + 1)) ∧
    ∀ config returned pending left disk'', Runs disk' config returned pending left →
      Recovers (some left) disk'' →
      ∃ kept ≤ (returned ++ pending.toList).length, ∃ records,
        (replay disk'').records = (replay disk').records ++ records ∧
        List.Forall₂ WalRecord.Same ((returned ++ pending.toList).take kept) records ∧
        (config.policy = .always → returned.length - kept = 0) ∧
        (config.policy = .batch →
          returned.length - kept < max 1 config.batchRecords) := by
  obtain ⟨commands, torn, hlog⟩ := h.logged
  have hlog' := hlog.recovers hr
  have hreplay := hlog'.replay
  refine ⟨by rw [hreplay]; rfl, ?_, ?_⟩
  · rw [hreplay]
    dsimp only
    rw [stored_map_sequence, numbered_sequences, List.length_map, numbered_length]
    refine List.map_congr_left fun i _ => ?_
    rw [UInt64.ofNat_add, UInt64.add_comm]
    rfl
  · intro config returned pending left disk'' hran hr''
    obtain ⟨appended, happended, kept, hkept, torn', hleft, halways, hbatch⟩ :=
      hlog'.runs hran
    have hreplay'' := (hleft.recovers hr'').replay
    rw [happended, numbered_length]
    refine ⟨kept, hkept, (numbered (1 + UInt64.ofNat commands.length)
      (appended.take kept)).map WalRecord.stored, ?_, ?_, ?_, hbatch⟩
    · rw [hreplay, hreplay'']
      dsimp only
      rw [numbered_append, List.map_append]
    · rw [numbered_take, List.forall₂_map_right_iff]
      exact List.forall₂_same.mpr fun r _ => r.same_stored
    · intro hp
      exact Nat.sub_eq_zero_of_le (halways hp)

theorem bid_built : (limitOrder 1 .buy 7 5 100).Built := .limit _ _ _ _ _

/-- A bid that was logged, and three bytes of its cancel. -/
def tornCancel : Bytes :=
  encodeRecord 1 (.submit ⟨limitOrder 1 .buy 7 5 100, bid_built⟩) ++
    (encodeRecord 2 (.cancel 1)).take 3

/-- Killed while the cancel was being written, under the strictest policy: the
bid comes back and the rest is trimmed. -/
theorem durable_history_torn :
    (replay (some tornCancel)).truncated = true ∧
    ∃ kept ≤ 2, ∃ records,
      (replay (some (tornCancel.take 55))).records = (replay none).records ++ records ∧
      List.Forall₂ WalRecord.Same
        ([⟨1, .submit ⟨limitOrder 1 .buy 7 5 100, .limit _ _ _ _ _⟩⟩,
          ⟨2, .cancel 1⟩].take kept) records ∧
      1 - kept = 0 := by
  refine ⟨by decide +kernel, ?_⟩
  have hran : Runs none { path := "wal", policy := .always }
      [⟨1, .submit ⟨limitOrder 1 .buy 7 5 100, .limit _ _ _ _ _⟩⟩]
      (some ⟨2, .cancel 1⟩) tornCancel := by
    refine ⟨0, _, .snoc { } _ 1 .nil rfl, ⟨?_, ?_, Nat.zero_le _, ?_⟩⟩
    · rintro r ⟨⟩
      decide +kernel
    · decide +kernel
    · decide +kernel
  obtain ⟨kept, hkept, records, hrecords, hsame, halways, _⟩ :=
    (durable_history .start ⟨{}, rfl, rfl⟩).2.2 _ _ _ _
      (some (tornCancel.take 55)) hran
      ⟨{ recordsReplayed := 1, logTruncated := true, validBytes := 55,
         lastSequence := 1 }, by decide +kernel, by decide +kernel⟩
  exact ⟨kept, hkept, records, hrecords, hsame, halways rfl⟩

end Exchange
