import Exchange.Framework.Machine
import Exchange.Store.SqliteStore

/-!
# Double entry over whole runs

A run is any series of `createAccount` and `recordFill`, with whatever faults the
environment adds. The ledger consists of one pair of opposite entries for each recorded
fill, and every account holds what it was opened with and what the ledger moved to it.

The entries of a pair are opposite because `-notional` is the opposite of `notional`,
which fails for the one value of a 64-bit integer that has no opposite.
-/

namespace Exchange

open Framework

inductive StoreCall : Type where
  | createAccount (account : AccountId) (openingBalance : Int64) (faults : Faults)
  | recordFill (sequence : Sequence) (fill : Fill) (timestamp : Int64) (faults : Faults)

inductive StoreOutcome : Type where
  | created
  | recorded (isNew : Bool)
  | threw (e : StorageError)
deriving DecidableEq, Repr

/-- A database, and how it came to be. -/
structure Ledgered where
  db : Database := {}
  history : List (StoreCall × StoreOutcome) := []

/-- A fill as it was handed to `recordFill`. -/
structure Trade where
  sequence : Sequence
  fill : Fill
  timestamp : Int64
deriving DecidableEq, Repr

namespace Trade

def row (trade : Trade) : FillRow := rowOf trade.sequence trade.fill trade.timestamp

def postings (trade : Trade) : List PostingRow :=
  Database.postingsOf trade.sequence trade.fill

end Trade

namespace Ledgered

def call (s : Ledgered) (c : StoreCall) : StoreOutcome × Database :=
  match c with
  | .createAccount account openingBalance faults =>
      match s.db.createAccount faults account openingBalance with
      | (.ok (), db) => (.created, db)
      | (.error e, db) => (.threw e, db)
  | .recordFill sequence fill timestamp faults =>
      match s.db.recordFill faults sequence fill timestamp with
      | (.ok isNew, db) => (.recorded isNew, db)
      | (.error e, db) => (.threw e, db)

def machine : Machine Ledgered StoreCall where
  step s c :=
    some { db := (s.call c).2, history := s.history ++ [(c, (s.call c).1)] }

/-! ## What a run should come to -/

/-- The first time an account is created it gets its opening balance. -/
def openedBy (opened : List (Int64 × ℤ)) : StoreCall × StoreOutcome → List (Int64 × ℤ)
  | (.createAccount account openingBalance _, .created) =>
      if account.column ∈ opened.map Prod.fst then opened
      else opened ++ [(account.column, openingBalance.toInt)]
  | _ => opened

def openings (s : Ledgered) : List (Int64 × ℤ) := s.history.foldl openedBy []

/-- The fill that a call recorded. -/
def tradeOf : StoreCall × StoreOutcome → Option Trade
  | (.recordFill sequence fill timestamp _, .recorded true) => some ⟨sequence, fill, timestamp⟩
  | _ => none

/-- What was recorded, in the order of the calls. -/
def traded (s : Ledgered) : List Trade := s.history.filterMap tradeOf

/-- The entries of the ledger. -/
def entries (s : Ledgered) : List (Int64 × ℤ) := s.db.ledger.map PostingRow.entry

end Ledgered

namespace FillRow

def value (row : FillRow) : ℤ := row.price.toInt * row.quantity.toInt

def buyer (row : FillRow) : Int64 :=
  if row.aggressorSide = 0 then row.aggressorAccount else row.restingAccount

def seller (row : FillRow) : Int64 :=
  if row.aggressorSide = 0 then row.restingAccount else row.aggressorAccount

/-- The entries a fill should have. -/
def pair (row : FillRow) : Pair Int64 ℤ where
  first := row.aggressorAccount
  second := row.restingAccount
  amount := if row.aggressorSide = 0 then -row.value else row.value

theorem pair_perm (row : FillRow) :
    row.pair.entries.Perm [(row.buyer, -row.value), (row.seller, row.value)] := by
  unfold Pair.entries pair buyer seller
  dsimp only
  split
  · rw [neg_neg]
  · exact List.Perm.swap _ _ _

end FillRow

/-! ## The arithmetic of an entry -/

theorem aggressorSide_rowOf (sequence : Sequence) (fill : Fill) (timestamp : Int64) :
    (rowOf sequence fill timestamp).aggressorSide = 0 ↔ fill.aggressorSide = .buy := by
  have hside : ∀ side : Side, side.byte.toUInt64.toInt64 = 0 ↔ side = .buy := by
    intro side
    cases side <;> decide
  exact hside fill.aggressorSide

/-- The value of a fill fits a column, as does its quantity. -/
def Fill.Representable (fill : Fill) : Prop :=
  fill.quantity.toNat < 2 ^ 63 ∧ Database.InRange (fill.price.toInt * fill.quantity.toNat)

/-- The value of a fill has an opposite that fits a column. -/
def Fill.Negatable (fill : Fill) : Prop :=
  fill.price.toInt * fill.quantity.toNat ≠ -2 ^ 63

section Entry

variable {fill : Fill} (hfits : fill.Representable)

include hfits

theorem quantity_toInt : fill.quantity.toInt64.toInt = fill.quantity.toNat := by
  have hbits : fill.quantity.toInt64.toInt = fill.quantity.toBitVec.toInt := rfl
  rw [hbits, BitVec.toInt_eq_toNat_bmod]
  exact Database.bmod_of_inRange ⟨by omega, by exact_mod_cast hfits.1⟩

theorem notionalOf_toInt :
    (notionalOf fill).toInt = fill.price.toInt * fill.quantity.toNat := by
  rw [notionalOf, Int64.toInt_mul, quantity_toInt hfits, Database.bmod_of_inRange hfits.2]

theorem neg_notionalOf_toInt (hneg : fill.Negatable) :
    (-notionalOf fill).toInt = -(fill.price.toInt * fill.quantity.toNat) := by
  obtain ⟨hlow, hhigh⟩ := hfits.2
  unfold Fill.Negatable at hneg
  rw [Int64.toInt_neg, notionalOf_toInt hfits]
  exact Database.bmod_of_inRange ⟨by omega, by omega⟩

/-- The entries written for a fill are the ones its row should have. -/
theorem entries_postingsOf (hneg : fill.Negatable) (sequence : Sequence)
    (timestamp : Int64) :
    (Database.postingsOf sequence fill).map PostingRow.entry =
      (rowOf sequence fill timestamp).pair.entries := by
  have hvalue : (rowOf sequence fill timestamp).value =
      fill.price.toInt * fill.quantity.toNat := by
    unfold FillRow.value rowOf
    rw [quantity_toInt hfits]
  have hside := aggressorSide_rowOf sequence fill timestamp
  have hamount : (rowOf sequence fill timestamp).pair.amount = (aggressorEntry fill).delta.toInt ∧
      -(rowOf sequence fill timestamp).pair.amount = (restingEntry fill).delta.toInt := by
    unfold FillRow.pair aggressorEntry restingEntry
    dsimp only
    rw [hvalue]
    by_cases hbuy : fill.aggressorSide = .buy
    · rw [if_pos (hside.mpr hbuy), if_pos hbuy, if_pos hbuy, neg_notionalOf_toInt hfits hneg,
        notionalOf_toInt hfits, neg_neg]
      exact ⟨rfl, rfl⟩
    · rw [if_neg (mt hside.mp hbuy), if_neg hbuy, if_neg hbuy, notionalOf_toInt hfits,
        neg_notionalOf_toInt hfits hneg]
      exact ⟨rfl, rfl⟩
  rw [Pair.entries, hamount.2, hamount.1]
  rfl

end Entry

namespace Ledgered

/-! ## The invariant -/

/-- What the tables hold, in terms of the calls that went through. -/
structure Told (s : Ledgered) : Prop where
  fills : s.db.fills.rows = s.traded.map Trade.row
  ledger : s.db.ledger = s.traded.flatMap Trade.postings
  accounts : s.db.balances = s.openings.map fun o => (o.1, o.2 + moved s.entries o.1)
  columns : ∀ o ∈ s.openings, ∃ account : AccountId, o.1 = account.column

variable {s s' : Ledgered}

theorem openings_snoc (s : Ledgered) (db : Database) (event : StoreCall × StoreOutcome) :
    openings { db, history := s.history ++ [event] } = openedBy s.openings event := by
  unfold openings
  rw [List.foldl_append]
  rfl

theorem traded_snoc (s : Ledgered) (db : Database) (event : StoreCall × StoreOutcome) :
    traded { db, history := s.history ++ [event] } = s.traded ++ (tradeOf event).toList := by
  unfold traded
  rw [List.filterMap_append]
  rfl

/-- A call that leaves the database alone, records nothing and opens no account. -/
theorem Told.same (h : Told s) {event : StoreCall × StoreOutcome}
    (htrade : tradeOf event = none) (hopened : openedBy s.openings event = s.openings) :
    Told { db := s.db, history := s.history ++ [event] } where
  fills := by
    rw [traded_snoc, htrade]
    simpa using h.fills
  ledger := by
    rw [traded_snoc, htrade]
    simpa using h.ledger
  accounts := by
    rw [openings_snoc, hopened]
    exact h.accounts
  columns := by
    rw [openings_snoc, hopened]
    exact h.columns

theorem Told.keys (h : Told s) : s.db.accounts.keys = s.openings.map Prod.fst := by
  have hfst := congrArg (List.map Prod.fst) h.accounts
  unfold Database.balances at hfst
  rw [List.map_map, List.map_map] at hfst
  exact hfst

/-- Nothing was moved to an account that does not exist. -/
theorem moved_of_new {accountId : Int64} (h : accountId ∉ s.db.accounts.keys) :
    moved s.entries accountId = 0 := by
  unfold moved entries
  rw [List.map_map]
  refine List.sum_eq_zero fun x hx => ?_
  obtain ⟨posting, hposting, rfl⟩ := List.mem_map.mp hx
  have hkey := s.db.accountKey posting hposting
  refine if_neg ?_
  rintro rfl
  exact h hkey

theorem Told.create (h : Told s) (account : AccountId) (openingBalance : Int64)
    (faults : Faults) :
    Told {
      db := s.db.insertAccount ⟨account.column, openingBalance⟩
      history := s.history ++ [(.createAccount account openingBalance faults, .created)] } := by
  rcases s.db.insertAccount_cases ⟨account.column, openingBalance⟩ with
    ⟨hold, hsame⟩ | ⟨hnew, hfills, hledger, hbalances⟩
  · rw [hsame]
    refine h.same rfl (if_pos ?_)
    rw [← h.keys]
    exact hold
  · have hopened : openedBy s.openings
        (.createAccount account openingBalance faults, .created) =
          s.openings ++ [(account.column, openingBalance.toInt)] := by
      refine if_neg ?_
      rw [← h.keys]
      exact hnew
    have hnone : moved (s.db.ledger.map PostingRow.entry) account.column = 0 :=
      moved_of_new hnew
    refine ⟨?_, ?_, ?_, ?_⟩
    · rw [traded_snoc]
      dsimp only [tradeOf]
      rw [hfills, h.fills]
      simp
    · rw [traded_snoc]
      dsimp only [tradeOf]
      rw [hledger, h.ledger]
      simp
    · rw [openings_snoc, hopened, List.map_append, List.map_singleton, entries]
      dsimp only
      rw [hbalances, hledger, h.accounts, hnone, add_zero]
      rfl
    · rw [openings_snoc, hopened]
      refine List.forall_mem_append.mpr ⟨h.columns, ?_⟩
      rintro o ho
      cases List.mem_singleton.mp ho
      exact ⟨account, rfl⟩

theorem Told.record (h : Told s) {sequence : Sequence} {fill : Fill} {timestamp : Int64}
    {faults : Faults} {db' : Database}
    (hwritten : Database.Written s.db db' [rowOf sequence fill timestamp]
      (Database.postingsOf sequence fill)) :
    Told {
      db := db'
      history := s.history ++
        [(.recordFill sequence fill timestamp faults, .recorded true)] } where
  fills := by
    rw [traded_snoc]
    dsimp only
    rw [hwritten.fills, h.fills, List.map_append]
    rfl
  ledger := by
    rw [traded_snoc]
    dsimp only
    rw [hwritten.ledger, h.ledger, List.flatMap_append]
    rfl
  accounts := by
    rw [openings_snoc, entries]
    show db'.balances = s.openings.map _
    rw [hwritten.balances, hwritten.ledger, h.accounts, List.map_map]
    refine List.map_congr_left fun o _ => ?_
    dsimp only [Function.comp_apply, entries]
    rw [List.map_append, moved_append, add_assoc]
  columns := by
    rw [openings_snoc]
    exact h.columns

theorem told_step {c : StoreCall} (h : Told s) (hstep : machine.step s c = some s') :
    Told s' := by
  cases hstep
  cases c with
  | createAccount account openingBalance faults =>
      unfold call Database.createAccount
      dsimp only
      cases faults .account with
      | some e => exact h.same rfl rfl
      | none => exact h.create account openingBalance faults
  | recordFill sequence fill timestamp faults =>
      have hcases := Database.recordFill_cases faults sequence fill timestamp s.db
      unfold call
      dsimp only
      generalize s.db.recordFill faults sequence fill timestamp = result at hcases
      cases hcases with
      | threw e => exact h.same rfl rfl
      | already _ => exact h.same rfl rfl
      | recorded _ hwritten => exact h.record hwritten

theorem told_fresh : Told {} := ⟨rfl, rfl, rfl, by simp [openings]⟩

theorem told_run {calls : List StoreCall} (h : machine.run {} calls = some s) : Told s :=
  Machine.run_invariant told_step told_fresh h

/-! ## Runs with amounts that fit -/

/-- The value of a fill fits, and if it is to be recorded has an opposite that fits. -/
def Sound (s : Ledgered) : StoreCall → Prop
  | .createAccount _ _ _ => True
  | .recordFill sequence fill _ _ =>
      fill.Representable ∧ (fill.Negatable ∨ sequence.toInt64 ∈ s.db.fills.keys)

instance (s : Ledgered) (c : StoreCall) : Decidable (s.Sound c) :=
  match c with
  | .createAccount _ _ _ => inferInstanceAs (Decidable True)
  | .recordFill sequence fill _ _ =>
      inferInstanceAs (Decidable
        ((fill.quantity.toNat < 2 ^ 63 ∧
            Database.InRange (fill.price.toInt * fill.quantity.toNat)) ∧
          (fill.price.toInt * fill.quantity.toNat ≠ -2 ^ 63 ∨
            sequence.toInt64 ∈ s.db.fills.keys)))

/-- The trades of a run whose calls are sound. -/
structure Kept (s : Ledgered) : Prop extends Told s where
  representable : ∀ trade ∈ s.traded, trade.fill.Representable
  negatable : ∀ trade ∈ s.traded, trade.fill.Negatable

/-- Only a fill with a new sequence number is recorded. -/
theorem tradeOf_call {c : StoreCall} {trade : Trade}
    (h : tradeOf (c, (s.call c).1) = some trade) :
    ∃ faults, c = .recordFill trade.sequence trade.fill trade.timestamp faults ∧
      trade.sequence.toInt64 ∉ s.db.fills.keys := by
  cases c with
  | createAccount account openingBalance faults => cases h
  | recordFill sequence fill timestamp faults =>
      have hcases := Database.recordFill_cases faults sequence fill timestamp s.db
      unfold call at h
      dsimp only at h
      generalize s.db.recordFill faults sequence fill timestamp = result at hcases h
      cases hcases with
      | threw e => cases h
      | already _ => cases h
      | recorded hnew _ =>
          cases h
          exact ⟨faults, rfl, hnew⟩

theorem kept_step {c : StoreCall} (h : Kept s)
    (hstep : (machine.within Sound).step s c = some s') : Kept s' := by
  obtain ⟨hsound, hmove⟩ := Machine.within_step hstep
  have htold := told_step h.toTold hmove
  cases hmove
  have hnew : ∀ trade ∈ (tradeOf (c, (s.call c).1)).toList,
      trade.fill.Representable ∧ trade.fill.Negatable := by
    intro trade htrade
    obtain ⟨faults, rfl, hnew⟩ := tradeOf_call (Option.mem_toList.mp htrade)
    exact ⟨hsound.1, hsound.2.resolve_right hnew⟩
  refine ⟨htold, ?_, ?_⟩
  · rw [traded_snoc]
    exact List.forall_mem_append.mpr ⟨h.representable, fun trade ht => (hnew trade ht).1⟩
  · rw [traded_snoc]
    exact List.forall_mem_append.mpr ⟨h.negatable, fun trade ht => (hnew trade ht).2⟩

/-! ## What follows from it -/

/-- A posting with the fill it is for. -/
def tagged (posting : PostingRow) : Int64 × Int64 × ℤ := (posting.fillSeq, posting.entry)

/-- One pair of entries for each fill, in the order of the fills. -/
theorem Kept.ledger_tagged (h : Kept s) :
    s.db.ledger.map tagged =
      s.db.fills.rows.flatMap fun row => row.pair.entries.map (row.seq, ·) := by
  rw [h.ledger, h.fills, List.map_flatMap, List.flatMap_map]
  refine List.flatMap_congr fun trade htrade => ?_
  have hentries := entries_postingsOf (h.representable trade htrade) (h.negatable trade htrade)
    trade.sequence trade.timestamp
  rw [Trade.row, ← hentries, List.map_map]
  rfl

theorem Kept.entries_eq (h : Kept s) :
    s.entries = (s.db.fills.rows.map FillRow.pair).flatMap Pair.entries := by
  have hsnd : s.entries = (s.db.ledger.map tagged).map Prod.snd := by
    rw [List.map_map]
    rfl
  rw [hsnd, h.ledger_tagged, List.map_flatMap, List.flatMap_map]
  simp [Function.comp_def]

theorem Kept.postings (h : Kept s) {row : FillRow} (hrow : row ∈ s.db.fills.rows) :
    (s.db.ledger.filter (·.fillSeq = row.seq)).map PostingRow.entry = row.pair.entries := by
  have hfilter : (s.db.ledger.map tagged).filter (·.1 = row.seq) =
      (s.db.ledger.filter (·.fillSeq = row.seq)).map tagged := by
    rw [List.filter_map]
    rfl
  rw [h.ledger_tagged, Table.filter_tagged (fun row => row.pair.entries) hrow] at hfilter
  have hsnd := congrArg (List.map Prod.snd) hfilter
  rw [List.map_map, List.map_map] at hsnd
  simpa [Function.comp_def, tagged] using hsnd.symm

theorem Kept.total (h : Kept s) :
    (s.db.balances.map Prod.snd).sum = (s.openings.map Prod.snd).sum := by
  have hnodup : (s.openings.map Prod.fst).Nodup := by
    rw [← h.keys]
    exact s.db.accounts.unique
  have hparties : ∀ entry ∈ (s.db.fills.rows.map FillRow.pair).flatMap Pair.entries,
      entry.1 ∈ s.openings.map Prod.fst := by
    intro entry hentry
    rw [← h.entries_eq] at hentry
    obtain ⟨posting, hposting, rfl⟩ := List.mem_map.mp hentry
    rw [← h.keys]
    exact s.db.accountKey posting hposting
  rw [h.accounts, List.map_map, h.entries_eq]
  exact sum_balances hnodup hparties

/-- **Double entry.** In every run in which the value of a fill that is recorded fits a
column and so does its opposite: the postings add up to zero; every fill has exactly
two, which debit the buyer and credit the seller; every account holds its opening
balance and what was posted to it, and all accounts together what they were opened
with; recording a sequence again returns false and changes nothing; and so does a call
that throws. -/
theorem double_entry {calls : List StoreCall}
    (h : (machine.within Sound).run {} calls = some s) :
    (s.db.ledger.map (·.delta.toInt)).sum = 0 ∧
    (∀ row ∈ s.db.fills.rows,
      ((s.db.ledger.filter (·.fillSeq = row.seq)).map PostingRow.entry).Perm
        [(row.buyer, -row.value), (row.seller, row.value)]) ∧
    s.db.balances = s.openings.map (fun o => (o.1, o.2 + moved s.entries o.1)) ∧
    (s.db.balances.map Prod.snd).sum = (s.openings.map Prod.snd).sum ∧
    (∀ sequence fill timestamp, sequence.toInt64 ∈ s.db.fills.keys →
      s.db.recordFill (fun _ => none) sequence fill timestamp = (.ok false, s.db)) ∧
    (∀ faults sequence fill timestamp e,
      (s.db.recordFill faults sequence fill timestamp).1 = .error e →
        (s.db.recordFill faults sequence fill timestamp).2 = s.db) := by
  have hkept := Machine.run_invariant (I := Kept) kept_step
    ⟨told_fresh, by simp [traded], by simp [traded]⟩ h
  refine ⟨?_, ?_, hkept.accounts, hkept.total, ?_, ?_⟩
  · have hsum := sum_pairs (s.db.fills.rows.map FillRow.pair)
    rw [← hkept.entries_eq, entries, List.map_map] at hsum
    exact hsum
  · intro row hrow
    rw [hkept.postings hrow]
    exact row.pair_perm
  · intro sequence fill timestamp hold
    exact s.db.recordFill_again fill timestamp hold
  · intro faults sequence fill timestamp e hthrow
    have hcases := Database.recordFill_cases faults sequence fill timestamp s.db
    generalize s.db.recordFill faults sequence fill timestamp = result at hcases hthrow
    cases hcases with
    | threw _ => rfl
    | already _ => cases hthrow
    | recorded _ _ => cases hthrow

/-- No statement fails because of the environment. -/
def faultless : Faults := fun _ => none

/-- Two accounts, a trade between them, the same trade again, and one with an account
that does not exist. -/
def trades : List StoreCall :=
  [.createAccount 1 500 faultless, .createAccount 2 0 faultless,
    .recordFill 1 ⟨11, 12, 100, 3, 1, 2, .buy⟩ 0 faultless,
    .recordFill 1 ⟨11, 12, 100, 3, 1, 2, .buy⟩ 0 faultless,
    .recordFill 2 ⟨13, 14, -7, 5, 2, 3, .sell⟩ 0 faultless]

theorem double_entry_trades :
    ∃ s, (machine.within Sound).run {} trades = some s ∧ s.db.fills.rows.length = 1 ∧
      (s.db.ledger.map (·.delta.toInt)).sum = 0 := by
  have hrun : ((machine.within Sound).run {} trades).map
      (fun s => s.db.fills.rows.length) = some 1 := by
    decide +kernel
  obtain ⟨s, hs, hlength⟩ := Option.map_eq_some_iff.mp hrun
  exact ⟨s, hs, hlength, (double_entry hs).1⟩

/-- A trade whose value has no opposite in 64 bits. -/
def lowest : Fill := ⟨11, 12, Int64.minValue, 1, 1, 2, .buy⟩

/-- Its value fits a column, and both parties are debited. -/
theorem double_debit :
    lowest.Representable ∧
      ∃ s, machine.run {} [.createAccount 1 0 faultless, .createAccount 2 0 faultless,
          .recordFill 1 lowest 0 faultless] = some s ∧
        s.entries = [(1, -2 ^ 63), (2, -2 ^ 63)] ∧
        (s.db.ledger.map (·.delta.toInt)).sum ≠ 0 := by
  refine ⟨⟨by decide, by decide +kernel⟩, ?_⟩
  have hrun : (machine.run {} [.createAccount 1 0 faultless, .createAccount 2 0 faultless,
        .recordFill 1 lowest 0 faultless]).map
      (fun s => (s.entries, (s.db.ledger.map (·.delta.toInt)).sum)) =
        some ([(1, -2 ^ 63), (2, -2 ^ 63)], -2 ^ 64) := by
    decide +kernel
  obtain ⟨s, hs, hstate⟩ := Option.map_eq_some_iff.mp hrun
  obtain ⟨hentries, hsum⟩ := Prod.mk.inj hstate
  refine ⟨s, hs, hentries, ?_⟩
  rw [hsum]
  decide

end Ledgered

end Exchange
