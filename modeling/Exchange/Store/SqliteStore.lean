import Exchange.Framework.DoubleEntry
import Exchange.Framework.Table
import Exchange.Store.WriteAheadLog

/-!
# Accounts, fills and the ledger

The database holds three tables. What SQLite enforces is part of what a database is
here: primary keys are unique, a fill's quantity is positive, and a posting refers to a
fill and an account. A statement that would break one of these fails instead.

A transaction works on a copy. It is committed whole, or the destructor rolls it back.
Any statement may also fail because of the environment.
-/

namespace Exchange

open Framework

/-! ## The tables -/

structure AccountRow where
  accountId : Int64
  balance : Int64
deriving DecidableEq, Repr

structure FillRow where
  seq : Int64
  ts : Int64
  symbol : String
  aggressorOrderId : Int64
  restingOrderId : Int64
  aggressorAccount : Int64
  restingAccount : Int64
  aggressorSide : Int64
  price : Int64
  quantity : Int64
deriving DecidableEq, Repr

/-- A row of the ledger, without its row id. -/
structure PostingRow where
  fillSeq : Int64
  accountId : Int64
  delta : Int64
deriving DecidableEq, Repr

structure Database where
  accounts : Table Int64 AccountRow AccountRow.accountId := {}
  fills : Table Int64 FillRow FillRow.seq := {}
  ledger : List PostingRow := []
  /-- `CHECK (quantity > 0)` -/
  checked : ∀ row ∈ fills.rows, 0 < row.quantity := by exact nofun
  /-- `fill_seq REFERENCES fills(seq)` -/
  fillKey : ∀ posting ∈ ledger, posting.fillSeq ∈ fills.keys := by exact nofun
  /-- `account_id REFERENCES accounts(account_id)` -/
  accountKey : ∀ posting ∈ ledger, posting.accountId ∈ accounts.keys := by exact nofun

/-- A store without a row. -/
def Database.fresh : Database := {}

/-- Why a statement failed. -/
inductive SqliteFailure : Type where
  | primaryKey
  | check
  | foreignKey
  /-- A sum out of range is a `REAL`, which a `STRICT` integer column refuses. -/
  | datatype
  | environment (message : String)
deriving DecidableEq, Repr

def SqliteFailure.errmsg : SqliteFailure → String
  | .primaryKey => "UNIQUE constraint failed: fills.seq"
  | .check => "CHECK constraint failed: quantity > 0"
  | .foreignKey => "FOREIGN KEY constraint failed"
  | .datatype => "cannot store REAL value in INTEGER column accounts.balance"
  | .environment message => message

def checkResult (failure : SqliteFailure) (what : String) : StorageError :=
  ⟨what ++ ": " ++ failure.errmsg⟩

/-! ## The statements -/

namespace Database

/-- `INSERT INTO accounts … ON CONFLICT(account_id) DO NOTHING` -/
def insertAccount (db : Database) (row : AccountRow) : Database :=
  if h : row.accountId ∈ db.accounts.keys then db
  else
    { db with
      accounts := db.accounts.insert row h
      accountKey := fun posting hposting => by
        rw [Table.keys_insert]
        exact List.mem_append_left _ (db.accountKey posting hposting) }

/-- `INSERT INTO fills` -/
def insertFill (db : Database) (row : FillRow) : Except SqliteFailure Database :=
  if h : row.seq ∈ db.fills.keys then .error .primaryKey
  else if hcheck : 0 < row.quantity then
    .ok { db with
      fills := db.fills.insert row h
      checked := fun row' hrow' => by
        rcases List.mem_append.mp hrow' with hold | hnew
        · exact db.checked row' hold
        · cases List.mem_singleton.mp hnew
          exact hcheck
      fillKey := fun posting hposting => by
        rw [Table.keys_insert]
        exact List.mem_append_left _ (db.fillKey posting hposting) }
  else .error .check

/-- `INSERT INTO ledger` -/
def insertPosting (db : Database) (posting : PostingRow) : Except SqliteFailure Database :=
  if h : posting.fillSeq ∈ db.fills.keys ∧ posting.accountId ∈ db.accounts.keys then
    .ok { db with
      ledger := db.ledger ++ [posting]
      fillKey := List.forall_mem_append.mpr ⟨db.fillKey, by simpa using h.1⟩
      accountKey := List.forall_mem_append.mpr ⟨db.accountKey, by simpa using h.2⟩ }
  else .error .foreignKey

/-- What an integer column can hold. -/
def InRange (x : ℤ) : Prop := -2 ^ 63 ≤ x ∧ x < 2 ^ 63

instance (x : ℤ) : Decidable (InRange x) :=
  inferInstanceAs (Decidable (-2 ^ 63 ≤ x ∧ x < 2 ^ 63))

/-- `UPDATE accounts SET balance = balance + ?2 WHERE account_id = ?1` -/
def adjustBalance (db : Database) (accountId delta : Int64) :
    Except SqliteFailure Database :=
  if ∀ row ∈ db.accounts.find? accountId, InRange (row.balance.toInt + delta.toInt) then
    .ok { db with
      accounts := db.accounts.update accountId
        (fun row => { row with balance := row.balance + delta }) fun _ => rfl
      accountKey := fun posting hposting => by
        rw [Table.keys_update]
        exact db.accountKey posting hposting }
  else .error .datatype

end Database

/-! ## Transactions -/

/-- The statements of a call. -/
inductive Point : Type where
  | begin
  | existing
  | account
  | fill
  | posting (entry : ℕ)
  | adjust (entry : ℕ)
  | commit
deriving DecidableEq, Repr

/-- Where the environment makes a statement fail. -/
abbrev Faults : Type := Point → Option StorageError

abbrev Tx (α : Type) : Type := StateT Database (Except StorageError) α

/-- A statement that writes nothing. -/
def Faults.pass (faults : Faults) (point : Point) : Tx Unit :=
  match faults point with
  | some e => throw e
  | none => pure ()

def Faults.execute (faults : Faults) (point : Point)
    (statement : Database → Except SqliteFailure Database) : Tx Unit := do
  faults.pass point
  match statement (← get) with
  | .ok db => set db
  | .error failure => throw (checkResult failure "execute")

/-- Runs a body that ends with its commit. A throw on the way rolls back. -/
def transaction {α : Type} (faults : Faults) (body : Tx α) (db : Database) :
    Except StorageError α × Database :=
  match (faults.pass .begin *> body).run db with
  | .ok (a, db') => (.ok a, db')
  | .error e => (.error e, db)

/-! ## The store -/

structure LedgerEntry where
  account : AccountId
  delta : Int64
deriving DecidableEq, Repr

/-- `static_cast<std::int64_t>` of an account. -/
def AccountId.column (account : AccountId) : Int64 := account.toUInt64.toInt64

/-- Notional value of a fill. -/
def notionalOf (fill : Fill) : Int64 := fill.price * fill.quantity.toInt64

def rowOf (sequence : Sequence) (fill : Fill) (timestamp : Int64) : FillRow where
  seq := sequence.toInt64
  ts := timestamp
  symbol := "EXCH"
  aggressorOrderId := fill.aggressorId.toInt64
  restingOrderId := fill.restingId.toInt64
  aggressorAccount := fill.aggressorAccount.column
  restingAccount := fill.restingAccount.column
  aggressorSide := fill.aggressorSide.byte.toUInt64.toInt64
  price := fill.price
  quantity := fill.quantity.toInt64

/-- A row as it is read into a `Fill`. -/
def FillRow.asFill (row : FillRow) : Fill where
  aggressorId := row.aggressorOrderId.toUInt64
  restingId := row.restingOrderId.toUInt64
  price := row.price
  quantity := row.quantity.toUInt64
  aggressorAccount := row.aggressorAccount.toUInt64.toUInt32
  restingAccount := row.restingAccount.toUInt64.toUInt32
  aggressorSide := .ofByte row.aggressorSide.toUInt64.toUInt8

def aggressorEntry (fill : Fill) : LedgerEntry where
  account := fill.aggressorAccount
  delta := if fill.aggressorSide = .buy then -notionalOf fill else notionalOf fill

def restingEntry (fill : Fill) : LedgerEntry where
  account := fill.restingAccount
  delta := if fill.aggressorSide = .buy then notionalOf fill else -notionalOf fill

namespace Database

def createAccount (faults : Faults) (account : AccountId) (openingBalance : Int64)
    (db : Database) : Except StorageError Unit × Database :=
  match faults .account with
  | some e => (.error e, db)
  | none => (.ok (), db.insertAccount ⟨account.column, openingBalance⟩)

/-- One turn of the loop over the two entries. -/
def post (faults : Faults) (seq : Int64) (index : ℕ) (entry : LedgerEntry) : Tx Unit := do
  faults.execute (.posting index) (insertPosting · ⟨seq, entry.account.column, entry.delta⟩)
  faults.execute (.adjust index) (adjustBalance · entry.account.column entry.delta)

/-- The body of `recordFill`'s transaction. -/
def recordFillBody (faults : Faults) (sequence : Sequence) (fill : Fill)
    (timestamp : Int64) : Tx Bool := do
  let seq := sequence.toInt64
  faults.pass .existing
  if seq ∈ (← get).fills.keys then
    faults.pass .commit
    return false
  faults.execute .fill (insertFill · (rowOf sequence fill timestamp))
  post faults seq 0 (aggressorEntry fill)
  post faults seq 1 (restingEntry fill)
  faults.pass .commit
  return true

/-- Records a fill and its two ledger postings. -/
def recordFill (faults : Faults) (sequence : Sequence) (fill : Fill) (timestamp : Int64)
    (db : Database) : Except StorageError Bool × Database :=
  transaction faults (recordFillBody faults sequence fill timestamp) db

/-- The highest fill sequence recorded. -/
def lastFillSequence (db : Database) : Sequence :=
  ((db.fills.keys.max?).getD 0).toUInt64

/-! ## What a statement does -/

/-- What is on each account. -/
def balances (db : Database) : List (Int64 × ℤ) :=
  db.accounts.rows.map fun row => (row.accountId, row.balance.toInt)

end Database

/-- A posting as an entry of the ledger. -/
def PostingRow.entry (posting : PostingRow) : Int64 × ℤ :=
  (posting.accountId, posting.delta.toInt)

namespace Database

/-- Fills and postings that were added, with the accounts adjusted for the postings. -/
structure Written (db db' : Database) (rows : List FillRow) (postings : List PostingRow) :
    Prop where
  fills : db'.fills.rows = db.fills.rows ++ rows
  ledger : db'.ledger = db.ledger ++ postings
  balances : db'.balances =
    db.balances.map fun a => (a.1, a.2 + moved (postings.map PostingRow.entry) a.1)

section Statements

variable {db db' db'' : Database} {faults : Faults}

theorem Written.trans {rows rows' : List FillRow} {postings postings' : List PostingRow}
    (h : Written db db' rows postings) (h' : Written db' db'' rows' postings') :
    Written db db'' (rows ++ rows') (postings ++ postings') where
  fills := by rw [h'.fills, h.fills, List.append_assoc]
  ledger := by rw [h'.ledger, h.ledger, List.append_assoc]
  balances := by
    rw [h'.balances, h.balances, List.map_map]
    refine List.map_congr_left fun a _ => ?_
    dsimp only [Function.comp_apply]
    rw [List.map_append, moved_append, add_assoc]

theorem bmod_of_inRange {x : ℤ} (h : InRange x) : x.bmod (2 ^ 64) = x := by
  obtain ⟨hlow, hhigh⟩ := h
  refine Int.bmod_eq_of_le ?_ ?_ <;> norm_num <;> omega

theorem insertAccount_cases (db : Database) (row : AccountRow) :
    (row.accountId ∈ db.accounts.keys ∧ db.insertAccount row = db) ∨
      (row.accountId ∉ db.accounts.keys ∧ (db.insertAccount row).fills = db.fills ∧
        (db.insertAccount row).ledger = db.ledger ∧
        (db.insertAccount row).balances =
          db.balances ++ [(row.accountId, row.balance.toInt)]) := by
  unfold insertAccount
  split
  · exact Or.inl ⟨‹_›, rfl⟩
  · exact Or.inr ⟨‹_›, rfl, rfl, List.map_append⟩

theorem insertFill_ok {row : FillRow} (h : db.insertFill row = .ok db') :
    row.seq ∉ db.fills.keys ∧ Written db db' [row] [] := by
  unfold insertFill at h
  split at h
  · cases h
  · split at h
    · cases h
      refine ⟨‹_›, rfl, (List.append_nil _).symm, ?_⟩
      simp [balances, moved]
    · cases h

/-- A posting and the adjustment for it go together. -/
theorem post_ok {posting : PostingRow} {mid : Database}
    (hinsert : db.insertPosting posting = .ok mid)
    (hadjust : mid.adjustBalance posting.accountId posting.delta = .ok db') :
    Written db db' [] [posting] := by
  unfold insertPosting at hinsert
  split at hinsert
  swap
  · cases hinsert
  cases hinsert
  unfold adjustBalance at hadjust
  split at hadjust
  swap
  · cases hadjust
  rename_i hrange
  cases hadjust
  refine ⟨(List.append_nil _).symm, rfl, ?_⟩
  unfold balances Table.update
  rw [List.map_map, List.map_map]
  refine List.map_congr_left fun row hrow => ?_
  dsimp only [Function.comp_apply]
  rw [List.map_singleton, PostingRow.entry, moved_singleton]
  by_cases hid : row.accountId = posting.accountId
  · rw [if_pos hid, if_pos hid.symm]
    have hfound := Table.find?_of_mem hrow
    rw [hid] at hfound
    have hsum := hrange row hfound
    rw [Int64.toInt_add, bmod_of_inRange hsum]
  · rw [if_neg hid, if_neg (Ne.symm hid), add_zero]

end Statements

/-! ## What a call does -/

section Calls

variable {db db' : Database} {faults : Faults}

theorem bind_run {α β : Type} {x : Tx α} {f : α → Tx β} {b : β}
    (h : (x >>= f).run db = .ok (b, db')) :
    ∃ a mid, x.run db = .ok (a, mid) ∧ (f a).run mid = .ok (b, db') := by
  rw [StateT.run_bind] at h
  cases hx : x.run db with
  | error e =>
      rw [hx] at h
      cases h
  | ok result =>
      rw [hx] at h
      exact ⟨result.1, result.2, rfl, h⟩

theorem pass_run {point : Point} {u : Unit}
    (h : (faults.pass point).run db = .ok (u, db')) : db' = db := by
  unfold Faults.pass at h
  split at h
  · cases h
  · cases h
    rfl

theorem execute_run {point : Point} {statement : Database → Except SqliteFailure Database}
    {u : Unit} (h : (faults.execute point statement).run db = .ok (u, db')) :
    statement db = .ok db' := by
  obtain ⟨_, mid, hpass, hrest⟩ := bind_run h
  cases pass_run hpass
  obtain ⟨_, _, hget, hwrite⟩ := bind_run hrest
  cases hget
  split at hwrite
  · cases hwrite
    assumption
  · cases hwrite

theorem post_run {seq : Int64} {index : ℕ} {entry : LedgerEntry} {u : Unit}
    (h : (post faults seq index entry).run db = .ok (u, db')) :
    Written db db' [] [⟨seq, entry.account.column, entry.delta⟩] := by
  obtain ⟨_, mid, hinsert, hadjust⟩ := bind_run h
  exact post_ok (execute_run hinsert) (execute_run hadjust)

/-- The two postings of a fill. -/
def postingsOf (sequence : Sequence) (fill : Fill) : List PostingRow :=
  [⟨sequence.toInt64, fill.aggressorAccount.column, (aggressorEntry fill).delta⟩,
    ⟨sequence.toInt64, fill.restingAccount.column, (restingEntry fill).delta⟩]

/-- What `recordFill` returns, and the database it leaves. -/
inductive Recorded (sequence : Sequence) (fill : Fill) (timestamp : Int64) (db : Database) :
    Except StorageError Bool × Database → Prop where
  | threw (e : StorageError) : Recorded sequence fill timestamp db (.error e, db)
  | already (hold : sequence.toInt64 ∈ db.fills.keys) :
      Recorded sequence fill timestamp db (.ok false, db)
  | recorded {db' : Database} (hnew : sequence.toInt64 ∉ db.fills.keys)
      (hwritten : Written db db' [rowOf sequence fill timestamp] (postingsOf sequence fill)) :
      Recorded sequence fill timestamp db (.ok true, db')

theorem recordFillBody_run {sequence : Sequence} {fill : Fill} {timestamp : Int64}
    {result : Bool}
    (h : (recordFillBody faults sequence fill timestamp).run db = .ok (result, db')) :
    Recorded sequence fill timestamp db (.ok result, db') := by
  obtain ⟨_, _, hexisting, h⟩ := bind_run h
  cases pass_run hexisting
  obtain ⟨_, _, hget, h⟩ := bind_run h
  cases hget
  by_cases hold : sequence.toInt64 ∈ db.fills.keys
  · rw [if_pos hold] at h
    obtain ⟨_, _, hcommit, h⟩ := bind_run h
    cases pass_run hcommit
    cases h
    exact .already hold
  · rw [if_neg hold] at h
    obtain ⟨_, afterFill, hfill, h⟩ := bind_run h
    obtain ⟨_, afterFirst, hfirst, h⟩ := bind_run h
    obtain ⟨_, afterSecond, hsecond, h⟩ := bind_run h
    obtain ⟨_, _, hcommit, h⟩ := bind_run h
    cases pass_run hcommit
    cases h
    have hwritten := (insertFill_ok (execute_run hfill)).2
    exact .recorded hold ((hwritten.trans (post_run hfirst)).trans (post_run hsecond))

/-- A throw leaves the database as it was; otherwise the body went through. -/
theorem transaction_cases {α : Type} (faults : Faults) (body : Tx α) (db : Database) :
    (∃ e, transaction faults body db = (.error e, db)) ∨
      ∃ a db', transaction faults body db = (.ok a, db') ∧ body.run db = .ok (a, db') := by
  unfold transaction
  cases hrun : (faults.pass .begin *> body).run db with
  | error e => exact Or.inl ⟨e, rfl⟩
  | ok result =>
      refine Or.inr ⟨result.1, result.2, rfl, ?_⟩
      rw [seqRight_eq_bind] at hrun
      obtain ⟨_, _, hbegin, hbody⟩ := bind_run (b := result.1) hrun
      cases pass_run hbegin
      exact hbody

theorem transaction_ok {α : Type} {body : Tx α} {a : α} (hbegin : faults .begin = none)
    (hbody : body.run db = .ok (a, db')) : transaction faults body db = (.ok a, db') := by
  have hrun : (faults.pass .begin *> body).run db = .ok (a, db') := by
    rw [seqRight_eq_bind, StateT.run_bind, Faults.pass, hbegin]
    exact hbody
  rw [transaction, hrun]

theorem recordFill_cases (faults : Faults) (sequence : Sequence) (fill : Fill)
    (timestamp : Int64) (db : Database) :
    Recorded sequence fill timestamp db (recordFill faults sequence fill timestamp db) := by
  unfold recordFill
  rcases transaction_cases faults (recordFillBody faults sequence fill timestamp) db with
    ⟨e, he⟩ | ⟨result, db', hresult, hbody⟩
  · rw [he]
    exact .threw e
  · rw [hresult]
    exact recordFillBody_run hbody

/-- Recording a sequence again changes nothing. -/
theorem recordFill_again (db : Database) {sequence : Sequence} (fill : Fill)
    (timestamp : Int64) (h : sequence.toInt64 ∈ db.fills.keys) :
    db.recordFill (fun _ => none) sequence fill timestamp = (.ok false, db) := by
  have hbody : (recordFillBody (fun _ => none) sequence fill timestamp).run db =
      .ok (false, db) := by
    show (if sequence.toInt64 ∈ db.fills.keys then _ else _ : Tx Bool).run db = _
    rw [if_pos h]
    rfl
  exact transaction_ok rfl hbody

end Calls

end Database

end Exchange
