import Exchange.Framework.Select
import Exchange.Store.Ledger
import Mathlib

/-!
# What the store answers

The database is read by account, by time and as a whole. Over every run of
`createAccount` and `recordFill`, whatever statements the environment makes fail, the
answers are held here against the calls that went through: the fills that come back are
the fills that were recorded, each account shows what it was opened with and what they
moved to it, and the control sum of the ledger is zero or cannot be formed.

Rows that agree in what a query orders them by come in any order. SQLite reads `fills` by
an index or by row id as it sees fit, so how it comes upon the rows is a parameter.
-/

namespace Exchange

open Framework

/-! ## The queries -/

structure AccountBalance where
  account : AccountId
  balance : Int64
deriving DecidableEq, Repr

def AccountRow.accountBalance (row : AccountRow) : AccountBalance :=
  ⟨row.accountId.toUInt64.toUInt32, row.balance⟩

/-- `LIMIT ?2` with a `std::size_t` bound as a signed integer: a negative limit is none. -/
def boundLimit (limit : UInt64) : Option ℕ :=
  if 0 ≤ limit.toInt64.toInt then some limit.toInt64.toInt.toNat else none

namespace Database

/-- The order in which SQLite comes upon the rows of `fills`. -/
abbrev Scan (db : Database) : Type := { rows : List FillRow // rows.Perm db.fills.rows }

def balanceOf (db : Database) (account : AccountId) : Option Int64 :=
  (db.accounts.find? account.column).map (·.balance)

def fillCount (db : Database) : ℕ := db.fills.rows.length

/-- `ORDER BY ts DESC` -/
def newest (row : FillRow) : ℤᵒᵈ := OrderDual.toDual row.ts.toInt

def fillsForAccount (db : Database) (scan : db.Scan) (account : AccountId) (limit : UInt64) :
    List Fill :=
  (select (·.aggressorAccount = account.column) newest (boundLimit limit) scan.1).map
    FillRow.asFill

def recentFills (db : Database) (scan : db.Scan) (limit : UInt64) : List Fill :=
  (select (·.symbol = "EXCH") newest (boundLimit limit) scan.1).map FillRow.asFill

/-- One step of `SUM`, which fails when an integer overflows on the way. -/
def addDelta (sum : Int64) (posting : PostingRow) : Except StorageError Int64 :=
  if InRange (sum.toInt + posting.delta.toInt) then .ok (sum + posting.delta)
  else .error ⟨"step: integer overflow"⟩

def ledgerImbalance (db : Database) : Except StorageError Int64 :=
  db.ledger.foldlM addDelta 0

def allBalances (db : Database) : List AccountBalance :=
  (select (fun _ => true) (·.accountId.toInt) none db.accounts.rows).map
    AccountRow.accountBalance

end Database

/-! ## What the answers should be -/

namespace Trade

/-- What the trade moves to an account. -/
def movedTo (trade : Trade) (account : AccountId) : ℤ :=
  moved (trade.postings.map PostingRow.entry) account.column

def newest (trade : Trade) : ℤᵒᵈ := OrderDual.toDual trade.timestamp.toInt

/-- The fills of some of the trades, newest first. A limit that is not a signed integer
is no limit. -/
def NewestFirst (limit : UInt64) (trades : List Trade) (fills : List Fill) : Prop :=
  ∃ answer, fills = answer.map Trade.fill ∧
    Selected newest (if limit.toNat < 2 ^ 63 then some limit.toNat else none) trades answer

end Trade

/-- The trade that a row is about. -/
def FillRow.trade (row : FillRow) : Trade := ⟨row.seq.toUInt64, row.asFill, row.ts⟩

/-! ## Columns -/

theorem column_toInt (account : AccountId) : account.column.toInt = account.toNat := by
  have hbits : account.column.toInt = (account.toUInt64.toBitVec).toInt := rfl
  have hsmall : account.toUInt64.toNat < 2 ^ 32 := by
    rw [UInt32.toNat_toUInt64]
    exact account.toNat_lt
  rw [hbits, BitVec.toInt_eq_toNat_of_lt, UInt64.toNat_toBitVec, UInt32.toNat_toUInt64]
  rw [UInt64.toNat_toBitVec]
  omega

theorem column_cast (account : AccountId) : account.column.toUInt64.toUInt32 = account := by
  simp [AccountId.column]

theorem column_inj {account account' : AccountId} :
    account.column = account'.column ↔ account = account' := by
  refine ⟨fun h => ?_, congrArg AccountId.column⟩
  rw [← column_cast account, h, column_cast]

theorem asFill_row (trade : Trade) : trade.row.asFill = trade.fill := by
  have hside : ∀ side : Side, Side.ofByte side.byte.toUInt64.toUInt8 = side := by
    intro side
    cases side <;> rfl
  simp only [Trade.row, rowOf, FillRow.asFill, hside, column_cast, UInt64.toUInt64_toInt64]

/-- A row is read back as the trade it was written for. -/
theorem trade_row (trade : Trade) : trade.row.trade = trade := by
  unfold FillRow.trade
  rw [asFill_row]
  simp [Trade.row, rowOf]

theorem boundLimit_eq (limit : UInt64) :
    boundLimit limit = if limit.toNat < 2 ^ 63 then some limit.toNat else none := by
  have hbits : limit.toInt64.toInt = limit.toBitVec.toInt := rfl
  unfold boundLimit
  rw [hbits, BitVec.toInt_eq_toNat_cond, UInt64.toNat_toBitVec]
  have hlt := limit.toNat_lt
  split_ifs <;> first | omega | rfl

/-! ## The answers about fills -/

namespace Database

variable {db : Database} {trades : List Trade}

/-- What is read of the rows of some trades are the newest of these trades. -/
theorem select_newestFirst (hfills : db.fills.rows = trades.map Trade.row) (scan : db.Scan)
    (p : FillRow → Bool) (limit : UInt64) :
    Trade.NewestFirst limit (trades.filter (p ∘ Trade.row))
      ((select p newest (boundLimit limit) scan.1).map FillRow.asFill) := by
  have hscan : scan.1.Perm (trades.map Trade.row) := scan.2.trans (.of_eq hfills)
  have hselected := select_selected p newest (boundLimit limit) hscan
  rw [List.filter_map] at hselected
  have htrades : Selected Trade.newest _ _ _ :=
    hselected.map (f := FillRow.trade) fun _ => rfl
  have hback : FillRow.trade ∘ Trade.row = id := funext trade_row
  rw [List.map_map, hback, List.map_id, boundLimit_eq] at htrades
  refine ⟨_, ?_, htrades⟩
  rw [List.map_map, boundLimit_eq]
  rfl

/-- An amount and its opposite cancel out in the sum, unless it has none in 64 bits. -/
theorem sum_opposites (amount seq first second : Int64) :
    [PostingRow.mk seq first amount, ⟨seq, second, -amount⟩].foldlM addDelta 0 =
      if amount = Int64.minValue then .error ⟨"step: integer overflow"⟩ else .ok 0 := by
  have hfirst : addDelta 0 ⟨seq, first, amount⟩ = .ok amount := by
    have hrange : InRange ((0 : Int64).toInt + amount.toInt) := by
      rw [Int64.toInt_zero, zero_add]
      exact ⟨amount.le_toInt, amount.toInt_lt⟩
    rw [addDelta, if_pos hrange, Int64.zero_add]
  rw [List.foldlM_cons, hfirst]
  show addDelta amount ⟨seq, second, -amount⟩ >>= _ = _
  by_cases hlowest : amount = Int64.minValue
  · subst hlowest
    rfl
  · have hlow : amount.toInt ≠ -2 ^ 63 := fun h =>
      hlowest (Int64.toInt_inj.mp (h.trans Int64.toInt_minValue.symm))
    have hneg : (-amount).toInt = -amount.toInt := by
      have hle := amount.le_toInt
      have hlt := amount.toInt_lt
      rw [Int64.toInt_neg]
      exact bmod_of_inRange ⟨by omega, by omega⟩
    have hrange : InRange (amount.toInt + (-amount).toInt) := by
      rw [hneg, add_neg_cancel]
      decide
    rw [addDelta, if_pos hrange, if_neg hlowest, Int64.add_right_neg]
    rfl

/-- The two postings of a fill cancel out in the sum, unless its value has no opposite. -/
theorem sum_postings (trade : Trade) :
    trade.postings.foldlM addDelta 0 =
      if notionalOf trade.fill = Int64.minValue then .error ⟨"step: integer overflow"⟩
      else .ok 0 := by
  unfold Trade.postings postingsOf aggressorEntry restingEntry
  split
  · have hsum := sum_opposites (-notionalOf trade.fill) trade.sequence.toInt64
      trade.fill.aggressorAccount.column trade.fill.restingAccount.column
    -- the lowest amount is its own opposite
    have hlowest : -notionalOf trade.fill = Int64.minValue ↔
        notionalOf trade.fill = Int64.minValue := Int64.neg_inj (b := Int64.minValue)
    rwa [Int64.neg_neg, if_congr hlowest rfl rfl] at hsum
  · exact sum_opposites ..

theorem sum_trades (trades : List Trade) :
    (trades.flatMap Trade.postings).foldlM addDelta 0 =
      if ∃ trade ∈ trades, notionalOf trade.fill = Int64.minValue then
        .error ⟨"step: integer overflow"⟩
      else .ok 0 := by
  induction trades with
  | nil => rfl
  | cons trade trades ih =>
      rw [List.flatMap_cons, List.foldlM_append, sum_postings]
      by_cases hlowest : notionalOf trade.fill = Int64.minValue
      · rw [if_pos hlowest, if_pos ⟨trade, List.mem_cons_self, hlowest⟩]
        rfl
      · rw [if_neg hlowest]
        show (trades.flatMap Trade.postings).foldlM addDelta 0 = _
        rw [ih]
        simp only [List.exists_mem_cons_iff, hlowest, false_or]

end Database

/-! ## The answers about accounts -/

namespace Ledgered

variable {s : Ledgered}

/-- What was posted to an account is what the trades moved to it. -/
theorem Told.moved_entries (h : Told s) (account : AccountId) :
    moved s.entries account.column = (s.traded.map (·.movedTo account)).sum := by
  rw [entries, h.ledger]
  induction s.traded with
  | nil => rfl
  | cons trade trades ih =>
      rw [List.flatMap_cons, List.map_append, moved_append, ih, List.map_cons, List.sum_cons]
      rfl

/-- An account shows its opening balance and what the trades moved to it. -/
theorem Told.balanceOf (h : Told s) (account : AccountId) :
    (s.db.balanceOf account).map Int64.toInt =
      (s.openings.find? (·.1 = account.column)).map fun o =>
        o.2 + (s.traded.map (·.movedTo account)).sum := by
  have hfound : (s.db.balances.find? (·.1 = account.column)).map Prod.snd =
      (s.db.balanceOf account).map Int64.toInt := by
    unfold Database.balances Database.balanceOf Table.find?
    rw [List.find?_map, Option.map_map, Option.map_map]
    rfl
  rw [← hfound, h.accounts, List.find?_map, Option.map_map]
  refine Option.map_congr fun o ho => ?_
  have hcolumn : o.1 = account.column := by simpa using List.find?_some ho
  show o.2 + moved s.entries o.1 = _
  rw [hcolumn, h.moved_entries]

/-- The key of an account's row is the account. -/
theorem Told.row_account (h : Told s) {row : AccountRow} (hrow : row ∈ s.db.accounts.rows) :
    row.accountId = row.accountBalance.account.column := by
  have hkey : row.accountId ∈ s.db.accounts.keys := List.mem_map_of_mem hrow
  rw [h.keys] at hkey
  obtain ⟨o, ho, heq⟩ := List.mem_map.mp hkey
  obtain ⟨account, haccount⟩ := h.columns o ho
  have hcolumn : row.accountId = account.column := heq.symm.trans haccount
  unfold AccountRow.accountBalance
  rw [hcolumn, column_cast]

/-- Every account is listed, with what it shows. -/
theorem Told.mem_allBalances (h : Told s) (account : AccountId) (balance : Int64) :
    ⟨account, balance⟩ ∈ s.db.allBalances ↔ s.db.balanceOf account = some balance := by
  have hperm := (select_selected (fun _ => true) (fun row : AccountRow => row.accountId.toInt)
    none (.refl s.db.accounts.rows)).perm
  rw [List.filter_true] at hperm
  unfold Database.allBalances Database.balanceOf
  rw [List.mem_map, Option.map_eq_some_iff]
  constructor
  · rintro ⟨row, hrow, heq⟩
    have hmem := hperm.mem_iff.mp hrow
    have hkey := h.row_account hmem
    rw [heq] at hkey
    refine ⟨row, ?_, congrArg AccountBalance.balance heq⟩
    rw [← hkey]
    exact Table.find?_of_mem hmem
  · rintro ⟨row, hfound, rfl⟩
    have hkey : row.accountId = account.column := by simpa using List.find?_some hfound
    refine ⟨row, hperm.mem_iff.mpr (List.mem_of_find?_eq_some hfound), ?_⟩
    unfold AccountRow.accountBalance
    rw [hkey, column_cast]

/-- No account is listed twice, and they are in the order of their ids. -/
theorem Told.allBalances_sorted (h : Told s) :
    s.db.allBalances.Pairwise (·.account < ·.account) := by
  have hselected := select_selected (fun _ => true)
    (fun row : AccountRow => row.accountId.toInt) none (.refl s.db.accounts.rows)
  have hperm := hselected.perm
  rw [List.filter_true] at hperm
  have hunique := (hperm.map AccountRow.accountId).nodup_iff.mpr s.db.accounts.unique
  unfold Database.allBalances
  rw [List.pairwise_map]
  refine (hselected.sorted.and (List.pairwise_map.mp hunique)).imp_of_mem ?_
  rintro row row' hrow hrow' ⟨hle, hne⟩
  have hkey := h.row_account (hperm.mem_iff.mp hrow)
  have hkey' := h.row_account (hperm.mem_iff.mp hrow')
  have hlt : row.accountId.toInt < row'.accountId.toInt :=
    lt_of_le_of_ne hle fun heq => hne (Int64.toInt_inj.mp heq)
  rw [hkey, hkey', column_toInt, column_toInt] at hlt
  exact UInt32.lt_iff_toNat_lt.mpr (Int.ofNat_lt.mp hlt)

/-- **Answers.** After every run of calls, whatever statements failed: as many fills are
counted as were recorded; an account shows its opening balance and what the fills moved to
it, or nothing if it was never created; all accounts are listed once, by their ids; the
tape and an account's statement are the newest fills recorded, and the newest in which the
account was the aggressor, as many as asked for; and the ledger adds up to zero, unless a
fill was recorded whose value has no opposite: then the query throws. -/
theorem answers_tell_history {calls : List StoreCall} (h : machine.run {} calls = some s) :
    s.db.fillCount = s.traded.length ∧
    (∀ account, (s.db.balanceOf account).map Int64.toInt =
      (s.openings.find? (·.1 = account.column)).map fun o =>
        o.2 + (s.traded.map (·.movedTo account)).sum) ∧
    s.db.allBalances.Pairwise (·.account < ·.account) ∧
    (∀ account balance, ⟨account, balance⟩ ∈ s.db.allBalances ↔
      s.db.balanceOf account = some balance) ∧
    (∀ scan limit, Trade.NewestFirst limit s.traded (s.db.recentFills scan limit)) ∧
    (∀ scan account limit,
      Trade.NewestFirst limit (s.traded.filter (·.fill.aggressorAccount = account))
        (s.db.fillsForAccount scan account limit)) ∧
    s.db.ledgerImbalance =
      if ∃ trade ∈ s.traded, notionalOf trade.fill = Int64.minValue then
        .error ⟨"step: integer overflow"⟩
      else .ok 0 := by
  have htold := told_run h
  refine ⟨?_, htold.balanceOf, htold.allBalances_sorted, htold.mem_allBalances, ?_, ?_, ?_⟩
  · rw [Database.fillCount, htold.fills, List.length_map]
  · intro scan limit
    have htape := Database.select_newestFirst htold.fills scan (·.symbol = "EXCH") limit
    have hall : (fun row : FillRow => decide (row.symbol = "EXCH")) ∘ Trade.row =
        fun _ => true := by
      funext trade
      rfl
    rw [hall, List.filter_true] at htape
    exact htape
  · intro scan account limit
    have hstatement := Database.select_newestFirst htold.fills scan
      (·.aggressorAccount = account.column) limit
    have hmine : (fun row : FillRow => decide (row.aggressorAccount = account.column)) ∘
        Trade.row = fun trade => decide (trade.fill.aggressorAccount = account) := by
      funext trade
      exact decide_eq_decide.mpr column_inj
    rw [hmine] at hstatement
    exact hstatement
  · rw [Database.ledgerImbalance, htold.ledger, Database.sum_trades]

/-- Two trades at once and an older one, one of them of a seller. -/
def quarter : List StoreCall :=
  [.createAccount 1 500 faultless, .createAccount 2 0 faultless,
    .recordFill 1 ⟨11, 12, 100, 3, 1, 2, .buy⟩ 7 faultless,
    .recordFill 2 ⟨13, 14, 101, 1, 2, 1, .sell⟩ 9 faultless,
    .recordFill 3 ⟨15, 16, 99, 2, 1, 2, .buy⟩ 9 faultless]

theorem answers_tell_history_quarter :
    ∃ s, machine.run {} quarter = some s ∧ s.traded.length = 3 ∧
      s.db.recentFills ⟨s.db.fills.rows, .refl _⟩ 2 =
        [⟨13, 14, 101, 1, 2, 1, .sell⟩, ⟨15, 16, 99, 2, 1, 2, .buy⟩] ∧
      s.db.fillCount = 3 := by
  have hrun : (machine.run {} quarter).map (fun s => decide (s.traded.length = 3 ∧
      s.db.recentFills ⟨s.db.fills.rows, .refl _⟩ 2 =
        [⟨13, 14, 101, 1, 2, 1, .sell⟩, ⟨15, 16, 99, 2, 1, 2, .buy⟩])) = some true := by
    decide +kernel
  obtain ⟨s, hs, hstate⟩ := Option.map_eq_some_iff.mp hrun
  obtain ⟨hcount, hrecent⟩ := of_decide_eq_true hstate
  exact ⟨s, hs, hcount, hrecent, (answers_tell_history hs).1.trans hcount⟩

end Ledgered

end Exchange
