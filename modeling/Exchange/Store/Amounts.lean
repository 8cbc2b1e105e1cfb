import Exchange.Store.Ledger

/-!
# The amounts of a recorded fill

`recordFill` multiplies a price and a quantity from the wire in 64 bits and negates the
product for one of the parties. Nothing checks that the product fits: the two entries
still cancel out when it does not, so no later check of the ledger notices. A quantity
that is too large for its column, on the other hand, is negative there, and the `CHECK`
on it makes the insert fail.
-/

namespace Exchange

open Framework

namespace Fill

/-- What the buyer owes the seller. -/
def value (fill : Fill) : ℤ := fill.price.toInt * fill.quantity.toNat

def buyer (fill : Fill) : AccountId :=
  if fill.aggressorSide = .buy then fill.aggressorAccount else fill.restingAccount

def seller (fill : Fill) : AccountId :=
  if fill.aggressorSide = .buy then fill.restingAccount else fill.aggressorAccount

/-- The value and its opposite both fit 64 bits. -/
def ValueFits (fill : Fill) : Prop := -2 ^ 63 < fill.value ∧ fill.value < 2 ^ 63

instance (fill : Fill) : Decidable fill.ValueFits :=
  inferInstanceAs (Decidable (-2 ^ 63 < fill.value ∧ fill.value < 2 ^ 63))

theorem ValueFits.representable {fill : Fill} (h : fill.ValueFits)
    (hq : fill.quantity.toNat < 2 ^ 63) : fill.Representable ∧ fill.Negatable := by
  obtain ⟨hlow, hhigh⟩ := h
  exact ⟨⟨hq, Int.le_of_lt hlow, hhigh⟩, Int.ne_of_gt hlow⟩

end Fill

theorem rowOf_buyer (sequence : Sequence) (fill : Fill) (timestamp : Int64) :
    (rowOf sequence fill timestamp).buyer = fill.buyer.column := by
  have hside := aggressorSide_rowOf sequence fill timestamp
  unfold FillRow.buyer Fill.buyer
  by_cases hbuy : fill.aggressorSide = .buy
  · rw [if_pos (hside.mpr hbuy), if_pos hbuy]
    rfl
  · rw [if_neg (mt hside.mp hbuy), if_neg hbuy]
    rfl

theorem rowOf_seller (sequence : Sequence) (fill : Fill) (timestamp : Int64) :
    (rowOf sequence fill timestamp).seller = fill.seller.column := by
  have hside := aggressorSide_rowOf sequence fill timestamp
  unfold FillRow.seller Fill.seller
  by_cases hbuy : fill.aggressorSide = .buy
  · rw [if_pos (hside.mpr hbuy), if_pos hbuy]
    rfl
  · rw [if_neg (mt hside.mp hbuy), if_neg hbuy]
    rfl

namespace Database

/-- The row and the postings of a fill say what it was, in unbounded integers. -/
structure Exact (fill : Fill) (row : FillRow) (postings : List PostingRow) : Prop where
  quantity : row.quantity.toInt = fill.quantity.toNat
  entries : (postings.map PostingRow.entry).Perm
    [(fill.buyer.column, -fill.value), (fill.seller.column, fill.value)]

/-- A call that records the fill exactly, or throws and leaves the database alone. -/
inductive ExactOrThrows (db : Database) (sequence : Sequence) (fill : Fill) :
    Except StorageError Bool × Database → Prop where
  | threw (e : StorageError) : ExactOrThrows db sequence fill (.error e, db)
  | exact (db' : Database) (row : FillRow) (postings : List PostingRow)
      (written : Written db db' [row] postings) (seq : row.seq = sequence.toInt64)
      (is : Exact fill row postings) : ExactOrThrows db sequence fill (.ok true, db')

variable {db db' : Database} {sequence : Sequence} {fill : Fill} {timestamp : Int64}

/-- The `CHECK` on the quantity keeps out what its column cannot hold. -/
theorem Written.quantity_lt {postings : List PostingRow}
    (h : Written db db' [rowOf sequence fill timestamp] postings) :
    fill.quantity.toNat < 2 ^ 63 := by
  have hmem : rowOf sequence fill timestamp ∈ db'.fills.rows := by
    rw [h.fills]
    exact List.mem_append_right _ (List.mem_singleton_self _)
  have hpos : (0 : Int64) < fill.quantity.toInt64 := db'.checked _ hmem
  have hint := Int64.lt_iff_toInt_lt.mp hpos
  have hbits : fill.quantity.toInt64.toInt = fill.quantity.toBitVec.toInt := rfl
  have hzero : (0 : Int64).toInt = 0 := rfl
  rw [hbits, hzero] at hint
  have hhalf := BitVec.toInt_pos_iff.mp (Int.le_of_lt hint)
  rw [UInt64.toNat_toBitVec] at hhalf
  omega

theorem exact_postingsOf (hfits : fill.ValueFits) (hq : fill.quantity.toNat < 2 ^ 63) :
    Exact fill (rowOf sequence fill timestamp) (postingsOf sequence fill) := by
  obtain ⟨hrep, hneg⟩ := hfits.representable hq
  have hquantity : (rowOf sequence fill timestamp).quantity.toInt = fill.quantity.toNat :=
    quantity_toInt hrep
  refine ⟨hquantity, ?_⟩
  have hperm := (rowOf sequence fill timestamp).pair_perm
  have hvalue : (rowOf sequence fill timestamp).value = fill.value := by
    unfold FillRow.value Fill.value
    rw [hquantity]
    rfl
  rwa [← entries_postingsOf hrep hneg, rowOf_buyer, rowOf_seller, hvalue] at hperm

/-- Entries are 64-bit integers, so they can only be exact if the value and its opposite
are. -/
theorem Exact.valueFits {row : FillRow} {postings : List PostingRow}
    (h : Exact fill row postings) : fill.ValueFits := by
  have hrange : ∀ entry ∈ postings.map PostingRow.entry, InRange entry.2 := by
    intro entry hentry
    obtain ⟨posting, _, rfl⟩ := List.mem_map.mp hentry
    exact ⟨posting.delta.le_toInt, posting.delta.toInt_lt⟩
  have hdebit := hrange _ (h.entries.mem_iff.mpr List.mem_cons_self)
  have hcredit := hrange _ (h.entries.mem_iff.mpr (List.mem_cons_of_mem _ List.mem_cons_self))
  obtain ⟨hlow, hhigh⟩ := hcredit
  obtain ⟨hlow', hhigh'⟩ := hdebit
  dsimp only at hlow hhigh hlow' hhigh'
  constructor <;> omega

/-- **Amounts.** Recording a fill under a new sequence number posts its exact value and
stores its exact quantity, or throws without an effect, if the value and its opposite fit
64 bits or the quantity does not fit its column. And a call that does record does so
exactly only if the value and its opposite fit. -/
theorem fill_amounts (db : Database) (faults : Faults) (sequence : Sequence) (fill : Fill)
    (timestamp : Int64) (hnew : sequence.toInt64 ∉ db.fills.keys) :
    (fill.ValueFits ∨ 2 ^ 63 ≤ fill.quantity.toNat →
      ExactOrThrows db sequence fill (db.recordFill faults sequence fill timestamp)) ∧
    ((db.recordFill faults sequence fill timestamp).1 = .ok true →
      ExactOrThrows db sequence fill (db.recordFill faults sequence fill timestamp) →
      fill.ValueFits) := by
  have hcases := recordFill_cases faults sequence fill timestamp db
  generalize db.recordFill faults sequence fill timestamp = result at hcases
  cases hcases with
  | threw e =>
      refine ⟨fun _ => .threw e, fun hok _ => ?_⟩
      cases hok
  | already hold => exact absurd hold hnew
  | recorded _ hwritten =>
      constructor
      · intro h
        have hq := hwritten.quantity_lt
        have hfits := h.resolve_right (Nat.not_le.mpr hq)
        exact .exact _ _ _ hwritten rfl (exact_postingsOf hfits hq)
      · intro _ h
        cases h with
        | exact _ _ _ _ _ is => exact is.valueFits

/-! ## A value that wraps -/

/-- Two accounts without money. -/
def twoAccounts : Database :=
  (Database.fresh.insertAccount ⟨1, 0⟩).insertAccount ⟨2, 0⟩

/-- The fill of an order of 3 at 100. -/
theorem fill_amounts_small :
    ((twoAccounts.recordFill (fun _ => none) 1 ⟨11, 12, 100, 3, 1, 2, .buy⟩ 0).1 = .ok true) ∧
    ExactOrThrows twoAccounts 1 ⟨11, 12, 100, 3, 1, 2, .buy⟩
      (twoAccounts.recordFill (fun _ => none) 1 ⟨11, 12, 100, 3, 1, 2, .buy⟩ 0) := by
  refine ⟨by decide +kernel, (fill_amounts twoAccounts _ 1 _ 0 ?_).1 (Or.inl ?_)⟩
  · decide +kernel
  · decide +kernel

/-- Two orders of 2^62 at 3. Their value of 3 * 2^62 comes out as -2^62: the buyer is
paid for buying, and the seller pays. -/
def wrapping : Fill := ⟨11, 12, 3, 2 ^ 62, 1, 2, .buy⟩

theorem buyer_credited :
    (twoAccounts.recordFill (fun _ => none) 1 wrapping 0).1 = .ok true ∧
    (twoAccounts.recordFill (fun _ => none) 1 wrapping 0).2.ledger.map PostingRow.entry =
      [(wrapping.buyer.column, 2 ^ 62), (wrapping.seller.column, -2 ^ 62)] ∧
    wrapping.value = 3 * 2 ^ 62 ∧
    ¬ ExactOrThrows twoAccounts 1 wrapping
      (twoAccounts.recordFill (fun _ => none) 1 wrapping 0) := by
  refine ⟨by decide +kernel, by decide +kernel, by decide +kernel, ?_⟩
  intro h
  have hok : (twoAccounts.recordFill (fun _ => none) 1 wrapping 0).1 = .ok true := by
    decide +kernel
  have hfits : ¬ wrapping.ValueFits := by decide +kernel
  generalize twoAccounts.recordFill (fun _ => none) 1 wrapping 0 = result at h hok
  cases h with
  | threw e => cases hok
  | exact _ _ _ _ _ is => exact hfits is.valueFits

end Database

end Exchange
