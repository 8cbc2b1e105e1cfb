import Exchange.Core.Apply
import Exchange.Core.Wire
import Exchange.Framework.Scan
import Exchange.Store.Crc32

/-!
# Records of the write-ahead log

A record is a length, a checksum of the payload, and the payload: a sequence
number and a command. `decodeRecord` never throws; whatever is wrong with its
input is a status. That a whole record reads back and that a record cut short
does not is `walFormat`, and everything the log does with files of records
rests on it.

The writer does not ask an order for its type. It infers it from what the order
shows, so what is read back is `stored` and not always what was written.
-/

namespace Exchange

open Framework LittleEndian

/-- A command plus the position it occupied in the log. -/
structure WalRecord where
  sequence : Sequence
  command : Command
deriving DecidableEq

/-! ## Orders -/

/-- The concrete order type on disk. -/
inductive StoredOrderKind : Type where
  | limit
  | market
  | iceberg
deriving DecidableEq, Repr

def StoredOrderKind.byte : StoredOrderKind → UInt8
  | .limit => 0
  | .market => 1
  | .iceberg => 2

/-- The cast of a byte to a side. Every comparison in the book is with `Buy`, so
a byte that names neither side is a sell to it. -/
def Side.ofByte (b : UInt8) : Side := if b = 0 then .buy else .sell

@[simp] theorem Side.ofByte_byte (s : Side) : Side.ofByte s.byte = s := by
  cases s <;> rfl

/-- The kind `writeOrder` puts down: an order that rests is an iceberg if it
shows less than it holds. -/
def storedKind (order : Order) : StoredOrderKind :=
  match order.restingPrice with
  | none => .market
  | some _ => if order.displaySize < order.remaining then .iceberg else .limit

def writeOrder (order : Order) : Bytes :=
  Writer.u8 (storedKind order).byte ++ (Writer.u64 order.id ++
    (Writer.u32 order.account ++ (Writer.u8 order.side.byte ++
      (Writer.i64 (order.restingPrice.getD 0) ++ (Writer.u64 order.remaining ++
        Writer.u64 order.displaySize)))))

/-- The order `readOrder` builds from its fields. -/
def buildStored (kind : UInt8) (id : OrderId) (account : AccountId) (side : Side)
    (price : Price) (quantity display : Quantity) : Option BuiltOrder :=
  if kind = StoredOrderKind.limit.byte then
    some ⟨limitOrder id side account quantity price, .limit _ _ _ _ _⟩
  else if kind = StoredOrderKind.market.byte then
    some ⟨marketOrder id side account quantity, .market _ _ _ _⟩
  else if kind = StoredOrderKind.iceberg.byte then
    some ⟨icebergOrder id side account quantity price display, .iceberg _ _ _ _ _ _⟩
  else none

def readOrder : Reader (Option BuiltOrder) := do
  let kind ← Reader.u8
  let id ← Reader.u64
  let account ← Reader.u32
  let side ← Reader.u8
  let price ← Reader.i64
  let quantity ← Reader.u64
  let display ← Reader.u64
  return buildStored kind id account (.ofByte side) price quantity display

/-! ## Records -/

inductive RecordType : Type where
  | submit
  | cancel
  | modify
deriving DecidableEq, Repr

def RecordType.byte : RecordType → UInt8
  | .submit => 1
  | .cancel => 2
  | .modify => 3

def kRecordHeaderSize : ℕ := 8

/-- Largest payload accepted on replay. -/
def kMaxRecordPayload : UInt32 := 4096

def writeCommand : Command → Bytes
  | .submit order => Writer.u8 RecordType.submit.byte ++ writeOrder order.1
  | .cancel id => Writer.u8 RecordType.cancel.byte ++ Writer.u64 id
  | .modify id quantity price =>
      Writer.u8 RecordType.modify.byte ++ (Writer.u64 id ++ (Writer.u64 quantity ++
        (Writer.u8 (if price.isSome then 1 else 0) ++ Writer.i64 (price.getD 0))))

def encodePayload (sequence : Sequence) (command : Command) : Bytes :=
  Writer.u64 sequence ++ writeCommand command

def frame (payload : Bytes) : Bytes :=
  Writer.u32 (UInt32.ofNat payload.length) ++
    (Writer.u32 (Crc32.crc32 payload) ++ payload)

/-- Serialises a complete record, header included. -/
def encodeRecord (sequence : Sequence) (command : Command) : Bytes :=
  frame (encodePayload sequence command)

/-- Outcome of trying to read one record from a buffer. -/
inductive ReadResult : Type where
  | ok (record : WalRecord) (consumed : ℕ)
  /-- Not enough bytes: for a file, the log ends here. -/
  | incomplete
  /-- Structurally impossible, or the checksum disagrees. -/
  | corrupt
deriving DecidableEq

def readU32 (bytes : Bytes) (offset : ℕ) : UInt32 :=
  (assemble ((bytes.drop offset).take 4)).toUInt32

/-- The command behind the sequence number; `none` if there is no such type. -/
def readCommand : Reader (Option Command) := do
  let type ← Reader.u8
  if type = RecordType.submit.byte then
    return (← readOrder).map .submit
  else if type = RecordType.cancel.byte then
    return some (.cancel (← Reader.u64))
  else if type = RecordType.modify.byte then
    let id ← Reader.u64
    let quantity ← Reader.u64
    let hasPrice ← Reader.u8
    let price ← Reader.i64
    return some (.modify id quantity (if hasPrice ≠ 0 then some price else none))
  else return none

def readPayload : Reader (Option WalRecord) := do
  let sequence ← Reader.u64
  match ← readCommand with
  | none => return none
  | some command =>
      Reader.requireFullyConsumed
      return some { sequence, command }

/-- Decodes one record from the front of `bytes`, with memory for the order in it: a failed
allocation would be caught and come out as `corrupt`. -/
def decodeRecord (bytes : Bytes) : ReadResult :=
  if bytes.length < kRecordHeaderSize then .incomplete
  else
    let length := readU32 bytes 0
    let expectedCrc := readU32 bytes 4
    if length = 0 ∨ length > kMaxRecordPayload then .corrupt
    else if bytes.length < kRecordHeaderSize + length.toNat then .incomplete
    else
      let payload := (bytes.drop kRecordHeaderSize).take length.toNat
      if Crc32.crc32 payload ≠ expectedCrc then .corrupt
      else
        match readPayload.run payload with
        | .ok (some record, _) => .ok record (kRecordHeaderSize + length.toNat)
        | _ => .corrupt

/-! ## A record reads back -/

/-- The order as it comes back from the log. -/
def Order.stored (o : Order) : BuiltOrder :=
  match storedKind o with
  | .limit => ⟨limitOrder o.id o.side o.account o.remaining (o.restingPrice.getD 0),
      .limit _ _ _ _ _⟩
  | .market => ⟨marketOrder o.id o.side o.account o.remaining, .market _ _ _ _⟩
  | .iceberg => ⟨icebergOrder o.id o.side o.account o.remaining
      (o.restingPrice.getD 0) o.displaySize, .iceberg _ _ _ _ _ _⟩

/-- The command as it comes back from the log. -/
def Command.stored : Command → Command
  | .submit order => .submit order.1.stored
  | .cancel id => .cancel id
  | .modify id quantity price => .modify id quantity price

def WalRecord.stored (r : WalRecord) : WalRecord := { r with command := r.command.stored }

/-- Two orders no query of the book tells apart. -/
structure Order.Same (o o' : Order) : Prop where
  id : o.id = o'.id
  side : o.side = o'.side
  account : o.account = o'.account
  restingPrice : o.restingPrice = o'.restingPrice
  remaining : o.remaining = o'.remaining
  visibleQty : o.visibleQty = o'.visibleQty
  displaySize : o.displaySize = o'.displaySize

def Command.Same : Command → Command → Prop
  | .submit o, .submit o' => o.1.Same o'.1
  | .cancel id, .cancel id' => id = id'
  | .modify id quantity price, .modify id' quantity' price' =>
      id = id' ∧ quantity = quantity' ∧ price = price'
  | _, _ => False

/-- The same place in the log, and the same command field for field. -/
structure WalRecord.Same (r r' : WalRecord) : Prop where
  sequence : r.sequence = r'.sequence
  command : r.command.Same r'.command

theorem clampDisplay_clampDisplay (display qty : Quantity) :
    clampDisplay (clampDisplay display qty) qty = clampDisplay display qty := by
  unfold clampDisplay
  grind

theorem clampDisplay_le (display qty : Quantity) : clampDisplay display qty ≤ qty := by
  unfold clampDisplay
  grind

theorem storedKind_limit (id : OrderId) (side : Side) (account : AccountId) (qty : Quantity)
    (price : Price) : storedKind (limitOrder id side account qty price) = .limit := by
  simp [storedKind, limitOrder, Order.restingPrice, Order.displaySize]

/-- An iceberg is written down as one only if it hides something. -/
theorem storedKind_iceberg (id : OrderId) (side : Side) (account : AccountId)
    (qty : Quantity) (price : Price) (display : Quantity) :
    storedKind (icebergOrder id side account qty price display) =
      if clampDisplay display qty < qty then .iceberg else .limit := rfl

/-- The log keeps every field of an order that is as its constructor left it. -/
theorem Order.Built.same_stored {o : Order} (h : o.Built) : o.Same o.stored.1 := by
  cases h with
  | limit id side account qty price =>
      unfold Order.stored
      rw [storedKind_limit]
      exact ⟨rfl, rfl, rfl, rfl, rfl, rfl, rfl⟩
  | market id side account qty => exact ⟨rfl, rfl, rfl, rfl, rfl, rfl, rfl⟩
  | iceberg id side account qty price display =>
      unfold Order.stored
      rw [storedKind_iceberg]
      by_cases hlt : clampDisplay display qty < qty
      · -- An iceberg that hides something comes back as it was.
        rw [if_pos hlt]
        have hclamp := clampDisplay_clampDisplay display qty
        exact ⟨rfl, rfl, rfl, rfl, rfl, hclamp.symm, hclamp.symm⟩
      · -- One that shows all it has comes back as a limit order.
        rw [if_neg hlt]
        have hle := clampDisplay_le display qty
        have hall : clampDisplay display qty = qty := by grind
        exact ⟨rfl, rfl, rfl, rfl, rfl, hall, hall⟩

theorem WalRecord.same_stored (r : WalRecord) : r.Same r.stored := by
  refine ⟨rfl, ?_⟩
  obtain ⟨sequence, command⟩ := r
  cases command with
  | submit order => exact order.2.same_stored
  | cancel id => exact rfl
  | modify id quantity price => exact ⟨rfl, rfl, rfl⟩

theorem buildStored_kind (o : Order) :
    buildStored (storedKind o).byte o.id o.account o.side (o.restingPrice.getD 0)
      o.remaining o.displaySize = some o.stored := by
  unfold Order.stored
  cases storedKind o <;> rfl

theorem readOrder_run (o : Order) :
    readOrder.run (writeOrder o) = .ok (some o.stored, []) := by
  simp only [readOrder, writeOrder, StateT.run_bind, u8_run, u64_run, u32_run, i64_run,
    u64_run_last, ok_bind, Side.ofByte_byte, buildStored_kind]
  rfl

theorem readCommand_run (c : Command) :
    readCommand.run (writeCommand c) = .ok (some c.stored, []) := by
  cases c with
  | submit order =>
      simp only [readCommand, writeCommand, StateT.run_bind, u8_run, ok_bind, if_true,
        readOrder_run]
      rfl
  | cancel id =>
      simp only [readCommand, writeCommand, StateT.run_bind, u8_run, ok_bind]
      rw [if_neg (by decide), if_pos trivial]
      simp only [StateT.run_bind, u64_run_last, ok_bind]
      rfl
  | modify id quantity price =>
      simp only [readCommand, writeCommand, StateT.run_bind, u8_run, ok_bind]
      rw [if_neg (by decide), if_neg (by decide), if_pos trivial]
      simp only [StateT.run_bind, u64_run, u8_run, i64_run_last, ok_bind]
      cases price <;> rfl

theorem readPayload_run (sequence : Sequence) (c : Command) :
    readPayload.run (encodePayload sequence c) =
      .ok (some { sequence, command := c.stored }, []) := by
  simp only [readPayload, encodePayload, StateT.run_bind, u64_run, ok_bind,
    readCommand_run]
  rfl

/-- Payloads are short: the length never looks like damage. -/
theorem encodePayload_length (sequence : Sequence) (c : Command) :
    17 ≤ (encodePayload sequence c).length ∧ (encodePayload sequence c).length ≤ 47 := by
  cases c <;> simp [encodePayload, writeCommand, writeOrder]

section Frame

variable (payload rest : Bytes)

theorem frame_length :
    (frame payload).length = kRecordHeaderSize + payload.length := by
  simp [frame, kRecordHeaderSize]
  omega

/-- A word is the same whatever stands behind it. -/
theorem readU32_take (bytes : Bytes) {offset n : ℕ} (h : offset + 4 ≤ n) :
    readU32 (bytes.take n) offset = readU32 bytes offset := by
  rw [readU32, readU32, List.drop_take, List.take_take, Nat.min_eq_left (by omega)]

/-- Eight bytes of a framed payload are enough to know its header. -/
theorem readU32_frame {front : Bytes}
    (h : front.take kRecordHeaderSize = (frame payload).take kRecordHeaderSize) :
    readU32 front 0 = UInt32.ofNat payload.length ∧
      readU32 front 4 = Crc32.crc32 payload := by
  have hword : ∀ i, i + 4 ≤ kRecordHeaderSize → readU32 front i = readU32 (frame payload) i := by
    intro i hi
    rw [← readU32_take front hi, h, readU32_take _ hi]
  have hfirst : ((frame payload).drop 0).take 4 =
      Writer.u32 (UInt32.ofNat payload.length) := by
    simp [frame]
  have hsecond : ((frame payload).drop 4).take 4 = Writer.u32 (Crc32.crc32 payload) := by
    simp [frame]
  constructor
  · rw [hword 0 (by decide), readU32, hfirst, Writer.u32, assemble_emit_half]
  · rw [hword 4 (by decide), readU32, hsecond, Writer.u32, assemble_emit_half]

theorem drop_frame : (frame payload ++ rest).drop kRecordHeaderSize = payload ++ rest := by
  have hheader : frame payload ++ rest =
      (Writer.u32 (UInt32.ofNat payload.length) ++
        Writer.u32 (Crc32.crc32 payload)) ++ (payload ++ rest) := by
    simp [frame]
  rw [hheader, List.drop_left' (by simp [kRecordHeaderSize])]

end Frame

section Format

variable (sequence : Sequence) (c : Command)

/-- The header of a record, as `decodeRecord` checks it. -/
theorem header_ok :
    (UInt32.ofNat (encodePayload sequence c).length).toNat =
        (encodePayload sequence c).length ∧
      ¬ (UInt32.ofNat (encodePayload sequence c).length = 0 ∨
        UInt32.ofNat (encodePayload sequence c).length > kMaxRecordPayload) := by
  obtain ⟨hlow, hhigh⟩ := encodePayload_length sequence c
  generalize (encodePayload sequence c).length = n at hlow hhigh
  have hnat : (UInt32.ofNat n).toNat = n := by
    rw [UInt32.toNat_ofNat']
    omega
  refine ⟨hnat, ?_⟩
  rintro (hzero | hbig)
  · rw [hzero] at hnat
    simp at hnat
    omega
  · have hlt := UInt32.lt_iff_toNat_lt.mp hbig
    rw [hnat] at hlt
    have hmax : kMaxRecordPayload.toNat = 4096 := rfl
    omega

theorem encodeRecord_length : (encodeRecord sequence c).length =
    kRecordHeaderSize + (encodePayload sequence c).length := frame_length _

/-- Behind the header of a record, the checksum decides what is read. -/
theorem decodeRecord_header {bytes : Bytes}
    (htake : bytes.take kRecordHeaderSize =
      (encodeRecord sequence c).take kRecordHeaderSize)
    (hlen : (encodeRecord sequence c).length ≤ bytes.length) :
    decodeRecord bytes =
      if Crc32.crc32 ((bytes.drop kRecordHeaderSize).take (encodePayload sequence c).length) ≠
        Crc32.crc32 (encodePayload sequence c) then .corrupt
      else
        match readPayload.run
          ((bytes.drop kRecordHeaderSize).take (encodePayload sequence c).length) with
        | .ok (some record, _) => .ok record (encodeRecord sequence c).length
        | _ => .corrupt := by
  obtain ⟨hnat, hplausible⟩ := header_ok sequence c
  obtain ⟨hlength, hcrc⟩ := readU32_frame (encodePayload sequence c) htake
  rw [encodeRecord_length] at hlen
  rw [decodeRecord, if_neg (by omega)]
  dsimp only
  rw [hlength, hcrc, if_neg hplausible, hnat, if_neg (Nat.not_lt.mpr hlen),
    encodeRecord_length]

/-- **A whole record reads back**, whatever stands behind it. -/
theorem decodeRecord_encodeRecord (rest : Bytes) :
    decodeRecord (encodeRecord sequence c ++ rest) =
      .ok { sequence, command := c.stored } (encodeRecord sequence c).length := by
  have htake : (encodeRecord sequence c ++ rest).take kRecordHeaderSize =
      (encodeRecord sequence c).take kRecordHeaderSize := by
    apply List.take_append_of_le_length
    rw [encodeRecord_length]
    exact Nat.le_add_right _ _
  have hlen : (encodeRecord sequence c).length ≤ (encodeRecord sequence c ++ rest).length := by
    rw [List.length_append]
    exact Nat.le_add_right _ _
  have hpayload : ((encodeRecord sequence c ++ rest).drop kRecordHeaderSize).take
      (encodePayload sequence c).length = encodePayload sequence c := by
    rw [encodeRecord, drop_frame, List.take_left]
  rw [decodeRecord_header sequence c htake hlen, hpayload, if_neg (not_not.mpr rfl),
    readPayload_run]

/-- **A record cut short is incomplete**, wherever the cut falls. -/
theorem decodeRecord_short {front : Bytes} (hpre : front <+: encodeRecord sequence c)
    (hlt : front.length < (encodeRecord sequence c).length) :
    decodeRecord front = .incomplete := by
  obtain ⟨hnat, hplausible⟩ := header_ok sequence c
  rw [decodeRecord]
  by_cases hshort : front.length < kRecordHeaderSize
  · rw [if_pos hshort]
  · have htake : front.take kRecordHeaderSize =
        (encodeRecord sequence c).take kRecordHeaderSize := by
      obtain ⟨back, hback⟩ := hpre
      rw [← hback, List.take_append_of_le_length (Nat.not_lt.mp hshort)]
    obtain ⟨hlength, _⟩ := readU32_frame (encodePayload sequence c) htake
    rw [encodeRecord_length] at hlt
    rw [if_neg hshort]
    dsimp only
    rw [hlength, if_neg hplausible, hnat, if_pos hlt]

end Format

/-- What `decodeRecord` accepted. -/
def ReadResult.accepted : ReadResult → Option (WalRecord × ℕ)
  | .ok record consumed => some (record, consumed)
  | .incomplete | .corrupt => none

/-! ## What is accepted -/

theorem readOrder_length {bytes rest : Bytes} {order : Option BuiltOrder}
    (h : readOrder.run bytes = .ok (order, rest)) : bytes.length = 38 + rest.length := by
  simp only [readOrder, bind_run_ok, u8_run_ok, u64_run_ok, u32_run_ok, i64_run_ok,
    pure_run_ok] at h
  obtain ⟨kind, _, rfl, id, _, rfl, account, _, rfl, side, _, rfl, price, _, rfl, quantity, _,
    rfl, display, _, rfl, _, rfl⟩ := h
  simp only [List.length_append, u8_length, u32_length, u64_length, i64_length]
  omega

/-- A command is read from as many bytes as it is written in. -/
theorem readCommand_length {bytes rest : Bytes} {command : Command}
    (h : readCommand.run bytes = .ok (some command, rest)) :
    bytes.length = (writeCommand command).length + rest.length := by
  obtain ⟨type, ahead, htype, hread⟩ := bind_run_ok.mp h
  rw [u8_run_ok.mp htype, List.length_append, u8_length]
  split_ifs at hread
  · obtain ⟨order, _, horder, hreturn⟩ := bind_run_ok.mp hread
    obtain ⟨hmap, rfl⟩ := pure_run_ok.mp hreturn
    obtain ⟨built, _, rfl⟩ := Option.map_eq_some_iff.mp hmap.symm
    rw [readOrder_length horder]
    simp [writeCommand, writeOrder]
    omega
  · simp only [bind_run_ok, u64_run_ok, pure_run_ok, Option.some.injEq] at hread
    obtain ⟨id, _, rfl, rfl, rfl⟩ := hread
    simp [writeCommand]
    omega
  · simp only [bind_run_ok, u64_run_ok, u8_run_ok, i64_run_ok, pure_run_ok,
      Option.some.injEq] at hread
    obtain ⟨id, _, rfl, quantity, _, rfl, hasPrice, _, rfl, price, _, rfl, rfl, rfl⟩ := hread
    simp [writeCommand]
    omega
  · obtain ⟨hnone, _⟩ := pure_run_ok.mp hread
    cases hnone

theorem readPayload_length {bytes rest : Bytes} {record : WalRecord}
    (h : readPayload.run bytes = .ok (some record, rest)) :
    bytes.length = (encodePayload record.sequence record.command).length := by
  obtain ⟨sequence, _, hsequence, hread⟩ := bind_run_ok.mp h
  obtain ⟨_ | command, _, hcommand, hreturn⟩ := bind_run_ok.mp hread
  · obtain ⟨hnone, _⟩ := pure_run_ok.mp hreturn
    cases hnone
  · simp only [bind_run_ok, requireFullyConsumed_run_ok, pure_run_ok,
      Option.some.injEq] at hreturn
    obtain ⟨_, _, ⟨rfl, rfl⟩, rfl, _⟩ := hreturn
    rw [u64_run_ok.mp hsequence, List.length_append, readCommand_length hcommand,
      encodePayload, List.length_append, List.length_nil, Nat.add_zero, u64_length]

/-- Records that say the same are of one length. -/
theorem WalRecord.Same.length {r r' : WalRecord} (h : r.Same r') :
    (encodeRecord r.sequence r.command).length =
      (encodeRecord r'.sequence r'.command).length := by
  obtain ⟨_, command⟩ := r
  obtain ⟨_, command'⟩ := r'
  have hsame := h.command
  rw [encodeRecord_length, encodeRecord_length]
  cases command <;> cases command' <;>
    first
    | exact hsame.elim
    | simp [encodePayload, writeCommand, writeOrder]

/-- What it takes for a record to be accepted. -/
structure Accepts (bytes : Bytes) (record : WalRecord) (n : ℕ) : Prop where
  nonempty : readU32 bytes 0 ≠ 0
  atMost : readU32 bytes 0 ≤ kMaxRecordPayload
  consumed : n = kRecordHeaderSize + (readU32 bytes 0).toNat
  enough : n ≤ bytes.length
  crc : Crc32.crc32 ((bytes.take n).drop kRecordHeaderSize) = readU32 bytes 4
  payload : ∃ rest, readPayload.run ((bytes.take n).drop kRecordHeaderSize) =
    .ok (some record, rest)

theorem decodeRecord_eq_ok {bytes : Bytes} {record : WalRecord} {consumed : ℕ} :
    decodeRecord bytes = .ok record consumed ↔ Accepts bytes record consumed := by
  have hpayload : (bytes.drop kRecordHeaderSize).take (readU32 bytes 0).toNat =
      (bytes.take (kRecordHeaderSize + (readU32 bytes 0).toNat)).drop
        kRecordHeaderSize := by
    rw [List.drop_take, Nat.add_sub_cancel_left]
  constructor
  · intro h
    unfold decodeRecord at h
    dsimp only at h
    rw [hpayload] at h
    split_ifs at h with hshort himplausible hpart hcrc
    split at h
    · rename_i record' rest hread
      cases h
      obtain ⟨hne, hle⟩ := not_or.mp himplausible
      exact ⟨hne, UInt32.not_lt.mp hle, rfl, Nat.not_lt.mp hpart, not_not.mp hcrc, rest, hread⟩
    · cases h
  · rintro ⟨hne, hle, rfl, henough, hcrc, rest, hread⟩
    unfold decodeRecord
    dsimp only
    rw [hpayload, if_neg (by omega), if_neg (not_or.mpr ⟨hne, UInt32.not_lt.mpr hle⟩),
      if_neg (Nat.not_lt.mpr henough), if_neg (not_not.mpr hcrc), hread]

namespace Accepts

variable {bytes : Bytes} {record : WalRecord} {n : ℕ}

theorem header_lt (h : Accepts bytes record n) : kRecordHeaderSize < n := by
  have hpos : (readU32 bytes 0).toNat ≠ 0 := by
    intro hzero
    exact h.nonempty (UInt32.toNat_inj.mp hzero)
  rw [h.consumed]
  omega

/-- A record is accepted on account of the bytes it takes. -/
theorem congr {bytes' : Bytes} (h : Accepts bytes record n)
    (htake : bytes'.take n = bytes.take n) : Accepts bytes' record n := by
  have hlt := h.header_lt
  have henough : n ≤ bytes'.length := by
    have hlen := congrArg List.length htake
    rw [List.length_take, List.length_take_of_le h.enough] at hlen
    omega
  have hword : ∀ i, i + 4 ≤ kRecordHeaderSize → readU32 bytes' i = readU32 bytes i := by
    intro i hi
    have hin : i + 4 ≤ n := by omega
    rw [← readU32_take bytes' hin, htake, readU32_take bytes hin]
  have hlength := hword 0 (by decide)
  have hcrc := hword 4 (by decide)
  constructor
  · rw [hlength]
    exact h.nonempty
  · rw [hlength]
    exact h.atMost
  · rw [hlength]
    exact h.consumed
  · exact henough
  · rw [htake, hcrc]
    exact h.crc
  · rw [htake]
    exact h.payload

/-- What is accepted takes as many bytes as the record is written in. -/
theorem consumed_eq (h : Accepts bytes record n) :
    n = (encodeRecord record.sequence record.command).length := by
  obtain ⟨rest, hread⟩ := h.payload
  have hlen := readPayload_length hread
  have hlt := h.header_lt
  rw [List.length_drop, List.length_take_of_le h.enough] at hlen
  rw [encodeRecord_length, ← hlen]
  omega

end Accepts

theorem accepted_eq_some {bytes : Bytes} {record : WalRecord} {n : ℕ} :
    (decodeRecord bytes).accepted = some (record, n) ↔ Accepts bytes record n := by
  rw [← decodeRecord_eq_ok]
  cases decodeRecord bytes <;> simp [ReadResult.accepted]

/-- The log's records as a self-delimiting format. -/
def walFormat : Format UInt8 WalRecord WalRecord where
  read bytes := (decodeRecord bytes).accepted
  progress h := Nat.zero_lt_of_lt (accepted_eq_some.mp h).header_lt
  bounded h := (accepted_eq_some.mp h).enough
  encode r := encodeRecord r.sequence r.command
  stored r := r.stored
  read_encode r rest := by
    rw [decodeRecord_encodeRecord]
    rfl
  read_short r front hpre hlt := by
    rw [decodeRecord_short _ _ hpre hlt]
    rfl

theorem walFormat_local : walFormat.toScanner.Local := by
  intro front rest record h rest'
  apply accepted_eq_some.mpr
  apply (accepted_eq_some.mp h).congr
  rw [List.take_left, List.take_left]

end Exchange
