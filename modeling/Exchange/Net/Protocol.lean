import Exchange.Core.Wire

/-!
# Messages between clients and the server

The messages, and their frames on the wire:

    len (u32) | version (u8) | type (u8) | payload (len - 2 bytes)

A frame is begun with a length of zero, which is overwritten once the payload is
there. Decoding starts from a frame's type and payload; what takes frames out of the
byte stream is the subject of `Net.FrameAssembler`.
-/

namespace Exchange.Net

open Framework

def kProtocolVersion : UInt8 := 1

/-- Length, version and type. -/
def kHeaderSize : ℕ := 6

def kMaxFrameBody : UInt32 := 4096

/-- The underlying value of the enumeration, which a byte from the wire is cast to
whether it is an enumerator or not. -/
structure MessageType where
  value : UInt8
deriving DecidableEq, Repr

namespace MessageType

def newOrder : MessageType := ⟨1⟩
def cancel : MessageType := ⟨2⟩
def modify : MessageType := ⟨3⟩
def accepted : MessageType := ⟨16⟩
def rejected : MessageType := ⟨17⟩
def fill : MessageType := ⟨18⟩

end MessageType

inductive OrderKind : Type where
  | limit
  | market
  | iceberg
deriving DecidableEq, Repr

inductive RejectReason : Type where
  | unknown
  | invalidOrder
  | unknownOrder
  | selfMatchBlocked
  | overloaded
deriving DecidableEq, Repr

/-! ## Client to server -/

structure NewOrderMessage where
  orderId : OrderId
  account : AccountId
  side : Side
  kind : OrderKind
  price : Price
  quantity : Quantity
  /-- Only meaningful for an iceberg, and sent regardless. -/
  displayQuantity : Quantity
deriving DecidableEq, Repr

structure CancelMessage where
  orderId : OrderId
deriving DecidableEq, Repr

structure ModifyMessage where
  orderId : OrderId
  quantity : Quantity
  price : Option Price
deriving DecidableEq, Repr

inductive ClientMessage : Type where
  | newOrder (message : NewOrderMessage)
  | cancel (message : CancelMessage)
  | modify (message : ModifyMessage)
deriving DecidableEq, Repr

/-! ## Server to client -/

structure AcceptedMessage where
  orderId : OrderId
  filledQuantity : Quantity
  restingQuantity : Quantity
deriving DecidableEq, Repr

structure RejectedMessage where
  orderId : OrderId
  reason : RejectReason := .unknown
deriving DecidableEq, Repr

structure FillMessage where
  orderId : OrderId
  counterpartyOrderId : OrderId
  price : Price
  quantity : Quantity
  side : Side
deriving DecidableEq, Repr

inductive ServerMessage : Type where
  | accepted (message : AcceptedMessage)
  | rejected (message : RejectedMessage)
  | fill (message : FillMessage)
deriving DecidableEq, Repr

/-! ## Encoding -/

def OrderKind.byte : OrderKind → UInt8
  | .limit => 0
  | .market => 1
  | .iceberg => 2

def RejectReason.byte : RejectReason → UInt8
  | .unknown => 0
  | .invalidOrder => 1
  | .unknownOrder => 2
  | .selfMatchBlocked => 3
  | .overloaded => 4

def beginFrame (type : MessageType) : Bytes :=
  Writer.u32 0 ++ (Writer.u8 kProtocolVersion ++ Writer.u8 type.value)

/-- Overwrites the first four bytes with the length of everything behind them. -/
def finishFrame (frame : Bytes) : Bytes :=
  Writer.u32 (UInt32.ofNat (frame.length - 4)) ++ frame.drop 4

/-- A frame with this payload. -/
def encodeFrame (type : MessageType) (payload : Bytes) : Bytes :=
  finishFrame (beginFrame type ++ payload)

def NewOrderMessage.payload (message : NewOrderMessage) : Bytes :=
  Writer.u64 message.orderId ++ (Writer.u32 message.account ++
    (Writer.u8 message.side.byte ++ (Writer.u8 message.kind.byte ++
      (Writer.i64 message.price ++ (Writer.u64 message.quantity ++
        Writer.u64 message.displayQuantity)))))

def CancelMessage.payload (message : CancelMessage) : Bytes := Writer.u64 message.orderId

/-- A presence byte, and then a price in any case. -/
def ModifyMessage.payload (message : ModifyMessage) : Bytes :=
  Writer.u64 message.orderId ++ (Writer.u64 message.quantity ++
    (Writer.u8 (if message.price.isSome then 1 else 0) ++
      Writer.i64 (message.price.getD 0)))

def AcceptedMessage.payload (message : AcceptedMessage) : Bytes :=
  Writer.u64 message.orderId ++ (Writer.u64 message.filledQuantity ++
    Writer.u64 message.restingQuantity)

def RejectedMessage.payload (message : RejectedMessage) : Bytes :=
  Writer.u64 message.orderId ++ Writer.u8 message.reason.byte

def FillMessage.payload (message : FillMessage) : Bytes :=
  Writer.u64 message.orderId ++ (Writer.u64 message.counterpartyOrderId ++
    (Writer.i64 message.price ++ (Writer.u64 message.quantity ++
      Writer.u8 message.side.byte)))

def ClientMessage.type : ClientMessage → MessageType
  | .newOrder _ => .newOrder
  | .cancel _ => .cancel
  | .modify _ => .modify

def ClientMessage.payload : ClientMessage → Bytes
  | .newOrder message => message.payload
  | .cancel message => message.payload
  | .modify message => message.payload

def ClientMessage.encode (message : ClientMessage) : Bytes :=
  encodeFrame message.type message.payload

def ServerMessage.type : ServerMessage → MessageType
  | .accepted _ => .accepted
  | .rejected _ => .rejected
  | .fill _ => .fill

def ServerMessage.payload : ServerMessage → Bytes
  | .accepted message => message.payload
  | .rejected message => message.payload
  | .fill message => message.payload

def ServerMessage.encode (message : ServerMessage) : Bytes :=
  encodeFrame message.type message.payload

/-! ## Decoding -/

def decodeSide (raw : UInt8) : Reader Side :=
  if raw > Side.sell.byte then throw ⟨"side out of range: " ++ toString raw⟩
  else return if raw = Side.buy.byte then .buy else .sell

def decodeKind (raw : UInt8) : Reader OrderKind :=
  if raw > OrderKind.iceberg.byte then
    throw ⟨"order kind out of range: " ++ toString raw⟩
  else
    return if raw = OrderKind.limit.byte then .limit
      else if raw = OrderKind.market.byte then .market else .iceberg

def decodeReason (raw : UInt8) : Reader RejectReason :=
  if raw > RejectReason.overloaded.byte then
    throw ⟨"reject reason out of range: " ++ toString raw⟩
  else
    return if raw = RejectReason.unknown.byte then .unknown
      else if raw = RejectReason.invalidOrder.byte then .invalidOrder
      else if raw = RejectReason.unknownOrder.byte then .unknownOrder
      else if raw = RejectReason.selfMatchBlocked.byte then .selfMatchBlocked
      else .overloaded

def decodeNewOrder : Reader ClientMessage := do
  let orderId ← Reader.u64
  let account ← Reader.u32
  let side ← decodeSide (← Reader.u8)
  let kind ← decodeKind (← Reader.u8)
  let price ← Reader.i64
  let quantity ← Reader.u64
  let displayQuantity ← Reader.u64
  Reader.requireFullyConsumed
  return .newOrder { orderId, account, side, kind, price, quantity, displayQuantity }

def decodeCancel : Reader ClientMessage := do
  let orderId ← Reader.u64
  Reader.requireFullyConsumed
  return .cancel { orderId }

def decodeModify : Reader ClientMessage := do
  let orderId ← Reader.u64
  let quantity ← Reader.u64
  let hasPrice := (← Reader.u8) != 0
  let price ← Reader.i64
  Reader.requireFullyConsumed
  return .modify { orderId, quantity, price := if hasPrice then some price else none }

def decodeAccepted : Reader ServerMessage := do
  let orderId ← Reader.u64
  let filledQuantity ← Reader.u64
  let restingQuantity ← Reader.u64
  Reader.requireFullyConsumed
  return .accepted { orderId, filledQuantity, restingQuantity }

def decodeRejected : Reader ServerMessage := do
  let orderId ← Reader.u64
  let reason ← decodeReason (← Reader.u8)
  Reader.requireFullyConsumed
  return .rejected { orderId, reason }

def decodeFill : Reader ServerMessage := do
  let orderId ← Reader.u64
  let counterpartyOrderId ← Reader.u64
  let price ← Reader.i64
  let quantity ← Reader.u64
  let side ← decodeSide (← Reader.u8)
  Reader.requireFullyConsumed
  return .fill { orderId, counterpartyOrderId, price, quantity, side }

def unknownType (type : MessageType) : ProtocolError :=
  ⟨"unknown message type: " ++ toString type.value⟩

def decodeClientMessage (type : MessageType) (payload : Bytes) :
    Except ProtocolError ClientMessage :=
  if type = .newOrder then decodeNewOrder.run' payload
  else if type = .cancel then decodeCancel.run' payload
  else if type = .modify then decodeModify.run' payload
  else if type = .accepted ∨ type = .rejected ∨ type = .fill then
    throw ⟨"server message received on the inbound path"⟩
  else throw (unknownType type)

def decodeServerMessage (type : MessageType) (payload : Bytes) :
    Except ProtocolError ServerMessage :=
  if type = .accepted then decodeAccepted.run' payload
  else if type = .rejected then decodeRejected.run' payload
  else if type = .fill then decodeFill.run' payload
  else if type = .newOrder ∨ type = .cancel ∨ type = .modify then
    throw ⟨"client message received on the outbound path"⟩
  else throw (unknownType type)

/-! ## What was encoded is decoded -/

theorem decodeSide_byte (side : Side) (rest : Bytes) :
    (decodeSide side.byte).run rest = .ok (side, rest) := by
  cases side <;> rfl

theorem decodeKind_byte (kind : OrderKind) (rest : Bytes) :
    (decodeKind kind.byte).run rest = .ok (kind, rest) := by
  cases kind <;> rfl

theorem decodeReason_byte (reason : RejectReason) (rest : Bytes) :
    (decodeReason reason.byte).run rest = .ok (reason, rest) := by
  cases reason <;> rfl

theorem decodeNewOrder_run (message : NewOrderMessage) :
    decodeNewOrder.run message.payload = .ok (.newOrder message, []) := by
  simp only [decodeNewOrder, NewOrderMessage.payload, StateT.run_bind, u64_run, u32_run,
    u8_run, i64_run, u64_run_last, ok_bind, decodeSide_byte, decodeKind_byte,
    requireFullyConsumed_run]
  rfl

theorem decodeCancel_run (message : CancelMessage) :
    decodeCancel.run message.payload = .ok (.cancel message, []) := by
  simp only [decodeCancel, CancelMessage.payload, StateT.run_bind, u64_run_last, ok_bind,
    requireFullyConsumed_run]
  rfl

theorem decodeModify_run (message : ModifyMessage) :
    decodeModify.run message.payload = .ok (.modify message, []) := by
  obtain ⟨orderId, quantity, price⟩ := message
  simp only [decodeModify, ModifyMessage.payload, StateT.run_bind, u64_run, u8_run,
    i64_run_last, ok_bind, requireFullyConsumed_run]
  cases price <;> rfl

theorem decodeAccepted_run (message : AcceptedMessage) :
    decodeAccepted.run message.payload = .ok (.accepted message, []) := by
  simp only [decodeAccepted, AcceptedMessage.payload, StateT.run_bind, u64_run, u64_run_last,
    ok_bind, requireFullyConsumed_run]
  rfl

theorem decodeRejected_run (message : RejectedMessage) :
    decodeRejected.run message.payload = .ok (.rejected message, []) := by
  simp only [decodeRejected, RejectedMessage.payload, StateT.run_bind, u64_run, u8_run_last,
    ok_bind, decodeReason_byte, requireFullyConsumed_run]
  rfl

theorem decodeFill_run (message : FillMessage) :
    decodeFill.run message.payload = .ok (.fill message, []) := by
  simp only [decodeFill, FillMessage.payload, StateT.run_bind, u64_run, i64_run, u8_run_last,
    ok_bind, decodeSide_byte, requireFullyConsumed_run]
  rfl

theorem decodeClientMessage_payload (message : ClientMessage) :
    decodeClientMessage message.type message.payload = .ok message := by
  cases message with
  | newOrder message => exact run_fst [] (decodeNewOrder_run message)
  | cancel message => exact run_fst [] (decodeCancel_run message)
  | modify message => exact run_fst [] (decodeModify_run message)

theorem decodeServerMessage_payload (message : ServerMessage) :
    decodeServerMessage message.type message.payload = .ok message := by
  cases message with
  | accepted message => exact run_fst [] (decodeAccepted_run message)
  | rejected message => exact run_fst [] (decodeRejected_run message)
  | fill message => exact run_fst [] (decodeFill_run message)

/-- Payloads are short: no message comes near the limit on a frame's body. -/
theorem ClientMessage.payload_length (message : ClientMessage) :
    message.payload.length ≤ 38 := by
  cases message <;>
    simp [ClientMessage.payload, NewOrderMessage.payload, CancelMessage.payload,
      ModifyMessage.payload]

theorem ServerMessage.payload_length (message : ServerMessage) :
    message.payload.length ≤ 38 := by
  cases message <;>
    simp [ServerMessage.payload, AcceptedMessage.payload, RejectedMessage.payload,
      FillMessage.payload]

/-- The length in front of a frame counts everything behind it. -/
theorem encodeFrame_eq (type : MessageType) (payload : Bytes) :
    encodeFrame type payload =
      Writer.u32 (UInt32.ofNat (payload.length + 2)) ++
        (Writer.u8 kProtocolVersion ++ (Writer.u8 type.value ++ payload)) := by
  have hlength : (beginFrame type ++ payload).length - 4 = payload.length + 2 := by
    simp [beginFrame]
    omega
  rw [encodeFrame, finishFrame, hlength, beginFrame, List.append_assoc, List.append_assoc,
    List.drop_left' (u32_length _)]

end Exchange.Net
