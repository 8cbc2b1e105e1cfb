import Exchange.Core.Cursor
import Exchange.Net.Protocol

/-!
# Exactly the format

Which payloads the decoders accept, and what becomes of a message that is encoded
again. A payload that is accepted is the payload of the message it decodes to, byte
for byte; so the decoders accept the encodings and nothing else. A modify is the
exception: any presence byte but zero stands for a price, and behind a zero the
price may be anything.

The decoders are written out once more over positions, as in `Core.Cursor`: they
never read past the payload.
-/

namespace Exchange.Net

open Framework

/-! ## What is accepted -/

section Enumerations

variable {raw : UInt8} {bytes rest : Bytes}

theorem exists_side (h : raw ≤ Side.sell.byte) : ∃ side : Side, raw = side.byte := by
  have hle : raw.toNat ≤ 1 := UInt8.le_iff_toNat_le.mp h
  interval_cases hn : raw.toNat
  · exact ⟨.buy, UInt8.toNat_inj.mp hn⟩
  · exact ⟨.sell, UInt8.toNat_inj.mp hn⟩

theorem exists_kind (h : raw ≤ OrderKind.iceberg.byte) : ∃ kind : OrderKind, raw = kind.byte := by
  have hle : raw.toNat ≤ 2 := UInt8.le_iff_toNat_le.mp h
  interval_cases hn : raw.toNat
  · exact ⟨.limit, UInt8.toNat_inj.mp hn⟩
  · exact ⟨.market, UInt8.toNat_inj.mp hn⟩
  · exact ⟨.iceberg, UInt8.toNat_inj.mp hn⟩

theorem exists_reason (h : raw ≤ RejectReason.overloaded.byte) :
    ∃ reason : RejectReason, raw = reason.byte := by
  have hle : raw.toNat ≤ 4 := UInt8.le_iff_toNat_le.mp h
  interval_cases hn : raw.toNat
  · exact ⟨.unknown, UInt8.toNat_inj.mp hn⟩
  · exact ⟨.invalidOrder, UInt8.toNat_inj.mp hn⟩
  · exact ⟨.unknownOrder, UInt8.toNat_inj.mp hn⟩
  · exact ⟨.selfMatchBlocked, UInt8.toNat_inj.mp hn⟩
  · exact ⟨.overloaded, UInt8.toNat_inj.mp hn⟩

theorem side_byte_le (side : Side) : side.byte ≤ 1 := by
  cases side <;> decide

theorem kind_byte_le (kind : OrderKind) : kind.byte ≤ 2 := by
  cases kind <;> decide

theorem reason_byte_le (reason : RejectReason) : reason.byte ≤ 4 := by
  cases reason <;> decide

/-- A range check and a cast accept the bytes of the enumeration, each as itself. -/
theorem enumerator_run_ok {α : Type} (decode : UInt8 → Reader α) {byte : α → UInt8}
    {last : UInt8} (hbad : ∀ raw, raw > last → ∃ e, decode raw = throw e)
    (hall : ∀ raw, raw ≤ last → ∃ a, raw = byte a)
    (hbyte : ∀ a rest, (decode (byte a)).run rest = .ok (a, rest)) {a : α} :
    (decode raw).run bytes = .ok (a, rest) ↔ raw = byte a ∧ rest = bytes := by
  constructor
  · intro h
    by_cases hle : raw ≤ last
    · obtain ⟨b, rfl⟩ := hall raw hle
      rw [hbyte] at h
      cases h
      exact ⟨rfl, rfl⟩
    · obtain ⟨e, he⟩ := hbad raw (UInt8.not_le.mp hle)
      rw [he] at h
      cases h
  · rintro ⟨rfl, rfl⟩
    exact hbyte a rest

theorem decodeSide_run_ok {side : Side} :
    (decodeSide raw).run bytes = .ok (side, rest) ↔ raw = side.byte ∧ rest = bytes :=
  enumerator_run_ok decodeSide (fun _ h => ⟨_, if_pos h⟩) (fun _ => exists_side)
    decodeSide_byte

theorem decodeKind_run_ok {kind : OrderKind} :
    (decodeKind raw).run bytes = .ok (kind, rest) ↔ raw = kind.byte ∧ rest = bytes :=
  enumerator_run_ok decodeKind (fun _ h => ⟨_, if_pos h⟩) (fun _ => exists_kind)
    decodeKind_byte

theorem decodeReason_run_ok {reason : RejectReason} :
    (decodeReason raw).run bytes = .ok (reason, rest) ↔ raw = reason.byte ∧ rest = bytes :=
  enumerator_run_ok decodeReason (fun _ h => ⟨_, if_pos h⟩) (fun _ => exists_reason)
    decodeReason_byte

end Enumerations

section Inversion

variable {payload bytes rest : Bytes}

theorem decodeNewOrder_run_ok {message : ClientMessage} :
    decodeNewOrder.run payload = .ok (message, rest) ↔
      ∃ order, message = .newOrder order ∧ payload = order.payload ∧ rest = [] := by
  constructor
  · intro h
    simp only [decodeNewOrder, bind_run_ok, u64_run_ok, u32_run_ok, u8_run_ok, i64_run_ok,
      decodeSide_run_ok, decodeKind_run_ok, requireFullyConsumed_run_ok, pure_run_ok] at h
    obtain ⟨orderId, _, rfl, account, _, rfl, _, _, rfl, side, _, ⟨rfl, rfl⟩, _, _, rfl, kind,
      _, ⟨rfl, rfl⟩, price, _, rfl, quantity, _, rfl, display, _, rfl, _, _, ⟨rfl, rfl⟩,
      rfl, rfl⟩ := h
    exact ⟨_, rfl, rfl, rfl⟩
  · rintro ⟨order, rfl, rfl, rfl⟩
    exact decodeNewOrder_run order

theorem decodeCancel_run_ok {message : ClientMessage} :
    decodeCancel.run payload = .ok (message, rest) ↔
      ∃ cancel, message = .cancel cancel ∧ payload = cancel.payload ∧ rest = [] := by
  constructor
  · intro h
    simp only [decodeCancel, bind_run_ok, u64_run_ok, requireFullyConsumed_run_ok,
      pure_run_ok] at h
    obtain ⟨orderId, _, rfl, _, _, ⟨rfl, rfl⟩, rfl, rfl⟩ := h
    exact ⟨⟨orderId⟩, rfl, List.append_nil _, rfl⟩
  · rintro ⟨cancel, rfl, rfl, rfl⟩
    exact decodeCancel_run cancel

/-- Any presence byte is read, and a price behind it in any case. -/
theorem decodeModify_run_ok {message : ClientMessage} :
    decodeModify.run payload = .ok (message, rest) ↔
      ∃ orderId quantity presence price,
        message = .modify ⟨orderId, quantity, if presence ≠ 0 then some price else none⟩ ∧
        payload = Writer.u64 orderId ++ (Writer.u64 quantity ++
          (Writer.u8 presence ++ Writer.i64 price)) ∧ rest = [] := by
  simp only [decodeModify, bind_run_ok, u64_run_ok, u8_run_ok, i64_run_ok,
    requireFullyConsumed_run_ok, pure_run_ok]
  constructor
  · rintro ⟨orderId, _, rfl, quantity, _, rfl, presence, _, rfl, price, _, rfl, _, _,
      ⟨rfl, rfl⟩, rfl, rfl⟩
    refine ⟨orderId, quantity, presence, price, ?_, ?_, rfl⟩
    · simp
    · rw [List.append_nil]
  · rintro ⟨orderId, quantity, presence, price, rfl, rfl, rfl⟩
    refine ⟨orderId, _, rfl, quantity, _, rfl, presence, _, rfl, price, [], ?_, (), [],
      ⟨rfl, rfl⟩, ?_, rfl⟩
    · rw [List.append_nil]
    · simp

theorem decodeAccepted_run_ok {message : ServerMessage} :
    decodeAccepted.run payload = .ok (message, rest) ↔
      ∃ accepted, message = .accepted accepted ∧ payload = accepted.payload ∧ rest = [] := by
  constructor
  · intro h
    simp only [decodeAccepted, bind_run_ok, u64_run_ok, requireFullyConsumed_run_ok,
      pure_run_ok] at h
    obtain ⟨orderId, _, rfl, filled, _, rfl, resting, _, rfl, _, _, ⟨rfl, rfl⟩, rfl, rfl⟩ := h
    refine ⟨⟨orderId, filled, resting⟩, rfl, ?_, rfl⟩
    rw [AcceptedMessage.payload, List.append_nil]
  · rintro ⟨accepted, rfl, rfl, rfl⟩
    exact decodeAccepted_run accepted

theorem decodeRejected_run_ok {message : ServerMessage} :
    decodeRejected.run payload = .ok (message, rest) ↔
      ∃ rejected, message = .rejected rejected ∧ payload = rejected.payload ∧ rest = [] := by
  constructor
  · intro h
    simp only [decodeRejected, bind_run_ok, u64_run_ok, u8_run_ok, decodeReason_run_ok,
      requireFullyConsumed_run_ok, pure_run_ok] at h
    obtain ⟨orderId, _, rfl, _, _, rfl, reason, _, ⟨rfl, rfl⟩, _, _, ⟨rfl, rfl⟩, rfl,
      rfl⟩ := h
    exact ⟨⟨orderId, reason⟩, rfl, rfl, rfl⟩
  · rintro ⟨rejected, rfl, rfl, rfl⟩
    exact decodeRejected_run rejected

theorem decodeFill_run_ok {message : ServerMessage} :
    decodeFill.run payload = .ok (message, rest) ↔
      ∃ fill, message = .fill fill ∧ payload = fill.payload ∧ rest = [] := by
  constructor
  · intro h
    simp only [decodeFill, bind_run_ok, u64_run_ok, i64_run_ok, u8_run_ok, decodeSide_run_ok,
      requireFullyConsumed_run_ok, pure_run_ok] at h
    obtain ⟨orderId, _, rfl, counterparty, _, rfl, price, _, rfl, quantity, _, rfl, _, _, rfl,
      side, _, ⟨rfl, rfl⟩, _, _, ⟨rfl, rfl⟩, rfl, rfl⟩ := h
    exact ⟨⟨orderId, counterparty, price, quantity, side⟩, rfl, rfl, rfl⟩
  · rintro ⟨fill, rfl, rfl, rfl⟩
    exact decodeFill_run fill

end Inversion

/-! ## The layouts -/

/-- The client's payloads, by their lengths and the bytes that are checked. -/
def ClientFormat (type : MessageType) (payload : Bytes) : Prop :=
  type = .newOrder ∧ payload.length = 38 ∧ payload.getD 12 0 ≤ 1 ∧ payload.getD 13 0 ≤ 2 ∨
  type = .cancel ∧ payload.length = 8 ∨
  type = .modify ∧ payload.length = 25

/-- The server's payloads. -/
def ServerFormat (type : MessageType) (payload : Bytes) : Prop :=
  type = .accepted ∧ payload.length = 24 ∨
  type = .rejected ∧ payload.length = 9 ∧ payload.getD 8 0 ≤ 4 ∨
  type = .fill ∧ payload.length = 33 ∧ payload.getD 32 0 ≤ 1

section Layouts

variable {payload : Bytes}

/-- A byte behind a field. -/
theorem getD_behind {front back : Bytes} {i n : ℕ} (h : front.length = n) :
    (front ++ back).getD (n + i) 0 = back.getD i 0 := by
  rw [List.getD_eq_getElem?_getD, List.getD_eq_getElem?_getD,
    List.getElem?_append_right (by omega), h, Nat.add_sub_cancel_left]

theorem newOrder_layout : (∃ order : NewOrderMessage, payload = order.payload) ↔
    payload.length = 38 ∧ payload.getD 12 0 ≤ 1 ∧ payload.getD 13 0 ≤ 2 := by
  constructor
  · rintro ⟨⟨orderId, account, side, kind, price, quantity, display⟩, rfl⟩
    refine ⟨by simp [NewOrderMessage.payload], ?_, ?_⟩
    · rw [NewOrderMessage.payload, getD_behind (i := 4) (u64_length _),
        getD_behind (i := 0) (u32_length _)]
      exact side_byte_le side
    · rw [NewOrderMessage.payload, getD_behind (i := 5) (u64_length _),
        getD_behind (i := 1) (u32_length _)]
      exact kind_byte_le kind
  · rintro ⟨hlen, hside, hkind⟩
    obtain ⟨orderId, _, rfl, h1⟩ := exists_u64 (n := 30) hlen
    obtain ⟨account, _, rfl, h2⟩ := exists_u32 (n := 26) h1
    obtain ⟨side, _, rfl, h3⟩ := exists_u8 (n := 25) h2
    obtain ⟨kind, _, rfl, h4⟩ := exists_u8 (n := 24) h3
    obtain ⟨price, _, rfl, h5⟩ := exists_i64 (n := 16) h4
    obtain ⟨quantity, _, rfl, h6⟩ := exists_u64 (n := 8) h5
    obtain ⟨display, _, rfl, h7⟩ := exists_u64 (n := 0) h6
    rw [getD_behind (i := 4) (u64_length _), getD_behind (i := 0) (u32_length _)] at hside
    rw [getD_behind (i := 5) (u64_length _), getD_behind (i := 1) (u32_length _)] at hkind
    obtain ⟨side, rfl⟩ := exists_side hside
    obtain ⟨kind, rfl⟩ := exists_kind hkind
    rw [List.length_eq_zero_iff] at h7
    exact ⟨⟨orderId, account, side, kind, price, quantity, display⟩, by
      rw [h7, List.append_nil]; rfl⟩

theorem cancel_layout : (∃ cancel : CancelMessage, payload = cancel.payload) ↔
    payload.length = 8 := by
  constructor
  · rintro ⟨cancel, rfl⟩
    exact u64_length _
  · intro hlen
    obtain ⟨orderId, rest, rfl, h1⟩ := exists_u64 (n := 0) hlen
    rw [List.length_eq_zero_iff] at h1
    exact ⟨⟨orderId⟩, by rw [h1, List.append_nil]; rfl⟩

theorem modify_layout : (∃ orderId quantity presence price, payload =
      Writer.u64 orderId ++ (Writer.u64 quantity ++ (Writer.u8 presence ++
        Writer.i64 price))) ↔
    payload.length = 25 := by
  constructor
  · rintro ⟨orderId, quantity, presence, price, rfl⟩
    simp
  · intro hlen
    obtain ⟨orderId, _, rfl, h1⟩ := exists_u64 (n := 17) hlen
    obtain ⟨quantity, _, rfl, h2⟩ := exists_u64 (n := 9) h1
    obtain ⟨presence, _, rfl, h3⟩ := exists_u8 (n := 8) h2
    obtain ⟨price, _, rfl, h4⟩ := exists_i64 (n := 0) h3
    rw [List.length_eq_zero_iff] at h4
    exact ⟨orderId, quantity, presence, price, by rw [h4, List.append_nil]⟩

theorem accepted_layout : (∃ accepted : AcceptedMessage, payload = accepted.payload) ↔
    payload.length = 24 := by
  constructor
  · rintro ⟨accepted, rfl⟩
    simp [AcceptedMessage.payload]
  · intro hlen
    obtain ⟨orderId, _, rfl, h1⟩ := exists_u64 (n := 16) hlen
    obtain ⟨filled, _, rfl, h2⟩ := exists_u64 (n := 8) h1
    obtain ⟨resting, _, rfl, h3⟩ := exists_u64 (n := 0) h2
    rw [List.length_eq_zero_iff] at h3
    exact ⟨⟨orderId, filled, resting⟩, by rw [h3, List.append_nil]; rfl⟩

theorem rejected_layout : (∃ rejected : RejectedMessage, payload = rejected.payload) ↔
    payload.length = 9 ∧ payload.getD 8 0 ≤ 4 := by
  constructor
  · rintro ⟨⟨orderId, reason⟩, rfl⟩
    refine ⟨by simp [RejectedMessage.payload], ?_⟩
    rw [RejectedMessage.payload, getD_behind (i := 0) (u64_length _)]
    exact reason_byte_le reason
  · rintro ⟨hlen, hreason⟩
    obtain ⟨orderId, _, rfl, h1⟩ := exists_u64 (n := 1) hlen
    obtain ⟨reason, _, rfl, h2⟩ := exists_u8 (n := 0) h1
    rw [getD_behind (i := 0) (u64_length _)] at hreason
    obtain ⟨reason, rfl⟩ := exists_reason hreason
    rw [List.length_eq_zero_iff] at h2
    exact ⟨⟨orderId, reason⟩, by rw [h2, List.append_nil]; rfl⟩

theorem fill_layout : (∃ fill : FillMessage, payload = fill.payload) ↔
    payload.length = 33 ∧ payload.getD 32 0 ≤ 1 := by
  constructor
  · rintro ⟨⟨orderId, counterparty, price, quantity, side⟩, rfl⟩
    refine ⟨by simp [FillMessage.payload], ?_⟩
    rw [FillMessage.payload, getD_behind (i := 24) (u64_length _),
      getD_behind (i := 16) (u64_length _), getD_behind (i := 8) (i64_length _),
      getD_behind (i := 0) (u64_length _)]
    exact side_byte_le side
  · rintro ⟨hlen, hside⟩
    obtain ⟨orderId, _, rfl, h1⟩ := exists_u64 (n := 25) hlen
    obtain ⟨counterparty, _, rfl, h2⟩ := exists_u64 (n := 17) h1
    obtain ⟨price, _, rfl, h3⟩ := exists_i64 (n := 9) h2
    obtain ⟨quantity, _, rfl, h4⟩ := exists_u64 (n := 1) h3
    obtain ⟨side, _, rfl, h5⟩ := exists_u8 (n := 0) h4
    rw [getD_behind (i := 24) (u64_length _), getD_behind (i := 16) (u64_length _),
      getD_behind (i := 8) (i64_length _), getD_behind (i := 0) (u64_length _)] at hside
    obtain ⟨side, rfl⟩ := exists_side hside
    rw [List.length_eq_zero_iff] at h5
    exact ⟨⟨orderId, counterparty, price, quantity, side⟩, by
      rw [h5, List.append_nil]; rfl⟩

end Layouts

/-! ## What the decoders accept -/

section Decoders

variable {type : MessageType} {payload : Bytes}

/-- Everything `decodeClientMessage` accepts. -/
theorem decodeClientMessage_ok {message : ClientMessage} :
    decodeClientMessage type payload = .ok message ↔
      (type = .newOrder ∧ ∃ order, message = .newOrder order ∧ payload = order.payload) ∨
      (type = .cancel ∧ ∃ cancel, message = .cancel cancel ∧ payload = cancel.payload) ∨
      (type = .modify ∧ ∃ orderId quantity presence price,
        message = .modify ⟨orderId, quantity, if presence ≠ 0 then some price else none⟩ ∧
        payload = Writer.u64 orderId ++ (Writer.u64 quantity ++
          (Writer.u8 presence ++ Writer.i64 price))) := by
  unfold decodeClientMessage
  split_ifs with hnew hcancel hmodify hserver
  · subst hnew
    rw [run'_ok]
    simp [decodeNewOrder_run_ok, MessageType.newOrder, MessageType.cancel,
      MessageType.modify]
  · subst hcancel
    rw [run'_ok]
    simp [decodeCancel_run_ok, MessageType.newOrder, MessageType.cancel,
      MessageType.modify]
  · subst hmodify
    rw [run'_ok]
    simp [decodeModify_run_ok, MessageType.newOrder, MessageType.cancel,
      MessageType.modify]
  · simp [hnew, hcancel, hmodify]
  · simp [hnew, hcancel, hmodify]

/-- Everything `decodeServerMessage` accepts. -/
theorem decodeServerMessage_ok {message : ServerMessage} :
    decodeServerMessage type payload = .ok message ↔
      (type = .accepted ∧ ∃ accepted,
        message = .accepted accepted ∧ payload = accepted.payload) ∨
      (type = .rejected ∧ ∃ rejected,
        message = .rejected rejected ∧ payload = rejected.payload) ∨
      (type = .fill ∧ ∃ fill, message = .fill fill ∧ payload = fill.payload) := by
  unfold decodeServerMessage
  split_ifs with haccepted hrejected hfill hclient
  · subst haccepted
    rw [run'_ok]
    simp [decodeAccepted_run_ok, MessageType.accepted, MessageType.rejected,
      MessageType.fill]
  · subst hrejected
    rw [run'_ok]
    simp [decodeRejected_run_ok, MessageType.accepted, MessageType.rejected,
      MessageType.fill]
  · subst hfill
    rw [run'_ok]
    simp [decodeFill_run_ok, MessageType.accepted, MessageType.rejected,
      MessageType.fill]
  · simp [haccepted, hrejected, hfill]
  · simp [haccepted, hrejected, hfill]

/-- **The decoders accept the layouts**, and nothing else. -/
theorem client_format : (∃ message, decodeClientMessage type payload = .ok message) ↔
    ClientFormat type payload := by
  simp only [decodeClientMessage_ok, ClientFormat, ← newOrder_layout, ← cancel_layout,
    ← modify_layout]
  constructor
  · rintro ⟨_, ⟨ht, order, _, hp⟩ | ⟨ht, cancel, _, hp⟩ |
      ⟨ht, orderId, quantity, presence, price, _, hp⟩⟩
    · exact Or.inl ⟨ht, order, hp⟩
    · exact Or.inr (Or.inl ⟨ht, cancel, hp⟩)
    · exact Or.inr (Or.inr ⟨ht, orderId, quantity, presence, price, hp⟩)
  · rintro (⟨ht, order, hp⟩ | ⟨ht, cancel, hp⟩ | ⟨ht, orderId, quantity, presence, price, hp⟩)
    · exact ⟨_, Or.inl ⟨ht, order, rfl, hp⟩⟩
    · exact ⟨_, Or.inr (Or.inl ⟨ht, cancel, rfl, hp⟩)⟩
    · exact ⟨_, Or.inr (Or.inr ⟨ht, orderId, quantity, presence, price, rfl, hp⟩)⟩

theorem server_format : (∃ message, decodeServerMessage type payload = .ok message) ↔
    ServerFormat type payload := by
  simp only [decodeServerMessage_ok, ServerFormat, ← accepted_layout, ← rejected_layout,
    ← fill_layout]
  constructor
  · rintro ⟨_, ⟨ht, accepted, _, hp⟩ | ⟨ht, rejected, _, hp⟩ | ⟨ht, fill, _, hp⟩⟩
    · exact Or.inl ⟨ht, accepted, hp⟩
    · exact Or.inr (Or.inl ⟨ht, rejected, hp⟩)
    · exact Or.inr (Or.inr ⟨ht, fill, hp⟩)
  · rintro (⟨ht, accepted, hp⟩ | ⟨ht, rejected, hp⟩ | ⟨ht, fill, hp⟩)
    · exact ⟨_, Or.inl ⟨ht, accepted, rfl, hp⟩⟩
    · exact ⟨_, Or.inr (Or.inl ⟨ht, rejected, rfl, hp⟩)⟩
    · exact ⟨_, Or.inr (Or.inr ⟨ht, fill, rfl, hp⟩)⟩

end Decoders

/-! ## Encoding again -/

/-- A modify whose presence byte is no `bool`, or that names a price it does not have. -/
def Noncanonical (type : MessageType) (payload : Bytes) : Prop :=
  type = .modify ∧ (1 < payload.getD 16 0 ∨
    payload.getD 16 0 = 0 ∧ payload.drop 17 ≠ List.replicate 8 0)

/-- The payload with the presence byte and the price as the encoder writes them. -/
def canonical (type : MessageType) (payload : Bytes) : Bytes :=
  if type = .modify then
    payload.take 16 ++
      if payload.getD 16 0 = 0 then 0 :: List.replicate 8 0 else 1 :: payload.drop 17
  else payload

section Canonical

variable {type : MessageType} {payload : Bytes}

theorem i64_zero : Writer.i64 0 = List.replicate 8 0 := by decide

/-- The parts of a modify's payload. -/
theorem modify_parts (orderId : OrderId) (quantity : Quantity) (presence : UInt8)
    (price : Price) :
    (Writer.u64 orderId ++ (Writer.u64 quantity ++ (Writer.u8 presence ++
        Writer.i64 price))).take 16 = Writer.u64 orderId ++ Writer.u64 quantity ∧
      (Writer.u64 orderId ++ (Writer.u64 quantity ++ (Writer.u8 presence ++
        Writer.i64 price))).getD 16 0 = presence ∧
      (Writer.u64 orderId ++ (Writer.u64 quantity ++ (Writer.u8 presence ++
        Writer.i64 price))).drop 17 = Writer.i64 price := by
  refine ⟨?_, ?_, ?_⟩
  · rw [← List.append_assoc, List.take_left' (by simp)]
  · rw [getD_behind (i := 8) (u64_length _), getD_behind (i := 0) (u64_length _)]
    rfl
  · rw [← List.append_assoc, ← List.append_assoc, List.drop_left' (by simp)]

theorem canonical_eq_iff (h : ClientFormat type payload) :
    canonical type payload = payload ↔ ¬ Noncanonical type payload := by
  unfold canonical Noncanonical
  by_cases ht : type = .modify
  · have hlen : payload.length = 25 := by
      rcases h with ⟨ht', _⟩ | ⟨ht', _⟩ | ⟨_, hlen⟩
      · cases ht.symm.trans ht'
      · cases ht.symm.trans ht'
      · exact hlen
    obtain ⟨orderId, quantity, presence, price, rfl⟩ := modify_layout.mpr hlen
    obtain ⟨htake, hpresence, hprice⟩ := modify_parts orderId quantity presence price
    rw [if_pos ht, htake, hpresence, hprice, ← List.append_assoc (Writer.u64 orderId),
      List.append_cancel_left_eq]
    by_cases hzero : presence = 0
    · -- No price: the bytes behind the presence byte decide.
      subst hzero
      simp [ht, Writer.u8, eq_comm]
    · -- A price: the presence byte decides.
      have hone : presence = 1 ↔ ¬ 1 < presence := by
        rw [UInt8.not_lt, UInt8.le_iff_toNat_le, ← UInt8.toNat_inj]
        have hne : presence.toNat ≠ 0 := fun h0 => hzero (UInt8.toNat_inj.mp h0)
        show presence.toNat = 1 ↔ presence.toNat ≤ 1
        omega
      simp [ht, hzero, Writer.u8, ← hone, eq_comm]
  · simp [ht]

/-- A client's message is encoded again as the canonical payload. -/
theorem client_reencoded {message : ClientMessage}
    (h : decodeClientMessage type payload = .ok message) :
    message.type = type ∧ message.payload = canonical type payload := by
  rcases decodeClientMessage_ok.mp h with ⟨rfl, order, rfl, rfl⟩ | ⟨rfl, cancel, rfl, rfl⟩ |
    ⟨rfl, orderId, quantity, presence, price, rfl, rfl⟩
  · exact ⟨rfl, rfl⟩
  · exact ⟨rfl, rfl⟩
  · refine ⟨rfl, ?_⟩
    obtain ⟨htake, hpresence, hprice⟩ := modify_parts orderId quantity presence price
    rw [canonical, if_pos rfl, htake, hpresence, hprice]
    by_cases hzero : presence = 0
    · rw [if_pos hzero, if_neg (not_not.mpr hzero), List.append_assoc, ← i64_zero]
      rfl
    · rw [if_neg hzero, if_pos hzero, List.append_assoc]
      rfl

/-- A server's message is encoded again as it was. -/
theorem server_reencoded {message : ServerMessage}
    (h : decodeServerMessage type payload = .ok message) :
    message.type = type ∧ message.payload = payload := by
  rcases decodeServerMessage_ok.mp h with ⟨rfl, accepted, rfl, rfl⟩ |
    ⟨rfl, rejected, rfl, rfl⟩ | ⟨rfl, fill, rfl, rfl⟩
  · exact ⟨rfl, rfl⟩
  · exact ⟨rfl, rfl⟩
  · exact ⟨rfl, rfl⟩

end Canonical

/-! ## The decoders by position -/

namespace Cursor

def decodeSide (raw : UInt8) : Cursor Side :=
  if raw > Side.sell.byte then throw (.thrown ⟨"side out of range: " ++ toString raw⟩)
  else return if raw = Side.buy.byte then .buy else .sell

def decodeKind (raw : UInt8) : Cursor OrderKind :=
  if raw > OrderKind.iceberg.byte then
    throw (.thrown ⟨"order kind out of range: " ++ toString raw⟩)
  else
    return if raw = OrderKind.limit.byte then .limit
      else if raw = OrderKind.market.byte then .market else .iceberg

def decodeReason (raw : UInt8) : Cursor RejectReason :=
  if raw > RejectReason.overloaded.byte then
    throw (.thrown ⟨"reject reason out of range: " ++ toString raw⟩)
  else
    return if raw = RejectReason.unknown.byte then .unknown
      else if raw = RejectReason.invalidOrder.byte then .invalidOrder
      else if raw = RejectReason.unknownOrder.byte then .unknownOrder
      else if raw = RejectReason.selfMatchBlocked.byte then .selfMatchBlocked
      else .overloaded

def decodeNewOrder : Cursor ClientMessage := do
  let orderId ← Cursor.u64
  let account ← Cursor.u32
  let side ← decodeSide (← Cursor.u8)
  let kind ← decodeKind (← Cursor.u8)
  let price ← Cursor.i64
  let quantity ← Cursor.u64
  let displayQuantity ← Cursor.u64
  Cursor.requireFullyConsumed
  return .newOrder { orderId, account, side, kind, price, quantity, displayQuantity }

def decodeCancel : Cursor ClientMessage := do
  let orderId ← Cursor.u64
  Cursor.requireFullyConsumed
  return .cancel { orderId }

def decodeModify : Cursor ClientMessage := do
  let orderId ← Cursor.u64
  let quantity ← Cursor.u64
  let hasPrice := (← Cursor.u8) != 0
  let price ← Cursor.i64
  Cursor.requireFullyConsumed
  return .modify { orderId, quantity, price := if hasPrice then some price else none }

def decodeAccepted : Cursor ServerMessage := do
  let orderId ← Cursor.u64
  let filledQuantity ← Cursor.u64
  let restingQuantity ← Cursor.u64
  Cursor.requireFullyConsumed
  return .accepted { orderId, filledQuantity, restingQuantity }

def decodeRejected : Cursor ServerMessage := do
  let orderId ← Cursor.u64
  let reason ← decodeReason (← Cursor.u8)
  Cursor.requireFullyConsumed
  return .rejected { orderId, reason }

def decodeFill : Cursor ServerMessage := do
  let orderId ← Cursor.u64
  let counterpartyOrderId ← Cursor.u64
  let price ← Cursor.i64
  let quantity ← Cursor.u64
  let side ← decodeSide (← Cursor.u8)
  Cursor.requireFullyConsumed
  return .fill { orderId, counterpartyOrderId, price, quantity, side }

def decodeClientMessage (type : MessageType) (payload : Bytes) : Except Stop ClientMessage :=
  if type = .newOrder then (decodeNewOrder.run payload).run' 0
  else if type = .cancel then (decodeCancel.run payload).run' 0
  else if type = .modify then (decodeModify.run payload).run' 0
  else if type = .accepted ∨ type = .rejected ∨ type = .fill then
    throw (.thrown ⟨"server message received on the inbound path"⟩)
  else throw (.thrown (unknownType type))

def decodeServerMessage (type : MessageType) (payload : Bytes) : Except Stop ServerMessage :=
  if type = .accepted then (decodeAccepted.run payload).run' 0
  else if type = .rejected then (decodeRejected.run payload).run' 0
  else if type = .fill then (decodeFill.run payload).run' 0
  else if type = .newOrder ∨ type = .cancel ∨ type = .modify then
    throw (.thrown ⟨"client message received on the outbound path"⟩)
  else throw (.thrown (unknownType type))

end Cursor

section Follows

open Follows

theorem follows_decodeSide (raw : UInt8) :
    Follows (Cursor.decodeSide raw) (decodeSide raw) :=
  Follows.ite (Follows.throw _) (Follows.pure _)

theorem follows_decodeKind (raw : UInt8) :
    Follows (Cursor.decodeKind raw) (decodeKind raw) :=
  Follows.ite (Follows.throw _) (Follows.pure _)

theorem follows_decodeReason (raw : UInt8) :
    Follows (Cursor.decodeReason raw) (decodeReason raw) :=
  Follows.ite (Follows.throw _) (Follows.pure _)

theorem follows_decodeNewOrder : Follows Cursor.decodeNewOrder decodeNewOrder :=
  u64.bind fun _ => u32.bind fun _ => u8.bind fun raw => (follows_decodeSide raw).bind fun _ =>
    u8.bind fun raw => (follows_decodeKind raw).bind fun _ => i64.bind fun _ =>
      u64.bind fun _ => u64.bind fun _ => requireFullyConsumed.bind fun _ => Follows.pure _

theorem follows_decodeCancel : Follows Cursor.decodeCancel decodeCancel :=
  u64.bind fun _ => requireFullyConsumed.bind fun _ => Follows.pure _

theorem follows_decodeModify : Follows Cursor.decodeModify decodeModify :=
  u64.bind fun _ => u64.bind fun _ => u8.bind fun _ => i64.bind fun _ =>
    requireFullyConsumed.bind fun _ => Follows.pure _

theorem follows_decodeAccepted : Follows Cursor.decodeAccepted decodeAccepted :=
  u64.bind fun _ => u64.bind fun _ => u64.bind fun _ =>
    requireFullyConsumed.bind fun _ => Follows.pure _

theorem follows_decodeRejected : Follows Cursor.decodeRejected decodeRejected :=
  u64.bind fun _ => u8.bind fun raw => (follows_decodeReason raw).bind fun _ =>
    requireFullyConsumed.bind fun _ => Follows.pure _

theorem follows_decodeFill : Follows Cursor.decodeFill decodeFill :=
  u64.bind fun _ => u64.bind fun _ => i64.bind fun _ => u64.bind fun _ => u8.bind fun raw =>
    (follows_decodeSide raw).bind fun _ => requireFullyConsumed.bind fun _ => Follows.pure _

end Follows

section Inside

variable (type : MessageType) (payload : Bytes)

/-- The client's payloads are read within their bounds. -/
theorem decodeClientMessage_inside :
    Cursor.decodeClientMessage type payload =
      (decodeClientMessage type payload).mapError .thrown := by
  unfold Cursor.decodeClientMessage decodeClientMessage
  split_ifs
  · exact follows_decodeNewOrder.run_span payload
  · exact follows_decodeCancel.run_span payload
  · exact follows_decodeModify.run_span payload
  · rfl
  · rfl

theorem decodeServerMessage_inside :
    Cursor.decodeServerMessage type payload =
      (decodeServerMessage type payload).mapError .thrown := by
  unfold Cursor.decodeServerMessage decodeServerMessage
  split_ifs
  · exact follows_decodeAccepted.run_span payload
  · exact follows_decodeRejected.run_span payload
  · exact follows_decodeFill.run_span payload
  · rfl
  · rfl

end Inside

/-- **The decoders accept exactly the format.** Any other payload is refused with an
exception; none is read outside its bounds. What is accepted is encoded again as the
frame it came in, but for a modify that does not write its presence or its absent price
the usual way; there the usual payload comes out, and decodes to the same message. -/
theorem decoders_exact (type : MessageType) (payload : Bytes) :
    ((∃ message, decodeClientMessage type payload = .ok message) ↔
      ClientFormat type payload) ∧
    ((∃ message, decodeServerMessage type payload = .ok message) ↔
      ServerFormat type payload) ∧
    Cursor.decodeClientMessage type payload =
      (decodeClientMessage type payload).mapError .thrown ∧
    Cursor.decodeServerMessage type payload =
      (decodeServerMessage type payload).mapError .thrown ∧
    (∀ message, decodeClientMessage type payload = .ok message →
      message.encode = encodeFrame type (canonical type payload) ∧
      (canonical type payload = payload ↔ ¬ Noncanonical type payload) ∧
      decodeClientMessage type (canonical type payload) = .ok message) ∧
    ∀ message, decodeServerMessage type payload = .ok message →
      message.encode = encodeFrame type payload := by
  refine ⟨client_format, server_format, decodeClientMessage_inside type payload,
    decodeServerMessage_inside type payload, ?_, ?_⟩
  · intro message h
    obtain ⟨htype, hpayload⟩ := client_reencoded h
    refine ⟨?_, canonical_eq_iff (client_format.mp ⟨message, h⟩), ?_⟩
    · rw [ClientMessage.encode, htype, hpayload]
    · rw [← hpayload, ← htype]
      exact decodeClientMessage_payload message
  · intro message h
    obtain ⟨htype, hpayload⟩ := server_reencoded h
    rw [ServerMessage.encode, htype, hpayload]

/-- A modify without a price that carries one all the same, and a rejection. -/
theorem decoders_exact_modify :
    let payload := Writer.u64 7 ++ (Writer.u64 30 ++ (Writer.u8 0 ++ Writer.i64 2))
    decodeClientMessage .modify payload = .ok (.modify ⟨7, 30, none⟩) ∧
    (ClientMessage.modify ⟨7, 30, none⟩).encode =
      encodeFrame .modify (canonical .modify payload) ∧
    canonical .modify payload ≠ payload ∧
    (ServerMessage.rejected ⟨7, .overloaded⟩).encode =
      encodeFrame .rejected (Writer.u64 7 ++ Writer.u8 4) := by
  have hmodify : decodeClientMessage .modify
      (Writer.u64 7 ++ (Writer.u64 30 ++ (Writer.u8 0 ++ Writer.i64 2))) =
        .ok (.modify ⟨7, 30, none⟩) := by decide +kernel
  have hrejected : decodeServerMessage .rejected (Writer.u64 7 ++ Writer.u8 4) =
      .ok (.rejected ⟨7, .overloaded⟩) := by decide +kernel
  obtain ⟨_, _, _, _, hclient, _⟩ := decoders_exact .modify
    (Writer.u64 7 ++ (Writer.u64 30 ++ (Writer.u8 0 ++ Writer.i64 2)))
  obtain ⟨_, _, _, _, _, hserver⟩ := decoders_exact .rejected (Writer.u64 7 ++ Writer.u8 4)
  obtain ⟨hencode, _, _⟩ := hclient _ hmodify
  exact ⟨hmodify, hencode, by decide +kernel, hserver _ hrejected⟩

end Exchange.Net
