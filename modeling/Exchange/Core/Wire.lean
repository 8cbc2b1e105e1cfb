import Exchange.Core.Types
import Exchange.Framework.LittleEndian

/-!
# Fixed-width fields

The writer and the reader of `core/wire.hpp`. A writer appends to a buffer, so
a field is the bytes it appends. A reader walks over a payload it has in full:
its state is what lies ahead of it, and every read checks that enough does.
-/

namespace Exchange

open Framework LittleEndian

/-- Raised by a decoder, with its message. -/
structure ProtocolError where
  what : String
deriving DecidableEq, Repr

namespace Writer

def u8 (value : UInt8) : Bytes := [value]

def u32 (value : UInt32) : Bytes := emit value.toUInt64 4

def u64 (value : UInt64) : Bytes := emit value 8

/-- Two's complement, reinterpreted as unsigned for transport. -/
def i64 (value : Int64) : Bytes := u64 value.toUInt64

end Writer

abbrev Reader (α : Type) : Type := StateT Bytes (Except ProtocolError) α

namespace Reader

/-- `require`: throws on underrun. -/
def require (bytes : ℕ) : Reader Unit := do
  if (← get).length < bytes then
    throw ⟨"truncated message payload"⟩

def consume (bytes : ℕ) : Reader UInt64 := do
  require bytes
  let ahead ← get
  set (ahead.drop bytes)
  return assemble (ahead.take bytes)

def u8 : Reader UInt8 := do
  require 1
  let ahead ← get
  set (ahead.drop 1)
  return ahead.headD 0

def u32 : Reader UInt32 := do return (← consume 4).toUInt32

def u64 : Reader UInt64 := consume 8

def i64 : Reader Int64 := do return (← u64).toInt64

/-- Rejects a payload with bytes left over. -/
def requireFullyConsumed : Reader Unit := do
  if ¬ (← get).isEmpty then
    throw ⟨"trailing bytes in message payload"⟩

end Reader

section Lengths

open Writer

@[simp] theorem u8_length (v : UInt8) : (u8 v).length = 1 := rfl

@[simp] theorem u32_length (v : UInt32) : (u32 v).length = 4 := emit_length _ _

@[simp] theorem u64_length (v : UInt64) : (u64 v).length = 8 := emit_length _ _

@[simp] theorem i64_length (v : Int64) : (i64 v).length = 8 := emit_length _ _

end Lengths

/-! ## What was written is read -/

section RoundTrip

variable (rest : Bytes)

theorem consume_run {front : Bytes} {n : ℕ} (h : front.length = n) :
    (Reader.consume n).run (front ++ rest) = .ok (assemble front, rest) := by
  subst h
  simp [Reader.consume, Reader.require]
  rfl

@[simp] theorem u8_run (v : UInt8) :
    Reader.u8.run (Writer.u8 v ++ rest) = .ok (v, rest) := by
  simp [Reader.u8, Reader.require, Writer.u8]
  rfl

@[simp] theorem u32_run (v : UInt32) :
    Reader.u32.run (Writer.u32 v ++ rest) = .ok (v, rest) := by
  have h := consume_run rest (emit_length v.toUInt64 4)
  simp only [Reader.u32, Writer.u32, StateT.run_bind, h]
  show Except.ok ((assemble (emit v.toUInt64 4)).toUInt32, rest) = _
  rw [assemble_emit_half]

@[simp] theorem u64_run (v : UInt64) :
    Reader.u64.run (Writer.u64 v ++ rest) = .ok (v, rest) := by
  have h := consume_run rest (emit_length v 8)
  rw [assemble_emit] at h
  exact h

@[simp] theorem i64_run (v : Int64) :
    Reader.i64.run (Writer.i64 v ++ rest) = .ok (v, rest) := by
  simp only [Reader.i64, Writer.i64, StateT.run_bind, u64_run]
  show Except.ok (v.toUInt64.toInt64, rest) = _
  rw [Int64.toInt64_toUInt64]

@[simp] theorem u8_run_last (v : UInt8) : Reader.u8.run (Writer.u8 v) = .ok (v, []) := by
  simpa using u8_run [] v

@[simp] theorem u64_run_last (v : UInt64) :
    Reader.u64.run (Writer.u64 v) = .ok (v, []) := by
  simpa using u64_run [] v

@[simp] theorem i64_run_last (v : Int64) :
    Reader.i64.run (Writer.i64 v) = .ok (v, []) := by
  simpa using i64_run [] v

@[simp] theorem requireFullyConsumed_run :
    Reader.requireFullyConsumed.run [] = .ok ((), []) := rfl

/-- A field that was read hands its value on. -/
@[simp] theorem ok_bind {α β ε : Type} (a : α) (f : α → Except ε β) :
    (Except.ok a >>= f) = f a := rfl

theorem run_fst {α : Type} {reader : Reader α} {payload : Bytes} {a : α}
    (h : reader.run payload = .ok (a, rest)) : reader.run' payload = .ok a := by
  show Prod.fst <$> reader.run payload = _
  rw [h]
  rfl

end RoundTrip

/-! ## What is read was written -/

section Inversion

variable {α β : Type} {bytes rest : Bytes}

theorem bind_run_ok {x : Reader α} {f : α → Reader β} {b : β} :
    (x >>= f).run bytes = .ok (b, rest) ↔
      ∃ a ahead, x.run bytes = .ok (a, ahead) ∧ (f a).run ahead = .ok (b, rest) := by
  rw [StateT.run_bind]
  cases x.run bytes with
  | error e =>
      constructor
      · intro h
        cases h
      · rintro ⟨_, _, h, _⟩
        cases h
  | ok r =>
      constructor
      · intro h
        exact ⟨r.1, r.2, rfl, h⟩
      · rintro ⟨a, ahead, h, hf⟩
        cases h
        exact hf

theorem pure_run_ok {a b : α} :
    (pure a : Reader α).run bytes = .ok (b, rest) ↔ b = a ∧ rest = bytes := by
  constructor
  · intro h
    cases h
    exact ⟨rfl, rfl⟩
  · rintro ⟨rfl, rfl⟩
    rfl

theorem require_run_ok {n : ℕ} {u : Unit} :
    (Reader.require n).run bytes = .ok (u, rest) ↔ n ≤ bytes.length ∧ rest = bytes := by
  have hrun : (Reader.require n).run bytes =
      (if bytes.length < n then throw ⟨"truncated message payload"⟩ else pure () :
        Reader Unit).run bytes := rfl
  rw [hrun]
  split
  · rename_i hlt
    constructor
    · intro h
      cases h
    · rintro ⟨hle, _⟩
      omega
  · rename_i hle
    rw [pure_run_ok]
    constructor
    · rintro ⟨_, hrest⟩
      exact ⟨Nat.not_lt.mp hle, hrest⟩
    · rintro ⟨_, hrest⟩
      exact ⟨rfl, hrest⟩

theorem consume_run_ok {n : ℕ} {v : UInt64} :
    (Reader.consume n).run bytes = .ok (v, rest) ↔
      ∃ front, front.length = n ∧ bytes = front ++ rest ∧ v = assemble front := by
  constructor
  · intro h
    obtain ⟨_, ahead, hrequire, hread⟩ := bind_run_ok.mp h
    obtain ⟨hle, rfl⟩ := require_run_ok.mp hrequire
    cases hread
    exact ⟨ahead.take n, List.length_take_of_le hle, (List.take_append_drop n ahead).symm, rfl⟩
  · rintro ⟨front, hlen, rfl, rfl⟩
    exact consume_run rest hlen

theorem u8_run_ok {v : UInt8} :
    Reader.u8.run bytes = .ok (v, rest) ↔ bytes = Writer.u8 v ++ rest := by
  constructor
  · intro h
    obtain ⟨_, ahead, hrequire, hread⟩ := bind_run_ok.mp h
    obtain ⟨hle, rfl⟩ := require_run_ok.mp hrequire
    cases ahead with
    | nil => cases hle
    | cons b ahead =>
        cases hread
        rfl
  · rintro rfl
    exact u8_run rest v

theorem u32_run_ok {v : UInt32} :
    Reader.u32.run bytes = .ok (v, rest) ↔ bytes = Writer.u32 v ++ rest := by
  constructor
  · intro h
    obtain ⟨w, ahead, hconsume, hread⟩ := bind_run_ok.mp h
    obtain ⟨front, hlen, rfl, rfl⟩ := consume_run_ok.mp hconsume
    cases hread
    rw [Writer.u32, emit_half, ← hlen, emit_assemble (by omega)]
  · rintro rfl
    exact u32_run rest v

theorem u64_run_ok {v : UInt64} :
    Reader.u64.run bytes = .ok (v, rest) ↔ bytes = Writer.u64 v ++ rest := by
  constructor
  · intro h
    obtain ⟨front, hlen, rfl, rfl⟩ := consume_run_ok.mp h
    rw [Writer.u64, ← hlen, emit_assemble (by omega)]
  · rintro rfl
    exact u64_run rest v

theorem i64_run_ok {v : Int64} :
    Reader.i64.run bytes = .ok (v, rest) ↔ bytes = Writer.i64 v ++ rest := by
  constructor
  · intro h
    obtain ⟨w, ahead, hword, hread⟩ := bind_run_ok.mp h
    cases hread
    rw [u64_run_ok] at hword
    rw [hword, Writer.i64, UInt64.toUInt64_toInt64]
  · rintro rfl
    exact i64_run rest v

theorem requireFullyConsumed_run_ok {u : Unit} :
    Reader.requireFullyConsumed.run bytes = .ok (u, rest) ↔ bytes = [] ∧ rest = [] := by
  cases bytes with
  | nil =>
      constructor
      · intro h
        cases h
        exact ⟨rfl, rfl⟩
      · rintro ⟨_, rfl⟩
        rfl
  | cons b bytes =>
      constructor
      · intro h
        cases h
      · rintro ⟨h, _⟩
        cases h

theorem run'_ok {reader : Reader α} {a : α} :
    reader.run' bytes = .ok a ↔ ∃ rest, reader.run bytes = .ok (a, rest) := by
  show Prod.fst <$> reader.run bytes = .ok a ↔ _
  cases reader.run bytes with
  | error e =>
      constructor
      · intro h
        cases h
      · rintro ⟨_, h⟩
        cases h
  | ok r =>
      constructor
      · intro h
        cases h
        exact ⟨r.2, rfl⟩
      · rintro ⟨_, h⟩
        cases h
        rfl

/-! Enough bytes hold a field. -/

variable {n : ℕ}

theorem exists_consume {width : ℕ} (h : bytes.length = n + width) :
    ∃ front rest, bytes = front ++ rest ∧ front.length = width ∧ rest.length = n :=
  ⟨bytes.take width, bytes.drop width, (List.take_append_drop width bytes).symm,
    List.length_take_of_le (by omega), by rw [List.length_drop]; omega⟩

theorem exists_u8 (h : bytes.length = n + 1) :
    ∃ v rest, bytes = Writer.u8 v ++ rest ∧ rest.length = n := by
  cases bytes with
  | nil => cases h
  | cons v rest => exact ⟨v, rest, rfl, Nat.succ.inj h⟩

theorem exists_u32 (h : bytes.length = n + 4) :
    ∃ v rest, bytes = Writer.u32 v ++ rest ∧ rest.length = n := by
  obtain ⟨front, rest, rfl, hfront, hrest⟩ := exists_consume h
  refine ⟨(assemble front).toUInt32, rest, ?_, hrest⟩
  rw [Writer.u32, emit_half, ← hfront, emit_assemble (by omega)]

theorem exists_u64 (h : bytes.length = n + 8) :
    ∃ v rest, bytes = Writer.u64 v ++ rest ∧ rest.length = n := by
  obtain ⟨front, rest, rfl, hfront, hrest⟩ := exists_consume h
  refine ⟨assemble front, rest, ?_, hrest⟩
  rw [Writer.u64, ← hfront, emit_assemble (by omega)]

theorem exists_i64 (h : bytes.length = n + 8) :
    ∃ v rest, bytes = Writer.i64 v ++ rest ∧ rest.length = n := by
  obtain ⟨v, rest, rfl, hrest⟩ := exists_u64 h
  exact ⟨v.toInt64, rest, by rw [Writer.i64, UInt64.toUInt64_toInt64], hrest⟩

end Inversion

end Exchange
