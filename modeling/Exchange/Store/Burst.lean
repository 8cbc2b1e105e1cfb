import Exchange.Framework.ShiftRegister
import Exchange.Store.WalRecord

/-!
# Burst damage

The checksum as a shift register: a table entry is eight shifts of its index, and a
turn of `crc32` feeds the register the eight bits of a byte, lowest first. So the
table and the byte-wise loop leave the remainder of a division by the polynomial, and
damage that stays within thirty-two consecutive bits changes it, however long the
input. A record whose payload is damaged like that is corrupt.
-/

namespace Exchange

open Framework

namespace Crc32

def register : ShiftRegister 32 where
  taps := polynomial.toBitVec
  top := by decide

theorem shiftOut_toBitVec (v : UInt32) :
    (shiftOut v).toBitVec = register.step v.toBitVec := by
  have hand : (v &&& 1).toBitVec = (BitVec.ofBool (v.toBitVec.getLsbD 0)).setWidth 32 :=
    BitVec.and_one_eq_setWidth_ofBool_getLsbD
  have hlow : v &&& 1 ≠ 0 ↔ v.toBitVec.getLsbD 0 = true := by
    rw [ne_eq, ← UInt32.toBitVec_inj, hand]
    cases v.toBitVec.getLsbD 0 <;> decide
  unfold shiftOut ShiftRegister.step
  rw [if_congr hlow rfl rfl]
  split <;> rfl

theorem iterate_shiftOut (n : ℕ) (v : UInt32) :
    (shiftOut^[n] v).toBitVec = register.step^[n] v.toBitVec := by
  induction n generalizing v with
  | zero => rfl
  | succ n ih =>
      rw [Function.iterate_succ_apply, Function.iterate_succ_apply, ih, shiftOut_toBitVec]

/-- The index into the table: the lowest octet. -/
theorem low_octet (v : UInt32) :
    (v &&& 0xFF).toUInt8.toUInt32.toBitVec = (v.toBitVec.setWidth 8).setWidth 32 := by
  have hmask : (v.toBitVec &&& 0xFF#32).setWidth 8 = v.toBitVec.setWidth 8 := by
    apply BitVec.eq_of_getLsbD_eq
    intro i hi
    have hone : (0xFF#32).getLsbD i = true := by
      interval_cases i <;> rfl
    rw [BitVec.getLsbD_setWidth, BitVec.getLsbD_and, hone, Bool.and_true,
      BitVec.getLsbD_setWidth]
  exact congrArg (BitVec.setWidth 32) hmask

/-- A turn of the loop is eight shifts. -/
theorem update_toBitVec (crc : UInt32) (byte : UInt8) :
    (update crc byte).toBitVec =
      register.step^[8] (crc.toBitVec ^^^ byte.toBitVec.setWidth 32) := by
  have hindex := low_octet (crc ^^^ byte.toUInt32)
  have hhigh : (crc.toBitVec ^^^ byte.toBitVec.setWidth 32) >>> 8 = crc.toBitVec >>> 8 := by
    apply BitVec.eq_of_getLsbD_eq
    intro i hi
    simp
  have htable := iterate_shiftOut 8 ((crc ^^^ byte.toUInt32) &&& 0xFF).toUInt8.toUInt32
  rw [hindex] at htable
  rw [register.iterate_eq, hhigh]
  exact congrArg (crc.toBitVec >>> 8 ^^^ ·) htable

/-- The bits of a byte, lowest first. -/
def octet (b : UInt8) : List Bool := (List.range 8).map b.toNat.testBit

theorem word_octet (b : UInt8) :
    (ShiftRegister.word (octet b) : BitVec 32) = b.toBitVec.setWidth 32 := by
  apply BitVec.eq_of_getLsbD_eq
  intro i hi
  have hbit : b.toBitVec.getLsbD i = b.toNat.testBit i := rfl
  rw [ShiftRegister.getLsbD_word, BitVec.getLsbD_setWidth, hbit]
  congr 1
  by_cases hlow : i < 8
  · simp [octet, hlow]
  · simp [octet, hlow, LittleEndian.testBit_byte b (Nat.not_lt.mp hlow)]

theorem update_eq (crc : UInt32) (byte : UInt8) :
    (update crc byte).toBitVec = register.feedAll crc.toBitVec (octet byte) := by
  have hshort : ∀ k, 32 ≤ k → (octet byte).getD k false = false := by
    intro k hk
    simp [octet, show ¬ k < 8 by omega]
  rw [register.feedAll_eq _ hshort, word_octet, update_toBitVec]
  rfl

/-- The checksum loop feeds the register its input bit by bit. -/
theorem foldl_update (bytes : Bytes) (crc : UInt32) :
    (bytes.foldl update crc).toBitVec =
      register.feedAll crc.toBitVec (bytes.flatMap octet) := by
  induction bytes generalizing crc with
  | nil => rfl
  | cons b bytes ih =>
      rw [List.foldl_cons, ih, update_eq, List.flatMap_cons, ShiftRegister.feedAll_append]

end Crc32

/-! ## Bits of a string -/

/-- Bit `k` of byte `j` of a string is at `8 * j + k`. -/
def bitAt (bytes : Bytes) (position : ℕ) : Bool :=
  (bytes.getD (position / 8) 0).toNat.testBit (position % 8)

theorem bitAt_eq (bytes : Bytes) (position : ℕ) :
    (bytes.flatMap Crc32.octet).getD position false = bitAt bytes position := by
  induction bytes generalizing position with
  | nil => simp [bitAt]
  | cons b bytes ih =>
      have hlen : (Crc32.octet b).length = 8 := by simp [Crc32.octet]
      rw [List.flatMap_cons]
      by_cases hlow : position < 8
      · have hdiv : position / 8 = 0 := by omega
        have hmod : position % 8 = position := by omega
        rw [List.getD_eq_getElem?_getD, List.getElem?_append_left (by omega)]
        simp [bitAt, Crc32.octet, hlow, hdiv, hmod]
      · obtain ⟨k, rfl⟩ : ∃ k, position = 8 + k := ⟨position - 8, by omega⟩
        have hdiv : (8 + k) / 8 = k / 8 + 1 := by omega
        have hmod : (8 + k) % 8 = k % 8 := by omega
        have hbehind : (Crc32.octet b ++ bytes.flatMap Crc32.octet).getD (8 + k) false =
            (bytes.flatMap Crc32.octet).getD k false := by
          rw [List.getD_eq_getElem?_getD, List.getD_eq_getElem?_getD,
            List.getElem?_append_right (by omega), hlen, Nat.add_sub_cancel_left]
        rw [hbehind, ih, bitAt, bitAt, hdiv, hmod]
        rfl

/-- A string is its bits. -/
theorem eq_of_bitAt {bytes bytes' : Bytes} (hlen : bytes.length = bytes'.length)
    (h : ∀ p < 8 * bytes.length, bitAt bytes p = bitAt bytes' p) : bytes = bytes' := by
  apply List.ext_getElem hlen
  intro j hj hj'
  apply UInt8.toNat_inj.mp
  apply Nat.eq_of_testBit_eq
  intro k
  by_cases hk : k < 8
  · have hbit := h (8 * j + k) (by omega)
    have hdiv : (8 * j + k) / 8 = j := by omega
    have hmod : (8 * j + k) % 8 = k := by omega
    simpa [bitAt, hdiv, hmod, hj, hj'] using hbit
  · rw [LittleEndian.testBit_byte _ (Nat.not_lt.mp hk),
      LittleEndian.testBit_byte _ (Nat.not_lt.mp hk)]

/-- Two strings of one length differ, and only within thirty-two positions. -/
structure Burst (bytes bytes' : Bytes) (start : ℕ) : Prop where
  length : bytes.length = bytes'.length
  differ : bytes ≠ bytes'
  within : ∀ p, bitAt bytes p ≠ bitAt bytes' p → start ≤ p ∧ p < start + 32

/-- It is enough to look at the bits that are there. -/
theorem Burst.of_bits {bytes bytes' : Bytes} {start : ℕ}
    (length : bytes.length = bytes'.length) (differ : bytes ≠ bytes')
    (within : ∀ p < 8 * bytes.length, bitAt bytes p ≠ bitAt bytes' p →
      start ≤ p ∧ p < start + 32) : Burst bytes bytes' start := by
  refine ⟨length, differ, ?_⟩
  intro p hp
  by_cases hlt : p < 8 * bytes.length
  · exact within p hlt hp
  · have hnone : bytes.length ≤ p / 8 := by omega
    have hnone' : bytes'.length ≤ p / 8 := by omega
    simp [bitAt, List.getElem?_eq_none hnone, List.getElem?_eq_none hnone'] at hp

theorem Burst.crc32_ne {bytes bytes' : Bytes} {start : ℕ} (h : Burst bytes bytes' start) :
    Crc32.crc32 bytes ≠ Crc32.crc32 bytes' := by
  have hbits : bytes.flatMap Crc32.octet ≠ bytes'.flatMap Crc32.octet := by
    intro heq
    apply h.differ
    apply eq_of_bitAt h.length
    intro p _
    rw [← bitAt_eq, heq, bitAt_eq]
  have hlen : (bytes.flatMap Crc32.octet).length = (bytes'.flatMap Crc32.octet).length := by
    simp [Crc32.octet, List.length_flatMap, h.length]
  have hne := Crc32.register.detects (0xFFFFFFFF : UInt32).toBitVec hlen hbits
    (s := start) fun p hp => h.within p (by rwa [← bitAt_eq, ← bitAt_eq])
  rw [← Crc32.foldl_update, ← Crc32.foldl_update] at hne
  intro heq
  apply hne
  have hfold := congrArg (· ^^^ 0xFFFFFFFF) heq
  simp only [Crc32.crc32, UInt32.xor_assoc, UInt32.xor_self, UInt32.xor_zero] at hfold
  rw [hfold]

/-! ## Damaged records -/

theorem bitAt_drop (bytes : Bytes) (n p : ℕ) :
    bitAt (bytes.drop n) p = bitAt bytes (8 * n + p) := by
  have hdiv : (8 * n + p) / 8 = n + p / 8 := by omega
  have hmod : (8 * n + p) % 8 = p % 8 := by omega
  simp [bitAt, hdiv, hmod]

theorem bitAt_take (bytes : Bytes) {n p : ℕ} (h : p < 8 * n) :
    bitAt (bytes.take n) p = bitAt bytes p := by
  have hdiv : p / 8 < n := by omega
  simp [bitAt, hdiv]

section Damage

variable {bytes bytes' : Bytes} {n start : ℕ}

/-- A burst behind the first `n` bytes leaves them alone. -/
theorem Burst.take (h : Burst bytes bytes' (8 * n + start)) :
    bytes.take n = bytes'.take n := by
  have hlen : (bytes.take n).length = (bytes'.take n).length := by
    rw [List.length_take, List.length_take, h.length]
  apply eq_of_bitAt hlen
  intro p hp
  rw [List.length_take] at hp
  have hlt : p < 8 * n := by omega
  rw [bitAt_take _ hlt, bitAt_take _ hlt]
  by_contra hne
  have hge := (h.within p hne).1
  omega

/-- A burst behind the first `n` bytes is one in the rest. -/
theorem Burst.drop (h : Burst bytes bytes' (8 * n + start)) :
    Burst (bytes.drop n) (bytes'.drop n) start := by
  refine ⟨?_, ?_, ?_⟩
  · rw [List.length_drop, List.length_drop, h.length]
  · intro hdrop
    apply h.differ
    rw [← List.take_append_drop n bytes, h.take, hdrop, List.take_append_drop]
  · intro p hp
    rw [bitAt_drop, bitAt_drop] at hp
    have hwithin := h.within _ hp
    omega

end Damage

/-- **Burst damage is always detected.** Two strings that differ within thirty-two
consecutive bits have different checksums; so a record whose payload is damaged within
thirty-two consecutive bits is corrupt, whatever stands behind it. -/
theorem burst_detected :
    (∀ bytes bytes' start, Burst bytes bytes' start →
      Crc32.crc32 bytes ≠ Crc32.crc32 bytes') ∧
    ∀ sequence command damaged start rest,
      Burst damaged (encodeRecord sequence command) (8 * kRecordHeaderSize + start) →
      decodeRecord (damaged ++ rest) = .corrupt := by
  refine ⟨fun _ _ _ h => h.crc32_ne, ?_⟩
  intro sequence command damaged start rest h
  have hlen := h.length
  have hsize := encodeRecord_length sequence command
  have htake : (damaged ++ rest).take kRecordHeaderSize =
      (encodeRecord sequence command).take kRecordHeaderSize := by
    rw [List.take_append_of_le_length (by omega), h.take]
  have hlong : (encodeRecord sequence command).length ≤ (damaged ++ rest).length := by
    rw [List.length_append]
    omega
  have hpayload : ((damaged ++ rest).drop kRecordHeaderSize).take
      (encodePayload sequence command).length = damaged.drop kRecordHeaderSize := by
    rw [List.drop_append_of_le_length (by omega), List.take_left']
    rw [List.length_drop]
    omega
  have hrecord : (encodeRecord sequence command).drop kRecordHeaderSize =
      encodePayload sequence command := by
    have hdrop := drop_frame (encodePayload sequence command) []
    rwa [List.append_nil, List.append_nil] at hdrop
  have hcrc := h.drop.crc32_ne
  rw [hrecord] at hcrc
  rw [decodeRecord_header sequence command htake hlong, hpayload, if_pos hcrc]

/-- One bit of the id in a logged cancel is flipped. -/
theorem burst_detected_cancel :
    Burst ((encodeRecord 2 (.cancel 1)).set 17 3) (encodeRecord 2 (.cancel 1))
        (8 * kRecordHeaderSize + 72) ∧
      decodeRecord ((encodeRecord 2 (.cancel 1)).set 17 3 ++ []) = .corrupt := by
  have hburst : Burst ((encodeRecord 2 (.cancel 1)).set 17 3) (encodeRecord 2 (.cancel 1))
      (8 * kRecordHeaderSize + 72) := by
    apply Burst.of_bits
    · decide +kernel
    · decide +kernel
    · decide +kernel
  exact ⟨hburst, burst_detected.2 2 (.cancel 1) _ 72 [] hburst⟩

end Exchange
