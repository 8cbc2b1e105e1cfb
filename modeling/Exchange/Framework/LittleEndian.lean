import Mathlib.Tactic
import Mathlib.Data.UInt

/-!
# Little-endian words

A word goes out byte by byte, least significant first, and is put together
again by shifting each byte to its place. Both directions are written with the
shifts and masks a program uses; what they do is said bit by bit.
-/

namespace Exchange.Framework

abbrev Bytes : Type := List UInt8

namespace LittleEndian

/-- Byte `i` of a value, least significant first. -/
def byteAt (value : UInt64) (i : ℕ) : UInt8 := (value >>> (8 * UInt64.ofNat i)).toUInt8

/-- The `n` low bytes of a value. -/
def emit (value : UInt64) (n : ℕ) : Bytes := (List.range n).map (byteAt value)

/-- Shift byte `i` and the bytes behind it to their places in `value`. -/
def assembleFrom : ℕ → UInt64 → Bytes → UInt64
  | _, value, [] => value
  | i, value, b :: rest =>
      assembleFrom (i + 1) (value ||| (b.toUInt64 <<< (8 * UInt64.ofNat i))) rest

/-- The value of a word given by its bytes. -/
def assemble (bytes : Bytes) : UInt64 := assembleFrom 0 0 bytes

@[simp] theorem emit_length (value : UInt64) (n : ℕ) : (emit value n).length = n := by
  simp [emit]

/-- A byte has eight bits. -/
theorem testBit_byte (b : UInt8) {k : ℕ} (h : 8 ≤ k) : b.toNat.testBit k = false := by
  have hbyte : b.toNat < 2 ^ 8 := b.toNat_lt
  exact Nat.testBit_lt_two_pow
    (Nat.lt_of_lt_of_le hbyte (Nat.pow_le_pow_right (by decide) h))

section Bits

variable (v : UInt64)

/-- A place is within the word. -/
theorem toNat_place {i : ℕ} (hi : i < 8) : (8 * UInt64.ofNat i).toNat % 64 = 8 * i := by
  simp
  omega

theorem testBit_byteAt {i : ℕ} (hi : i < 8) (k : ℕ) :
    (byteAt v i).toNat.testBit k = (decide (k < 8) && v.toNat.testBit (8 * i + k)) := by
  rw [byteAt, UInt64.toNat_toUInt8, UInt64.toNat_shiftRight, toNat_place hi,
    Nat.testBit_mod_two_pow, Nat.testBit_shiftRight]

theorem testBit_placed {i : ℕ} (hi : i < 8) (b : UInt8) (j : ℕ) :
    (b.toUInt64 <<< (8 * UInt64.ofNat i)).toNat.testBit j =
      (decide (8 * i ≤ j ∧ j < 8 * i + 8) && b.toNat.testBit (j - 8 * i)) := by
  rw [UInt64.toNat_shiftLeft, toNat_place hi, UInt8.toNat_toUInt64, Nat.testBit_mod_two_pow,
    Nat.testBit_shiftLeft]
  by_cases hlow : 8 * i ≤ j
  · by_cases hhigh : j < 8 * i + 8
    · simp [hlow, hhigh, show j < 64 by omega]
    · simp [hhigh, testBit_byte b (show 8 ≤ j - 8 * i by omega)]
  · simp [hlow]

/-- The loop invariant of reading back: the bytes so far are the low bits. -/
theorem testBit_assembleFrom : ∀ (k i : ℕ) (acc : UInt64), i + k ≤ 8 →
    (∀ j, acc.toNat.testBit j = (decide (j < 8 * i) && v.toNat.testBit j)) →
    ∀ j, (assembleFrom i acc ((List.range' i k).map (byteAt v))).toNat.testBit j =
      (decide (j < 8 * (i + k)) && v.toNat.testBit j) := by
  intro k
  induction k with
  | zero =>
      intro i acc _ hacc j
      exact hacc j
  | succ k ih =>
      intro i acc hle hacc j
      rw [List.range'_succ, List.map_cons, assembleFrom,
        ih (i + 1) _ (by omega) ?_ j, show i + 1 + k = i + (k + 1) by omega]
      intro j
      rw [UInt64.toNat_or, Nat.testBit_or, hacc, testBit_placed (by omega),
        testBit_byteAt v (by omega)]
      by_cases hlow : 8 * i ≤ j
      · have hj : 8 * i + (j - 8 * i) = j := by omega
        by_cases hhigh : j < 8 * i + 8
        · simp [hlow, hhigh, hj, show j < 8 * (i + 1) by omega,
            show j - 8 * i < 8 by omega]
        · simp [hlow, hhigh, show ¬ j < 8 * (i + 1) by omega]
      · simp [hlow, show j < 8 * i by omega, show j < 8 * (i + 1) by omega]

theorem toNat_assemble_emit {n : ℕ} (hn : n ≤ 8) :
    (assemble (emit v n)).toNat = v.toNat % 2 ^ (8 * n) := by
  apply Nat.eq_of_testBit_eq
  intro j
  rw [assemble, emit, List.range_eq_range',
    testBit_assembleFrom v n 0 0 (by omega) (by simp), Nat.testBit_mod_two_pow,
    Nat.zero_add]

/-- **Round trip of a full word.** -/
theorem assemble_emit : assemble (emit v 8) = v := by
  apply UInt64.toNat_inj.mp
  rw [toNat_assemble_emit v (Nat.le_refl 8)]
  exact Nat.mod_eq_of_lt v.toNat_lt

/-- **Round trip of a half word.** -/
theorem assemble_emit_half (w : UInt32) : (assemble (emit w.toUInt64 4)).toUInt32 = w := by
  apply UInt32.toNat_inj.mp
  rw [UInt64.toNat_toUInt32, toNat_assemble_emit _ (by decide), UInt32.toNat_toUInt64]
  have := w.toNat_lt
  omega

end Bits

/-! ## From bytes and back -/

/-- The loop invariant of putting a word together: each byte stands in its place. -/
theorem testBit_assembleFrom_bytes (bytes : Bytes) : ∀ (i : ℕ) (acc : UInt64),
    i + bytes.length ≤ 8 → ∀ j, (assembleFrom i acc bytes).toNat.testBit j =
      (acc.toNat.testBit j ||
        (decide (8 * i ≤ j) && (bytes.getD (j / 8 - i) 0).toNat.testBit (j % 8))) := by
  induction bytes with
  | nil =>
      intro i acc _ j
      simp [assembleFrom]
  | cons b bytes ih =>
      intro i acc h j
      rw [List.length_cons] at h
      rw [assembleFrom, ih (i + 1) _ (by omega), UInt64.toNat_or, Nat.testBit_or,
        testBit_placed (by omega), Bool.or_assoc]
      congr 1
      by_cases hlow : 8 * i ≤ j
      · by_cases hnext : 8 * (i + 1) ≤ j
        · -- Behind this byte.
          obtain ⟨k, hk⟩ : ∃ k, j / 8 - i = k + 1 := ⟨j / 8 - i - 1, by omega⟩
          have hk' : j / 8 - (i + 1) = k := by omega
          simp [hlow, hnext, hk, hk', show ¬ j < 8 * i + 8 by omega]
        · -- Within it.
          have hzero : j / 8 - i = 0 := by omega
          have hmod : j % 8 = j - 8 * i := by omega
          simp [hlow, hnext, hzero, hmod, show j < 8 * i + 8 by omega]
      · have hnext : ¬ 8 * (i + 1) ≤ j := by omega
        simp [hlow, hnext]

/-- **Round trip of the bytes.** -/
theorem emit_assemble {bytes : Bytes} (h : bytes.length ≤ 8) :
    emit (assemble bytes) bytes.length = bytes := by
  apply List.ext_getElem (emit_length _ _)
  intro i hi hi'
  have hi8 : i < 8 := by omega
  apply UInt8.toNat_inj.mp
  apply Nat.eq_of_testBit_eq
  intro k
  rw [show (emit (assemble bytes) bytes.length)[i] = byteAt (assemble bytes) i by
    simp [emit], testBit_byteAt _ hi8, assemble,
    testBit_assembleFrom_bytes bytes 0 0 (by omega)]
  by_cases hk : k < 8
  · have hdiv : (8 * i + k) / 8 = i := by omega
    have hmod : (8 * i + k) % 8 = k := by omega
    simp [hk, hdiv, hmod, List.getElem?_eq_getElem hi']
  · simp [hk, testBit_byte bytes[i] (Nat.not_lt.mp hk)]

/-- The low half of a word has its low bytes. -/
theorem emit_half (v : UInt64) : emit v.toUInt32.toUInt64 4 = emit v 4 := by
  apply List.map_congr_left
  intro i hi
  rw [List.mem_range] at hi
  apply UInt8.toNat_inj.mp
  apply Nat.eq_of_testBit_eq
  intro k
  rw [testBit_byteAt _ (by omega), testBit_byteAt _ (by omega), UInt32.toNat_toUInt64,
    UInt64.toNat_toUInt32, Nat.testBit_mod_two_pow]
  by_cases hk : k < 8
  · simp [hk, show 8 * i + k < 32 by omega]
  · simp [hk]

end LittleEndian

end Exchange.Framework
