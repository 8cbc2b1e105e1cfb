import Mathlib.Tactic

/-!
# Shift registers with feedback

A register is shifted down one bit at a time; if a one falls out, the taps are added
to what is left. Message bits are added at the low end before each shift. This is
division of polynomials over the field of two elements, with the remainder in the
register and its highest coefficient in the lowest bit.

Everything about it follows from two facts: a shift is linear, and as long as the
taps reach the top of the register it loses nothing. Messages that differ within as
many bits as the register is wide leave different remainders.
-/

namespace Exchange.Framework

structure ShiftRegister (w : ℕ) where
  taps : BitVec w
  /-- What falls out at the bottom comes in at the top. -/
  top : taps.msb = true

namespace ShiftRegister

variable {w : ℕ} (R : ShiftRegister w)

/-- One shift. -/
def step (v : BitVec w) : BitVec w :=
  if v.getLsbD 0 then (v >>> 1) ^^^ R.taps else v >>> 1

/-- A message bit at the low end. -/
def low (b : Bool) : BitVec w := if b then 1#w else 0#w

/-- A message bit is added, and the register shifted. -/
def feed (v : BitVec w) (b : Bool) : BitVec w := R.step (v ^^^ low b)

def feedAll (v : BitVec w) (bits : List Bool) : BitVec w := bits.foldl R.feed v

include R in
theorem width_pos : 0 < w := by
  have htop := R.top
  rcases w with _ | w
  · rw [BitVec.of_length_zero (x := R.taps)] at htop
    cases htop
  · exact Nat.succ_pos w

/-! ## Shifting is linear and loses nothing -/

theorem step_xor (u v : BitVec w) : R.step (u ^^^ v) = R.step u ^^^ R.step v := by
  have hswap : u >>> 1 ^^^ v >>> 1 ^^^ R.taps = u >>> 1 ^^^ R.taps ^^^ v >>> 1 := by
    rw [BitVec.xor_assoc, BitVec.xor_comm (v >>> 1), ← BitVec.xor_assoc]
  unfold step
  rw [BitVec.getLsbD_xor, BitVec.ushiftRight_xor_distrib]
  cases u.getLsbD 0 <;> cases v.getLsbD 0
  · rfl
  · exact BitVec.xor_assoc _ _ _
  · exact hswap
  · show u >>> 1 ^^^ v >>> 1 = u >>> 1 ^^^ R.taps ^^^ (v >>> 1 ^^^ R.taps)
    rw [← BitVec.xor_assoc, ← hswap, BitVec.xor_assoc _ R.taps, BitVec.xor_self,
      BitVec.xor_zero]

theorem step_zero : R.step 0#w = 0#w := by
  simp [step]

/-- A shift that leaves nothing had nothing to shift. -/
theorem eq_zero_of_step {v : BitVec w} (h : R.step v = 0#w) : v = 0#w := by
  have hpos := R.width_pos
  unfold step at h
  split at h
  · -- The taps left a one at the top.
    rename_i hlow
    have htop := congrArg BitVec.msb h
    rw [BitVec.msb_xor, R.top, BitVec.msb_ushiftRight] at htop
    simp at htop
  · rename_i hlow
    apply BitVec.eq_of_getLsbD_eq
    intro i hi
    rcases i with _ | i
    · simpa using hlow
    · have hbit := congrArg (fun x => x.getLsbD i) h
      simpa [Nat.add_comm] using hbit

theorem iterate_xor (n : ℕ) (u v : BitVec w) :
    R.step^[n] (u ^^^ v) = R.step^[n] u ^^^ R.step^[n] v := by
  induction n generalizing u v with
  | zero => rfl
  | succ n ih =>
      rw [Function.iterate_succ_apply, Function.iterate_succ_apply,
        Function.iterate_succ_apply, R.step_xor, ih]

theorem eq_zero_of_iterate {n : ℕ} {v : BitVec w} (h : R.step^[n] v = 0#w) : v = 0#w := by
  induction n generalizing v with
  | zero => exact h
  | succ n ih =>
      rw [Function.iterate_succ_apply] at h
      exact R.eq_zero_of_step (ih h)

/-! ## Several bits at once -/

/-- Bits that stand clear of the low end only move down. -/
theorem iterate_shiftLeft (n : ℕ) {v : BitVec w}
    (h : ∀ i, w ≤ i + n → v.getLsbD i = false) : R.step^[n] (v <<< n) = v := by
  induction n generalizing v with
  | zero => simp
  | succ n ih =>
      have hstep : R.step (v <<< (n + 1)) = v <<< n := by
        have hlow : (v <<< (n + 1)).getLsbD 0 = false := by simp
        rw [step, hlow, if_neg Bool.false_ne_true]
        apply BitVec.eq_of_getLsbD_eq
        intro i hi
        have hplace : 1 + i - (n + 1) = i - n := by omega
        have hbelow : 1 + i < n + 1 ↔ i < n := by omega
        rw [BitVec.getLsbD_ushiftRight, BitVec.getLsbD_shiftLeft, BitVec.getLsbD_shiftLeft,
          hplace, decide_eq_decide.mpr hbelow, decide_eq_true hi]
        by_cases htop : 1 + i < w
        · rw [decide_eq_true htop]
        · -- The bit that would come from above the register is clear.
          rw [h (i - n) (by omega), Bool.and_false, Bool.and_false]
      rw [Function.iterate_succ_apply, hstep]
      apply ih
      intro i hi
      exact h i (by omega)

/-- Shifts touch the low bits only; the others move down. -/
theorem iterate_eq (n : ℕ) (v : BitVec w) :
    R.step^[n] v = (v >>> n) ^^^ R.step^[n] ((v.setWidth n).setWidth w) := by
  have hsplit : v = ((v >>> n) <<< n) ^^^ ((v.setWidth n).setWidth w) := by
    apply BitVec.eq_of_getLsbD_eq
    intro i hi
    by_cases hlow : i < n
    · simp [hi, hlow]
    · simp [hi, hlow, Nat.add_sub_cancel' (Nat.not_lt.mp hlow)]
  conv_lhs => rw [hsplit]
  rw [R.iterate_xor, R.iterate_shiftLeft]
  intro i hi
  rw [BitVec.getLsbD_ushiftRight]
  exact BitVec.getLsbD_of_ge _ _ (by omega)

/-- The first bits of a message as one word. -/
def word : List Bool → BitVec w
  | [] => 0#w
  | b :: bits => low b ^^^ (word bits <<< 1)

theorem getLsbD_word (bits : List Bool) (k : ℕ) :
    (word bits : BitVec w).getLsbD k = (decide (k < w) && bits.getD k false) := by
  induction bits generalizing k with
  | nil => simp [word]
  | cons b bits ih =>
      rw [word, BitVec.getLsbD_xor, BitVec.getLsbD_shiftLeft, ih]
      rcases k with _ | k
      · cases b <;> simp [low]
      · have hlow : (low b : BitVec w).getLsbD (k + 1) = false := by
          cases b <;> simp [low]
        rw [hlow, Bool.false_xor]
        by_cases hk : k + 1 < w
        · simp [hk, show k < w by omega]
        · simp [hk]

/-- **A message no longer than the register**, up to zeros, leaves what shifting it as
one word leaves. -/
theorem feedAll_eq (v : BitVec w) {bits : List Bool}
    (h : ∀ k, w ≤ k → bits.getD k false = false) :
    R.feedAll v bits = R.step^[bits.length] (v ^^^ word bits) := by
  induction bits generalizing v with
  | nil => simp [feedAll, word]
  | cons b bits ih =>
      have hrest : ∀ k, w ≤ k + 1 → bits.getD k false = false := by
        intro k hk
        simpa using h (k + 1) hk
      have hword : R.step (word bits <<< 1) = word bits := by
        apply R.iterate_shiftLeft 1
        intro i hi
        rw [getLsbD_word, hrest i hi, Bool.and_false]
      have hfeed : R.feedAll v (b :: bits) = R.feedAll (R.feed v b) bits := rfl
      rw [hfeed, ih _ fun k hk => hrest k (by omega), List.length_cons,
        Function.iterate_succ_apply, word, ← BitVec.xor_assoc, R.step_xor, hword]
      rfl

/-! ## Bursts -/

theorem feedAll_append (v : BitVec w) (bits bits' : List Bool) :
    R.feedAll v (bits ++ bits') = R.feedAll (R.feedAll v bits) bits' := List.foldl_append

theorem low_xor (b b' : Bool) : (low (xor b b') : BitVec w) = low b ^^^ low b' := by
  cases b <;> cases b' <;> simp [low]

theorem feedAll_xor (u v : BitVec w) : ∀ {bits bits' : List Bool},
    bits.length = bits'.length →
    R.feedAll (u ^^^ v) (List.zipWith xor bits bits') =
      R.feedAll u bits ^^^ R.feedAll v bits' := by
  intro bits
  induction bits generalizing u v with
  | nil =>
      intro bits' h
      rw [List.eq_nil_of_length_eq_zero h.symm]
      rfl
  | cons b bits ih =>
      intro bits' h
      rcases bits' with _ | ⟨b', bits'⟩
      · cases h
      · have hfeed : R.feed (u ^^^ v) (xor b b') = R.feed u b ^^^ R.feed v b' := by
          have hswap : u ^^^ v ^^^ (low b ^^^ low b') = u ^^^ low b ^^^ (v ^^^ low b') := by
            rw [BitVec.xor_assoc, ← BitVec.xor_assoc v, BitVec.xor_comm v,
              BitVec.xor_assoc (low b), ← BitVec.xor_assoc u]
          rw [feed, feed, feed, ← R.step_xor, low_xor, hswap]
        show R.feedAll (R.feed (u ^^^ v) (xor b b')) (List.zipWith xor bits bits') =
          R.feedAll (R.feed u b) bits ^^^ R.feedAll (R.feed v b') bits'
        rw [hfeed]
        exact ih _ _ (Nat.succ.inj h)

/-- Zeros leave an empty register empty. -/
theorem feedAll_zero {bits : List Bool} (h : ∀ b ∈ bits, b = false) :
    R.feedAll 0#w bits = 0#w := by
  induction bits with
  | nil => rfl
  | cons b bits ih =>
      have hb : b = false := h b List.mem_cons_self
      have hfeed : R.feed 0#w b = 0#w := by
        rw [hb, feed, low, if_neg Bool.false_ne_true, BitVec.xor_zero, R.step_zero]
      show R.feedAll (R.feed 0#w b) bits = 0#w
      rw [hfeed]
      exact ih fun c hc => h c (List.mem_cons_of_mem _ hc)

/-- A burst leaves something. -/
theorem feedAll_burst {bits : List Bool} {s : ℕ}
    (hburst : ∀ k, bits.getD k false = true → s ≤ k ∧ k < s + w)
    (hsome : ∃ k, bits.getD k false = true) : R.feedAll 0#w bits ≠ 0#w := by
  -- Up to the burst the register is empty; from there on it is shifted as one word.
  have hdrop : ∀ k, (bits.drop s).getD k false = bits.getD (s + k) false := by
    intro k
    simp
  have hbefore : R.feedAll 0#w (bits.take s) = 0#w := by
    apply R.feedAll_zero
    intro b hb
    obtain ⟨k, hk, rfl⟩ := List.mem_iff_getElem.mp hb
    rw [List.length_take] at hk
    by_contra hset
    have hat : bits.getD k false = true := by
      simpa [show k < bits.length by omega] using hset
    have hge := (hburst k hat).1
    omega
  have hshort : ∀ k, w ≤ k → (bits.drop s).getD k false = false := by
    intro k hk
    rw [hdrop]
    by_contra hset
    have hlt := (hburst (s + k) (Bool.eq_true_of_not_eq_false hset)).2
    omega
  rw [← List.take_append_drop s bits, R.feedAll_append, hbefore, R.feedAll_eq _ hshort]
  intro hzero
  have hword := R.eq_zero_of_iterate hzero
  rw [BitVec.zero_xor] at hword
  obtain ⟨k, hk⟩ := hsome
  obtain ⟨hge, hlt⟩ := hburst k hk
  have hbit := congrArg (fun x => x.getLsbD (k - s)) hword
  simp only [getLsbD_word, hdrop, Nat.add_sub_cancel' hge, hk] at hbit
  simp at hbit
  omega

/-- **Bursts are detected.** Messages that differ, and only within as many consecutive
bits as the register is wide, leave it in different states. -/
theorem detects (v : BitVec w) {bits bits' : List Bool} {s : ℕ}
    (hlen : bits.length = bits'.length) (hne : bits ≠ bits')
    (hburst : ∀ k, bits.getD k false ≠ bits'.getD k false → s ≤ k ∧ k < s + w) :
    R.feedAll v bits ≠ R.feedAll v bits' := by
  intro heq
  have hxor := R.feedAll_xor v v hlen
  rw [heq, BitVec.xor_self, BitVec.xor_self] at hxor
  have hat : ∀ k, (List.zipWith xor bits bits').getD k false =
      xor (bits.getD k false) (bits'.getD k false) := by
    intro k
    by_cases hk : k < bits.length
    · simp [hk, hlen ▸ hk]
    · simp [hk, show ¬ k < bits'.length by omega]
  refine R.feedAll_burst (s := s) ?_ ?_ hxor
  · intro k hk
    apply hburst
    rw [hat] at hk
    simpa using hk
  · by_contra hnone
    apply hne
    apply List.ext_getElem hlen
    intro k hk hk'
    have hsame : ¬ (List.zipWith xor bits bits').getD k false = true := by
      intro hset
      exact hnone ⟨k, hset⟩
    rw [hat] at hsame
    simpa [hk, hk'] using hsame

end ShiftRegister

end Exchange.Framework
