import Mathlib
import Exchange.Framework.Rounding

/-!
# The arithmetic of `Float`

Lean's `Float` has a model of the hardware's binary64: bits are unpacked into a sign, a
significand and an exponent, the operation is carried out on these with a round and a
sticky bit, and the result is packed again. Here that model is held against rational
numbers: each operation yields a number nearest to the exact result, as long as that is
zero or of full precision and does not overflow.
-/

namespace Exchange.Framework.Binary64

open Float.Model Float.Model.UnpackedFloat

/-! ## Numbers and their unpacked form -/

def sign : Sign → ℚ
  | .negative => -1
  | .positive => 1

/-- The number, unless it is infinite or none. -/
def unpackedValue : UnpackedFloat → Option ℚ
  | .zero _ => some 0
  | .finite s m e _ => some (sign s * (m * 2 ^ e))
  | .infinity _ | .notANumber => none

/-- The number a `Float` stands for. -/
def value (f : Float) : Option ℚ := unpackedValue f.toModel.unpack

/-- What unpacking bits can give. -/
def Canonical : UnpackedFloat → Prop
  | .zero _ => True
  | .finite _ m e _ => m < 2 ^ 53 ∧ -1074 ≤ e ∧ e ≤ 971 ∧ (2 ^ 52 ≤ m ∨ e = -1074)
  | .infinity _ | .notANumber => False

theorem exponentBias_eq : Format.binary64.exponentBias = 1023 := by decide

theorem mantissaBits_eq : Format.binary64.mantissaBits = 53 := by decide

theorem minExponent_eq : Format.binary64.minExponent = -1074 := by decide

theorem targetExponent_eq (m : ℕ) (e : ℤ) :
    Format.binary64.targetExponent (totalExponent m e) = max (m.log2 + 1 + e - 53) (-1074) := by
  rw [Format.targetExponent, totalExponent, mantissaBits_eq, minExponent_eq]
  norm_num

@[simp] theorem unpackSign_packComponents {spec : Format} (s : Sign)
    (e : BitVec spec.exponentBits) (m : BitVec spec.mantissaBitsWithoutImplicit) :
    Sign.ofBitVec (unpackSign (packComponents spec s e m)) = s := by
  have hbit : unpackSign (packComponents spec s e m) = s.toBitVec := by
    ext i hi
    obtain rfl : i = 0 := by omega
    simp [unpackSign, packComponents, BitVec.getLsbD_append, BitVec.getElem_append]
  rw [hbit]
  cases s <;> rfl

theorem implicit_bit (m : BitVec 52) : (1#1 ++ m).toNat = 2 ^ 52 + m.toNat := by
  rw [BitVec.toNat_append, ← Nat.shiftLeft_add_eq_or_of_lt m.isLt]
  rfl

/-- Bits of a number of full precision. -/
theorem unpack_normal (s : Sign) {m b : ℕ} (hb : 0 < b) (hb' : b < 2047) (hm : 2 ^ 52 ≤ m)
    (hm' : m < 2 ^ 53) :
    UnpackedFloat.unpack Format.binary64
        (packComponents Format.binary64 s (BitVec.ofNat 11 b) (BitVec.ofNat 52 m)) =
      .finite s m (b - 1075) (by omega) := by
  have hexp : (BitVec.ofNat 11 b).toNat = b := by
    rw [BitVec.toNat_ofNat, Nat.mod_eq_of_lt (by omega)]
  have hones : BitVec.ofNat 11 b ≠ -1#11 := by
    intro heq
    rw [heq, show (-1#11).toNat = 2047 from rfl] at hexp
    omega
  have hzero : BitVec.ofNat 11 b ≠ 0#11 := by
    intro heq
    rw [heq, show (0#11).toNat = 0 from rfl] at hexp
    omega
  have hmant : (1#1 ++ BitVec.ofNat 52 m).toNat = m := by
    rw [implicit_bit, BitVec.toNat_ofNat]
    omega
  unfold UnpackedFloat.unpack
  simp only [unpackMantissa_packComponents, unpackExponent_packComponents,
    unpackSign_packComponents, if_neg hones, if_neg hzero, hexp, exponentBias_eq, hmant]
  rfl

/-- Bits of a number of less precision. -/
theorem unpack_subnormal (s : Sign) {m : ℕ} (hm : 0 < m) (hm' : m < 2 ^ 52) :
    UnpackedFloat.unpack Format.binary64
        (packComponents Format.binary64 s 0#11 (BitVec.ofNat 52 m)) =
      .finite s m (-1074) hm := by
  have hmant : (BitVec.ofNat 52 m).toNat = m := by
    rw [BitVec.toNat_ofNat, Nat.mod_eq_of_lt hm']
  have hzero : BitVec.ofNat 52 m ≠ 0#52 := by
    intro heq
    rw [heq, show (0#52).toNat = 0 from rfl] at hmant
    omega
  have hones : (0#11) ≠ -1#11 := by decide
  unfold UnpackedFloat.unpack
  simp only [unpackMantissa_packComponents, unpackExponent_packComponents,
    unpackSign_packComponents, if_neg hones, exponentBias_eq, dif_neg hzero, hmant]
  rfl

/-- **Packing loses nothing of a canonical number.** -/
theorem unpack_pack {u : UnpackedFloat} (h : Canonical u) :
    UnpackedFloat.unpack Format.binary64 (UnpackedFloat.pack Format.binary64 u) = u := by
  cases u with
  | zero s =>
      unfold UnpackedFloat.pack packedZero UnpackedFloat.unpack
      simp only [unpackMantissa_packComponents, unpackExponent_packComponents,
        unpackSign_packComponents]
      rfl
  | finite s m e hm =>
      obtain ⟨hlt, hlow, hhigh, hfull⟩ := h
      have hbiased : ¬ 2 ^ 11 ≤ (e + (1023 : ℕ) + (52 : ℕ)).toNat + 1 := by omega
      unfold UnpackedFloat.pack
      dsimp only
      rw [exponentBias_eq, mantissaBits_eq, if_neg hbiased]
      by_cases hnormal : 2 ^ 52 ≤ m
      · have hlog : m.log2 = 52 := (Nat.log2_eq_iff hm.ne').mpr ⟨hnormal, hlt⟩
        rw [if_pos (by omega), unpack_normal s (by omega) (by omega) hnormal hlt]
        congr 1
        omega
      · have hlog : m.log2 < 52 := (Nat.log2_lt hm.ne').mpr (Nat.not_le.mp hnormal)
        rw [if_neg (by omega), unpack_subnormal s hm (Nat.not_le.mp hnormal)]
        congr 1
        omega
  | infinity s => cases h
  | notANumber => cases h

/-- What was unpacked is canonical, if it is a number. -/
theorem canonical_unpack {b : BitVec Format.binary64.numBits} {x : ℚ}
    (h : unpackedValue (UnpackedFloat.unpack Format.binary64 b) = some x) :
    Canonical (UnpackedFloat.unpack Format.binary64 b) := by
  have hmant : (unpackMantissa b).toNat < 2 ^ 52 := (unpackMantissa b).isLt
  have hexp : (unpackExponent b).toNat < 2 ^ 11 := (unpackExponent b).isLt
  unfold UnpackedFloat.unpack at h ⊢
  dsimp only at h ⊢
  split_ifs at h ⊢ with hones hinf hzero hnone
  · cases h
  · cases h
  · trivial
  · have hexp : (unpackExponent b).toNat = 0 := by rw [hzero]; rfl
    rw [exponentBias_eq, hexp]
    exact ⟨by omega, by decide, by decide, Or.inr (by decide)⟩
  · have hne : (unpackExponent b).toNat ≠ 2047 := fun heq => hones (BitVec.eq_of_toNat_eq heq)
    have hpos : (unpackExponent b).toNat ≠ 0 := fun heq => hzero (BitVec.eq_of_toNat_eq heq)
    have himplicit := implicit_bit (unpackMantissa b)
    rw [exponentBias_eq]
    exact ⟨by omega, by omega, by omega, Or.inl (by omega)⟩

/-! ## Round and sticky bit -/

/-- The significand with its two bits stands for `v`. -/
def Stands (em : ExtendedMantissa) (v : ℚ) : Prop :=
  match em.roundBit, em.stickyBit with
  | false, false => v = em.mantissa
  | false, true => em.mantissa < v ∧ v < em.mantissa + 1 / 2
  | true, false => v = em.mantissa + 1 / 2
  | true, true => em.mantissa + 1 / 2 < v ∧ v < em.mantissa + 1

theorem stands_exact (m : ℕ) : Stands (.ofMantissaAndAccuracy m .exact) m := rfl

theorem Stands.bounds {em : ExtendedMantissa} {v : ℚ} (h : Stands em v) :
    em.mantissa ≤ v ∧ v < em.mantissa + 1 := by
  obtain ⟨m, round, sticky⟩ := em
  unfold Stands at h
  cases round <;> cases sticky <;> dsimp only at h ⊢ <;> constructor <;> linarith

theorem Stands.shiftRightOne {em : ExtendedMantissa} {v : ℚ} (h : Stands em v) :
    Stands em.shiftRightOne (v / 2) := by
  obtain ⟨m, round, sticky⟩ := em
  have hsplit : (m : ℚ) = 2 * (m / 2 : ℕ) + (m % 2 : ℕ) := by
    exact_mod_cast (Nat.div_add_mod m 2).symm
  unfold Stands at h ⊢
  unfold ExtendedMantissa.shiftRightOne
  rcases Nat.mod_two_eq_zero_or_one m with hbit | hbit <;> rw [hbit] at hsplit <;>
    push_cast at hsplit <;> cases round <;> cases sticky <;> dsimp only at h ⊢ <;>
    simp only [hbit] <;> simp <;> (try constructor) <;> linarith

theorem Stands.shiftRight {em : ExtendedMantissa} {v : ℚ} (h : Stands em v) (k : ℕ) :
    Stands (em >>> k) (v / 2 ^ k) := by
  show Stands (k.repeat ExtendedMantissa.shiftRightOne em) _
  induction k with
  | zero => simpa [Nat.repeat] using h
  | succ k ih =>
      have hnext := ih.shiftRightOne
      rwa [div_div, ← pow_succ] at hnext

/-- The rounded significand is within half a unit. -/
theorem Stands.rounded {em : ExtendedMantissa} {v : ℚ} (h : Stands em v) :
    |(em.roundedMantissa : ℚ) - v| ≤ 1 / 2 := by
  obtain ⟨m, round, sticky⟩ := em
  unfold Stands at h
  rw [abs_le]
  cases round with
  | false =>
      have hround : ExtendedMantissa.roundedMantissa ⟨m, false, sticky⟩ = m := by
        cases sticky <;> rfl
      rw [hround]
      cases sticky <;> dsimp only at h <;> constructor <;> linarith
  | true =>
      cases sticky with
      | false =>
          -- a tie goes to the even neighbour
          have hbit : ((m % 2 : ℕ) : ℚ) = 0 ∨ ((m % 2 : ℕ) : ℚ) = 1 := by
            exact_mod_cast Nat.mod_two_eq_zero_or_one m
          show -(1 / 2) ≤ ((m + m % 2 : ℕ) : ℚ) - v ∧ ((m + m % 2 : ℕ) : ℚ) - v ≤ 1 / 2
          dsimp only at h
          rw [Nat.cast_add]
          rcases hbit with hbit | hbit <;> rw [hbit, h] <;> constructor <;> linarith
      | true =>
          show -(1 / 2) ≤ ((m + 1 : ℕ) : ℚ) - v ∧ ((m + 1 : ℕ) : ℚ) - v ≤ 1 / 2
          dsimp only at h
          push_cast
          constructor <;> linarith

/-! ## Rounding -/

/-- A significand that was rounded up to one bit too many is shifted once more. -/
theorem shift_carry {r : ℕ} {t : ℤ} (hr : r ≤ 2 ^ 53) (ht : -1074 ≤ t) :
    shiftToTargetExponent Format.binary64 r t .exact =
      if r = 2 ^ 53 then (⟨2 ^ 52, false, false⟩, t + 1) else (⟨r, false, false⟩, t) := by
  unfold shiftToTargetExponent shiftToExponent
  rw [targetExponent_eq]
  dsimp only
  split_ifs with hcarry
  · subst hcarry
    rw [Nat.log2_two_pow]
    have hshift : (max (((53 : ℕ) : ℤ) + 1 + t - 53) (-1074) - t).toNat = 1 := by omega
    rw [hshift]
    rfl
  · have hlog : r.log2 < 53 := by
      rcases Nat.eq_zero_or_pos r with rfl | hpos
      · decide
      · exact (Nat.log2_lt hpos.ne').mpr (by omega)
    have hshift : (max ((r.log2 : ℤ) + 1 + t - 53) (-1074) - t).toNat = 0 := by omega
    rw [hshift]
    exact Prod.ext rfl (by simp)

/-- A number in the unit of its target exponent. -/
theorem scaled_bounds {v : ℚ} {l k : ℕ} {e t : ℤ} (hlow : (2 : ℚ) ^ l ≤ v)
    (hhigh : v < 2 ^ (l + 1)) (ht : t = max ((l : ℤ) + 1 + e - 53) (-1074)) (hek : e + k = t) :
    v / 2 ^ k * 2 ^ t = v * 2 ^ e ∧ v / 2 ^ k < 2 ^ 53 ∧ (t = -1074 ∨ 2 ^ 52 ≤ v / 2 ^ k) := by
  have hscale : v / 2 ^ k * 2 ^ t = v * 2 ^ e := by
    rw [← hek, two_zpow_add, zpow_natCast]
    field_simp
  have hunit := two_zpow_pos t
  refine ⟨hscale, ?_, ?_⟩
  · refine lt_of_mul_lt_mul_right ?_ hunit.le
    calc v / 2 ^ k * 2 ^ t = v * 2 ^ e := hscale
      _ < 2 ^ (l + 1) * 2 ^ e := by
          have := two_zpow_pos e
          gcongr
      _ = 2 ^ ((l : ℤ) + 1 + e) := by
          rw [two_zpow_add]
          norm_cast
      _ ≤ 2 ^ ((53 : ℕ) + t) := two_zpow_le.mpr (by omega)
      _ = 2 ^ 53 * 2 ^ t := by rw [two_zpow_add, zpow_natCast]
  · refine or_iff_not_imp_left.mpr fun hne => le_of_mul_le_mul_right ?_ hunit
    have hexp : ((52 : ℕ) : ℤ) + t = l + e := by omega
    calc (2 : ℚ) ^ 52 * 2 ^ t = 2 ^ (l + e) := by rw [← hexp, two_zpow_add, zpow_natCast]
      _ = 2 ^ l * 2 ^ e := by rw [two_zpow_add, zpow_natCast]
      _ ≤ v * 2 ^ e := by
          have := two_zpow_pos e
          gcongr
      _ = v / 2 ^ k * 2 ^ t := hscale.symm

/-- What becomes of a significand that has been rounded in the unit `t`. -/
theorem finish_rounding (s : Sign) {r : ℕ} {t : ℤ} (hr : r ≤ 2 ^ 53) (ht : -1074 ≤ t)
    (ht' : t ≤ 970) (hfull : t = -1074 ∨ 2 ^ 52 ≤ r) {u : UnpackedFloat}
    (hu : u = if h : (shiftToTargetExponent Format.binary64 r t .exact).1.mantissa = 0 then
        .zero s
      else .finite s _ (shiftToTargetExponent Format.binary64 r t .exact).2
        (Nat.pos_of_ne_zero h)) :
    Canonical u ∧ unpackedValue u = some (sign s * (r * 2 ^ t)) := by
  subst hu
  rw [shift_carry hr ht]
  by_cases hcarry : r = 2 ^ 53
  · rw [if_pos hcarry, dif_neg (by decide : ¬ (2 : ℕ) ^ 52 = 0)]
    have hmant : (2 : ℕ) ^ 52 < 2 ^ 53 := by decide
    refine ⟨⟨hmant, (by omega : -1074 ≤ t + 1), (by omega : t + 1 ≤ 971), Or.inl le_rfl⟩, ?_⟩
    show some (sign s * ((2 ^ 52 : ℕ) * 2 ^ (t + 1))) = _
    rw [hcarry, two_zpow_add]
    push_cast
    ring_nf
  · rw [if_neg hcarry]
    by_cases hzero : r = 0
    · subst hzero
      exact ⟨trivial, by simp [unpackedValue]⟩
    · rw [dif_neg hzero]
      exact ⟨⟨(by omega : r < 2 ^ 53), ht, (by omega : t ≤ 971), hfull.symm⟩, rfl⟩

theorem nearest_sign (s : Sign) {x r : ℚ} (h : Nearest x r) :
    Nearest (sign s * x) (sign s * r) := by
  cases s with
  | negative => simpa [sign] using h.neg
  | positive => simpa [sign] using h

/-- An unpacked result that is nearest to `x`, and can be packed. -/
structure Rounded (u : UnpackedFloat) (x : ℚ) : Prop where
  canonical : Canonical u
  nearest : ∃ r, unpackedValue u = some r ∧ Nearest x r

/-- **What is rounded is nearest**, provided that the target exponent is not below the
exponent at hand. -/
theorem roundWithAccuracy_nearest (s : Sign) {m : ℕ} {e : ℤ} {accuracy : Accuracy} {v : ℚ}
    (hv : Stands (.ofMantissaAndAccuracy m accuracy) v) (hm : 0 < m)
    (he : e ≤ max (m.log2 + 1 + e - 53) (-1074)) (hmax : v * 2 ^ e < 2 ^ (1023 : ℤ)) :
    Rounded (roundWithAccuracy Format.binary64 s m e accuracy) (sign s * (v * 2 ^ e)) := by
  obtain ⟨t, ht⟩ : ∃ t : ℤ, t = max ((m.log2 : ℤ) + 1 + e - 53) (-1074) := ⟨_, rfl⟩
  obtain ⟨k, hk⟩ : ∃ k : ℕ, (t - e).toNat = k := ⟨_, rfl⟩
  have hek : e + k = t := by omega
  have hmant : (ExtendedMantissa.ofMantissaAndAccuracy m accuracy).mantissa = m := by
    cases accuracy with
    | exact => rfl
    | inexact ordering => cases ordering <;> rfl
  obtain ⟨hlow, hhigh⟩ : (2 : ℚ) ^ m.log2 ≤ v ∧ v < 2 ^ (m.log2 + 1) := by
    have hbounds := hv.bounds
    rw [hmant] at hbounds
    have hself : ((2 ^ m.log2 : ℕ) : ℚ) ≤ m := by exact_mod_cast Nat.log2_self_le hm.ne'
    have hnext : ((m + 1 : ℕ) : ℚ) ≤ (2 ^ (m.log2 + 1) : ℕ) := by
      exact_mod_cast Nat.lt_log2_self
    push_cast at hself hnext
    exact ⟨by linarith, by linarith⟩
  obtain ⟨hscale, hwide, hfull⟩ := scaled_bounds hlow hhigh ht hek
  have hround := (hv.shiftRight k).rounded
  obtain ⟨r, hr⟩ : ∃ r,
      (ExtendedMantissa.ofMantissaAndAccuracy m accuracy >>> k).roundedMantissa = r := ⟨_, rfl⟩
  rw [hr] at hround
  obtain ⟨hbelow, habove⟩ := abs_le.mp hround
  have hr53 : r ≤ 2 ^ 53 := by
    have hlt : (r : ℚ) < 2 ^ 53 + 1 := by linarith
    exact Nat.lt_succ_iff.mp (by exact_mod_cast hlt)
  have hr52 : t = -1074 ∨ 2 ^ 52 ≤ r := by
    refine hfull.imp_right fun hw => ?_
    have hlt : (2 : ℚ) ^ 52 < r + 1 := by linarith
    exact Nat.lt_succ_iff.mp (by exact_mod_cast hlt)
  have hr970 : t ≤ 970 := by
    rcases hfull with hmin | hw
    · omega
    · have hlt : (2 : ℚ) ^ (((52 : ℕ) : ℤ) + t) < 2 ^ (1023 : ℤ) := by
        rw [two_zpow_add, zpow_natCast]
        have hunit := two_zpow_pos t
        calc (2 : ℚ) ^ 52 * 2 ^ t ≤ v / 2 ^ k * 2 ^ t := by gcongr
          _ = v * 2 ^ e := hscale
          _ < 2 ^ (1023 : ℤ) := hmax
      have := two_zpow_lt.mp hlt
      omega
  have hnearest := nearest_of_half (r := r) (t := t) (by exact_mod_cast hround)
    (by rw [abs_of_nonneg (by omega)]; exact_mod_cast hr53) (by omega) hfull
  rw [hscale] at hnearest
  obtain ⟨hcanonical, hvalue⟩ := finish_rounding s hr53 (by omega) hr970 hr52
    (u := roundWithAccuracy Format.binary64 s m e accuracy) (by
      unfold roundWithAccuracy
      rw [shiftToTargetExponent, targetExponent_eq, ← ht, shiftToExponent]
      dsimp only
      rw [hk, hr, hek])
  exact ⟨hcanonical, _, hvalue, by exact_mod_cast nearest_sign s hnearest⟩

theorem fits_of_canonical {u : UnpackedFloat} {x : ℚ} (h : Canonical u)
    (hx : unpackedValue u = some x) : Fits x := by
  cases u with
  | zero s =>
      cases hx
      exact fits_zero
  | finite s m e hm =>
      cases hx
      obtain ⟨hlt, hlow, -, -⟩ := h
      have hfits : Fits (m * 2 ^ e) :=
        ⟨m, e, by rw [abs_of_nonneg (by omega)]; omega, hlow, by push_cast; rfl⟩
      cases s with
      | negative => simpa [sign] using hfits.neg
      | positive => simpa [sign] using hfits
  | infinity s => cases hx
  | notANumber => cases hx

/-- A number of the format is its own nearest. -/
theorem Rounded.self {u : UnpackedFloat} {x : ℚ} (h : Canonical u)
    (hx : unpackedValue u = some x) : Rounded u x := by
  refine ⟨h, x, hx, fits_of_canonical h hx, fun y _ => ?_⟩
  rw [sub_self, abs_zero]
  exact abs_nonneg _

theorem rounded_zero (s : Sign) : Rounded (.zero s) 0 := .self trivial rfl

/-! ## Sums -/

theorem log2_shiftLeft {m : ℕ} (hm : 0 < m) (j : ℕ) : (m <<< j).log2 = m.log2 + j := by
  rw [Nat.shiftLeft_eq, Nat.log2_eq_iff (by positivity), pow_add, add_right_comm, pow_add]
  exact ⟨Nat.mul_le_mul_right _ (Nat.log2_self_le hm.ne'),
    Nat.mul_lt_mul_of_pos_right Nat.lt_log2_self (by positivity)⟩

theorem value_shiftLeft (m j : ℕ) (e : ℤ) :
    ((m <<< j : ℕ) * 2 ^ (e - j) : ℚ) = m * 2 ^ e := by
  rw [Nat.shiftLeft_eq, sub_eq_add_neg, two_zpow_add, zpow_neg, zpow_natCast]
  push_cast
  field_simp

theorem round_nearest (s : Sign) {m : ℕ} {e : ℤ} (hm : 0 < m)
    (hmax : (m * 2 ^ e : ℚ) < 2 ^ (1023 : ℤ)) :
    Rounded (UnpackedFloat.round Format.binary64 s m e) (sign s * (m * 2 ^ e)) := by
  unfold UnpackedFloat.round
  rw [targetExponent_eq]
  obtain ⟨j, hj⟩ : ∃ j : ℕ, (e - max ((m.log2 : ℤ) + 1 + e - 53) (-1074)).toNat = j := ⟨_, rfl⟩
  unfold decreaseExponent
  dsimp only
  rw [hj]
  have hshift : 0 < m <<< j := by
    rw [Nat.shiftLeft_eq]
    positivity
  have htarget : e - j ≤ max ((m <<< j).log2 + 1 + (e - j) - 53) (-1074) := by
    rw [log2_shiftLeft hm]
    push_cast
    omega
  have hrounded := roundWithAccuracy_nearest s (stands_exact (m <<< j)) hshift htarget
    (by rwa [value_shiftLeft])
  rwa [value_shiftLeft] at hrounded

theorem sign_apply (s : Sign) (n : ℤ) : ((s.apply n : ℤ) : ℚ) = sign s * n := by
  cases s <;> simp [Sign.apply, sign]

theorem normalize_nearest (n e : ℤ) (s : Sign) (hmax : |(n * 2 ^ e : ℚ)| < 2 ^ (1023 : ℤ)) :
    Rounded (UnpackedFloat.normalize Format.binary64 n e s) (n * 2 ^ e) := by
  rw [abs_mul, abs_of_pos (two_zpow_pos e)] at hmax
  unfold UnpackedFloat.normalize
  rcases lt_trichotomy n 0 with hneg | rfl | hpos
  · have hcast : (((-n).toNat : ℕ) : ℚ) = -n := by exact_mod_cast Int.toNat_of_nonneg (by omega)
    have hrounded := round_nearest .negative (m := (-n).toNat) (e := e) (by omega) (by
      rw [hcast]
      rwa [abs_of_neg (by exact_mod_cast hneg)] at hmax)
    rw [compare_lt_iff_lt.mpr hneg]
    rw [hcast] at hrounded
    simpa [sign] using hrounded
  · simpa using rounded_zero s
  · have hcast : ((n.toNat : ℕ) : ℚ) = n := by exact_mod_cast Int.toNat_of_nonneg (by omega)
    have hrounded := round_nearest .positive (m := n.toNat) (e := e) (by omega) (by
      rw [hcast]
      rwa [abs_of_pos (by exact_mod_cast hpos)] at hmax)
    rw [compare_gt_iff_gt.mpr hpos]
    rw [hcast] at hrounded
    simpa [sign] using hrounded

/-- A significand in the smaller of two units. -/
theorem decreaseExponent_value (s : Sign) (m : ℕ) {e t : ℤ} (h : t ≤ e) :
    ((s.apply (decreaseExponent m e t).1 : ℤ) * 2 ^ t : ℚ) = sign s * (m * 2 ^ e) := by
  obtain ⟨j, rfl⟩ := Int.le.dest h
  have hvalue := value_shiftLeft m j (t + j)
  rw [add_sub_cancel_right] at hvalue
  have hshift : (decreaseExponent m (t + j) t).1 = m <<< j := by simp [decreaseExponent]
  rw [sign_apply, mul_assoc, ← hvalue, hshift, Int.cast_natCast]

theorem add_nearest {u u' : UnpackedFloat} {x y : ℚ} (hu : Canonical u) (hu' : Canonical u')
    (hx : unpackedValue u = some x) (hy : unpackedValue u' = some y)
    (hmax : |x + y| < 2 ^ (1023 : ℤ)) :
    Rounded (UnpackedFloat.add Format.binary64 u u') (x + y) := by
  cases u with
  | infinity s => cases hx
  | notANumber => cases hx
  | zero s =>
      cases hx
      rw [zero_add]
      cases u' with
      | infinity s' => cases hy
      | notANumber => cases hy
      | zero s' =>
          cases hy
          show Rounded (if s == s' then .zero s else .zero .positive) 0
          split <;> exact rounded_zero _
      | finite s' m' e' hm' => exact .self hu' hy
  | finite s m e hm =>
      cases hx
      cases u' with
      | infinity s' => cases hy
      | notANumber => cases hy
      | zero s' =>
          cases hy
          rw [add_zero]
          exact .self hu rfl
      | finite s' m' e' hm' =>
          cases hy
          rw [← decreaseExponent_value s m (min_le_left e e'),
            ← decreaseExponent_value s' m' (min_le_right e e'), ← add_mul] at hmax ⊢
          exact_mod_cast normalize_nearest _ _ .positive (by exact_mod_cast hmax)

theorem sign_neg (s : Sign) : sign (-s) = -sign s := by
  cases s <;> decide

theorem sub_nearest {u u' : UnpackedFloat} {x y : ℚ} (hu : Canonical u) (hu' : Canonical u')
    (hx : unpackedValue u = some x) (hy : unpackedValue u' = some y)
    (hmax : |x - y| < 2 ^ (1023 : ℤ)) :
    Rounded (UnpackedFloat.sub Format.binary64 u u') (x - y) := by
  cases u with
  | infinity s => cases hx
  | notANumber => cases hx
  | zero s =>
      cases hx
      rw [zero_sub]
      cases u' with
      | infinity s' => cases hy
      | notANumber => cases hy
      | zero s' =>
          cases hy
          rw [neg_zero]
          show Rounded (if s == -s' then .zero s else .zero .positive) 0
          split <;> exact rounded_zero _
      | finite s' m' e' hm' =>
          cases hy
          refine .self (hu' : Canonical (.finite (-s') m' e' hm')) ?_
          rw [← neg_mul, ← sign_neg]
          rfl
  | finite s m e hm =>
      cases hx
      cases u' with
      | infinity s' => cases hy
      | notANumber => cases hy
      | zero s' =>
          cases hy
          rw [sub_zero]
          exact .self hu rfl
      | finite s' m' e' hm' =>
          cases hy
          rw [← decreaseExponent_value s m (min_le_left e e'),
            ← decreaseExponent_value s' m' (min_le_right e e'), ← sub_mul] at hmax ⊢
          exact_mod_cast normalize_nearest _ _ .positive (by exact_mod_cast hmax)

/-! ## Products and quotients -/

theorem sign_mul (s s' : Sign) : sign (s * s') = sign s * sign s' := by
  cases s <;> cases s' <;> decide +kernel

theorem sign_div (s s' : Sign) : sign (s / s') = sign s * sign s' := by
  cases s <;> cases s' <;> decide +kernel

theorem abs_sign (s : Sign) : |sign s| = 1 := by
  cases s <;> simp [sign]

theorem mul_nearest {u u' : UnpackedFloat} {x y : ℚ} (hu : Canonical u) (hu' : Canonical u')
    (hx : unpackedValue u = some x) (hy : unpackedValue u' = some y)
    (hmax : |x * y| < 2 ^ (1023 : ℤ)) :
    Rounded (UnpackedFloat.mul Format.binary64 u u') (x * y) := by
  cases u with
  | infinity s => cases hx
  | notANumber => cases hx
  | zero s =>
      cases hx
      rw [zero_mul]
      cases u' with
      | infinity s' => cases hy
      | notANumber => cases hy
      | zero s' => exact rounded_zero _
      | finite s' m' e' hm' => exact rounded_zero _
  | finite s m e hm =>
      cases hx
      cases u' with
      | infinity s' => cases hy
      | notANumber => cases hy
      | zero s' =>
          cases hy
          rw [mul_zero]
          exact rounded_zero _
      | finite s' m' e' hm' =>
          cases hy
          have hvalue : sign s * (m * 2 ^ e) * (sign s' * (m' * 2 ^ e')) =
              sign (s * s') * ((m * m' : ℕ) * 2 ^ (e + e')) := by
            rw [sign_mul, two_zpow_add]
            push_cast
            ring
          rw [hvalue] at hmax ⊢
          rw [abs_mul, abs_sign, one_mul, abs_of_nonneg (by positivity)] at hmax
          refine roundWithAccuracy_nearest _ (stands_exact _) (Nat.mul_pos hm hm') ?_ hmax
          -- one of the factors has its full width, or both units are the smallest
          have hwide : 2 ^ 52 ≤ m ∨ 2 ^ 52 ≤ m' → 52 ≤ (m * m').log2 := by
            intro h
            refine (Nat.le_log2 (Nat.mul_pos hm hm').ne').mpr ?_
            rcases h with h | h
            · exact h.trans (Nat.le_mul_of_pos_right m hm')
            · exact h.trans (Nat.le_mul_of_pos_left m' hm)
          obtain ⟨-, -, -, hfull⟩ := hu
          obtain ⟨-, -, -, hfull'⟩ := hu'
          omega

/-- What is left of a division, as a round and a sticky bit. -/
theorem stands_quotient (n : ℕ) {d : ℕ} (hd : 0 < d) :
    Stands (.ofMantissaAndAccuracy (n / d) (accuracyOfFraction (n % d) d)) (n / d : ℚ) := by
  have hd' : (0 : ℚ) < d := by exact_mod_cast hd
  have hsplit : (n / d : ℚ) = (n / d : ℕ) + (n % d : ℕ) / d := by
    have hdiv : (n : ℚ) = d * (n / d : ℕ) + (n % d : ℕ) := by
      exact_mod_cast (Nat.div_add_mod n d).symm
    rw [div_eq_iff hd'.ne', add_mul, div_mul_cancel₀ _ hd'.ne']
    linarith
  have hlt : ((n % d : ℕ) : ℚ) < d := by exact_mod_cast Nat.mod_lt n hd
  rw [hsplit]
  generalize n / d = q
  generalize n % d = r at hlt
  unfold accuracyOfFraction
  split_ifs with hzero
  · rw [hzero]
    simp [ExtendedMantissa.ofMantissaAndAccuracy, Stands]
  · have hpos : (0 : ℚ) < r / d := by
      have hr : (0 : ℚ) < r := by exact_mod_cast Nat.pos_of_ne_zero hzero
      positivity
    have hone : (r / d : ℚ) < 1 := (div_lt_one hd').mpr hlt
    rcases lt_trichotomy (2 * r) d with hcmp | hcmp | hcmp
    · have hhalf : (r / d : ℚ) < 1 / 2 := by
        rw [div_lt_div_iff₀ hd' two_pos]
        have : (2 * r : ℚ) < d := by exact_mod_cast hcmp
        linarith
      rw [compare_lt_iff_lt.mpr hcmp]
      show (q : ℚ) < q + r / d ∧ (q + r / d : ℚ) < q + 1 / 2
      exact ⟨by linarith, by linarith⟩
    · have hhalf : (r / d : ℚ) = 1 / 2 := by
        rw [div_eq_div_iff hd'.ne' two_ne_zero]
        have : (2 * r : ℚ) = d := by exact_mod_cast hcmp
        linarith
      rw [compare_eq_iff_eq.mpr hcmp, hhalf]
      rfl
    · have hhalf : 1 / 2 < (r / d : ℚ) := by
        rw [div_lt_div_iff₀ two_pos hd']
        have : (d : ℚ) < 2 * r := by exact_mod_cast hcmp
        linarith
      rw [compare_gt_iff_gt.mpr hcmp]
      show (q + 1 / 2 : ℚ) < q + r / d ∧ (q + r / d : ℚ) < q + 1
      exact ⟨by linarith, by linarith⟩

/-- A quotient is above the power of two that the exponents of its parts give. -/
theorem quotient_lower {m m' : ℕ} (e e' : ℤ) (hm : 0 < m) (hm' : 0 < m') :
    (2 : ℚ) ^ (m.log2 + 1 + e - (m'.log2 + 1 + e') - 1) ≤ m * 2 ^ e / (m' * 2 ^ e') := by
  have hlow : ((2 ^ m.log2 : ℕ) : ℚ) ≤ m := by exact_mod_cast Nat.log2_self_le hm.ne'
  have hhigh : (m' : ℚ) ≤ (2 ^ (m'.log2 + 1) : ℕ) := by exact_mod_cast Nat.lt_log2_self.le
  have hpos : (0 : ℚ) < m' * 2 ^ e' := by
    have : (0 : ℚ) < m' := by exact_mod_cast hm'
    positivity
  push_cast at hlow hhigh
  rw [le_div_iff₀ hpos]
  calc (2 : ℚ) ^ (m.log2 + 1 + e - (m'.log2 + 1 + e') - 1) * (m' * 2 ^ e')
      ≤ 2 ^ (m.log2 + 1 + e - (m'.log2 + 1 + e') - 1) * (2 ^ (m'.log2 + 1) * 2 ^ e') := by
        gcongr
    _ = 2 ^ m.log2 * 2 ^ e := by
        rw [← zpow_natCast, ← zpow_natCast, ← two_zpow_add, ← two_zpow_add, ← two_zpow_add]
        congr 1
        push_cast
        ring
    _ ≤ m * 2 ^ e := by gcongr

theorem quotient_nearest (s : Sign) {m m' : ℕ} {e e' : ℤ} (hm : 0 < m) (hm' : 0 < m')
    (hmin : (2 : ℚ) ^ (-1022 : ℤ) ≤ m * 2 ^ e / (m' * 2 ^ e'))
    (hmax : (m * 2 ^ e / (m' * 2 ^ e') : ℚ) < 2 ^ (1023 : ℤ)) :
    Rounded (roundWithAccuracy Format.binary64 s (divCore Format.binary64 m e m' e').1
        (divCore Format.binary64 m e m' e').2.1 (divCore Format.binary64 m e m' e').2.2)
      (sign s * (m * 2 ^ e / (m' * 2 ^ e'))) := by
  have hlower := quotient_lower e e' hm hm'
  obtain ⟨l, hl⟩ : ∃ l : ℤ, l = m.log2 + 1 + e - (m'.log2 + 1 + e') := ⟨_, rfl⟩
  obtain ⟨t, ht⟩ : ∃ t : ℤ, t = min (e - e') (max (l - 53) (-1074)) := ⟨_, rfl⟩
  obtain ⟨j, hj⟩ : ∃ j : ℕ, (e - e' - t).toNat = j := ⟨_, rfl⟩
  have hcore : divCore Format.binary64 m e m' e' =
      ((m <<< j) / m', t, accuracyOfFraction ((m <<< j) % m') m') := by
    unfold divCore
    have htarget : min (e - e') (Format.binary64.targetExponent
        (totalExponent m e - totalExponent m' e')) = t := by
      rw [ht, Format.targetExponent, mantissaBits_eq, minExponent_eq, totalExponent,
        totalExponent, hl]
      rfl
    dsimp only
    rw [htarget, hj]
  rw [← hl] at hlower
  -- the quotient in the unit `t`
  have hvalue : ((m <<< j : ℕ) / m' * 2 ^ t : ℚ) = m * 2 ^ e / (m' * 2 ^ e') := by
    have hm₀ : (m' : ℚ) ≠ 0 := by exact_mod_cast hm'.ne'
    have hexp : e = t + j + e' := by omega
    rw [hexp, two_zpow_add, two_zpow_add, zpow_natCast, Nat.shiftLeft_eq]
    have := (two_zpow_pos e').ne'
    push_cast
    field_simp
  have hunit := two_zpow_pos t
  have hwidth : ∀ k : ℕ, t + k ≤ l - 1 ∨ t + k ≤ -1022 → 2 ^ k ≤ (m <<< j) / m' := by
    intro k hk
    have hle : (2 : ℚ) ^ (t + k) ≤ (m <<< j : ℕ) / m' * 2 ^ t := by
      rw [hvalue]
      rcases hk with hk | hk
      · exact (two_zpow_le.mpr hk).trans hlower
      · exact (two_zpow_le.mpr hk).trans hmin
    rw [two_zpow_add, mul_comm, zpow_natCast] at hle
    have hquot := le_of_mul_le_mul_right hle hunit
    rw [le_div_iff₀ (by exact_mod_cast hm')] at hquot
    exact (Nat.le_div_iff_mul_le hm').mpr (by exact_mod_cast hquot)
  have hpos : 0 < (m <<< j) / m' := by
    have := hwidth 0 (by omega)
    omega
  have htarget : t ≤ max (((m <<< j) / m').log2 + 1 + t - 53) (-1074) := by
    rcases le_or_gt t (-1074) with hlow | hhigh
    · omega
    · have hlog := (Nat.le_log2 hpos.ne').mpr (hwidth 52 (by omega))
      omega
  rw [← hvalue] at hmax
  rw [hcore, ← hvalue]
  exact roundWithAccuracy_nearest s (stands_quotient _ hm') hpos htarget hmax

theorem div_nearest {u u' : UnpackedFloat} {x y : ℚ} (hx : unpackedValue u = some x)
    (hy : unpackedValue u' = some y) (hne : y ≠ 0)
    (hmin : x = 0 ∨ (2 : ℚ) ^ (-1022 : ℤ) ≤ |x / y|) (hmax : |x / y| < 2 ^ (1023 : ℤ)) :
    Rounded (UnpackedFloat.div Format.binary64 u u') (x / y) := by
  cases u' with
  | infinity s' => cases hy
  | notANumber => cases hy
  | zero s' =>
      cases hy
      exact absurd rfl hne
  | finite s' m' e' hm' =>
      cases hy
      cases u with
      | infinity s => cases hx
      | notANumber => cases hx
      | zero s =>
          cases hx
          rw [zero_div]
          exact rounded_zero _
      | finite s m e hm =>
          cases hx
          have hpos : (0 : ℚ) < m * 2 ^ e / (m' * 2 ^ e') := by
            have hm₀ : (0 : ℚ) < m := by exact_mod_cast hm
            have hm₀' : (0 : ℚ) < m' := by exact_mod_cast hm'
            positivity
          have hsigns : sign s * (m * 2 ^ e) / (sign s' * (m' * 2 ^ e')) =
              sign (s / s') * (m * 2 ^ e / (m' * 2 ^ e')) := by
            rw [sign_div]
            cases s' <;> simp [sign] <;> ring
          have hx₀ : sign s * (m * 2 ^ e) ≠ 0 := by
            have hm₀ : (m : ℚ) ≠ 0 := by exact_mod_cast hm.ne'
            have hsign : sign s ≠ 0 := by cases s <;> simp [sign]
            positivity
          replace hmin := hmin.resolve_left hx₀
          rw [hsigns, abs_mul, abs_sign, one_mul, abs_of_pos hpos] at hmin hmax
          rw [hsigns]
          exact quotient_nearest _ hm hm' hmin hmax

/-! ## `Float` -/

/-- A `Float` that is a number nearest to `x`. -/
def Yields (f : Float) (x : ℚ) : Prop := ∃ r, value f = some r ∧ Nearest x r

theorem Rounded.yields {u : UnpackedFloat} {x : ℚ} (h : Rounded u x) :
    Yields (.ofModel (Float.Model.pack u)) x := by
  obtain ⟨r, hr, hnearest⟩ := h.nearest
  refine ⟨r, ?_, hnearest⟩
  show unpackedValue (UnpackedFloat.unpack Format.binary64
    (UnpackedFloat.pack Format.binary64 u)) = some r
  rw [unpack_pack h.canonical, hr]

/-- A bound that is far from overflow. -/
theorem lt_max_of_le {x : ℚ} {k : ℕ} (hx : |x| ≤ 2 ^ k) (hk : k < 1023) :
    |x| < 2 ^ (1023 : ℤ) := by
  refine lt_of_le_of_lt hx ?_
  rw [← zpow_natCast]
  exact two_zpow_lt.mpr (by omega)

section Operations

variable {f g : Float} {x y : ℚ}

theorem canonical_of_value (hx : value f = some x) : Canonical f.toModel.unpack :=
  canonical_unpack hx

theorem fits_of_value (hx : value f = some x) : Fits x :=
  fits_of_canonical (canonical_of_value hx) hx

theorem yields_add (hx : value f = some x) (hy : value g = some y)
    (hmax : |x + y| < 2 ^ (1023 : ℤ)) : Yields (f + g) (x + y) :=
  (add_nearest (canonical_of_value hx) (canonical_of_value hy) hx hy hmax).yields

theorem yields_sub (hx : value f = some x) (hy : value g = some y)
    (hmax : |x - y| < 2 ^ (1023 : ℤ)) : Yields (f - g) (x - y) :=
  (sub_nearest (canonical_of_value hx) (canonical_of_value hy) hx hy hmax).yields

theorem yields_mul (hx : value f = some x) (hy : value g = some y)
    (hmax : |x * y| < 2 ^ (1023 : ℤ)) : Yields (f * g) (x * y) :=
  (mul_nearest (canonical_of_value hx) (canonical_of_value hy) hx hy hmax).yields

theorem yields_div (hx : value f = some x) (hy : value g = some y) (hne : y ≠ 0)
    (hmin : x = 0 ∨ (2 : ℚ) ^ (-1022 : ℤ) ≤ |x / y|) (hmax : |x / y| < 2 ^ (1023 : ℤ)) :
    Yields (f / g) (x / y) :=
  (div_nearest hx hy hne hmin hmax).yields

theorem yields_ofInt (n : ℤ) (hmax : |(n : ℚ)| < 2 ^ (1023 : ℤ)) :
    Yields (.ofModel (Float.Model.ofInt n)) n := by
  have hrounded := normalize_nearest n 0 .positive (by simpa using hmax)
  rw [zpow_zero, mul_one] at hrounded
  exact hrounded.yields

/-- A comparison with zero. -/
theorem le_zero_iff (hx : value f = some x) : f ≤ 0.0 ↔ x ≤ 0 := by
  have hzero : (0.0 : Float).toModel.unpack = .zero .positive := by rfl
  show (decide (f.toModel.unpack.le (0.0 : Float).toModel.unpack = true) = true) ↔ _
  rw [hzero, decide_eq_true_eq]
  unfold value at hx
  cases hu : f.toModel.unpack with
  | infinity s =>
      rw [hu] at hx
      cases hx
  | notANumber =>
      rw [hu] at hx
      cases hx
  | zero s =>
      rw [hu] at hx
      cases hx
      exact iff_of_true rfl le_rfl
  | finite s m e hm =>
      rw [hu] at hx
      cases hx
      have hpos : (0 : ℚ) < m * 2 ^ e := by
        have : (0 : ℚ) < m := by exact_mod_cast hm
        positivity
      cases s with
      | negative => exact iff_of_true rfl (by simp [sign, hpos.le])
      | positive =>
          exact iff_of_false (by simp [UnpackedFloat.le, UnpackedFloat.compare])
            (by simp [sign, hpos])

end Operations

/-! ## Sums in any order -/

/-- An order in which values are combined two by two. -/
inductive Grouping (α : Type) : Type where
  | leaf (a : α)
  | node (left right : Grouping α)

namespace Grouping

variable {α β : Type}

def leaves : Grouping α → List α
  | leaf a => [a]
  | node left right => left.leaves ++ right.leaves

/-- Transforms the values and combines the results. -/
def reduce (op : β → β → β) (transform : α → β) : Grouping α → β
  | leaf a => transform a
  | node left right => op (left.reduce op transform) (right.reduce op transform)

theorem leaves_ne_nil (g : Grouping α) : g.leaves ≠ [] := by
  induction g with
  | leaf a => exact List.cons_ne_nil _ _
  | node left right ih _ => exact List.append_ne_nil_of_left_ne_nil ih _

/-- From left to right, beginning with a first value. -/
def inTurn (first : α) (rest : List α) : Grouping α :=
  rest.foldl (fun g a => node g (leaf a)) (leaf first)

theorem leaves_foldl (rest : List α) (g : Grouping α) :
    (rest.foldl (fun g a => node g (leaf a)) g).leaves = g.leaves ++ rest := by
  induction rest generalizing g with
  | nil => simp
  | cons a rest ih =>
      rw [List.foldl_cons, ih, leaves, leaves, List.append_assoc, List.singleton_append]

theorem leaves_inTurn (first : α) (rest : List α) :
    (inTurn first rest).leaves = first :: rest := leaves_foldl rest (leaf first)

variable {op : β → β → β} {transform : α → β}

/-- What respects the operation reduces to a sum, and that is the same in every order. -/
theorem reduce_eq_sum {M : Type} [AddCommMonoid M] {f : β → M}
    (hop : ∀ a b, f (op a b) = f a + f b) (g : Grouping α) :
    f (g.reduce op transform) = (g.leaves.map fun a => f (transform a)).sum := by
  induction g with
  | leaf a => simp [reduce, leaves]
  | node left right ihl ihr =>
      rw [reduce, hop, ihl, ihr, leaves, List.map_append, List.sum_append]

/-- **A sum of counts in any order.** Every summand passes through fewer additions than
there are summands. -/
theorem reduce_within {f : β → Float} (hop : ∀ a b, f (op a b) = f a + f b) {k : ℕ}
    {ideal : α → ℚ} (g : Grouping α)
    (hleaf : ∀ a ∈ g.leaves,
      ∃ r, value (f (transform a)) = some r ∧ Whole r ∧ Within k (ideal a) r)
    (hideal : ∀ a ∈ g.leaves, 0 ≤ ideal a) (hsum : (g.leaves.map ideal).sum ≤ 2 ^ 128)
    (hlength : k + g.leaves.length ≤ 2 ^ 52) :
    ∃ r, value (f (g.reduce op transform)) = some r ∧ Whole r ∧
      Within (k + g.leaves.length - 1) (g.leaves.map ideal).sum r := by
  induction g with
  | leaf a =>
      obtain ⟨r, hr, hwhole, hwithin⟩ := hleaf a List.mem_cons_self
      exact ⟨r, hr, hwhole, by simpa [leaves] using hwithin⟩
  | node left right ihl ihr =>
      have hposl := List.length_pos_iff.mpr left.leaves_ne_nil
      have hposr := List.length_pos_iff.mpr right.leaves_ne_nil
      rw [leaves] at hleaf hideal hsum hlength ⊢
      rw [List.map_append, List.sum_append] at hsum ⊢
      rw [List.length_append] at hlength ⊢
      obtain ⟨hleafl, hleafr⟩ := List.forall_mem_append.mp hleaf
      obtain ⟨hideall, hidealr⟩ := List.forall_mem_append.mp hideal
      have hl₀ : 0 ≤ (left.leaves.map ideal).sum :=
        List.sum_nonneg (List.forall_mem_map.mpr hideall)
      have hr₀ : 0 ≤ (right.leaves.map ideal).sum :=
        List.sum_nonneg (List.forall_mem_map.mpr hidealr)
      obtain ⟨x, hx, hxwhole, hxwithin⟩ := ihl hleafl hideall (by linarith) (by omega)
      obtain ⟨y, hy, hywhole, hywithin⟩ := ihr hleafr hidealr (by linarith) (by omega)
      have hboth := (hxwithin.mono hl₀ (k := k + (left.leaves.length + right.leaves.length) - 2)
        (by omega)).add (hywithin.mono hr₀ (by omega))
      have hwhole := hxwhole.add hywhole
      have hbound : |x + y| ≤ 2 ^ 129 := by
        have hle := hboth.le_double (by linarith) (by omega)
        rw [abs_of_nonneg hwhole.nonneg]
        linarith
      obtain ⟨r, hr, hnear⟩ := yields_add hx hy (lt_max_of_le hbound (by norm_num))
      have hstep := hboth.trans (hnear.within_of_whole hwhole)
      rw [show k + (left.leaves.length + right.leaves.length) - 2 + 1 =
        k + (left.leaves.length + right.leaves.length) - 1 by omega] at hstep
      refine ⟨r, ?_, hnear.whole hwhole, hstep⟩
      rw [reduce, hop]
      exact hr

end Grouping

end Exchange.Framework.Binary64
