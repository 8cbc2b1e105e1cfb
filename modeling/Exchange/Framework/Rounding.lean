import Mathlib

/-!
# Rounding to a number format

The numbers of binary64 are the multiples of powers of two with 53 bits of significand.
A result that is not one of them is rounded to one that is nearest. That alone, whichever
way ties go, gives what proofs about floating-point programs use: a number of the format
bounds the rounded value as it bounds the exact one, numbers of the format are not changed,
and the error is small against the value.

There is no largest number here. Where results overflow is the concern of whoever rounds.
-/

namespace Exchange.Framework

/-- A number of the format, without a bound on its magnitude. -/
def Fits (x : ℚ) : Prop := ∃ m e : ℤ, |m| ≤ 2 ^ 53 ∧ -1074 ≤ e ∧ x = m * 2 ^ e

/-- No number of the format is nearer to `x` than `r` is. -/
structure Nearest (x r : ℚ) : Prop where
  fits : Fits r
  closest : ∀ y, Fits y → |r - x| ≤ |y - x|

theorem two_zpow_pos (e : ℤ) : (0 : ℚ) < 2 ^ e := zpow_pos two_pos e

theorem two_zpow_add (e f : ℤ) : (2 : ℚ) ^ (e + f) = 2 ^ e * 2 ^ f := zpow_add₀ two_ne_zero e f

theorem two_zpow_le {e f : ℤ} : (2 : ℚ) ^ e ≤ 2 ^ f ↔ e ≤ f :=
  zpow_le_zpow_iff_right₀ one_lt_two

theorem two_zpow_lt {e f : ℤ} : (2 : ℚ) ^ e < 2 ^ f ↔ e < f :=
  zpow_lt_zpow_iff_right₀ one_lt_two

/-! ## Numbers of the format -/

theorem Fits.neg {x : ℚ} (h : Fits x) : Fits (-x) := by
  obtain ⟨m, e, hm, he, rfl⟩ := h
  exact ⟨-m, e, by rwa [abs_neg], he, by push_cast; ring⟩

theorem fits_intCast {n : ℤ} (h : |n| ≤ 2 ^ 53) : Fits n :=
  ⟨n, 0, h, by norm_num, by simp⟩

theorem fits_half {n : ℤ} (h : |n| ≤ 2 ^ 53) : Fits (n / 2) :=
  ⟨n, -1, h, by norm_num, by rw [zpow_neg_one, div_eq_mul_inv]⟩

theorem fits_zero : Fits 0 := by
  exact_mod_cast fits_intCast (n := 0) (by norm_num)

theorem fits_two_zpow {e : ℤ} (h : -1074 ≤ e) : Fits (2 ^ e) :=
  ⟨1, e, by norm_num, h, by simp⟩

theorem fits_two_pow (k : ℕ) : Fits (2 ^ k) := by
  rw [← zpow_natCast]
  exact fits_two_zpow (by omega)

theorem fits_one : Fits 1 := fits_two_pow 0

theorem Fits.double {x : ℚ} (h : Fits x) : Fits (2 * x) := by
  obtain ⟨m, e, hm, he, rfl⟩ := h
  exact ⟨m, e + 1, hm, by omega, by rw [two_zpow_add]; ring⟩

/-- A number with a larger unit is a multiple of a smaller one. -/
theorem exists_multiple {m e t : ℤ} (h : t ≤ e) : ∃ n : ℤ, (m * 2 ^ e : ℚ) = n * 2 ^ t := by
  obtain ⟨k, rfl⟩ := Int.le.dest h
  refine ⟨m * 2 ^ k, ?_⟩
  rw [two_zpow_add, zpow_natCast]
  push_cast
  ring

/-! ## What nearness gives -/

section Nearest

variable {x r y : ℚ}

theorem Nearest.le (h : Nearest x r) (hy : Fits y) (hxy : x ≤ y) : r ≤ y := by
  by_contra hlt
  have hclosest := h.closest y hy
  rw [abs_of_nonneg (by linarith), abs_of_nonneg (by linarith)] at hclosest
  linarith

theorem Nearest.ge (h : Nearest x r) (hy : Fits y) (hyx : y ≤ x) : y ≤ r := by
  by_contra hlt
  have hclosest := h.closest y hy
  rw [abs_of_nonpos (by linarith), abs_of_nonpos (by linarith)] at hclosest
  linarith

theorem Nearest.eq (h : Nearest x r) (hx : Fits x) : r = x :=
  le_antisymm (h.le hx le_rfl) (h.ge hx le_rfl)

/-- What is rounded keeps its order. -/
theorem Nearest.mono {x' r' : ℚ} (h : Nearest x r) (h' : Nearest x' r') (hlt : x < x') :
    r ≤ r' := by
  by_contra hgt
  have hclosest := sq_le_sq.mpr (h.closest r' h'.fits)
  have hclosest' := sq_le_sq.mpr (h'.closest r h.fits)
  nlinarith [mul_pos (sub_pos.mpr (not_le.mp hgt)) (sub_pos.mpr hlt)]

theorem Nearest.neg (h : Nearest x r) : Nearest (-x) (-r) := by
  refine ⟨h.fits.neg, fun y hy => ?_⟩
  have hclosest := h.closest (-y) hy.neg
  rw [← abs_neg]
  calc |-(-r - -x)| = |r - x| := by ring_nf
    _ ≤ |-y - x| := hclosest
    _ = |y - -x| := by rw [← abs_neg]; ring_nf

theorem Nearest.abs_le_pow (h : Nearest x r) {k : ℕ} (hx : |x| ≤ 2 ^ k) : |r| ≤ 2 ^ k := by
  obtain ⟨hlow, hhigh⟩ := abs_le.mp hx
  exact abs_le.mpr ⟨h.ge (fits_two_pow k).neg hlow, h.le (fits_two_pow k) hhigh⟩

/-- In the range of full precision some number of the format is within half a unit in the
last place. -/
theorem exists_fits_near (hx : (2 : ℚ) ^ (-1022 : ℤ) ≤ |x|) :
    ∃ y, Fits y ∧ |y - x| ≤ 2 ^ (-53 : ℤ) * |x| := by
  have hpos : 0 < |x| := lt_of_lt_of_le (two_zpow_pos _) hx
  -- `e` is the exponent of the leading bit
  obtain ⟨e, hlow, hhigh⟩ : ∃ e : ℤ, (2 : ℚ) ^ e ≤ |x| ∧ |x| < 2 ^ (e + 1) :=
    ⟨Int.log 2 |x|, by exact_mod_cast Int.zpow_log_le_self one_lt_two hpos,
      by exact_mod_cast Int.lt_zpow_succ_log_self one_lt_two |x|⟩
  have he : -1022 ≤ e := by
    have hlt := two_zpow_lt.mp (hx.trans_lt hhigh)
    omega
  have hunit : (0 : ℚ) < 2 ^ (e - 52) := two_zpow_pos _
  have hnear : |x / 2 ^ (e - 52) - round (x / 2 ^ (e - 52))| ≤ 1 / 2 := abs_sub_round _
  refine ⟨round (x / 2 ^ (e - 52)) * 2 ^ (e - 52), ⟨_, _, ?_, by omega, rfl⟩, ?_⟩
  · have hquot : |x / 2 ^ (e - 52)| < 2 ^ 53 := by
      rw [abs_div, abs_of_pos hunit, div_lt_iff₀ hunit]
      calc |x| < 2 ^ (e + 1) := hhigh
        _ = 2 ^ 53 * 2 ^ (e - 52) := by
            rw [← zpow_natCast, ← two_zpow_add]
            congr 1
            push_cast
            ring
    have hround : |(round (x / 2 ^ (e - 52)) : ℚ)| < 2 ^ 53 + 1 := by
      rw [abs_le] at hnear
      rw [abs_lt] at hquot ⊢
      constructor <;> linarith
    have hint : |round (x / 2 ^ (e - 52))| < 2 ^ 53 + 1 := by exact_mod_cast hround
    omega
  · have hscale : round (x / 2 ^ (e - 52)) * 2 ^ (e - 52) - x =
        -((x / 2 ^ (e - 52) - round (x / 2 ^ (e - 52))) * 2 ^ (e - 52)) := by
      field_simp
      ring
    rw [hscale, abs_neg, abs_mul, abs_of_pos hunit]
    calc |x / 2 ^ (e - 52) - round (x / 2 ^ (e - 52))| * 2 ^ (e - 52)
        ≤ 1 / 2 * 2 ^ (e - 52) := by gcongr
      _ = 2 ^ (-53 : ℤ) * 2 ^ e := by
          rw [← two_zpow_add, show e - 52 = (-53 + e) + 1 by ring, two_zpow_add (-53 + e)]
          ring
      _ ≤ 2 ^ (-53 : ℤ) * |x| := by gcongr

/-- **The relative error of a rounding**, in the range of full precision. -/
theorem Nearest.error (h : Nearest x r) (hx : x = 0 ∨ (2 : ℚ) ^ (-1022 : ℤ) ≤ |x|) :
    |r - x| ≤ 2 ^ (-53 : ℤ) * |x| := by
  rcases hx with rfl | hx
  · rw [h.eq fits_zero]
    simp
  · obtain ⟨y, hy, hnear⟩ := exists_fits_near hx
    exact (h.closest y hy).trans hnear

/-- No integer is nearer than one that is within a half. -/
theorem abs_sub_le_of_half {w : ℚ} {r : ℤ} (h : |(r : ℚ) - w| ≤ 1 / 2) (n : ℤ) :
    |(r : ℚ) - w| ≤ |(n : ℚ) - w| := by
  rcases eq_or_ne n r with rfl | hne
  · exact le_rfl
  · have hone : (1 : ℚ) ≤ |(n : ℚ) - r| := by
      exact_mod_cast Int.one_le_abs (sub_ne_zero.mpr hne)
    have htriangle : |(n : ℚ) - r| ≤ |(n : ℚ) - w| + |(r : ℚ) - w| := by
      rw [abs_sub_comm (r : ℚ) w]
      exact abs_sub_le _ _ _
    linarith

/-- **Rounding a significand rounds the number**, if the significand has its full width or
the unit is the smallest there is. -/
theorem nearest_of_half {w : ℚ} {r t : ℤ} (hr : |(r : ℚ) - w| ≤ 1 / 2) (hfits : |r| ≤ 2 ^ 53)
    (ht : -1074 ≤ t) (hfull : t = -1074 ∨ 2 ^ 52 ≤ w) : Nearest (w * 2 ^ t) (r * 2 ^ t) := by
  have hunit := two_zpow_pos t
  have hint : ∀ n : ℤ, |r * 2 ^ t - w * 2 ^ t| ≤ |n * 2 ^ t - w * 2 ^ t| := by
    intro n
    rw [← sub_mul, ← sub_mul, abs_mul, abs_mul]
    exact mul_le_mul_of_nonneg_right (abs_sub_le_of_half hr n) (abs_nonneg _)
  refine ⟨⟨r, t, hfits, ht, rfl⟩, ?_⟩
  rintro y ⟨m, e, hm, he, rfl⟩
  rcases le_or_gt t e with hte | hte
  · obtain ⟨n, hn⟩ := exists_multiple (m := m) hte
    rw [hn]
    exact hint n
  · -- a number with a smaller unit is below the binade of `w`
    have hw : (2 : ℚ) ^ 52 ≤ w := hfull.resolve_left (by omega)
    have hsmall : |(m * 2 ^ e : ℚ)| ≤ 2 ^ 52 * 2 ^ t := by
      rw [abs_mul, abs_of_pos (two_zpow_pos e)]
      calc (|(m : ℚ)| * 2 ^ e : ℚ) ≤ 2 ^ 53 * 2 ^ (t - 1) := by
            have hm' : |(m : ℚ)| ≤ 2 ^ 53 := by exact_mod_cast hm
            have he' : (2 : ℚ) ^ e ≤ 2 ^ (t - 1) := two_zpow_le.mpr (by omega)
            gcongr
        _ = 2 ^ 52 * 2 ^ t := by
            rw [sub_eq_add_neg, two_zpow_add]
            norm_num
            ring
    have hbase : (2 : ℚ) ^ 52 * 2 ^ t ≤ w * 2 ^ t := by gcongr
    calc |r * 2 ^ t - w * 2 ^ t| ≤ |((2 ^ 52 : ℤ) : ℚ) * 2 ^ t - w * 2 ^ t| := hint _
      _ = w * 2 ^ t - 2 ^ 52 * 2 ^ t := by
          push_cast
          rw [abs_of_nonpos (by linarith)]
          ring
      _ ≤ w * 2 ^ t - m * 2 ^ e := by linarith [le_abs_self (m * 2 ^ e : ℚ)]
      _ ≤ |m * 2 ^ e - w * 2 ^ t| := by
          rw [abs_sub_comm]
          exact le_abs_self _

end Nearest

/-- A number nearest to an integer is one. -/
theorem Nearest.exists_int {n : ℤ} {r : ℚ} (h : Nearest n r) : ∃ k : ℤ, r = k := by
  rcases le_or_gt |n| (2 ^ 53) with hsmall | hlarge
  · exact ⟨n, h.eq (fits_intCast hsmall)⟩
  · have hbig : ((2 ^ 53 : ℤ) : ℚ) ≤ |r| := by
      have hfits : Fits ((2 ^ 53 : ℤ) : ℚ) := fits_intCast (by norm_num)
      rcases lt_abs.mp hlarge with hpos | hneg
      · exact (h.ge hfits (Int.cast_le.mpr hpos.le)).trans (le_abs_self r)
      · have hle : ((2 ^ 53 : ℤ) : ℚ) ≤ -n := by exact_mod_cast Int.cast_le.mpr hneg.le
        exact (h.neg.ge hfits hle).trans (neg_le_abs r)
    obtain ⟨m, e, hm, -, rfl⟩ := h.fits
    have he : 0 ≤ e := by
      by_contra hlt
      have hunit : (2 : ℚ) ^ e ≤ 2 ^ (-1 : ℤ) := two_zpow_le.mpr (by omega)
      have hm' : |(m : ℚ)| ≤ 2 ^ 53 := by exact_mod_cast hm
      rw [abs_mul, abs_of_pos (two_zpow_pos e)] at hbig
      have hprod : |(m : ℚ)| * 2 ^ e ≤ 2 ^ 53 * 2 ^ (-1 : ℤ) := by gcongr
      norm_num at hprod hbig
      linarith
    obtain ⟨k, hk⟩ := exists_multiple (m := m) he
    exact ⟨k, by rw [hk]; simp⟩

/-! ## Errors that add up -/

/-- The unit roundoff. -/
def roundoff : ℚ := 2 ^ (-53 : ℤ)

/-- `r` came from `x` by as many roundings as `k`, at most. -/
structure Within (k : ℕ) (x r : ℚ) : Prop where
  low : (1 - roundoff) ^ k * x ≤ r
  high : r ≤ (1 + roundoff) ^ k * x

theorem roundoff_pos : 0 < roundoff := two_zpow_pos _

theorem roundoff_lt : roundoff < 1 / 2 := by
  unfold roundoff
  norm_num

theorem Within.refl (x : ℚ) : Within 0 x x := ⟨by simp, by simp⟩

section Within

variable {j k : ℕ} {x x' r r' : ℚ}

theorem one_sub_roundoff_pos : 0 < 1 - roundoff := by
  have := roundoff_lt
  linarith

theorem Within.nonneg (h : Within k x r) (hx : 0 ≤ x) : 0 ≤ r := by
  have := one_sub_roundoff_pos
  exact le_trans (by positivity) h.low

theorem Within.mono (h : Within j x r) (hx : 0 ≤ x) (hjk : j ≤ k) : Within k x r := by
  have hpos := one_sub_roundoff_pos
  have hu := roundoff_pos
  refine ⟨le_trans ?_ h.low, h.high.trans ?_⟩
  · exact mul_le_mul_of_nonneg_right (pow_le_pow_of_le_one hpos.le (by linarith) hjk) hx
  · exact mul_le_mul_of_nonneg_right (pow_le_pow_right₀ (by linarith) hjk) hx

theorem Within.trans (h : Within j x x') (h' : Within k x' r) : Within (j + k) x r := by
  have hpos := one_sub_roundoff_pos
  have hu := roundoff_pos
  constructor
  · calc (1 - roundoff) ^ (j + k) * x = (1 - roundoff) ^ k * ((1 - roundoff) ^ j * x) := by ring
      _ ≤ (1 - roundoff) ^ k * x' := by gcongr; exact h.low
      _ ≤ r := h'.low
  · calc r ≤ (1 + roundoff) ^ k * x' := h'.high
      _ ≤ (1 + roundoff) ^ k * ((1 + roundoff) ^ j * x) := by gcongr; exact h.high
      _ = (1 + roundoff) ^ (j + k) * x := by ring

theorem Within.add (h : Within k x r) (h' : Within k x' r') : Within k (x + x') (r + r') :=
  ⟨by rw [mul_add]; exact add_le_add h.low h'.low,
    by rw [mul_add]; exact add_le_add h.high h'.high⟩

theorem Within.mul (h : Within j x r) (h' : Within k x' r') (hx : 0 ≤ x) (hx' : 0 ≤ x') :
    Within (j + k) (x * x') (r * r') := by
  have hpos := one_sub_roundoff_pos
  have hu := roundoff_pos
  constructor
  · calc (1 - roundoff) ^ (j + k) * (x * x')
        = ((1 - roundoff) ^ j * x) * ((1 - roundoff) ^ k * x') := by ring
      _ ≤ r * r' := mul_le_mul h.low h'.low (by positivity) (h.nonneg hx)
  · calc r * r' ≤ ((1 + roundoff) ^ j * x) * ((1 + roundoff) ^ k * x') :=
          mul_le_mul h.high h'.high (h'.nonneg hx') (by positivity)
      _ = (1 + roundoff) ^ (j + k) * (x * x') := by ring

/-- A divisor counts twice. -/
theorem Within.inv (h : Within k x r) (hx : 0 < x) : Within (2 * k) x⁻¹ r⁻¹ := by
  have hpos := one_sub_roundoff_pos
  have hu := roundoff_pos
  have hr : 0 < r := lt_of_lt_of_le (by positivity) h.low
  have hless : (1 - roundoff) ^ 2 * (1 + roundoff) ≤ 1 := by nlinarith [sq_nonneg roundoff]
  have hmore : 1 ≤ (1 + roundoff) ^ 2 * (1 - roundoff) := by
    nlinarith [roundoff_lt, mul_pos hu hu, mul_pos (mul_pos hu hu) hu]
  constructor
  · rw [inv_eq_one_div r, le_div_iff₀ hr]
    calc (1 - roundoff) ^ (2 * k) * x⁻¹ * r
        ≤ (1 - roundoff) ^ (2 * k) * x⁻¹ * ((1 + roundoff) ^ k * x) := by gcongr; exact h.high
      _ = ((1 - roundoff) ^ 2 * (1 + roundoff)) ^ k := by
          rw [mul_pow, ← pow_mul]
          field_simp
      _ ≤ 1 := pow_le_one₀ (by positivity) hless
  · rw [inv_eq_one_div r, div_le_iff₀ hr]
    calc 1 ≤ ((1 + roundoff) ^ 2 * (1 - roundoff)) ^ k := one_le_pow₀ hmore
      _ = (1 + roundoff) ^ (2 * k) * x⁻¹ * ((1 - roundoff) ^ k * x) := by
          rw [mul_pow, ← pow_mul]
          field_simp
      _ ≤ (1 + roundoff) ^ (2 * k) * x⁻¹ * r := by gcongr; exact h.low

theorem Within.div (h : Within j x r) (h' : Within k x' r') (hx : 0 ≤ x) (hx' : 0 < x') :
    Within (j + 2 * k) (x / x') (r / r') := by
  rw [div_eq_mul_inv, div_eq_mul_inv]
  exact h.mul (h'.inv hx') hx (by positivity)

/-- **A rounding is one rounding**, in the range of full precision. -/
theorem Nearest.within (h : Nearest x r) (hx : x = 0 ∨ (2 : ℚ) ^ (-1022 : ℤ) ≤ x) :
    Within 1 x r := by
  have hnonneg : 0 ≤ x := by
    rcases hx with rfl | hx
    · exact le_rfl
    · exact (two_zpow_pos _).le.trans hx
  have herror := h.error (hx.imp_right fun hx => by rwa [abs_of_nonneg hnonneg])
  rw [abs_of_nonneg hnonneg, abs_le] at herror
  constructor <;> rw [pow_one, roundoff] <;> linarith

/-! Sums and products of counts do not underflow: they are zero, or one at least. -/

/-- Zero, or one at least. -/
def Whole (x : ℚ) : Prop := x = 0 ∨ 1 ≤ x

theorem Whole.nonneg (h : Whole x) : 0 ≤ x := by
  rcases h with rfl | h <;> linarith

theorem Whole.one_le (h : Whole x) (hpos : 0 < x) : 1 ≤ x := h.resolve_left hpos.ne'

theorem Whole.add (h : Whole x) (h' : Whole x') : Whole (x + x') := by
  have hnonneg := h.nonneg
  have hnonneg' := h'.nonneg
  rcases h with rfl | h
  · rwa [zero_add]
  · exact Or.inr (by linarith)

theorem Whole.mul (h : Whole x) (h' : Whole x') : Whole (x * x') := by
  rcases h with rfl | h
  · exact Or.inl (zero_mul _)
  · rcases h' with rfl | h'
    · exact Or.inl (mul_zero _)
    · exact Or.inr (one_le_mul_of_one_le_of_one_le h h')

theorem whole_natCast (n : ℕ) : Whole n := by
  rcases Nat.eq_zero_or_pos n with rfl | hpos
  · exact Or.inl Nat.cast_zero
  · exact Or.inr (by exact_mod_cast hpos)

theorem Nearest.whole (h : Nearest x r) (hx : Whole x) : Whole r := by
  rcases hx with rfl | hx
  · exact Or.inl (h.eq fits_zero)
  · exact Or.inr (h.ge fits_one hx)

theorem Nearest.within_of_whole (h : Nearest x r) (hx : Whole x) : Within 1 x r := by
  refine h.within (hx.imp_right fun h => le_trans ?_ h)
  rw [← zpow_zero (2 : ℚ)]
  exact two_zpow_le.mpr (by norm_num)

/-- As long as there are not too many, roundings add up. -/
theorem Within.linear (h : Within k x r) (hx : 0 ≤ x) (hk : k ≤ 2 ^ 52) :
    |r - x| ≤ k * 2 ^ (-52 : ℤ) * x := by
  have hu := roundoff_pos
  have hpos := one_sub_roundoff_pos
  have hku : k * roundoff ≤ 1 / 2 := by
    have hk' : (k : ℚ) ≤ 2 ^ 52 := by exact_mod_cast hk
    calc k * roundoff ≤ 2 ^ 52 * roundoff := by gcongr
      _ = 1 / 2 := by norm_num [roundoff]
  have htwice : (2 : ℚ) ^ (-52 : ℤ) = 2 * roundoff := by norm_num [roundoff]
  have hlow : 1 - k * roundoff ≤ (1 - roundoff) ^ k := by
    have hbernoulli := one_add_mul_le_pow (a := -roundoff) (by linarith [roundoff_lt]) k
    rw [← sub_eq_add_neg] at hbernoulli
    linarith
  have hhigh : (1 + roundoff) ^ k ≤ 1 + 2 * (k * roundoff) := by
    have hprod : (1 + roundoff) ^ k * (1 - k * roundoff) ≤ 1 := by
      calc (1 + roundoff) ^ k * (1 - k * roundoff) ≤ (1 + roundoff) ^ k * (1 - roundoff) ^ k := by
            gcongr
        _ = (1 - roundoff ^ 2) ^ k := by rw [← mul_pow]; ring
        _ ≤ 1 := pow_le_one₀ (by nlinarith [roundoff_lt]) (by nlinarith)
    have hk0 : 0 ≤ k * roundoff := by positivity
    nlinarith
  rw [htwice, abs_le]
  constructor
  · nlinarith [h.low, mul_le_mul_of_nonneg_right hlow hx,
      mul_nonneg (mul_nonneg k.cast_nonneg hu.le) hx]
  · nlinarith [h.high, mul_le_mul_of_nonneg_right hhigh hx]

theorem Within.le_double (h : Within k x r) (hx : 0 ≤ x) (hk : k ≤ 2 ^ 52) : r ≤ 2 * x := by
  have hlinear := (abs_le.mp (h.linear hx hk)).2
  have hone : k * (2 : ℚ) ^ (-52 : ℤ) ≤ 1 := by
    have hk' : (k : ℚ) ≤ 2 ^ 52 := by exact_mod_cast hk
    calc k * (2 : ℚ) ^ (-52 : ℤ) ≤ 2 ^ 52 * 2 ^ (-52 : ℤ) := by gcongr
      _ = 1 := by norm_num
  nlinarith

end Within

end Exchange.Framework
