import Mathlib
import Exchange.Analytics.Depth
import Exchange.Framework.Binary64

/-!
# Metrics of the touch

The middle of the best prices, the middle weighted with the sizes, and the imbalance of
the sizes are `double`s. Prices and sizes are 64-bit integers and do not all fit the 53
bits of a significand, so conversions round, and so does every operation after them. What
the metrics promise is held here against the exact numbers, over every book a run reaches:
where they are defined, within which bounds they stay, and how far off they can be.
-/

namespace Exchange

open Framework Framework.Binary64

/-- `static_cast<double>` of a price. -/
def Price.toDouble (price : Price) : Float := .ofModel (.ofInt64 price)

/-- `static_cast<double>` of a quantity. -/
def Quantity.toDouble (quantity : Quantity) : Float := .ofModel (.ofUInt64 quantity)

namespace Analytics

/-- The touch on both sides. -/
structure Touch where
  bid : Price
  ask : Price
  bidQty : Float
  askQty : Float

def touch (book : Book) : Option Touch :=
  match book.bestBid, book.bestAsk with
  | some bid, some ask =>
      some { bid, ask, bidQty := (book.bids.qtyAt bid).toDouble
             askQty := (book.asks.qtyAt ask).toDouble }
  | _, _ => none

def midPrice (book : Book) : Option Float :=
  (touch book).map fun quote => (quote.bid.toDouble + quote.ask.toDouble) / 2.0

def microPrice (book : Book) : Option Float :=
  match touch book with
  | none => none
  | some quote =>
      let totalQty := quote.bidQty + quote.askQty
      if totalQty ≤ 0.0 then none
      else some ((quote.ask.toDouble * quote.bidQty + quote.bid.toDouble * quote.askQty) /
        totalQty)

def imbalance (book : Book) : Option Float :=
  match touch book with
  | none => none
  | some quote =>
      let totalQty := quote.bidQty + quote.askQty
      if totalQty ≤ 0.0 then none
      else some ((quote.bidQty - quote.askQty) / totalQty)

/-- The metric is defined, and this is its value. -/
def Shows (metric : Option Float) (v : ℚ) : Prop := ∃ f, metric = some f ∧ value f = some v

/-! ## Conversions -/

theorem abs_price_le (price : Price) : |(price.toInt : ℚ)| ≤ 2 ^ 63 := by
  have hlow : (-2 ^ 63 : ℚ) ≤ price.toInt := by exact_mod_cast price.le_toInt
  have hhigh : (price.toInt : ℚ) < 2 ^ 63 := by exact_mod_cast price.toInt_lt
  exact abs_le.mpr ⟨hlow, hhigh.le⟩

theorem abs_quantity_le (quantity : Quantity) : |(quantity.toNat : ℚ)| ≤ 2 ^ 64 := by
  have hhigh : (quantity.toNat : ℚ) < 2 ^ 64 := by exact_mod_cast quantity.toNat_lt
  rw [abs_of_nonneg (by positivity)]
  exact hhigh.le

/-- A price as a `double`. -/
theorem price_double (price : Price) :
    ∃ p, value price.toDouble = some p ∧ Nearest price.toInt p ∧ |p| ≤ 2 ^ 63 ∧
      ∃ n : ℤ, p = n := by
  obtain ⟨p, hp, hnear⟩ : Yields price.toDouble price.toInt :=
    yields_ofInt price.toInt (lt_max_of_le (abs_price_le price) (by norm_num))
  exact ⟨p, hp, hnear, hnear.abs_le_pow (abs_price_le price), hnear.exists_int⟩

/-- A quantity as a `double`. -/
theorem quantity_double (quantity : Quantity) :
    ∃ q, value quantity.toDouble = some q ∧ Nearest quantity.toNat q ∧ Whole q ∧
      q ≤ 2 ^ 64 ∧ ∃ n : ℤ, q = n := by
  have hsize := abs_quantity_le quantity
  have hmax := lt_max_of_le hsize (by norm_num)
  rw [← Int.cast_natCast] at hmax
  obtain ⟨q, hq, hnear⟩ : Yields quantity.toDouble (quantity.toNat : ℤ) := yields_ofInt _ hmax
  have hint := hnear.exists_int
  rw [Int.cast_natCast] at hnear
  exact ⟨q, hq, hnear, hnear.whole (whole_natCast _),
    (le_abs_self q).trans (hnear.abs_le_pow hsize), hint⟩

theorem one_le_abs_of_int {x : ℚ} (hint : ∃ n : ℤ, x = n) (hx : x ≠ 0) : 1 ≤ |x| := by
  obtain ⟨n, rfl⟩ := hint
  exact_mod_cast Int.one_le_abs (by exact_mod_cast hx)

/-- One or more, divided by what is not very large, is a number of full precision. -/
theorem quotient_normal {x y : ℚ} (hx : 1 ≤ |x|) (hy : 0 < y) (hsize : y ≤ 2 ^ 128) :
    (2 : ℚ) ^ (-1022 : ℤ) ≤ |x / y| := by
  rw [abs_div, abs_of_pos hy, le_div_iff₀ hy]
  calc (2 : ℚ) ^ (-1022 : ℤ) * y ≤ 2 ^ (-128 : ℤ) * 2 ^ 128 := by
        have hle : (2 : ℚ) ^ (-1022 : ℤ) ≤ 2 ^ (-128 : ℤ) := two_zpow_le.mpr (by norm_num)
        gcongr
    _ = 1 := by norm_num
    _ ≤ |x| := hx

/-! ## The middle of two prices -/

theorem value_two : value 2.0 = some 2 := by
  have hunpack : (2.0 : Float).toModel.unpack = .finite .positive (2 ^ 52) (-51) (by decide) := by
    rfl
  rw [value, hunpack, unpackedValue, sign]
  norm_num

theorem middle_bounded {f g : Float} {b a : ℚ} (hf : value f = some b) (hg : value g = some a)
    (hle : b ≤ a) (hb : |b| ≤ 2 ^ 63) (ha : |a| ≤ 2 ^ 63) (hbint : ∃ n : ℤ, b = n)
    (haint : ∃ n : ℤ, a = n) :
    ∃ v, value ((f + g) / 2.0) = some v ∧ b ≤ v ∧ v ≤ a ∧
      (|b| ≤ 2 ^ 52 → |a| ≤ 2 ^ 52 → v = (b + a) / 2) := by
  have hsum : |b + a| ≤ 2 ^ 64 := (abs_add_le b a).trans (by linarith)
  have hint : ∃ n : ℤ, b + a = n := by
    obtain ⟨n, rfl⟩ := hbint
    obtain ⟨k, rfl⟩ := haint
    exact ⟨n + k, by push_cast; rfl⟩
  obtain ⟨sum, hvalue, hnear⟩ := yields_add hf hg (lt_max_of_le hsum (by norm_num))
  have hlow : 2 * b ≤ sum := hnear.ge (fits_of_value hf).double (by linarith)
  have hhigh : sum ≤ 2 * a := hnear.le (fits_of_value hg).double (by linarith)
  have hhalf : |sum / 2| ≤ 2 ^ 64 := by
    have hsize := hnear.abs_le_pow hsum
    rw [abs_div, abs_of_pos (two_pos : (0 : ℚ) < 2)]
    linarith [abs_nonneg sum]
  have hsumint : ∃ n : ℤ, sum = n := by
    obtain ⟨n, hn⟩ := hint
    rw [hn] at hnear
    exact hnear.exists_int
  have hnormal : sum = 0 ∨ (2 : ℚ) ^ (-1022 : ℤ) ≤ |sum / 2| :=
    or_iff_not_imp_left.mpr fun hne =>
      quotient_normal (one_le_abs_of_int hsumint hne) two_pos (by norm_num)
  obtain ⟨v, hv, hmid⟩ := yields_div hvalue value_two two_ne_zero hnormal
    (lt_max_of_le hhalf (by norm_num))
  refine ⟨v, hv, hmid.ge (fits_of_value hf) (by linarith),
    hmid.le (fits_of_value hg) (by linarith), fun hb' ha' => ?_⟩
  -- neither the sum nor its half needs more than 53 bits
  obtain ⟨n, hn⟩ := hint
  have hn53 : |n| ≤ 2 ^ 53 := by
    have hcast : |(n : ℚ)| ≤ 2 ^ 53 := by
      rw [← hn]
      exact (abs_add_le b a).trans (by linarith)
    exact_mod_cast hcast
  have hexact : sum = n := by
    rw [hn] at hnear
    exact hnear.eq (fits_intCast hn53)
  rw [hexact] at hmid
  rw [hmid.eq (fits_half hn53), hn]

/-! ## The imbalance of two sizes -/

section Sizes

variable {f g : Float} {bq aq : ℚ}

theorem total_bounded (hf : value f = some bq) (hg : value g = some aq) (hb : 0 ≤ bq)
    (ha : 0 ≤ aq) (hb' : bq ≤ 2 ^ 64) (ha' : aq ≤ 2 ^ 64) :
    ∃ total, value (f + g) = some total ∧ Nearest (bq + aq) total ∧ bq ≤ total ∧ aq ≤ total ∧
      total ≤ 2 ^ 65 := by
  have hsum : |bq + aq| ≤ 2 ^ 65 := by
    rw [abs_of_nonneg (by linarith)]
    linarith
  obtain ⟨total, hvalue, hnear⟩ := yields_add hf hg (lt_max_of_le hsum (by norm_num))
  exact ⟨total, hvalue, hnear, hnear.ge (fits_of_value hf) (by linarith),
    hnear.ge (fits_of_value hg) (by linarith),
    (le_abs_self total).trans (hnear.abs_le_pow hsum)⟩

/-- Sizes that are not both zero have a total of one at least. -/
theorem total_pos {total : ℚ} (hb : Whole bq) (ha : Whole aq) (hnear : Nearest (bq + aq) total)
    (hsome : ¬ (bq = 0 ∧ aq = 0)) : 0 < bq + aq ∧ 1 ≤ total := by
  have hpos : 0 < bq + aq := by
    rcases lt_or_eq_of_le (add_nonneg hb.nonneg ha.nonneg) with hlt | heq
    · exact hlt
    · exact absurd ((add_eq_zero_iff_of_nonneg hb.nonneg ha.nonneg).mp heq.symm) hsome
  exact ⟨hpos, hnear.ge fits_one ((hb.add ha).one_le hpos)⟩

theorem imbalance_bounded {total : ℚ} (hf : value f = some bq) (hg : value g = some aq)
    (hb : 0 ≤ bq) (ha : 0 ≤ aq) (hb' : bq ≤ 2 ^ 64) (ha' : aq ≤ 2 ^ 64)
    (hbint : ∃ n : ℤ, bq = n) (haint : ∃ n : ℤ, aq = n) (htotal : value (f + g) = some total)
    (hble : bq ≤ total) (hale : aq ≤ total) (hle : total ≤ 2 ^ 65) (hpos : 0 < total) :
    ∃ v, value ((f - g) / (f + g)) = some v ∧ -1 ≤ v ∧ v ≤ 1 ∧ (0 < v ↔ aq < bq) ∧
      (v < 0 ↔ bq < aq) := by
  have hdiff : |bq - aq| ≤ 2 ^ 64 := abs_le.mpr ⟨by linarith, by linarith⟩
  obtain ⟨diff, hvalue, hnear⟩ := yields_sub hf hg (lt_max_of_le hdiff (by norm_num))
  have hhigh : diff ≤ bq := hnear.le (fits_of_value hf) (by linarith)
  have hlow : -aq ≤ diff := hnear.ge (fits_of_value hg).neg (by linarith)
  obtain ⟨n, hn⟩ : ∃ n : ℤ, bq - aq = n := by
    obtain ⟨n, rfl⟩ := hbint
    obtain ⟨k, rfl⟩ := haint
    exact ⟨n - k, by push_cast; rfl⟩
  have hdiffint : ∃ k : ℤ, diff = k := by
    rw [hn] at hnear
    exact hnear.exists_int
  have hquot : |diff / total| ≤ 2 ^ 0 := by
    rw [abs_div, abs_of_pos hpos, pow_zero, div_le_one hpos]
    exact abs_le.mpr ⟨by linarith, by linarith⟩
  have hnormal : diff = 0 ∨ (2 : ℚ) ^ (-1022 : ℤ) ≤ |diff / total| :=
    or_iff_not_imp_left.mpr fun hne =>
      quotient_normal (one_le_abs_of_int hdiffint hne) hpos (hle.trans (by norm_num))
  obtain ⟨v, hv, hratio⟩ := yields_div hvalue htotal hpos.ne' hnormal
    (lt_max_of_le hquot (by norm_num))
  have hunit := hratio.abs_le_pow hquot
  rw [pow_zero, abs_le] at hunit
  -- sizes that differ do so by one at least
  have habove : aq < bq → 0 < v := by
    intro hlt
    have hone : 1 ≤ diff := by
      refine hnear.ge fits_one ?_
      have hpos : (0 : ℚ) < n := by linarith
      rw [hn]
      exact_mod_cast Int.cast_pos.mp hpos
    refine lt_of_lt_of_le (two_zpow_pos (-65)) (hratio.ge (fits_two_zpow (by norm_num)) ?_)
    rw [le_div_iff₀ hpos]
    calc (2 : ℚ) ^ (-65 : ℤ) * total ≤ 2 ^ (-65 : ℤ) * 2 ^ 65 := by gcongr
      _ = 1 := by norm_num
      _ ≤ diff := hone
  have hbelow : bq < aq → v < 0 := by
    intro hlt
    have hone : diff ≤ -1 := by
      refine hnear.le fits_one.neg ?_
      have hneg : (n : ℚ) < 0 := by linarith
      have hneg' : n ≤ -1 := Int.le_sub_one_of_lt (Int.cast_lt_zero.mp hneg)
      rw [hn]
      exact_mod_cast hneg'
    refine lt_of_le_of_lt (hratio.le (fits_two_zpow (e := -65) (by norm_num)).neg ?_)
      (neg_neg_of_pos (two_zpow_pos _))
    rw [div_le_iff₀ hpos]
    calc diff ≤ -1 := hone
      _ = -2 ^ (-65 : ℤ) * 2 ^ 65 := by norm_num
      _ ≤ -2 ^ (-65 : ℤ) * total := by nlinarith [two_zpow_pos (-65)]
  have hequal : aq = bq → v = 0 := by
    intro heq
    have hzero : diff = 0 := by
      rw [heq, sub_self] at hnear
      exact hnear.eq fits_zero
    rw [hzero, zero_div] at hratio
    exact hratio.eq fits_zero
  refine ⟨v, hv, hunit.1, hunit.2, ⟨fun h => ?_, habove⟩, ⟨fun h => ?_, hbelow⟩⟩
  · rcases lt_trichotomy aq bq with hlt | heq | hgt
    · exact hlt
    · exact absurd (hequal heq) h.ne'
    · exact absurd (hbelow hgt) h.not_gt
  · rcases lt_trichotomy bq aq with hlt | heq | hgt
    · exact hlt
    · exact absurd (hequal heq.symm) h.ne
    · exact absurd (habove hgt) h.not_gt

/-! ## The weighted middle -/

theorem abs_product_le {price size : ℚ} (hprice : |price| ≤ 2 ^ 63) (hsize : |size| ≤ 2 ^ 64) :
    |price * size| ≤ 2 ^ 127 := by
  rw [abs_mul]
  calc |price| * |size| ≤ 2 ^ 63 * 2 ^ 64 := by gcongr
    _ = 2 ^ 127 := by norm_num

/-- A price times a size. -/
theorem product_bounded {p : Float} {price : ℚ} (hp : value p = some price)
    (hf : value f = some bq) (hprice : Whole price) (hsize : Whole bq)
    (hprice' : price ≤ 2 ^ 63) (hsize' : bq ≤ 2 ^ 64) :
    ∃ r, value (p * f) = some r ∧ Whole r ∧ Within 1 (price * bq) r ∧ r ≤ 2 ^ 127 := by
  have hbound : |price * bq| ≤ 2 ^ 127 :=
    abs_product_le ((abs_of_nonneg hprice.nonneg).trans_le hprice')
      ((abs_of_nonneg hsize.nonneg).trans_le hsize')
  obtain ⟨r, hvalue, hnear⟩ := yields_mul hp hf (lt_max_of_le hbound (by norm_num))
  exact ⟨r, hvalue, hnear.whole (hprice.mul hsize),
    hnear.within_of_whole (hprice.mul hsize),
    (le_abs_self r).trans (hnear.abs_le_pow hbound)⟩

/-- A positive amount by a positive size. -/
theorem ratio_bounded {p : Float} {amount size : ℚ} (hp : value p = some amount)
    (hf : value f = some size) (hamount : 1 ≤ amount) (hsize : 1 ≤ size)
    (hamount' : amount ≤ 2 ^ 130) (hsize' : size ≤ 2 ^ 65) :
    ∃ v, value (p / f) = some v ∧ Within 1 (amount / size) v := by
  have hpos : 0 < size := by linarith
  have hnormal : (2 : ℚ) ^ (-1022 : ℤ) ≤ |amount / size| :=
    quotient_normal (hamount.trans (le_abs_self amount)) hpos (hsize'.trans (by norm_num))
  have hratio : |amount / size| = amount / size := abs_of_nonneg (by positivity)
  have hbound : |amount / size| ≤ 2 ^ 130 := by
    rw [hratio, div_le_iff₀ hpos]
    nlinarith
  obtain ⟨v, hvalue, hnear⟩ := yields_div hp hf hpos.ne' (Or.inr hnormal)
    (lt_max_of_le hbound (by norm_num))
  exact ⟨v, hvalue, hnear.within (Or.inr (hratio ▸ hnormal))⟩

/-- A weighted middle is between what it is the middle of. -/
theorem weighted_between {b a : ℚ} (hba : b ≤ a) (hb : 0 ≤ bq) (ha : 0 ≤ aq)
    (hpos : 0 < bq + aq) :
    b ≤ (a * bq + b * aq) / (bq + aq) ∧ (a * bq + b * aq) / (bq + aq) ≤ a := by
  rw [le_div_iff₀ hpos, div_le_iff₀ hpos]
  constructor <;> nlinarith

theorem micro_bounded {p q : Float} {b a total : ℚ} (hp : value p = some b)
    (hq : value q = some a) (hf : value f = some bq) (hg : value g = some aq) (hb₁ : 1 ≤ b)
    (hba : b ≤ a) (ha₁ : a ≤ 2 ^ 63) (hb : Whole bq) (ha : Whole aq) (hb' : bq ≤ 2 ^ 64)
    (ha' : aq ≤ 2 ^ 64) (htotal : value (f + g) = some total)
    (hnear : Nearest (bq + aq) total) (hle : total ≤ 2 ^ 65) (hpos : 0 < bq + aq) :
    ∃ v, value ((q * f + p * g) / (f + g)) = some v ∧ (1 - 2 ^ (-50 : ℤ)) * b ≤ v ∧
      v ≤ (1 + 2 ^ (-50 : ℤ)) * a := by
  have ha₀ : 1 ≤ a := hb₁.trans hba
  obtain ⟨p₁, hvalue₁, hwhole₁, hwithin₁, hsize₁⟩ :=
    product_bounded hq hf (Or.inr ha₀) hb ha₁ hb'
  obtain ⟨p₂, hvalue₂, hwhole₂, hwithin₂, hsize₂⟩ :=
    product_bounded hp hg (Or.inr hb₁) ha (hba.trans ha₁) ha'
  have hexact : 0 < a * bq + b * aq := by nlinarith [hb.nonneg, ha.nonneg]
  have hwhole := hwhole₁.add hwhole₂
  have hsum : |p₁ + p₂| ≤ 2 ^ 128 := by
    rw [abs_of_nonneg hwhole.nonneg]
    linarith
  obtain ⟨num, hvalue, hnum⟩ := yields_add hvalue₁ hvalue₂ (lt_max_of_le hsum (by norm_num))
  -- two roundings in the numerator, one in the denominator, and the quotient's own
  have hwithin : Within 2 (a * bq + b * aq) num :=
    (hwithin₁.add hwithin₂).trans (hnum.within_of_whole hwhole)
  have hnumpos : 0 < num := lt_of_lt_of_le
    (mul_pos (pow_pos one_sub_roundoff_pos 2) hexact) hwithin.low
  have htotal₁ : 1 ≤ total := hnear.ge fits_one ((hb.add ha).one_le hpos)
  obtain ⟨v, hv, hratio⟩ := ratio_bounded hvalue htotal ((hnum.whole hwhole).one_le hnumpos)
    htotal₁ (((le_abs_self num).trans (hnum.abs_le_pow hsum)).trans (by norm_num)) hle
  have hfive : Within 5 ((a * bq + b * aq) / (bq + aq)) v :=
    (hwithin.div (hnear.within_of_whole (hb.add ha)) hexact.le hpos).trans hratio
  obtain ⟨hlow, hhigh⟩ := weighted_between hba hb.nonneg ha.nonneg hpos
  have hdown : 1 - (2 : ℚ) ^ (-50 : ℤ) ≤ (1 - roundoff) ^ 5 := by
    unfold roundoff
    norm_num
  have hup : (1 + roundoff) ^ 5 ≤ 1 + (2 : ℚ) ^ (-50 : ℤ) := by
    unfold roundoff
    norm_num
  refine ⟨v, hv, le_trans ?_ hfive.low, hfive.high.trans ?_⟩
  · have hpow := pow_pos one_sub_roundoff_pos 5
    exact mul_le_mul hdown hlow (by linarith) hpow.le
  · exact mul_le_mul hup hhigh (by linarith) (by positivity)

/-- A price of either sign times a size. -/
theorem product_int {p : Float} {price size : ℤ} (hp : value p = some (price : ℚ))
    (hf : value f = some (size : ℚ)) (hprice : |(price : ℚ)| ≤ 2 ^ 63)
    (hsize : |(size : ℚ)| ≤ 2 ^ 64) :
    ∃ r : ℤ, value (p * f) = some (r : ℚ) ∧ |(r : ℚ)| ≤ 2 ^ 127 := by
  have hbound := abs_product_le hprice hsize
  obtain ⟨r, hvalue, hnear⟩ := yields_mul hp hf (lt_max_of_le hbound (by norm_num))
  have hle := hnear.abs_le_pow hbound
  rw [← Int.cast_mul] at hnear
  obtain ⟨n, rfl⟩ := hnear.exists_int
  exact ⟨n, hvalue, hle⟩

/-- The weighted middle is a number, whatever the prices. -/
theorem micro_finite {p q : Float} {b a total : ℚ} (hp : value p = some b)
    (hq : value q = some a) (hf : value f = some bq) (hg : value g = some aq)
    (hb : |b| ≤ 2 ^ 63) (ha : |a| ≤ 2 ^ 63) (hbq : |bq| ≤ 2 ^ 64) (haq : |aq| ≤ 2 ^ 64)
    (hints : (∃ n : ℤ, b = n) ∧ (∃ n : ℤ, a = n) ∧ (∃ n : ℤ, bq = n) ∧ ∃ n : ℤ, aq = n)
    (htotal : value (f + g) = some total) (hone : 1 ≤ total) (hle : total ≤ 2 ^ 65) :
    ∃ v, value ((q * f + p * g) / (f + g)) = some v := by
  obtain ⟨⟨kb, rfl⟩, ⟨ka, rfl⟩, ⟨nb, rfl⟩, ⟨na, rfl⟩⟩ := hints
  obtain ⟨p₁, hp₁, hsize₁⟩ := product_int hq hf ha hbq
  obtain ⟨p₂, hp₂, hsize₂⟩ := product_int hp hg hb haq
  have hsum : |(p₁ : ℚ) + p₂| ≤ 2 ^ 128 := (abs_add_le _ _).trans (by linarith)
  obtain ⟨num, hnum, hnear⟩ := yields_add hp₁ hp₂ (lt_max_of_le hsum (by norm_num))
  have hnumsize := hnear.abs_le_pow hsum
  rw [← Int.cast_add] at hnear
  have hpos : 0 < total := by linarith
  have hratio : |num / total| ≤ 2 ^ 128 := by
    rw [abs_div, abs_of_pos hpos, div_le_iff₀ hpos]
    nlinarith
  have hnormal : num = 0 ∨ (2 : ℚ) ^ (-1022 : ℤ) ≤ |num / total| := by
    by_cases hzero : num = 0
    · exact Or.inl hzero
    · exact Or.inr (quotient_normal (one_le_abs_of_int hnear.exists_int hzero) hpos
        (hle.trans (by norm_num)))
  obtain ⟨v, hv, _⟩ :=
    yields_div hnum htotal hpos.ne' hnormal (lt_max_of_le hratio (by norm_num))
  exact ⟨v, hv⟩

end Sizes

/-! ## Every book a run reaches -/

section Books

variable {m : BookMemory} {bid ask : Price}

/-- The best prices of a book that was reached do not cross. -/
theorem best_lt (h : Reachable anyOp m) (hbid : m.state.bestBid = some bid)
    (hask : m.state.bestAsk = some ask) : bid.toInt < ask.toInt := by
  have hcrossed := not_isCrossed h.wellFormed.valid
  rw [Book.isCrossed, hbid, hask] at hcrossed
  exact Int64.lt_iff_toInt_lt.mp (by simpa using hcrossed)

theorem touch_eq (hbid : m.state.bestBid = some bid) (hask : m.state.bestAsk = some ask) :
    touch m.state = some ⟨bid, ask, (m.state.bids.qtyAt bid).toDouble,
      (m.state.asks.qtyAt ask).toDouble⟩ := by
  rw [touch, hbid, hask]

theorem mid_shows (hbid : m.state.bestBid = some bid) (hask : m.state.bestAsk = some ask)
    {b a : ℚ} (hb : value bid.toDouble = some b) (ha : value ask.toDouble = some a)
    (hbnear : Nearest bid.toInt b) (hanear : Nearest ask.toInt a)
    (hlt : bid.toInt < ask.toInt) :
    ∃ v, Shows (midPrice m.state) v ∧ b ≤ v ∧ v ≤ a ∧
      (|bid.toInt| ≤ 2 ^ 52 → |ask.toInt| ≤ 2 ^ 52 → v = (bid.toInt + ask.toInt) / 2) := by
  have hle : b ≤ a := hbnear.mono hanear (by exact_mod_cast hlt)
  obtain ⟨v, hv, hlow, hhigh, hexact⟩ := middle_bounded hb ha hle
    (hbnear.abs_le_pow (abs_price_le bid)) (hanear.abs_le_pow (abs_price_le ask))
    hbnear.exists_int hanear.exists_int
  refine ⟨v, ⟨_, ?_, hv⟩, hlow, hhigh, fun hbid' hask' => ?_⟩
  · rw [midPrice, touch_eq hbid hask]
    rfl
  · have hfits : ∀ {n : ℤ}, |n| ≤ 2 ^ 52 → Fits n := fun hn =>
      fits_intCast (hn.trans (by norm_num))
    have hsmall : ∀ {n : ℤ}, |n| ≤ 2 ^ 52 → |(n : ℚ)| ≤ 2 ^ 52 := fun hn => by
      exact_mod_cast hn
    rw [hbnear.eq (hfits hbid'), hanear.eq (hfits hask')] at hexact
    exact hexact (hsmall hbid') (hsmall hask')

end Books

/-- **Metrics.** In every book a run reaches, a metric of an unquoted side is not defined.
Otherwise, with the best prices and the sizes at them rounded to `double`s: the middle is
between the prices, and exact as long as these are within 2^52; the other two are defined
unless both sizes are zero; the imbalance is between -1 and 1 and leans to the larger of the
rounded sizes; and the weighted middle of positive prices is between them but for 2^-50 of
its value. -/
theorem metrics_bounded {m : BookMemory} (h : Reachable anyOp m) :
    (m.state.bestBid = none ∨ m.state.bestAsk = none →
      midPrice m.state = none ∧ microPrice m.state = none ∧ imbalance m.state = none) ∧
    ∀ bid ask, m.state.bestBid = some bid → m.state.bestAsk = some ask →
      ∃ b a bq aq, Nearest bid.toInt b ∧ Nearest ask.toInt a ∧
        Nearest (m.state.bids.qtyAt bid).toNat bq ∧ Nearest (m.state.asks.qtyAt ask).toNat aq ∧
        (∃ v, Shows (midPrice m.state) v ∧ b ≤ v ∧ v ≤ a ∧
          (|bid.toInt| ≤ 2 ^ 52 → |ask.toInt| ≤ 2 ^ 52 → v = (bid.toInt + ask.toInt) / 2)) ∧
        (bq = 0 ∧ aq = 0 → microPrice m.state = none ∧ imbalance m.state = none) ∧
        (¬ (bq = 0 ∧ aq = 0) →
          (∃ v, Shows (imbalance m.state) v ∧ -1 ≤ v ∧ v ≤ 1 ∧ (0 < v ↔ aq < bq) ∧
            (v < 0 ↔ bq < aq)) ∧
          (∃ v, Shows (microPrice m.state) v) ∧
          (0 < bid.toInt → ∃ v, Shows (microPrice m.state) v ∧
            (1 - 2 ^ (-50 : ℤ)) * b ≤ v ∧ v ≤ (1 + 2 ^ (-50 : ℤ)) * a)) := by
  refine ⟨fun hnone => ?_, fun bid ask hbid hask => ?_⟩
  · have htouch : touch m.state = none := by
      unfold touch
      rcases hnone with hnone | hnone <;> rw [hnone]
      cases m.state.bestBid <;> rfl
    simp [midPrice, microPrice, imbalance, htouch]
  · have hlt := best_lt h hbid hask
    have htouch := touch_eq hbid hask
    obtain ⟨b, hb, hbnear, hbpsize, hbpint⟩ := price_double bid
    obtain ⟨a, ha, hanear, hasize, hapint⟩ := price_double ask
    obtain ⟨bq, hbq, hbqnear, hbwhole, hbsize, hbint⟩ := quantity_double (m.state.bids.qtyAt bid)
    obtain ⟨aq, haq, haqnear, hawhole, hqsize, haint⟩ := quantity_double (m.state.asks.qtyAt ask)
    obtain ⟨total, htotal, hnear, hble, hale, hle⟩ :=
      total_bounded hbq haq hbwhole.nonneg hawhole.nonneg hbsize hqsize
    refine ⟨b, a, bq, aq, hbnear, hanear, hbqnear, haqnear,
      mid_shows hbid hask hb ha hbnear hanear hlt, ?_, ?_⟩
    · rintro ⟨rfl, rfl⟩
      have hempty : total ≤ 0 := hnear.le fits_zero (by norm_num)
      simp only [microPrice, imbalance, htouch, if_pos ((le_zero_iff htotal).mpr hempty),
        and_self]
    · intro hsome
      obtain ⟨hpos, htotal₁⟩ := total_pos hbwhole hawhole hnear hsome
      have hnot : ¬ (m.state.bids.qtyAt bid).toDouble + (m.state.asks.qtyAt ask).toDouble ≤
          0.0 := fun hle => by linarith [(le_zero_iff htotal).mp hle]
      refine ⟨?_, ?_, fun hbid₀ => ?_⟩
      · obtain ⟨v, hv, hbounds⟩ := imbalance_bounded hbq haq hbwhole.nonneg hawhole.nonneg
          hbsize hqsize hbint haint htotal hble hale hle (by linarith)
        refine ⟨v, ⟨_, ?_, hv⟩, hbounds⟩
        simp only [imbalance, htouch, if_neg hnot]
      · obtain ⟨v, hv⟩ := micro_finite hb ha hbq haq hbpsize hasize
          ((abs_of_nonneg hbwhole.nonneg).trans_le hbsize)
          ((abs_of_nonneg hawhole.nonneg).trans_le hqsize) ⟨hbpint, hapint, hbint, haint⟩
          htotal htotal₁ hle
        refine ⟨v, _, ?_, hv⟩
        simp only [microPrice, htouch, if_neg hnot]
      · have hb₁ : 1 ≤ b := hbnear.ge fits_one (by exact_mod_cast hbid₀)
        have hba : b ≤ a := hbnear.mono hanear (by exact_mod_cast hlt)
        obtain ⟨v, hv, hbounds⟩ := micro_bounded hb ha hbq haq hb₁ hba
          ((le_abs_self a).trans hasize) hbwhole hawhole hbsize hqsize htotal hnear hle hpos
        refine ⟨v, ⟨_, ?_, hv⟩, hbounds⟩
        simp only [microPrice, htouch, if_neg hnot]

/-- One bid of 100 and one offer of 101. -/
theorem metrics_bounded_quotes :
    ∃ v, Shows (midPrice quotes.state) v ∧ v = 201 / 2 := by
  have hbid : quotes.state.bestBid = some 100 := by decide +kernel
  have hask : quotes.state.bestAsk = some 101 := by decide +kernel
  obtain ⟨_, _, _, _, -, -, -, -, ⟨v, hv, -, -, hexact⟩, -, -⟩ :=
    (metrics_bounded quotes_reachable).2 100 101 hbid hask
  refine ⟨v, hv, (hexact (by decide) (by decide)).trans ?_⟩
  have hprices : (100 : Price).toInt = 100 ∧ (101 : Price).toInt = 101 := ⟨rfl, rfl⟩
  rw [hprices.1, hprices.2]
  norm_num

end Analytics

end Exchange
