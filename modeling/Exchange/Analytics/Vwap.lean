import Mathlib
import Exchange.Analytics.BookMetrics

/-!
# The average price of a side

`vwap` adds up the value and the quantity of the levels with `std::transform_reduce`, which
may combine them in any order, grouped in any way, and divides the one by the other. The
value is a `double` because an integer would overflow; every product and every sum is
rounded, so the result depends on the order. It never depends on it much: in every order
the average is within a few units in the last place of the exact one, as many as there are
levels and six more.
-/

namespace Exchange

open Framework Framework.Binary64

namespace Analytics

variable {s : Side}

structure Weighted where
  notional : Float
  qty : Quantity

/-- How two totals are combined. -/
def Weighted.combine (lhs rhs : Weighted) : Weighted :=
  ⟨lhs.notional + rhs.notional, lhs.qty + rhs.qty⟩

/-- What the initial value of the reduction and its levels contribute. -/
def weighted : Option (Price × PriceLevel) → Weighted
  | none => ⟨0.0, 0⟩
  | some (price, level) => ⟨price.toDouble * level.totalQty.toDouble, level.totalQty⟩

/-- An order in which `std::transform_reduce` may go through the initial value and the
levels. -/
abbrev Reduction (side : OrderBook s) : Type :=
  { g : Grouping (Option (Price × PriceLevel)) //
    g.leaves.Perm (none :: side.levels.entries.map some) }

/-- The levels one after the other, as the algorithm does without a policy. -/
def inTurn (side : OrderBook s) : Reduction side :=
  ⟨.inTurn none (side.levels.entries.map some), .of_eq (Grouping.leaves_inTurn _ _)⟩

/-- Volume-weighted average price of everything resting on this side. -/
def vwap (side : OrderBook s) (order : Reduction side) : Option Float :=
  let total := order.1.reduce Weighted.combine weighted
  if total.qty = 0 then none else some (total.notional / total.qty.toDouble)

end Analytics

/-! ## The exact average -/

/-- What the orders at some levels are worth at the prices they rest at. -/
def worthAt (entries : List (Price × PriceLevel)) : ℚ :=
  (entries.map fun e => (e.1.toInt * e.2.queued : ℚ)).sum

def OrderBook.worth {s : Side} (b : OrderBook s) : ℚ := worthAt b.levels.entries

namespace Analytics

/-- What a contribution stands for. -/
def worthOf : Option (Price × PriceLevel) → ℚ
  | none => 0
  | some (price, level) => price.toInt * level.queued

section Levels

variable {entries : List (Price × PriceLevel)}

theorem queued_le_queuedAt {e : Price × PriceLevel} (he : e ∈ entries) :
    e.2.queued ≤ queuedAt entries :=
  List.single_le_sum (fun _ _ => Nat.zero_le _) _
    (List.mem_map_of_mem (f := fun e : Price × PriceLevel => e.2.queued) he)

/-- The value and the quantity of a level are rounded three times. -/
theorem weighted_within {e : Price × PriceLevel} (hprice : 0 < e.1.toInt)
    (hbalanced : e.2.Balanced) (hfits : e.2.queued < 2 ^ 64) :
    ∃ r, value (weighted (some e)).notional = some r ∧ Whole r ∧
      Within 3 (worthOf (some e)) r := by
  obtain ⟨p, hp, hpnear, hpsize, -⟩ := price_double e.1
  obtain ⟨q, hq, hqnear, hqwhole, hqsize, -⟩ := quantity_double e.2.totalQty
  rw [hbalanced.exact_iff.mpr hfits] at hqnear
  have hprice₁ : (1 : ℚ) ≤ e.1.toInt := by exact_mod_cast hprice
  have hpwhole : Whole (e.1.toInt : ℚ) := Or.inr hprice₁
  obtain ⟨r, hr, hrwhole, hrwithin, -⟩ := product_bounded hp hq (hpnear.whole hpwhole) hqwhole
    ((le_abs_self p).trans hpsize) hqsize
  refine ⟨r, hr, hrwhole, ?_⟩
  have hfactors := (hpnear.within_of_whole hpwhole).mul
    (hqnear.within_of_whole (whole_natCast _)) hpwhole.nonneg (whole_natCast _).nonneg
  exact hfactors.trans hrwithin

theorem worthAt_le (entries : List (Price × PriceLevel)) :
    worthAt entries ≤ 2 ^ 63 * queuedAt entries := by
  induction entries with
  | nil => simp [worthAt, queuedAt]
  | cons e entries ih =>
      have hprice := (le_abs_self _).trans (abs_price_le e.1)
      unfold worthAt queuedAt at ih ⊢
      rw [List.map_cons, List.sum_cons, List.map_cons, List.sum_cons]
      push_cast at ih ⊢
      nlinarith [Nat.cast_nonneg (α := ℚ) e.2.queued]

/-- What is queued at positive prices is worth as much at least. -/
theorem queuedAt_le_worthAt (hprices : ∀ e ∈ entries, 0 < e.1.toInt) :
    (queuedAt entries : ℚ) ≤ worthAt entries := by
  induction entries with
  | nil => simp [worthAt, queuedAt]
  | cons e entries ih =>
      obtain ⟨hhead, htail⟩ := List.forall_mem_cons.mp hprices
      have hprice : (1 : ℚ) ≤ e.1.toInt := by exact_mod_cast hhead
      have ih := ih htail
      unfold worthAt queuedAt at ih ⊢
      rw [List.map_cons, List.sum_cons, List.map_cons, List.sum_cons]
      push_cast at ih ⊢
      nlinarith [Nat.cast_nonneg (α := ℚ) e.2.queued]

end Levels

section Reduction

variable {s : Side} {side : OrderBook s}

theorem worth_le (hfits : side.queued < 2 ^ 64) : side.worth ≤ 2 ^ 128 := by
  have hle := worthAt_le side.levels.entries
  have hqueued : (queuedAt side.levels.entries : ℚ) < 2 ^ 64 := by exact_mod_cast hfits
  unfold OrderBook.worth
  linarith

theorem value_zero : value 0.0 = some 0 := by
  have hunpack : (0.0 : Float).toModel.unpack = .zero .positive := by rfl
  rw [value, hunpack]
  rfl

theorem forall_leaves (order : Reduction side) {p : Option (Price × PriceLevel) → Prop}
    (hnone : p none) (hsome : ∀ e ∈ side.levels.entries, p (some e)) :
    ∀ a ∈ order.1.leaves, p a := by
  intro a ha
  rcases List.mem_cons.mp (order.2.mem_iff.mp ha) with rfl | ha
  · exact hnone
  · obtain ⟨e, he, rfl⟩ := List.mem_map.mp ha
    exact hsome e he

/-- The quantities add up to what is queued, in every order. -/
theorem reduce_qty (order : Reduction side) (hbalanced : ∀ e ∈ side.levels.entries, e.2.Balanced)
    (hfits : side.queued < 2 ^ 64) :
    (order.1.reduce Weighted.combine weighted).qty.toNat = side.queued := by
  rw [Grouping.reduce_eq_sum (f := Weighted.qty) fun _ _ => rfl, (order.2.map _).sum_eq,
    List.map_cons, List.map_map, List.sum_cons]
  have hexact := (accumulate_exact_iff hbalanced).mpr hfits
  rw [foldl_addTotalQty] at hexact
  rw [show (weighted none).qty = 0 from rfl, zero_add]
  exact hexact

/-- The value is rounded as often as there are levels, and three times more. -/
theorem reduce_notional (order : Reduction side)
    (hbalanced : ∀ e ∈ side.levels.entries, e.2.Balanced)
    (hprices : ∀ e ∈ side.levels.entries, 0 < e.1.toInt) (hfits : side.queued < 2 ^ 64)
    (hlevels : side.levelCount + 6 ≤ 2 ^ 52) :
    ∃ r, value (order.1.reduce Weighted.combine weighted).notional = some r ∧ Whole r ∧
      Within (side.levelCount + 3) side.worth r := by
  have hsum : (order.1.leaves.map worthOf).sum = side.worth := by
    rw [(order.2.map _).sum_eq, List.map_cons, List.map_map, List.sum_cons,
      show worthOf none = 0 from rfl, zero_add]
    rfl
  have hlength : order.1.leaves.length = side.levelCount + 1 := by
    rw [order.2.length_eq, List.length_cons, List.length_map]
    rfl
  have hleaf : ∀ a ∈ order.1.leaves,
      ∃ r, value (weighted a).notional = some r ∧ Whole r ∧ Within 3 (worthOf a) r := by
    refine forall_leaves order ⟨0, value_zero, Or.inl rfl, (Within.refl 0).mono le_rfl (by omega)⟩
      fun e he => ?_
    exact weighted_within (hprices e he) (hbalanced e he)
      (lt_of_le_of_lt (queued_le_queuedAt he) hfits)
  have hideal : ∀ a ∈ order.1.leaves, 0 ≤ worthOf a := by
    refine forall_leaves order le_rfl fun e he => ?_
    have hprice : (0 : ℚ) < e.1.toInt := by exact_mod_cast hprices e he
    exact mul_nonneg hprice.le (Nat.cast_nonneg _)
  have hop : ∀ a b, (Weighted.combine a b).notional = a.notional + b.notional := fun _ _ => rfl
  have hreduce := order.1.reduce_within hop hleaf hideal (hsum ▸ worth_le hfits) (by omega)
  rwa [hsum, hlength, show 3 + (side.levelCount + 1) - 1 = side.levelCount + 3 by omega]
    at hreduce

/-- Orders in the book have something left, and levels have orders. -/
theorem queued_pos {m : BookMemory} (h : WellFormed m)
    (hne : (m.state.side s).levels.entries ≠ []) : 0 < (m.state.side s).queued := by
  obtain ⟨e, he⟩ := List.exists_mem_of_ne_nil _ hne
  obtain ⟨n, hn⟩ := List.exists_mem_of_ne_nil _ (h.full s e he)
  have halive : n.order.remaining ≠ 0 := by
    refine (h.valid.placed s (e.1, e.2.orders.map Node.order) ?_ n.order ?_).alive
    · rw [Book.view_ladder]
      exact List.mem_map_of_mem he
    · exact List.mem_map_of_mem hn
  have hremaining : 0 < n.order.remaining.toNat :=
    Nat.pos_of_ne_zero fun hzero => halive (UInt64.toNat_inj.mp hzero)
  calc 0 < n.order.remaining.toNat := hremaining
    _ ≤ e.2.queued := le_total (List.mem_map_of_mem hn)
    _ ≤ (m.state.side s).queued := queued_le_queuedAt he

end Reduction

/-- **Average price.** In every book a run reaches, as long as the quantity queued on a side
fits 64 bits and its prices are positive, the side has an average unless it is empty. That
is the exact one but for as many units of 2^-52 of its value as there are levels and six
more, in whatever order the levels are added up. -/
theorem vwap_accurate {m : BookMemory} (h : Reachable anyOp m) (s : Side)
    (order : Reduction (m.state.side s)) (hfits : (m.state.side s).queued < 2 ^ 64)
    (hprices : ∀ e ∈ (m.state.side s).levels.entries, 0 < e.1.toInt)
    (hlevels : (m.state.side s).levelCount + 6 ≤ 2 ^ 52) :
    ((m.state.side s).levels.entries = [] → vwap (m.state.side s) order = none) ∧
    ((m.state.side s).levels.entries ≠ [] →
      ∃ v, Shows (vwap (m.state.side s) order) v ∧
        |v - (m.state.side s).worth / (m.state.side s).queued| ≤
          ((m.state.side s).levelCount + 6) * 2 ^ (-52 : ℤ) *
            ((m.state.side s).worth / (m.state.side s).queued)) := by
  have hbalanced := (h.wellFormed.sound s).balanced
  have hqty := reduce_qty order hbalanced hfits
  refine ⟨fun hempty => ?_, fun hne => ?_⟩
  · have hzero : (order.1.reduce Weighted.combine weighted).qty = 0 := by
      refine UInt64.toNat_inj.mp (hqty.trans ?_)
      rw [OrderBook.queued, hempty]
      rfl
    simp only [vwap, if_pos hzero]
  · have hqueued := queued_pos h.wellFormed hne
    have hqueued₁ : (1 : ℚ) ≤ (m.state.side s).queued := by exact_mod_cast hqueued
    have hworth : ((m.state.side s).queued : ℚ) ≤ (m.state.side s).worth :=
      queuedAt_le_worthAt hprices
    have hworth₀ : 0 < (m.state.side s).worth := by linarith
    have hnonzero : ¬ (order.1.reduce Weighted.combine weighted).qty = 0 := by
      intro hzero
      rw [hzero] at hqty
      exact hqueued.ne hqty
    obtain ⟨r, hr, hwhole, hwithin⟩ := reduce_notional order hbalanced hprices hfits hlevels
    obtain ⟨q, hq, hqnear, hqwhole, hqsize, -⟩ :=
      quantity_double (order.1.reduce Weighted.combine weighted).qty
    rw [hqty] at hqnear
    have hrpos : 0 < r := lt_of_lt_of_le
      (mul_pos (pow_pos one_sub_roundoff_pos _) hworth₀) hwithin.low
    have hrsize : r ≤ 2 ^ 130 := by
      have hdouble := hwithin.le_double hworth₀.le (by omega)
      have hbound := worth_le hfits
      linarith
    obtain ⟨v, hv, hratio⟩ := ratio_bounded hr hq (hwhole.one_le hrpos)
      (hqnear.ge fits_one hqueued₁) hrsize (hqsize.trans (by norm_num))
    -- the value is rounded for each level, the quantity once, which counts twice
    have hall := (hwithin.div (hqnear.within_of_whole (whole_natCast _)) hworth₀.le
      (by linarith)).trans hratio
    have hlinear := hall.linear (by positivity) (by omega)
    refine ⟨v, ⟨_, ?_, hv⟩, ?_⟩
    · simp only [vwap, if_neg hnonzero]
    · rwa [show (((m.state.side s).levelCount + 3 + 2 * 1 + 1 : ℕ) : ℚ) =
        (m.state.side s).levelCount + 6 by push_cast; ring] at hlinear

/-- Each level added to the sum of those behind it, and the initial value last. -/
def fromBehind (side : OrderBook s) : Reduction side :=
  ⟨side.levels.entries.foldr (fun e g => .node (.leaf (some e)) g) (.leaf none), by
    induction side.levels.entries with
    | nil => exact .refl _
    | cons e entries ih => exact (ih.cons _).trans (.swap _ _ _)⟩

/-- Offers of 11 at 101 and of 4 at 103, grouped in two ways. -/
theorem vwap_accurate_stacked :
    (∃ v, Shows (vwap stacked.state.asks (inTurn _)) v ∧
      |v - 1523 / 15| ≤ 8 * 2 ^ (-52 : ℤ) * (1523 / 15)) ∧
    ∃ v, Shows (vwap stacked.state.asks (fromBehind _)) v ∧
      |v - 1523 / 15| ≤ 8 * 2 ^ (-52 : ℤ) * (1523 / 15) := by
  have hworth : (stacked.state.side .sell).worth = 1523 := by decide +kernel
  have hqueued : (stacked.state.side .sell).queued = 15 := by decide +kernel
  have hlevels : (stacked.state.side .sell).levelCount = 2 := by decide +kernel
  have hshown : ∀ order, ∃ v, Shows (vwap stacked.state.asks order) v ∧
      |v - 1523 / 15| ≤ 8 * 2 ^ (-52 : ℤ) * (1523 / 15) := by
    intro order
    obtain ⟨v, hv, hclose⟩ := (vwap_accurate stacked_reachable .sell order (by decide +kernel)
      (by decide +kernel) (by decide +kernel)).2 (by decide +kernel)
    rw [hworth, hqueued, hlevels] at hclose
    refine ⟨v, hv, ?_⟩
    norm_num at hclose ⊢
    exact hclose
  exact ⟨hshown _, hshown _⟩

end Analytics

end Exchange
