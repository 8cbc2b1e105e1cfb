import Exchange.Core.Runs
import Exchange.Framework.WordSum

/-!
# Statistics over one side of a book

What `analytics/side_stats.hpp` adds up over the levels of a side, and the figures the
book itself offers. All of them are sums of the levels' counters in 64 bits. Quantities
come from the wire as they are, so nothing keeps a sum within 64 bits: a figure is exact
as long as the exact one fits.
-/

namespace Exchange

open Framework

/-! ## The figures -/

namespace Analytics

variable {s : Side}

def addTotalQty (running : Quantity) (entry : Price × PriceLevel) : Quantity :=
  running + entry.2.totalQty

/-- Total resting quantity on this side, hidden iceberg size included. -/
def restingQty (side : OrderBook s) : Quantity :=
  side.levels.entries.foldl addTotalQty 0

/-- Quantity an aggressor would find at prices no worse than `worst`. -/
def qtyThrough (side : OrderBook s) (worst : Price) : Quantity :=
  (side.levels.upTo worst).foldl addTotalQty 0

end Analytics

/-! ## What they should say -/

/-- What is queued at a level. -/
def PriceLevel.queued (l : PriceLevel) : ℕ :=
  total (l.orders.map fun n => n.order.remaining)

/-- What is queued at some levels. -/
def queuedAt (entries : List (Price × PriceLevel)) : ℕ :=
  (entries.map fun e => e.2.queued).sum

def OrderBook.queued {s : Side} (b : OrderBook s) : ℕ := queuedAt b.levels.entries

namespace PriceLevel

variable {l : PriceLevel}

theorem Balanced.toNat_total (h : l.Balanced) : l.totalQty.toNat = l.queued % 2 ^ 64 := by
  rw [h.total, sumRemaining, toNat_sum]
  rfl

theorem Balanced.exact_iff (h : l.Balanced) :
    l.totalQty.toNat = l.queued ↔ l.queued < 2 ^ 64 := by
  rw [h.total]
  exact toNat_sum_iff _

theorem queued_adopt (l : PriceLevel) (n : Node) :
    (l.adopt n).queued = l.queued + n.order.remaining.toNat := by
  unfold queued adopt
  simp

/-- The additions and subtractions on the counter of a level stay within 64 bits: no order
holds more than the counter says, and one more order fits if what is queued then does. -/
structure Unwrapped (l : PriceLevel) : Prop where
  covers : ∀ n ∈ l.orders, n.order.remaining ≤ l.totalQty
  room : ∀ n : Node, (l.adopt n).queued < 2 ^ 64 →
    l.totalQty.toNat + n.order.remaining.toNat < 2 ^ 64

theorem Balanced.unwrapped (h : l.Balanced) (hfits : l.queued < 2 ^ 64) : l.Unwrapped := by
  have hexact := h.exact_iff.mpr hfits
  constructor
  · intro n hn
    rw [UInt64.le_iff_toNat_le, hexact]
    exact le_total (List.mem_map_of_mem hn)
  · intro n hroom
    rwa [queued_adopt, ← hexact] at hroom

end PriceLevel

/-! ## Adding up levels -/

section Levels

variable {entries front : List (Price × PriceLevel)}

/-- Counters and queues agree level by level, so their sums do modulo 2^64. -/
theorem total_counters (h : ∀ e ∈ entries, e.2.Balanced) :
    total (entries.map fun e => e.2.totalQty) % 2 ^ 64 = queuedAt entries % 2 ^ 64 := by
  induction entries with
  | nil => rfl
  | cons e entries ih =>
      have hhead := (h e List.mem_cons_self).toNat_total
      have htail := ih fun e he => h e (List.mem_cons_of_mem _ he)
      unfold queuedAt at htail ⊢
      rw [List.map_cons, total_cons, List.map_cons, List.sum_cons]
      omega

theorem foldl_addTotalQty (entries : List (Price × PriceLevel)) :
    entries.foldl Analytics.addTotalQty 0 = (entries.map fun e => e.2.totalQty).sum := by
  have hsum := foldl_add (fun e : Price × PriceLevel => e.2.totalQty) entries 0
  rwa [UInt64.zero_add] at hsum

/-- A sum over levels is exact exactly if what is queued there fits 64 bits. -/
theorem accumulate_exact_iff (h : ∀ e ∈ entries, e.2.Balanced) :
    (entries.foldl Analytics.addTotalQty 0).toNat = queuedAt entries ↔
      queuedAt entries < 2 ^ 64 := by
  rw [foldl_addTotalQty, toNat_sum, total_counters h]
  constructor
  · intro hexact
    rw [← hexact]
    exact Nat.mod_lt _ (by decide)
  · exact Nat.mod_eq_of_lt

theorem queuedAt_prefix_le (h : front <+: entries) : queuedAt front ≤ queuedAt entries := by
  obtain ⟨rest, rfl⟩ := h
  unfold queuedAt
  rw [List.map_append, List.sum_append]
  exact Nat.le_add_right _ _

/-- If the sum over all levels fits, so does every sum on the way. -/
theorem accumulate_front (h : ∀ e ∈ entries, e.2.Balanced)
    (hfits : queuedAt entries < 2 ^ 64) (hfront : front <+: entries) :
    (front.foldl Analytics.addTotalQty 0).toNat = queuedAt front := by
  refine (accumulate_exact_iff fun e he => h e (hfront.subset he)).mpr ?_
  exact Nat.lt_of_le_of_lt (queuedAt_prefix_le hfront) hfits

end Levels

/-! ## The spread -/

theorem Book.spread_exact {b : Book} {bid ask : Price} (hv : b.view.Valid)
    (hbid : b.bestBid = some bid) (hask : b.bestAsk = some ask) :
    ∃ d, b.spread = some d ∧
      (d.toInt = ask.toInt - bid.toInt ↔ ask.toInt - bid.toInt < 2 ^ 63) := by
  have huncrossed := not_isCrossed hv
  unfold Book.isCrossed at huncrossed
  rw [hbid, hask] at huncrossed
  have hlt : bid < ask := by
    have := of_decide_eq_false huncrossed
    grind
  refine ⟨ask - bid, ?_, ?_⟩
  · unfold Book.spread
    rw [hbid, hask]
  · have hint := Int64.lt_iff_toInt_lt.mp hlt
    rw [Int64.toInt_sub]
    constructor
    · intro hexact
      rw [← hexact, ← Int64.toInt_sub]
      exact (ask - bid).toInt_lt
    · intro hfits
      refine Int.bmod_eq_of_le ?_ ?_ <;> norm_num <;> omega

/-- **The figures of a book.** In every book a run reaches, the counter of a level is what
is queued there exactly if that fits 64 bits, and then no update of it wraps; the two sums
over a side are what is queued on it exactly if that fits 64 bits, and then neither is any
sum on the way to them wrapped; and the spread is the difference of the best prices exactly
if that fits. -/
theorem figures_exact {m : BookMemory} (h : Reachable anyOp m) :
    (∀ s, ∀ e ∈ (m.state.side s).levels.entries,
      (e.2.totalQty.toNat = e.2.queued ↔ e.2.queued < 2 ^ 64) ∧
      (e.2.queued < 2 ^ 64 → e.2.Unwrapped)) ∧
    (∀ s, ((m.state.side s).totalQty.toNat = (m.state.side s).queued ↔
        (m.state.side s).queued < 2 ^ 64) ∧
      ((Analytics.restingQty (m.state.side s)).toNat = (m.state.side s).queued ↔
        (m.state.side s).queued < 2 ^ 64) ∧
      ((m.state.side s).queued < 2 ^ 64 →
        ∀ front, front <+: (m.state.side s).levels.entries →
          (front.foldl Analytics.addTotalQty 0).toNat = queuedAt front)) ∧
    (∀ bid ask, m.state.bestBid = some bid → m.state.bestAsk = some ask →
      ∃ d, m.state.spread = some d ∧
        (d.toInt = ask.toInt - bid.toInt ↔ ask.toInt - bid.toInt < 2 ^ 63)) := by
  have hbalanced := fun s => (h.wellFormed.sound s).balanced
  refine ⟨?_, ?_, ?_⟩
  · intro s e he
    exact ⟨(hbalanced s e he).exact_iff, (hbalanced s e he).unwrapped⟩
  · intro s
    have hside := accumulate_exact_iff (hbalanced s)
    exact ⟨hside, hside, fun hfits front hfront =>
      accumulate_front (hbalanced s) hfits hfront⟩
  · intro bid ask
    exact Book.spread_exact h.wellFormed.valid

theorem figures_exact_quotes :
    (quotes.state.asks.totalQty, quotes.state.asks.queued) = (5, 5) ∧
    quotes.state.asks.totalQty.toNat = quotes.state.asks.queued ∧
    (Analytics.restingQty quotes.state.asks).toNat = quotes.state.asks.queued ∧
    ∃ d, quotes.state.spread = some d ∧ d.toInt = 101 - 100 := by
  obtain ⟨_, hsides, hspread⟩ := figures_exact quotes_reachable
  have hfits : (quotes.state.side .sell).queued < 2 ^ 64 := by decide +kernel
  obtain ⟨d, hd, hexact⟩ := hspread 100 101 (by decide +kernel) (by decide +kernel)
  exact ⟨by decide +kernel, (hsides .sell).1.mpr hfits, (hsides .sell).2.1.mpr hfits, d, hd,
    hexact.mpr (by decide)⟩

/-- Two asks of 2^63 at 100, and a bid at the lowest price there is. -/
def extremes : BookMemory :=
  ((Op.submit (some (limitOrder 3 .buy 8 1 Int64.minValue))).exec (fun _ => false)
    ((Op.submit (some (limitOrder 2 .sell 7 (2 ^ 63) 100))).exec (fun _ => false)
      ((Op.submit (some (limitOrder 1 .sell 7 (2 ^ 63) 100))).exec (fun _ => false)
        { state := {} }).2).2).2

/-- The level says it is empty with two orders in it, so does the side, and the spread
comes out negative. -/
theorem figures_wrap :
    Reachable (fun _ op => ∃ o : Order, op = .submit (some o) ∧ o.Built ∧ 0 < o.remaining)
      extremes ∧
    extremes.state.asks.levels.entries.map (fun e => (e.2.totalQty, e.2.queued)) =
      [(0, 2 ^ 64)] ∧
    (extremes.state.asks.totalQty, Analytics.restingQty extremes.state.asks,
      extremes.state.asks.queued) = (0, 0, 2 ^ 64) ∧
    extremes.state.bestBid = some Int64.minValue ∧ extremes.state.bestAsk = some 100 ∧
    extremes.state.spread = some (Int64.minValue + 100) := by
  refine ⟨?_, by decide +kernel, by decide +kernel, by decide +kernel, by decide +kernel,
    by decide +kernel⟩
  apply Reachable.step
  · apply Reachable.step
    · apply Reachable.step _ _ .empty
      exact ⟨_, rfl, .limit _ _ _ _ _, by decide +kernel⟩
    · exact ⟨_, rfl, .limit _ _ _ _ _, by decide +kernel⟩
  · exact ⟨_, rfl, .limit _ _ _ _ _, by decide +kernel⟩

end Exchange
