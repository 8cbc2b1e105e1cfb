import Mathlib
import Exchange.Analytics.SideStats

/-!
# The depth of a book

What a market data feed shows of a side: its best levels, best price first, each with
its counters. In every book a run reaches, a rung stands for all the orders resting at
its price and for no others, no rung is empty, nothing better than a rung is left out,
and the two sides of a feed do not cross.
-/

namespace Exchange

open Framework

namespace OrderBook

variable {s : Side}

def levelCount (b : OrderBook s) : ℕ := b.levels.entries.length

def levelAt (b : OrderBook s) (price : Price) : Option PriceLevel := b.levels.find? price

/-- Resting quantity at one price, hidden size included. Zero if no level. -/
def qtyAt (b : OrderBook s) (price : Price) : Quantity :=
  match b.levelAt price with
  | none => 0
  | some level => level.totalQty

end OrderBook

namespace Analytics

variable {s : Side}

/-- One rung of an L2 market-data snapshot. -/
structure L2Level where
  price : Price
  visibleQty : Quantity
  totalQty : Quantity
  orderCount : ℕ
deriving DecidableEq, Repr

def addVisibleQty (running : Quantity) (entry : Price × PriceLevel) : Quantity :=
  running + entry.2.visibleQty

/-- Total displayed quantity. -/
def visibleQty (side : OrderBook s) : Quantity :=
  side.levels.entries.foldl addVisibleQty 0

/-- Quantity resting within the best `depth` price levels. A depth from 2^63 on is negative
once it is cast to `std::ptrdiff_t`, and undefined. -/
def depthQty (side : OrderBook s) (depth : ℕ) : Quantity :=
  (side.levels.entries.take depth).foldl addTotalQty 0

def rung (entry : Price × PriceLevel) : L2Level where
  price := entry.1
  visibleQty := entry.2.visibleQty
  totalQty := entry.2.totalQty
  orderCount := entry.2.orderCount

/-- The best `depth` rungs, best price first. Undefined from 2^63 on, as `depthQty` is. -/
def l2Snapshot (side : OrderBook s) (depth : ℕ) : List L2Level :=
  (side.levels.entries.take depth).map rung

/-- Top-of-book quantities on each side. -/
structure TouchQty where
  bid : Quantity
  ask : Quantity
deriving DecidableEq, Repr

def touchQty (book : Book) : TouchQty where
  bid :=
    match book.bestBid with
    | none => 0
    | some bid => book.bids.qtyAt bid
  ask :=
    match book.bestAsk with
    | none => 0
    | some ask => book.asks.qtyAt ask

end Analytics

/-! ## A rung and its orders -/

/-- The orders resting at a price, in their order of time. -/
def Ladder.restingAt (l : Ladder) (price : Price) : List Order :=
  l.orders.filter fun o => o.restingPrice = some price

section Rungs

variable {s : Side}

theorem Ladder.restingAt_append (l l' : Ladder) (price : Price) :
    Ladder.restingAt (l ++ l') price = l.restingAt price ++ l'.restingAt price := by
  rw [restingAt, orders_append, List.filter_append]
  rfl

/-- Orders rest at the price of their level, so none rests at a price without one. -/
theorem Ladder.restingAt_eq_nil {l : Ladder} (h : l.All (Market.Placed s)) {price : Price}
    (hprice : price ∉ l.prices) : l.restingAt price = [] := by
  rw [restingAt, List.filter_eq_nil_iff]
  intro o ho hrests
  obtain ⟨e, he, hoe⟩ := mem_orders.mp ho
  have hat := (h e he o hoe).price.symm.trans (of_decide_eq_true hrests)
  exact hprice (Option.some.inj hat ▸ List.mem_map_of_mem he)

/-- A level holds all that rests at its price. -/
theorem Ladder.restingAt_level {l : Ladder} (h : l.All (Market.Placed s)) (ho : l.Ordered s)
    {e : Price × Queue} (he : e ∈ l) : l.restingAt e.1 = e.2 := by
  obtain ⟨pre, post, rfl⟩ := List.append_of_mem he
  have hnodup : (Ladder.prices (pre ++ e :: post)).Nodup := by
    refine List.Pairwise.imp ?_ ho.sorted
    rintro p q hlt rfl
    exact irrefl_of (ordering s) p hlt
  rw [Ladder.prices, List.map_append, List.map_cons] at hnodup
  obtain ⟨hpre, hpost⟩ : e.1 ∉ Ladder.prices pre ∧ e.1 ∉ Ladder.prices post := by
    rw [List.nodup_middle, List.nodup_cons, List.mem_append, not_or] at hnodup
    exact hnodup.1
  have hkept : Ladder.restingAt [e] e.1 = e.2 := by
    rw [restingAt, show Ladder.orders [e] = e.2 by simp [orders], List.filter_eq_self]
    intro o hoe
    exact decide_eq_true (h e he o hoe).price
  rw [restingAt_append, ← List.singleton_append, restingAt_append, hkept,
    restingAt_eq_nil (fun e' he' => h e' (List.mem_append_left _ he')) hpre,
    restingAt_eq_nil (fun e' he' => h e' (List.mem_append_right _ (List.mem_cons_of_mem _ he')))
      hpost, List.nil_append, List.append_nil]

end Rungs

namespace Analytics

/-- What a rung says about the orders of its side. -/
structure L2Level.Shows (rung : L2Level) (resting : Ladder) : Prop where
  some : resting.restingAt rung.price ≠ []
  orderCount : rung.orderCount = (resting.restingAt rung.price).length
  totalQty : rung.totalQty = ((resting.restingAt rung.price).map Order.remaining).sum
  visibleQty : rung.visibleQty = ((resting.restingAt rung.price).map Order.visibleQty).sum

section Depth

variable {m : BookMemory} {s : Side}

theorem mem_l2Snapshot {side : OrderBook s} {depth : ℕ} {r : L2Level}
    (h : r ∈ l2Snapshot side depth) : ∃ e ∈ side.levels.entries, r = rung e := by
  obtain ⟨e, he, rfl⟩ := List.mem_map.mp h
  exact ⟨e, List.mem_of_mem_take he, rfl⟩

/-- Every level's counters are those of the orders resting at its price. -/
theorem rung_shows (h : WellFormed m) {e : Price × PriceLevel}
    (he : e ∈ (m.state.side s).levels.entries) : (rung e).Shows (m.state.view.ladder s) := by
  have hat : (m.state.view.ladder s).restingAt e.1 = e.2.orders.map Node.order :=
    Ladder.restingAt_level (h.valid.placed s) (h.valid.ordered s)
      (e := (e.1, e.2.orders.map Node.order)) (by
        rw [Book.view_ladder]
        exact List.mem_map_of_mem he)
  have hbalanced := (h.sound s).balanced e he
  constructor
  · show (m.state.view.ladder s).restingAt e.1 ≠ []
    rw [hat]
    simpa using h.full s e he
  · show e.2.orderCount = ((m.state.view.ladder s).restingAt e.1).length
    rw [hat, List.length_map]
    rfl
  · show e.2.totalQty = (((m.state.view.ladder s).restingAt e.1).map Order.remaining).sum
    rw [hat, List.map_map, hbalanced.total]
    rfl
  · show e.2.visibleQty = (((m.state.view.ladder s).restingAt e.1).map Order.visibleQty).sum
    rw [hat, List.map_map, hbalanced.visible]
    rfl

/-- A level is among the rungs, or there are `depth` better ones. -/
theorem rung_or_better (side : OrderBook s) (depth : ℕ) {e : Price × PriceLevel}
    (he : e ∈ side.levels.entries) :
    rung e ∈ l2Snapshot side depth ∨ (l2Snapshot side depth).length = depth ∧
      ∀ r ∈ l2Snapshot side depth, ordering s r.price e.1 := by
  rw [← List.take_append_drop depth side.levels.entries] at he
  rcases List.mem_append.mp he with he | he
  · exact Or.inl (List.mem_map_of_mem he)
  · refine Or.inr ⟨?_, ?_⟩
    · have hlength := List.length_pos_of_mem he
      rw [List.length_drop] at hlength
      rw [l2Snapshot, List.length_map, List.length_take]
      omega
    · intro r hr
      obtain ⟨e', he', rfl⟩ := List.mem_map.mp hr
      have hsorted := side.levels.sorted
      rw [Entries.Sorted, ← List.take_append_drop depth side.levels.entries] at hsorted
      exact (List.pairwise_append.mp hsorted).2.2 e' he' e he

theorem sorted_l2Snapshot (side : OrderBook s) (depth : ℕ) :
    ((l2Snapshot side depth).map L2Level.price).Pairwise (ordering s) := by
  rw [l2Snapshot, List.map_map]
  exact List.pairwise_map.mpr (side.levels.sorted.sublist (List.take_sublist _ _))

theorem depthQty_eq (side : OrderBook s) (depth : ℕ) :
    depthQty side depth = ((l2Snapshot side depth).map L2Level.totalQty).sum := by
  rw [depthQty, foldl_addTotalQty, l2Snapshot, List.map_map]
  rfl

theorem sum_visibleQty {entries : List (Price × PriceLevel)}
    (h : ∀ e ∈ entries, e.2.Balanced) :
    (entries.map fun e => e.2.visibleQty).sum =
      ((ladderOf entries).orders.map Order.visibleQty).sum := by
  induction entries with
  | nil => rfl
  | cons e entries ih =>
      have hhead : e.2.visibleQty = ((e.2.orders.map Node.order).map Order.visibleQty).sum := by
        rw [(h e List.mem_cons_self).visible, List.map_map]
        rfl
      have htail := ih fun e he => h e (List.mem_cons_of_mem _ he)
      rw [List.map_cons, List.sum_cons, htail, hhead, ← List.sum_append, ← List.map_append]
      rfl

theorem visibleQty_eq (h : WellFormed m) :
    visibleQty (m.state.side s) =
      ((m.state.view.ladder s).orders.map Order.visibleQty).sum := by
  have hfold := foldl_add (fun e : Price × PriceLevel => e.2.visibleQty)
    (m.state.side s).levels.entries 0
  rw [UInt64.zero_add] at hfold
  rw [Book.view_ladder, ← sum_visibleQty (h.sound s).balanced]
  exact hfold

/-- The quantity at the best price, or zero where nothing is quoted. -/
theorem qtyAt_best (side : OrderBook s) :
    (match side.bestPrice with
      | none => 0
      | some price => side.qtyAt price) = depthQty side 1 := by
  cases hentries : side.levels.entries with
  | nil => simp [OrderBook.bestPrice, depthQty, hentries]
  | cons e entries =>
      have hfind : side.levels.find? e.1 = some e.2 := by
        refine OrderBook.find?_split (?_ : _ = [] ++ (e.1, e.2) :: entries)
        exact hentries
      simp [OrderBook.bestPrice, depthQty, hentries, OrderBook.qtyAt, OrderBook.levelAt, hfind,
        addTotalQty]

end Depth

/-- **The depth of a book.** In every book a run reaches and for every depth below 2^63,
where the source is defined, the rungs of a side are its best `depth` levels in the order of
their prices; each shows the number and the quantities, as 64-bit sums, of all orders
resting at its price, of which there is one at least; an order whose price has no rung rests
behind `depth` better ones; the quantity within that depth is the sum of the rungs' totals
and the displayed quantity that of all orders; the touch is the first rung of each side; and
no bid shown reaches an ask. -/
theorem depth_exact {m : BookMemory} (h : Reachable anyOp m) {depth : ℕ}
    (_hdepth : depth < 2 ^ 63) :
    (∀ s, ∃ rungs, l2Snapshot (m.state.side s) depth = rungs ∧
      rungs.length = min depth (m.state.side s).levelCount ∧
      (rungs.map L2Level.price).Pairwise (ordering s) ∧
      (∀ rung ∈ rungs, rung.Shows (m.state.view.ladder s)) ∧
      (∀ o ∈ (m.state.view.ladder s).orders, ∃ price, o.restingPrice = some price ∧
        ((∃ rung ∈ rungs, rung.price = price) ∨
          rungs.length = depth ∧ ∀ rung ∈ rungs, ordering s rung.price price)) ∧
      depthQty (m.state.side s) depth = (rungs.map L2Level.totalQty).sum ∧
      visibleQty (m.state.side s) =
        ((m.state.view.ladder s).orders.map Order.visibleQty).sum) ∧
    touchQty m.state = ⟨depthQty m.state.bids 1, depthQty m.state.asks 1⟩ ∧
    ∀ bid ∈ l2Snapshot m.state.bids depth, ∀ ask ∈ l2Snapshot m.state.asks depth,
      bid.price < ask.price := by
  have hwf := h.wellFormed
  refine ⟨fun s => ⟨_, rfl, ?_, sorted_l2Snapshot _ depth, ?_, ?_, depthQty_eq _ depth,
    visibleQty_eq hwf⟩, ?_, ?_⟩
  · rw [l2Snapshot, List.length_map, List.length_take]
    rfl
  · intro r hr
    obtain ⟨e, he, rfl⟩ := mem_l2Snapshot hr
    exact rung_shows hwf he
  · intro o ho
    obtain ⟨e, he, hoe⟩ := Ladder.mem_orders.mp ho
    have hprice := (hwf.valid.placed s e he o hoe).price
    rw [Book.view_ladder] at he
    obtain ⟨e', he', rfl⟩ := List.mem_map.mp he
    refine ⟨e'.1, hprice, (rung_or_better _ depth he').imp_left ?_⟩
    intro hshown
    exact ⟨_, hshown, rfl⟩
  · rw [touchQty]
    congr
    · exact qtyAt_best m.state.bids
    · exact qtyAt_best m.state.asks
  · intro bid hbid ask hask
    obtain ⟨b, hb, rfl⟩ := mem_l2Snapshot hbid
    obtain ⟨a, ha, rfl⟩ := mem_l2Snapshot hask
    have hprices : ∀ {s : Side} {e : Price × PriceLevel}, e ∈ (m.state.side s).levels.entries →
        e.1 ∈ (m.state.view.ladder s).prices := by
      intro s e he
      rw [Book.view_ladder, ladderOf_prices]
      exact List.mem_map_of_mem he
    exact hwf.valid.apart .buy b.1 (hprices hb) a.1 (hprices ha)

/-- Of the two asks at 101 seven are on display. -/
theorem depth_exact_stacked :
    l2Snapshot stacked.state.asks 2 = [⟨101, 7, 11, 2⟩, ⟨103, 4, 4, 1⟩] ∧
    (∀ rung ∈ l2Snapshot stacked.state.asks 2, rung.Shows (stacked.state.view.ladder .sell)) ∧
    depthQty stacked.state.asks 2 = 15 := by
  obtain ⟨rungs, hrungs, _, _, hshows, _, hdepth, _⟩ :=
    (depth_exact stacked_reachable (show 2 < 2 ^ 63 by norm_num)).1 .sell
  have hsnapshot : l2Snapshot stacked.state.asks 2 = [⟨101, 7, 11, 2⟩, ⟨103, 4, 4, 1⟩] := by
    decide +kernel
  refine ⟨hsnapshot, fun rung hrung => hshows rung (hrungs ▸ hrung), ?_⟩
  show depthQty (stacked.state.side .sell) 2 = 15
  rw [hdepth, ← hrungs]
  show ((l2Snapshot stacked.state.asks 2).map L2Level.totalQty).sum = 15
  rw [hsnapshot]
  rfl

end Analytics

end Exchange
