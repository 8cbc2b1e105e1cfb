import Exchange.Analytics.SideStats
import Exchange.Core.Conservation

/-!
# What the statistics say about the next order

`qtyThrough` cuts the levels off with `upper_bound` and adds up their counters. The
matcher walks the levels for as long as the order crosses them, and each of them one
tranche after the other. For an order that meets none of its own account's, the two come to
the same quantity.
-/

namespace Exchange

open Framework Framework.Exec OrderBook

/-- What the statistics say an order will find: everything up to its limit, or everything
there is. -/
def Analytics.available {s : Side} (side : OrderBook s) : Option Price → Quantity
  | some worst => qtyThrough side worst
  | none => restingQty side

/-! ## How far an order reaches among strangers -/

section Reach

variable {agg : Order} {ladder : Ladder}

/-- No order on the ladder belongs to the account of `agg`. -/
def Ladder.Strangers (agg : Order) (ladder : Ladder) : Prop :=
  ladder.All fun _ o => o.account ≠ agg.account

/-- Among strangers an order reaches everything on the levels it crosses. -/
theorem reach_strangers (hs : ladder.All fun _ o => Shown o) (h : ladder.Strangers agg) :
    reach agg ladder = (((ladder.takeWhile fun e => agg.crosses e.1).map
      fun e => total (e.2.map Order.remaining)).sum, false) := by
  induction ladder with
  | nil => rfl
  | cons e rest ih =>
      obtain ⟨price, queue⟩ := e
      have hrest : Ladder.Strangers agg rest := fun e he => h e (List.mem_cons_of_mem _ he)
      have hshown : Ladder.All (fun _ o => Shown o) rest :=
        fun e he => hs e (List.mem_cons_of_mem _ he)
      have hqueue : queueReach agg queue = (total (queue.map Order.remaining), false) := by
        unfold queueReach
        rw [if_neg]
        · refine congrArg (fun amounts => (List.sum amounts, false)) ?_
          rw [List.map_map]
          exact List.map_congr_left fun o ho =>
            (hs (price, queue) List.mem_cons_self o ho).supply
        · simp only [List.any_eq_true, decide_eq_true_eq, not_exists, not_and]
          exact h (price, queue) List.mem_cons_self
      rw [reach, List.takeWhile_cons]
      split
      · rw [hqueue, ih hshown hrest]
        simp [joinReach]
      · rfl

/-- An order with a limit crosses what does not lie behind its limit. -/
theorem crosses_iff {worst price : Price} (h : agg.restingPrice = some worst) :
    agg.crosses price = decide (¬ ordering (opposite agg.side) worst price) := by
  obtain ⟨_, _, _, _, side, kind⟩ := agg
  cases kind with
  | market => cases h
  | limit limit | iceberg limit display visible =>
      cases h
      cases side <;>
        simp only [Order.crosses, opposite, ordering, AskOrdering, BidOrdering] <;>
        grind

theorem crosses_market {price : Price} (h : agg.restingPrice = none) :
    agg.crosses price = true := by
  obtain ⟨_, _, _, _, _, kind⟩ := agg
  cases kind with
  | market => rfl
  | limit | iceberg => cases h

end Reach

/-- **The statistics count what an order reaches.** -/
theorem available_eq_reach {s : Side} {side : OrderBook s} {agg : Order}
    (hside : s = opposite agg.side) (hbal : ∀ e ∈ side.levels.entries, e.2.Balanced)
    (hfits : side.queued < 2 ^ 64)
    (hshown : (ladderOf side.levels.entries).All fun _ o => Shown o)
    (hown : (ladderOf side.levels.entries).Strangers agg) :
    (Analytics.available side agg.restingPrice).toNat =
      (reach agg (ladderOf side.levels.entries)).1 := by
  have hqueued : ∀ entries : List (Price × PriceLevel),
      ((ladderOf entries).map fun e => total (e.2.map Order.remaining)).sum =
        queuedAt entries := by
    intro entries
    unfold ladderOf queuedAt PriceLevel.queued
    rw [List.map_map]
    simp [Function.comp_def]
  rw [reach_strangers hshown hown]
  have hcut : ∀ p : Price → Bool, (ladderOf side.levels.entries).takeWhile (fun e => p e.1) =
      ladderOf (side.levels.entries.takeWhile fun e => p e.1) := by
    intro p
    unfold ladderOf
    rw [List.takeWhile_map]
    rfl
  dsimp only
  rw [hcut agg.crosses, hqueued]
  -- A limit cuts the levels off where the statistics do; without one all are crossed.
  cases hlimit : agg.restingPrice with
  | some worst =>
      have hpred : (fun e : Price × PriceLevel => agg.crosses e.1) =
          fun e => decide (¬ ordering s worst e.1) := by
        funext e
        rw [crosses_iff hlimit, hside]
      rw [hpred]
      exact accumulate_front hbal hfits (List.takeWhile_prefix _)
  | none =>
      have hall : side.levels.entries.takeWhile (fun e => agg.crosses e.1) =
          side.levels.entries :=
        List.takeWhile_eq_self_iff.mpr fun e _ => crosses_market hlimit
      rw [hall]
      exact (accumulate_exact_iff hbal).mpr hfits

/-- What an order fills for is what it reaches, up to what it asks for. -/
theorem filledQty_eq {agg : Order} {ladder : Ladder} {swept : Direct.MatchResult}
    {available : Quantity}
    (hfull : ∀ e ∈ ladder, e.2 ≠ []) (hsw : Direct.sweep agg ladder = .ok swept)
    (h : available.toNat = (reach agg ladder).1) :
    agg.remaining - swept.left = min agg.remaining available := by
  have hle := Direct.sweep_left_le hsw
  have hreach := (sweep_reach hfull hsw).1
  rw [← h, ← UInt64.toNat_sub_of_le _ _ hle] at hreach
  apply UInt64.toNat_inj.mp
  rw [hreach, show min agg.remaining available =
    if agg.remaining ≤ available then agg.remaining else available from rfl]
  by_cases hcase : agg.remaining ≤ available
  · rw [if_pos hcase, Nat.min_eq_left (UInt64.le_iff_toNat_le.mp hcase)]
  · rw [if_neg hcase, Nat.min_eq_right]
    rw [UInt64.le_iff_toNat_le] at hcase
    exact Nat.le_of_not_le hcase

/-- **The statistics predict execution.** On a book whose index and levels agree, with no
empty level, not crossed, whose counters are right modulo 2^64 and whose orders show
something and no more than they have: if less than 2^64 rests on each side and nothing on
the other side belongs to the order's account, an order that passes validation fills for
what `qtyThrough` says at its limit, or `restingQty` says if it has none, and for no more
than it asks for, unless memory runs out. -/
theorem fills_predicted {m : BookMemory} (hagree : IndexAgrees m.state)
    (hheap : Allocated m) (hcross : m.state.isCrossed = false)
    (hfull : ∀ s, ∀ e ∈ (m.state.side s).levels.entries, e.2.empty = false)
    (horders : m.state.AllOrders fun x =>
      x.Object ∧ 0 < x.visibleQty ∧ x.visibleQty ≤ x.remaining)
    (hbal : ∀ s, ∀ e ∈ (m.state.side s).levels.entries, e.2.Balanced)
    (hfits : ∀ s, (m.state.side s).queued < 2 ^ 64)
    {o : Order} {fails : ℕ → Bool} (hv : (Book.validate o fails m).1 = .ok ())
    (hown : ∀ e ∈ (m.state.side (opposite o.side)).levels.entries, ∀ n ∈ e.2.orders,
      n.order.account ≠ o.account) :
    (Book.submit (some o) fails m).1 = .error (.throws .badAlloc) ∧ (∃ n, fails n = true) ∨
      ∃ res m', Book.submit (some o) fails m = (.ok res, m') ∧
        res.filledQty = min o.remaining
          (Analytics.available (m.state.side (opposite o.side)) o.restingPrice) := by
  have hc : Consistent m := .of_agrees hagree hheap
    (fun s e he n hn =>
      UInt64.lt_of_lt_of_le (horders s e he n hn).2.1 (horders s e he n hn).2.2) hfull hcross
  have hshown := Book.allShown_of_objects horders
  rcases hc.submit_valid hshown hv with herr | ⟨res, m', hsub, hspec⟩
  · exact Or.inl herr
  refine Or.inr ⟨res, m', hsub, ?_⟩
  have hstrangers :
      (ladderOf (m.state.side (opposite o.side)).levels.entries).Strangers o := by
    intro e he x hx
    obtain ⟨e', he', rfl⟩ := List.mem_map.mp he
    obtain ⟨n, hn, rfl⟩ := List.mem_map.mp hx
    exact hown e' he' n hn
  have hqueues : ∀ e ∈ m.state.view.ladder (opposite o.side), e.2 ≠ [] := by
    rw [Book.view_ladder]
    refine ladderOf_full fun e he hnil => ?_
    have hempty := hfull _ e he
    rw [PriceLevel.empty, hnil] at hempty
    cases hempty
  have htrans := Market.apply_ok hspec
  generalize m'.state.view = M' at htrans
  -- A submit that went through is an entry.
  cases htrans with
  | entered _ swept hq hid hsw =>
      refine filledQty_eq hqueues hsw ?_
      have hside := hshown (opposite o.side)
      rw [Book.view_ladder] at hside ⊢
      exact available_eq_reach rfl (hbal _) (hfits _) hside hstrangers

/-- A buyer of 9 with a limit of 101 takes the five on offer. -/
theorem fills_predicted_quotes :
    Analytics.qtyThrough quotes.state.asks 101 = 5 ∧
    ((Book.submit (some (limitOrder 3 .buy 9 9 101)) (fun _ => false) quotes).1 =
        .error (.throws .badAlloc) ∧ (∃ n : ℕ, (fun _ => false) n = true) ∨
      ∃ res m', Book.submit (some (limitOrder 3 .buy 9 9 101)) (fun _ => false) quotes =
          (.ok res, m') ∧
        res.filledQty = min 9 (Analytics.qtyThrough quotes.state.asks 101)) := by
  have hwf := quotes_reachable.wellFormed
  refine ⟨by decide +kernel, fills_predicted hwf.representation.toIndexAgrees hwf.allocated
    (by decide +kernel) hwf.representation.full quotes_orders
    (fun s => (hwf.sound s).balanced) ?_ (by decide +kernel) (by decide +kernel)⟩
  intro s
  cases s <;> decide +kernel

end Exchange
