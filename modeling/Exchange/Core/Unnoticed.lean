import Exchange.Core.Market

/-!
# Changes of orders the market does not notice

A map on orders that keeps what matching looks at and commutes with what it does
to an order: applied to every order of a market, it commutes with every
operation. The map may look different on orders the market never holds, so it is
taken together with a condition on orders that trading keeps.
-/

namespace Exchange

open Framework

structure Unnoticed (P : Order → Prop) (f : Order → Order) : Prop where
  id : ∀ o, (f o).id = o.id
  account : ∀ o, (f o).account = o.account
  side : ∀ o, (f o).side = o.side
  remaining : ∀ o, (f o).remaining = o.remaining
  restingPrice : ∀ o, (f o).restingPrice = o.restingPrice
  assignSequence : ∀ o n, f (o.assignSequence n) = (f o).assignSequence n
  onPartialFill : ∀ o q, f (o.onPartialFill q) = (f o).onPartialFill q
  reduceTo : ∀ o q, f (o.reduceTo q) = (f o).reduceTo q
  cloneAmended : ∀ o q p, f (o.cloneAmended q p) = (f o).cloneAmended q p
  visibleQty : ∀ o, P o → (f o).visibleQty = o.visibleQty
  replenish : ∀ o, P o → o.needsReplenish = true → f o.replenish = (f o).replenish
  keepFill : ∀ o q, P o → q ≤ o.visibleQty → P (o.onPartialFill q)
  keepReplenish : ∀ o, P o → o.needsReplenish = true → P o.replenish

/-- Every order of a ladder replaced. -/
def Ladder.mapOrders (f : Order → Order) (l : Ladder) : Ladder :=
  l.map fun e => (e.1, e.2.map f)

def Market.mapOrders (f : Order → Order) (M : Market) : Market :=
  { bids := M.bids.mapOrders f, asks := M.asks.mapOrders f, nextSequence := M.nextSequence }

@[simp] theorem Market.ladder_mapOrders (f : Order → Order) (M : Market) (s : Side) :
    (M.mapOrders f).ladder s = (M.ladder s).mapOrders f := by
  cases s <;> rfl

theorem Market.mapOrders_setLadder (f : Order → Order) (M : Market) (s : Side)
    (l : Ladder) : (M.setLadder s l).mapOrders f =
      (M.mapOrders f).setLadder s (l.mapOrders f) := by
  cases s <;> rfl

theorem Ladder.mapOrders_orders (f : Order → Order) (l : Ladder) :
    (l.mapOrders f).orders = l.orders.map f := by
  unfold Ladder.orders Ladder.mapOrders
  rw [List.flatMap_map, List.map_flatMap]

/-- Whether an order crosses is told by its side and its resting price. -/
theorem crosses_congr {o o' : Order} (hs : o.side = o'.side)
    (hp : o.restingPrice = o'.restingPrice) (price : Price) :
    o.crosses price = o'.crosses price := by
  obtain ⟨_, _, _, _, side, kind⟩ := o
  obtain ⟨_, _, _, _, side', kind'⟩ := o'
  cases hs
  cases kind <;> cases kind' <;> cases hp <;> rfl

namespace Direct

def MatchState.mapOrders (f : Order → Order) (st : MatchState) : MatchState :=
  { st with ladder := st.ladder.mapOrders f }

def MatchResult.mapOrders (f : Order → Order) (r : MatchResult) : MatchResult :=
  { r with ladder := r.ladder.mapOrders f }

end Direct

namespace Unnoticed

variable {P : Order → Prop} {f : Order → Order} (h : Unnoticed P f)

include h

theorem isFilled (o : Order) : (f o).isFilled = o.isFilled := by
  unfold Order.isFilled
  rw [h.remaining]

theorem needsReplenish {o : Order} (ho : P o) :
    (f o).needsReplenish = o.needsReplenish := by
  unfold Order.needsReplenish
  rw [h.remaining, h.visibleQty o ho]

theorem crosses (o : Order) (price : Price) : (f o).crosses price = o.crosses price :=
  crosses_congr (h.side o) (h.restingPrice o) price

/-! ## Matching -/

theorem settle {head : Order} (tail : Queue) (ho : P head) :
    Direct.settle (f head) (tail.map f) = (Direct.settle head tail).map f := by
  unfold Direct.settle
  rw [h.isFilled, h.needsReplenish ho]
  split
  · rfl
  · split
    · rename_i hspent
      rw [← h.replenish head ho hspent, List.map_append]
      rfl
    · rfl

omit h in
theorem pushLevel (price : Price) (queue : Queue) (rest : Ladder) :
    Direct.pushLevel price (queue.map f) (rest.mapOrders f) =
      (Direct.pushLevel price queue rest).mapOrders f := by
  unfold Direct.pushLevel
  cases queue <;> rfl

theorem trade (agg : Order) (st : Direct.MatchState) (price : Price) {head : Order}
    (tail : Queue) (rest : Ladder) {qty : Quantity} (ho : P head)
    (hq : qty ≤ head.visibleQty) :
    Direct.trade (f agg) (st.mapOrders f) price (f head) (tail.map f) (rest.mapOrders f)
      qty = (Direct.trade agg st price head tail rest qty).mapOrders f := by
  have hfill : Direct.fillOf (f agg) (f head) price qty =
      Direct.fillOf agg head price qty := by
    unfold Direct.fillOf
    rw [h.id, h.id, h.account, h.account, h.side]
  unfold Direct.trade Direct.MatchState.mapOrders
  rw [hfill, ← h.onPartialFill, h.settle tail (h.keepFill head qty ho hq), pushLevel]

/-- The condition survives trading. -/
theorem kept : Direct.Kept fun _ => P := by
  intro price head left ho hqty o hmem
  have hfilled : P (head.onPartialFill (min left head.visibleQty)) :=
    h.keepFill head _ ho (by grind)
  unfold Direct.settle at hmem
  split at hmem
  · cases hmem
  · split at hmem
    · rename_i hspent
      rw [List.nil_append, List.mem_singleton] at hmem
      rw [hmem]
      exact h.keepReplenish _ hfilled hspent
    · rw [List.mem_singleton.mp hmem]
      exact hfilled

/-- One turn of matching, on a changed ladder. -/
theorem turn (agg : Order) {st : Direct.MatchState}
    (hst : st.ladder.All fun _ => P) :
    Direct.matchTurn (f agg) (st.mapOrders f) =
      match Direct.matchTurn agg st with
      | .next t => .next (t.mapOrders f)
      | .done r => .done (r.map (Direct.MatchResult.mapOrders f)) := by
  obtain ⟨left, ladder, fills⟩ := st
  by_cases hpos : 0 < left
  · rcases ladder with _ | ⟨⟨price, _ | ⟨head, tail⟩⟩, rest⟩
    · simp [Direct.matchTurn, Direct.MatchState.mapOrders, Ladder.mapOrders, hpos]
      rfl
    · simp [Direct.matchTurn, Direct.MatchState.mapOrders, Ladder.mapOrders, hpos]
      rfl
    · have hhead : P head := hst _ List.mem_cons_self head List.mem_cons_self
      have hqty : min left head.visibleQty ≤ head.visibleQty := by grind
      have htrade := h.trade agg ⟨left, (price, head :: tail) :: rest, fills⟩ price tail
        rest hhead hqty
      have hl : (Direct.MatchState.mapOrders f
          ⟨left, (price, head :: tail) :: rest, fills⟩).ladder =
            (price, f head :: tail.map f) :: Ladder.mapOrders f rest := rfl
      have hleft : (Direct.MatchState.mapOrders f
          ⟨left, (price, head :: tail) :: rest, fills⟩).left = left := rfl
      unfold Direct.matchTurn
      rw [hl, hleft, if_pos hpos, if_pos hpos]
      dsimp only
      rw [h.crosses, h.account, h.account, h.visibleQty head hhead, htrade]
      split
      · rfl
      · split
        · rfl
        · split <;> rfl
  · have hzero : ∀ a l, Direct.matchTurn a ⟨left, l, fills⟩ =
        .done (.ok (Direct.stop ⟨left, l, fills⟩ false)) := by
      intro a l
      rw [Direct.matchTurn, if_neg hpos]
    rw [Direct.MatchState.mapOrders, hzero, hzero]
    rfl

/-- **A sweep does not notice.** -/
theorem sweep (agg : Order) {ladder : Ladder} (hall : ladder.All fun _ => P) :
    Direct.sweep (f agg) (ladder.mapOrders f) =
      (Direct.sweep agg ladder).map (Direct.MatchResult.mapOrders f) := by
  unfold Direct.sweep
  refine (Direct.matchLoop (f agg)).run_related (Direct.matchLoop agg)
    (R := fun st' st => st.ladder.All (fun _ => P) ∧ st' = st.mapOrders f)
    (Q := fun r' r => r' = r.map (Direct.MatchResult.mapOrders f))
    ⟨hall, by rw [h.remaining]; rfl⟩ ?_
  rintro st' st ⟨hst, rfl⟩
  have hturn := h.turn agg hst
  cases hb : Direct.matchTurn agg st with
  | next t =>
      rw [hb] at hturn
      obtain ⟨price, head, tail, rest, hl, _, _, _, hqty, rfl⟩ := Direct.matchTurn_next hb
      exact Or.inl ⟨_, _, hturn, hb, h.kept.trade hst hl hqty, rfl⟩
  | done r =>
      rw [hb] at hturn
      exact Or.inr ⟨_, _, hturn, hb, rfl⟩

/-! ## The operations of a ladder -/

theorem find? (l : Ladder) (id : OrderId) :
    (l.mapOrders f).find? id = (l.find? id).map f := by
  unfold Ladder.find?
  rw [Ladder.mapOrders_orders, List.find?_map]
  simp only [Function.comp_def, h.id]

theorem remove (l : Ladder) (id : OrderId) :
    (l.mapOrders f).remove id = (l.remove id).mapOrders f := by
  induction l with
  | nil => rfl
  | cons e l ih =>
      have hfilter : (e.2.map f).filter (fun o => o.id ≠ id) =
          (e.2.filter fun o => o.id ≠ id).map f := by
        rw [List.filter_map]
        simp only [Function.comp_def, h.id]
      show Ladder.remove ((e.1, e.2.map f) :: Ladder.mapOrders f l) id = _
      rw [Ladder.remove_cons, Ladder.remove_cons, ih, hfilter, pushLevel]

theorem reduce (l : Ladder) (id : OrderId) (q : Quantity) :
    (l.mapOrders f).reduce id q = (l.reduce id q).mapOrders f := by
  unfold Ladder.reduce Ladder.mapOrders
  rw [List.map_map, List.map_map]
  refine List.map_congr_left fun e _ => ?_
  simp only [Function.comp_def, List.map_map, Prod.mk.injEq, true_and]
  refine List.map_congr_left fun o _ => ?_
  rw [h.id]
  split
  · rw [h.reduceTo]
  · rfl

omit h in
theorem rest (s : Side) (l : Ladder) (price : Price) (o : Order) :
    Ladder.rest s (l.mapOrders f) price (f o) = (Ladder.rest s l price o).mapOrders f := by
  unfold Ladder.rest Ladder.mapOrders
  have hins : Entries.insert (ordering s) price ([] : Queue)
      (l.map fun e => (e.1, e.2.map f)) =
        (Entries.insert (ordering s) price [] l).map fun e => (e.1, e.2.map f) :=
    Entries.insert_map price [] (List.map f) l
  rw [hins]
  unfold Entries.modify
  rw [List.map_map, List.map_map]
  refine List.map_congr_left fun e _ => ?_
  dsimp only [Function.comp]
  split <;> simp

/-! ## The operations of a market -/

section Market

variable {M : Market} {o : Order} {swept : Direct.MatchResult}

theorem locate (M : Market) (id : OrderId) :
    (M.mapOrders f).locate id = (M.locate id).map fun so => (so.1, f so.2) := by
  have hbids : (M.mapOrders f).bids.find? id = (M.bids.find? id).map f := h.find? M.bids id
  have hasks : (M.mapOrders f).asks.find? id = (M.asks.find? id).map f := h.find? M.asks id
  unfold Market.locate
  rw [hbids, hasks]
  cases M.bids.find? id with
  | some o => rfl
  | none => cases M.asks.find? id <;> rfl

theorem restsAt : Market.restsAt (f o) (swept.mapOrders f) = Market.restsAt o swept := by
  unfold Market.restsAt Direct.MatchResult.mapOrders
  rw [h.restingPrice]

theorem submitResult :
    Market.submitResult (f o) (swept.mapOrders f) = Market.submitResult o swept := by
  unfold Market.submitResult Market.submitStatus
  rw [h.restsAt, h.remaining]
  rfl

theorem settleEntry (s : Side) :
    (M.mapOrders f).settleEntry s (f o) (swept.mapOrders f) =
      (M.settleEntry s o swept).mapOrders f := by
  unfold Market.settleEntry
  rw [h.restsAt]
  cases Market.restsAt o swept with
  | none => cases s <;> rfl
  | some price =>
      dsimp only
      rw [Market.mapOrders_setLadder, ← rest, h.onPartialFill, h.assignSequence,
        h.remaining, Market.ladder_mapOrders]
      cases s <;> rfl

theorem enter (s : Side) (o : Order) (hall : (M.ladder (opposite s)).All fun _ => P) :
    (M.mapOrders f).enter s (f o) =
      (M.enter s o).map fun r => (r.1, r.2.mapOrders f) := by
  unfold Market.enter
  rw [Market.ladder_mapOrders, h.sweep o hall]
  cases Direct.sweep o (M.ladder (opposite s)) with
  | error p => rfl
  | ok swept =>
      show Except.ok _ = Except.ok _
      dsimp only
      rw [h.submitResult, h.settleEntry]

theorem keepsPlace (q : Quantity) (p : Option Price) :
    Market.keepsPlace (f o) q p = Market.keepsPlace o q p := by
  unfold Market.keepsPlace
  rw [h.restingPrice, h.remaining]

theorem replacement (q : Quantity) (p : Option Price) :
    Market.replacement (f o) q p = f (Market.replacement o q p) := by
  unfold Market.replacement
  rw [h.restingPrice, h.cloneAmended]

theorem submit (hall : ∀ s, (M.ladder s).All fun _ => P) (order : Option Order) :
    (M.mapOrders f).submit (order.map f) =
      (M.submit order).map fun r => (r.1, r.2.mapOrders f) := by
  cases order with
  | none => rfl
  | some o =>
      rw [Option.map_some, Market.submit, Market.submit, h.remaining, h.id, h.side,
        h.locate, Option.isSome_map]
      split
      · rfl
      · split
        · rfl
        · rw [h.enter o.side o (hall (opposite o.side))]
          cases M.enter o.side o <;> rfl

theorem cancel (M : Market) (id : OrderId) :
    (M.mapOrders f).cancel id =
      ((M.cancel id).1.map f, (M.cancel id).2.mapOrders f) := by
  unfold Market.cancel
  rw [h.locate]
  cases M.locate id with
  | none => rfl
  | some so =>
      show (some (f so.2), _) = _
      rw [Market.ladder_mapOrders, h.remove, ← Market.mapOrders_setLadder]
      rfl

theorem modify (hall : ∀ s, (M.ladder s).All fun _ => P) (id : OrderId) (q : Quantity)
    (p : Option Price) :
    (M.mapOrders f).modify id q p =
      (M.modify id q p).map fun r => (r.1, r.2.mapOrders f) := by
  unfold Market.modify
  split
  · rfl
  · rw [h.locate]
    cases M.locate id with
    | none => rfl
    | some so =>
        obtain ⟨s, o⟩ := so
        dsimp only [Option.map_some]
        rw [h.keepsPlace]
        split
        · rw [Market.ladder_mapOrders, h.reduce, ← Market.mapOrders_setLadder]
          rfl
        · have hall' : ((M.setLadder s ((M.ladder s).remove id)).ladder
              (opposite s)).All fun _ => P := by
            rw [Market.opposite_ladder_setLadder]
            exact hall (opposite s)
          rw [Market.ladder_mapOrders, h.remove, ← Market.mapOrders_setLadder,
            h.replacement, h.enter s _ hall']
          cases (M.setLadder s ((M.ladder s).remove id)).enter s
            (Market.replacement o q p) <;> rfl

end Market

end Unnoticed

end Exchange
