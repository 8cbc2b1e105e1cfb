import Exchange.Core.Refinement

/-!
# Runs of the book

A run starts from the empty book and takes any operations, each with its own
choice of the allocations that fail. An operation that throws, or that runs
into a precondition, leaves the memory where it stood, and the run may go on
from there: what holds of every reachable memory also holds of the one the
program is in when something goes wrong.

`allowed` restricts the operations of a run by the book they find.
-/

namespace Exchange

open Framework Framework.Exec OrderBook

inductive Reachable (allowed : Book → Op → Prop) : BookMemory → Prop where
  | empty : Reachable allowed { state := {} }
  | step {m : BookMemory} (op : Op) (fails : ℕ → Bool) (h : Reachable allowed m)
      (hop : allowed m.state op) : Reachable allowed (op.exec fails m).2

/-- No restriction on the operations. -/
def anyOp : Book → Op → Prop := fun _ _ => True

/-- One operation keeps the invariant, however it ends. -/
theorem WellFormed.exec {m : BookMemory} (h : WellFormed m) (op : Op)
    (fails : ℕ → Bool) : WellFormed (op.exec fails m).2 := by
  have href := exec_refines h op fails
  cases hx : op.exec fails m with
  | mk r m' =>
      rw [hx] at href
      cases href with
      | starved _ hm _ => exact h.of_frozen hm
      | refused _ _ _ hm => exact h.of_frozen hm
      | done _ _ _ hwf => exact hwf

/-- An operation on a well-formed memory is one of the market's, or leaves the market as
it was. -/
theorem WellFormed.transition {m : BookMemory} (h : WellFormed m) (op : Op)
    (fails : ℕ → Bool) :
    (∃ out, (op.exec fails m).1 = .ok out ∧
        Market.Transition m.state.view op out (op.exec fails m).2.state.view) ∨
      (∃ f, (op.exec fails m).1 = .error f) ∧
        (op.exec fails m).2.state.view = m.state.view := by
  have href := exec_refines h op fails
  rcases hx : op.exec fails m with ⟨r, m'⟩
  rw [hx] at href
  cases href with
  | starved _ hm _ => exact Or.inr ⟨⟨_, rfl⟩, congrArg Book.view hm.state⟩
  | refused f _ _ hm => exact Or.inr ⟨⟨f, rfl⟩, congrArg Book.view hm.state⟩
  | done out _ he _ _ => exact Or.inl ⟨out, rfl, Market.apply_ok he⟩

/-- **Every reachable memory is well formed.** -/
theorem Reachable.wellFormed {allowed : Book → Op → Prop} {m : BookMemory}
    (h : Reachable allowed m) : WellFormed m := by
  induction h with
  | empty => exact wellFormed_empty
  | step op fails _ _ ih => exact ih.exec op fails

/-- An operation on a well-formed memory is undefined only where the market it shows
says so. -/
theorem WellFormed.view_undefined {m : BookMemory} (h : WellFormed m) {op : Op}
    {fails : ℕ → Bool} {p : Precondition}
    (hp : (op.exec fails m).1 = .error (.undefined p)) :
    m.state.view.apply op = .error (.undefined p) := by
  have href := exec_refines h op fails
  cases hx : op.exec fails m with
  | mk r m' =>
      rw [hx] at href hp
      cases href with
      | starved | done => cases hp
      | refused f _ he _ =>
          cases hp
          exact he

/-- The one precondition an operation on a well-formed memory can run into is
the planner's, at an order that shows nothing. -/
theorem WellFormed.undefined {m : BookMemory} (h : WellFormed m) {op : Op}
    {fails : ℕ → Bool} {p : Precondition}
    (hp : (op.exec fails m).1 = .error (.undefined p)) : p = .positiveQuantity := by
  rcases Market.apply_error (h.view_undefined hp) with ⟨what, hw⟩ | hw
  · cases hw
  · exact Fault.undefined.inj hw

/-- A bid at 100 and an ask at 101, from two accounts. -/
def quotes : BookMemory :=
  ((Op.submit (some (limitOrder 2 .sell 8 5 101))).exec (fun _ => false)
    ((Op.submit (some (limitOrder 1 .buy 7 5 100))).exec (fun _ => false)
      { state := {} }).2).2

theorem quotes_reachable : Reachable anyOp quotes :=
  .step _ _ (.step _ _ .empty trivial) trivial

/-- Two asks at 101, the first of them an iceberg that shows 2 of 6, and one at 103. -/
def stacked : BookMemory :=
  ((Op.submit (some (limitOrder 5 .sell 8 4 103))).exec (fun _ => false)
    ((Op.submit (some (limitOrder 4 .sell 8 5 101))).exec (fun _ => false)
      ((Op.submit (some (icebergOrder 3 .sell 9 6 101 2))).exec (fun _ => false)
        { state := {} }).2).2).2

theorem stacked_reachable : Reachable anyOp stacked :=
  .step _ _ (.step _ _ (.step _ _ .empty trivial) trivial) trivial

/-! ## The book is never crossed -/

/-- After every operation one side is empty or the best bid is below the best
ask, and no operation reaches a check that does not hold: `!isCrossed()` at the
end of `submit` is as idle as the missing one in `modify`. -/
theorem never_crossed {m : BookMemory} (h : Reachable anyOp m) :
    (m.state.bids.levels.entries = [] ∨ m.state.asks.levels.entries = [] ∨
      ∃ bid ask, m.state.bestBid = some bid ∧ m.state.bestAsk = some ask ∧ bid < ask) ∧
    ∀ (op : Op) fails p, (op.exec fails m).1 = .error (.undefined p) →
      p = .positiveQuantity := by
  refine ⟨?_, fun op fails p hp => h.wellFormed.undefined hp⟩
  have hvalid := h.wellFormed.valid
  cases hb : m.state.bids.levels.entries with
  | nil => exact Or.inl rfl
  | cons bid bids =>
      cases ha : m.state.asks.levels.entries with
      | nil => exact Or.inr (Or.inl rfl)
      | cons ask asks =>
          refine Or.inr (Or.inr ⟨bid.1, ask.1, ?_, ?_, ?_⟩)
          · rw [Book.bestBid, bestPrice, hb]
            rfl
          · rw [Book.bestAsk, bestPrice, ha]
            rfl
          · refine hvalid.apart .buy bid.1 ?_ ask.1 ?_
            · rw [Book.view_ladder, ladderOf_prices]
              show bid.1 ∈ m.state.bids.levels.entries.map Prod.fst
              rw [hb]
              exact List.mem_cons_self
            · rw [Book.view_ladder, ladderOf_prices]
              show ask.1 ∈ m.state.asks.levels.entries.map Prod.fst
              rw [ha]
              exact List.mem_cons_self

theorem never_crossed_quotes :
    quotes.state.bestBid = some 100 ∧ quotes.state.bestAsk = some 101 ∧
    (quotes.state.bids.levels.entries = [] ∨ quotes.state.asks.levels.entries = [] ∨
      ∃ bid ask, quotes.state.bestBid = some bid ∧ quotes.state.bestAsk = some ask ∧
        bid < ask) ∧
    ∀ (op : Op) fails p, (op.exec fails quotes).1 = .error (.undefined p) →
      p = .positiveQuantity :=
  ⟨by decide +kernel, by decide +kernel, never_crossed quotes_reachable⟩

/-! ## Index and levels agree -/

/-- Index, levels and queues describe the same orders. -/
structure IndexAgrees (b : Book) : Prop where
  /-- Every index entry names the level and the list node of that order. -/
  indexed : ∀ s id loc, (b.side s).index.lookup id = some loc →
    ∃ level, (loc.price, level) ∈ (b.side s).levels.entries ∧
      ∃ n ∈ level.orders, n.addr = loc.position ∧ n.order.id = id
  /-- Every linked order is found through the index, at its own node. -/
  linked : ∀ s, ∀ e ∈ (b.side s).levels.entries, ∀ n ∈ e.2.orders,
    (b.side s).index.lookup n.order.id = some ⟨e.1, n.addr⟩
  /-- A node is linked in one place. -/
  nodes : ∀ s, (((b.side s).levels.entries.flatMap fun e => e.2.orders).map
    Node.addr).Nodup
  keyed : ∀ s, ∀ e ∈ (b.side s).levels.entries, e.2.price = e.1
  orders : ∀ s, ∀ e ∈ (b.side s).levels.entries, ∀ n ∈ e.2.orders,
    n.order.side = s ∧ n.order.restingPrice = some e.2.price
  /-- No id rests twice, within a side or across the two. -/
  ids : ((b.bids.levels.entries ++ b.asks.levels.entries).flatMap
    fun e => e.2.orders.map fun n => n.order.id).Nodup

/-- Every order linked in `b` satisfies `P`. -/
def Book.AllOrders (b : Book) (P : Order → Prop) : Prop :=
  ∀ s, ∀ e ∈ (b.side s).levels.entries, ∀ n ∈ e.2.orders, P n.order

/-- The representation invariant of a book. -/
structure Representation (b : Book) : Prop extends IndexAgrees b where
  alive : b.AllOrders fun o => 0 < o.remaining
  full : ∀ s, ∀ e ∈ (b.side s).levels.entries, e.2.empty = false
  sorted : ∀ s, ((b.side s).levels.entries.map Prod.fst).Pairwise (ordering s)

theorem mem_view_of_linked {b : Book} {s : Side} {e : Price × PriceLevel} {n : Node}
    (he : e ∈ (b.side s).levels.entries) (hn : n ∈ e.2.orders) :
    (e.1, e.2.orders.map Node.order) ∈ b.view.ladder s ∧
      n.order ∈ e.2.orders.map Node.order := by
  rw [Book.view_ladder]
  exact ⟨List.mem_map.mpr ⟨e, he, rfl⟩, List.mem_map_of_mem hn⟩

theorem Book.allOrders_iff {b : Book} {P : Order → Prop} :
    b.AllOrders P ↔ ∀ s, (b.view.ladder s).All fun _ o => P o := by
  constructor
  · intro h s
    rw [Book.view_ladder]
    intro e he o ho
    obtain ⟨e', he', rfl⟩ := List.mem_map.mp he
    obtain ⟨n, hn, rfl⟩ := List.mem_map.mp ho
    exact h s e' he' n hn
  · intro h s e he n hn
    obtain ⟨hmem, hn'⟩ := mem_view_of_linked he hn
    exact h s _ hmem _ hn'

theorem WellFormed.representation {m : BookMemory} (h : WellFormed m) :
    Representation m.state where
  indexed s id loc hloc := by
    obtain ⟨pre, level, post, as, n, bs, hb, hl, hid, haddr⟩ := (h.sound s).locate hloc
    refine ⟨level, ?_, n, ?_, haddr, hid⟩
    · rw [hb]
      exact List.mem_append_right _ List.mem_cons_self
    · rw [hl]
      exact List.mem_append_right _ List.mem_cons_self
  linked s e he n hn := by
    refine ((h.sound s).indexed.lookup_iff _ _).mpr ?_
    exact List.mem_flatMap.mpr ⟨e, he, List.mem_map.mpr ⟨n, hn, rfl⟩⟩
  nodes s := by
    have hpos := (h.sound s).positions
    unfold occupants at hpos
    rw [List.map_flatMap] at hpos ⊢
    simpa [List.map_map, Function.comp_def, occupant] using hpos
  keyed s e he := (h.sound s).keyed e he
  orders s e he n hn := by
    obtain ⟨hmem, hn'⟩ := mem_view_of_linked he hn
    have hp := h.valid.placed s _ hmem _ hn'
    refine ⟨hp.side, ?_⟩
    rw [hp.price, (h.sound s).keyed e he]
  alive s e he n hn := by
    obtain ⟨hmem, hn'⟩ := mem_view_of_linked he hn
    exact UInt64.pos_iff_ne_zero.mpr (h.valid.placed s _ hmem _ hn').alive
  full s e he := by
    have hfull := h.full s e he
    simpa [PriceLevel.empty] using hfull
  sorted s := by
    rw [← ladderOf_prices, ← Book.view_ladder]
    exact (h.valid.ordered s).sorted
  ids := by
    have hnd := h.valid.ids .buy
    rw [Book.view_ids, Book.view_ids] at hnd
    rw [List.flatMap_append]
    exact hnd

/-- **Representation invariant.** Whatever the operations were and however they
ended, index, levels and queues describe the same orders. -/
theorem representation_invariant {m : BookMemory} (h : Reachable anyOp m) :
    Representation m.state :=
  h.wellFormed.representation

theorem representation_invariant_quotes :
    quotes.state.bids.index.lookup 1 = some ⟨100, 0⟩ ∧ Representation quotes.state :=
  ⟨by decide +kernel, representation_invariant quotes_reachable⟩

/-! ## Cached aggregates -/

theorem WellFormed.orderCount {m : BookMemory} (h : WellFormed m) (s : Side) :
    ((m.state.side s).levels.entries.map fun e => e.2.orderCount).sum =
      (m.state.side s).orderCount := by
  unfold OrderBook.orderCount
  rw [(h.sound s).indexed.card_keys, occupants, List.length_flatMap]
  congr 1
  refine List.map_congr_left fun e _ => ?_
  rw [List.length_map]
  rfl

/-- **Cached aggregates.** The counters of a level are the sums over its queue,
modulo 2^64, and the levels of a side hold as many orders as its index. -/
theorem aggregates_exact {m : BookMemory} (h : Reachable anyOp m) (s : Side) :
    (∀ e ∈ (m.state.side s).levels.entries,
      e.2.totalQty = (e.2.orders.map fun n => n.order.remaining).sum ∧
      e.2.visibleQty = (e.2.orders.map fun n => n.order.visibleQty).sum) ∧
    ((m.state.side s).levels.entries.map fun e => e.2.orderCount).sum =
      (m.state.side s).orderCount := by
  refine ⟨fun e he => ?_, h.wellFormed.orderCount s⟩
  have hbal := (h.wellFormed.sound s).balanced e he
  exact ⟨hbal.total, hbal.visible⟩

theorem aggregates_exact_stacked :
    stacked.state.asks.levels.entries.map (fun e => (e.2.totalQty, e.2.visibleQty)) =
      [(11, 7), (4, 4)] ∧
    (∀ e ∈ (stacked.state.side .sell).levels.entries,
      e.2.totalQty = (e.2.orders.map fun n => n.order.remaining).sum ∧
      e.2.visibleQty = (e.2.orders.map fun n => n.order.visibleQty).sum) ∧
    ((stacked.state.side .sell).levels.entries.map fun e => e.2.orderCount).sum =
      (stacked.state.side .sell).orderCount :=
  ⟨by decide +kernel, aggregates_exact stacked_reachable .sell⟩

/-! ## Strong exception guarantee -/

/-- **Strong exception guarantee.** An operation that throws leaves the book as
it was, whichever allocation failed. And every allocation an operation makes,
whether it succeeds in the end or not, finds the book as it was: once anything
has changed nothing is allocated any more, so neither the fill vector nor the
index outgrows what was reserved, and no exception meets a `noexcept`. -/
theorem strong_guarantee {m : BookMemory} (h : Reachable anyOp m) (op : Op)
    (fails : ℕ → Bool) :
    (∀ e, (op.exec fails m).1 = .error (.throws e) →
      (op.exec fails m).2.state = m.state) ∧
    (∃ k, (op.exec fails m).2.snapshots = m.snapshots ++ List.replicate k m.state) ∧
    (op.exec fails m).1 ≠ .error .terminate := by
  have href := exec_refines h.wellFormed op fails
  cases hx : op.exec fails m with
  | mk r m' =>
      rw [hx] at href
      cases href with
      | starved _ hm _ =>
          exact ⟨fun _ _ => hm.state, hm.snapshots, fun hr => (by cases hr)⟩
      | refused f _ he hm =>
          refine ⟨fun _ _ => hm.state, hm.snapshots, fun hr => ?_⟩
          cases hr
          rcases Market.apply_error he with ⟨_, hw⟩ | hw <;> cases hw
      | done _ _ _ _ hsnap =>
          exact ⟨fun _ hr => (by cases hr), hsnap, fun hr => (by cases hr)⟩

/-- The crossing amendment of the bid fails at its last allocation. -/
theorem strong_guarantee_quotes :
    ((Op.modify 1 9 (some 101)).exec (fun n => n == 16) quotes).1 =
      .error (.throws .badAlloc) ∧
    (∀ e, ((Op.modify 1 9 (some 101)).exec (fun n => n == 16) quotes).1 =
        .error (.throws e) →
      ((Op.modify 1 9 (some 101)).exec (fun n => n == 16) quotes).2.state =
        quotes.state) ∧
    (∃ k, ((Op.modify 1 9 (some 101)).exec (fun n => n == 16) quotes).2.snapshots =
      quotes.snapshots ++ List.replicate k quotes.state) ∧
    ((Op.modify 1 9 (some 101)).exec (fun n => n == 16) quotes).1 ≠
      .error .terminate :=
  ⟨by decide +kernel, strong_guarantee quotes_reachable _ _⟩

end Exchange
