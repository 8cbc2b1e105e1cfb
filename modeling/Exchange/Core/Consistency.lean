import Exchange.Core.Mirror

/-!
# Books whose aggregates may be anything

The cached aggregates of a level are written by every operation and read by
none. A book whose index and levels agree therefore behaves as the same book
with its aggregates recomputed, and refines the market it shows just as well.
-/

namespace Exchange

open Framework Framework.Exec OrderBook

/-- Nothing lives at an address still to be handed out. -/
def Allocated (m : BookMemory) : Prop :=
  ∀ s, ∀ e ∈ (m.state.side s).levels.entries, ∀ n ∈ e.2.orders, n.addr < m.ticks

theorem WellFormed.allocated {m : BookMemory} (h : WellFormed m) : Allocated m :=
  fun s _ he _ hn => h.fresh s _ (List.mem_flatMap.mpr ⟨_, he, List.mem_map_of_mem hn⟩)

namespace IndexAgrees

variable {b : Book} (h : IndexAgrees b) (s : Side)

include h

theorem ids_view : ((b.view.ladder s).ids ++ (b.view.ladder (opposite s)).ids).Nodup := by
  have hnd := h.ids
  rw [List.flatMap_append] at hnd
  rw [Book.view_ids, Book.view_ids]
  cases s with
  | buy => exact hnd
  | sell => exact List.nodup_append_comm.mp hnd

theorem indexes : Indexes (b.side s).index (occupants (b.side s).levels.entries) := by
  refine ⟨?_, fun id loc => ⟨fun hloc => ?_, fun hmem => ?_⟩⟩
  · rw [← ladderOf_ids, ← Book.view_ladder]
    exact (List.nodup_append.mp (h.ids_view s)).1
  · obtain ⟨level, he, n, hn, haddr, hid⟩ := h.indexed s id loc hloc
    refine List.mem_flatMap.mpr ⟨_, he, List.mem_map.mpr ⟨n, hn, ?_⟩⟩
    rw [occupant, hid, haddr]
  · obtain ⟨e, he, hocc⟩ := List.mem_flatMap.mp hmem
    obtain ⟨n, hn, heq⟩ := List.mem_map.mp hocc
    cases heq
    exact h.linked s e he n hn

theorem positions :
    ((occupants (b.side s).levels.entries).map fun o => o.2.position).Nodup := by
  have hnodes := h.nodes s
  unfold occupants
  rw [List.map_flatMap] at hnodes ⊢
  simpa [List.map_map, Function.comp_def, occupant] using hnodes

theorem placed (halive : b.AllOrders fun o => 0 < o.remaining) :
    (b.view.ladder s).All (Market.Placed s) := by
  rw [Book.view_ladder]
  intro e he o ho
  obtain ⟨e', he', rfl⟩ := List.mem_map.mp he
  obtain ⟨n, hn, rfl⟩ := List.mem_map.mp ho
  obtain ⟨hside, hprice⟩ := h.orders s e' he' n hn
  refine ⟨hside, ?_, UInt64.pos_iff_ne_zero.mp (halive s e' he' n hn)⟩
  rw [hprice, h.keyed s e' he']

end IndexAgrees

/-- In a book that is not crossed every bid is below every ask. -/
theorem apart_of_uncrossed {b : Book} (h : b.isCrossed = false) :
    ∀ p ∈ (b.view.ladder .buy).prices, ∀ q ∈ (b.view.ladder .sell).prices, p < q := by
  intro p hp q hq
  rw [Book.view_ladder, ladderOf_prices] at hp hq
  have hbids : (b.bids.levels.entries.map Prod.fst).Pairwise (ordering .buy) :=
    List.pairwise_map.mpr b.bids.levels.sorted
  have hasks : (b.asks.levels.entries.map Prod.fst).Pairwise (ordering .sell) :=
    List.pairwise_map.mpr b.asks.levels.sorted
  unfold Book.isCrossed Book.bestBid Book.bestAsk bestPrice at h
  rw [← List.head?_map, ← List.head?_map] at h
  change p ∈ b.bids.levels.entries.map Prod.fst at hp
  change q ∈ b.asks.levels.entries.map Prod.fst at hq
  generalize b.bids.levels.entries.map Prod.fst = bids at hp hbids h
  generalize b.asks.levels.entries.map Prod.fst = asks at hq hasks h
  rcases bids with _ | ⟨bid, bids⟩
  · cases hp
  rcases asks with _ | ⟨ask, asks⟩
  · cases hq
  have hbest : bid < ask := by simpa using h
  have hbid : p ≤ bid := by
    rcases List.mem_cons.mp hp with rfl | hp
    · exact Int64.le_refl _
    · have hlt : bid > p := (List.pairwise_cons.mp hbids).1 p hp
      exact Int64.le_of_lt hlt
  have hask : ask ≤ q := by
    rcases List.mem_cons.mp hq with rfl | hq
    · exact Int64.le_refl _
    · exact Int64.le_of_lt ((List.pairwise_cons.mp hasks).1 q hq)
  exact Int64.lt_of_le_of_lt hbid (Int64.lt_of_lt_of_le hbest hask)

/-- The market shown by a book whose index and levels agree, that has no empty
level and is not crossed. -/
theorem IndexAgrees.valid {b : Book} (h : IndexAgrees b)
    (halive : b.AllOrders fun o => 0 < o.remaining)
    (hfull : ∀ s, ∀ e ∈ (b.side s).levels.entries, e.2.empty = false)
    (hcross : b.isCrossed = false) : b.view.Valid := by
  have hord : ∀ s, (b.view.ladder s).Ordered s := by
    intro s
    rw [Book.view_ladder]
    refine ⟨?_, ladderOf_full fun e he hnil => ?_⟩
    · rw [ladderOf_prices]
      exact List.pairwise_map.mpr (b.side s).levels.sorted
    · have hempty := hfull s e he
      rw [PriceLevel.empty, hnil] at hempty
      cases hempty
  exact Market.valid_of_side .buy (hord .buy) (hord .sell) (h.placed .buy halive)
    (h.placed .sell halive) (h.ids_view .buy) (apart_of_uncrossed hcross)

/-! ## Recomputing the aggregates -/

def PriceLevel.rebalance (l : PriceLevel) : PriceLevel :=
  { l with totalQty := sumRemaining l.orders, visibleQty := sumVisible l.orders }

/-- One side with the aggregates of every level recomputed. -/
def OrderBook.rebalance {s : Side} (b : OrderBook s) : OrderBook s :=
  { b with levels :=
      ⟨b.levels.entries.map fun e => (e.1, e.2.rebalance), by
        rw [Entries.Sorted, List.pairwise_map]
        exact b.levels.sorted⟩ }

def Book.rebalance (b : Book) : Book :=
  { b with bids := b.bids.rebalance, asks := b.asks.rebalance }

@[simp] theorem Book.rebalance_side (b : Book) (s : Side) :
    b.rebalance.side s = (b.side s).rebalance := by
  cases s <;> rfl

theorem ladderOf_rebalance (entries : List (Price × PriceLevel)) :
    ladderOf (entries.map fun e => (e.1, e.2.rebalance)) = ladderOf entries := by
  unfold ladderOf
  rw [List.map_map]
  rfl

theorem occupants_rebalance (entries : List (Price × PriceLevel)) :
    occupants (entries.map fun e => (e.1, e.2.rebalance)) = occupants entries := by
  unfold occupants
  rw [List.flatMap_map]
  rfl

@[simp] theorem Book.rebalance_view (b : Book) : b.rebalance.view = b.view := by
  have hbids : ladderOf b.rebalance.bids.levels.entries = ladderOf b.bids.levels.entries :=
    ladderOf_rebalance _
  have hasks : ladderOf b.rebalance.asks.levels.entries = ladderOf b.asks.levels.entries :=
    ladderOf_rebalance _
  unfold Book.view
  rw [hbids, hasks]
  rfl

/-- Recomputing right aggregates changes nothing. -/
theorem Book.rebalance_eq_self {b : Book}
    (h : ∀ s, ∀ e ∈ (b.side s).levels.entries, e.2.Balanced) : b.rebalance = b := by
  have hlevel : ∀ l : PriceLevel, l.Balanced → l.rebalance = l := by
    intro l hl
    unfold PriceLevel.rebalance
    rw [← hl.total, ← hl.visible]
  have hside : ∀ s, (b.side s).rebalance = b.side s := by
    intro s
    have hentries : (b.side s).levels.entries.map (fun e => (e.1, e.2.rebalance)) =
        (b.side s).levels.entries := by
      conv_rhs => rw [← List.map_id (b.side s).levels.entries]
      exact List.map_congr_left fun e he => Prod.ext rfl (hlevel e.2 (h s e he))
    unfold OrderBook.rebalance
    congr 1
    exact OrderedMap.ext hentries
  have hbids : b.bids.rebalance = b.bids := hside .buy
  have hasks : b.asks.rebalance = b.asks := hside .sell
  unfold Book.rebalance
  rw [hbids, hasks]

namespace Symmetry

theorem node_same (n : Node) : Symmetry.same.node n = n := by
  obtain ⟨_, _, _, _, _, _, kind⟩ := n
  cases kind <;> rfl

theorem alike_rebalance (b : Book) : Symmetry.same.BookAlike b b.rebalance := by
  refine ⟨fun s => ?_, rfl⟩
  show Symmetry.same.SideAlike (b.side s) (b.rebalance.side s)
  rw [Book.rebalance_side]
  refine ⟨?_, fun id => ?_, rfl⟩
  · refine List.forall₂_map_right_iff.mpr (List.forall₂_same.mpr fun e _ => ⟨rfl, rfl, ?_⟩)
    exact (List.map_id'' node_same _).symm
  · exact Option.map_id'.symm

theorem LevelsAlike.rebalance_eq {l l' : List (Price × PriceLevel)}
    (h : Symmetry.same.LevelsAlike l l') :
    l.map (fun e => (e.1, e.2.rebalance)) = l'.map fun e => (e.1, e.2.rebalance) := by
  induction h with
  | nil => rfl
  | @cons e e' _ _ he _ ih =>
      have horders : e'.2.orders = e.2.orders := by
        rw [he.2.orders]
        exact List.map_id'' node_same _
      have hprice : e'.2.price = e.2.price := he.2.price
      rw [List.map_cons, List.map_cons, ih]
      congr 1
      refine Prod.ext he.1.symm ?_
      unfold PriceLevel.rebalance
      rw [horders, hprice]

theorem SideAlike.rebalance_eq {s : Side} {b b' : OrderBook s}
    (h : Symmetry.same.SideAlike b b') : b.rebalance = b'.rebalance := by
  have hindex : b.index = b'.index := by
    refine Finmap.ext_lookup fun id => ?_
    rw [h.index]
    exact Option.map_id'.symm
  unfold OrderBook.rebalance
  congr 1
  · exact OrderedMap.ext h.levels.rebalance_eq
  · exact h.buckets.symm

/-- Books that differ in their aggregates only agree once these are recomputed. -/
theorem BookAlike.rebalance_eq {b b' : Book} (h : Symmetry.same.BookAlike b b') :
    b.rebalance = b'.rebalance := by
  have hbids : b.bids.rebalance = b'.bids.rebalance := (h.sides .buy).rebalance_eq
  have hasks : b.asks.rebalance = b'.asks.rebalance := (h.sides .sell).rebalance_eq
  unfold Book.rebalance
  rw [hbids, hasks, h.nextSequence]

theorem op_same (op : Op) : Symmetry.same.op op = op := by
  have horder : Symmetry.same.order = id := funext fun o => by
    obtain ⟨_, _, _, _, _, kind⟩ := o
    cases kind <;> rfl
  cases op with
  | submit order =>
      show Op.submit (order.map Symmetry.same.order) = _
      rw [horder, Option.map_id]
      rfl
  | cancel id => rfl
  | modify id q p => exact congrArg (Op.modify id q) Option.map_id'

theorem outcome_same (out : Outcome) : Symmetry.same.outcome out = out := by
  have horder : Symmetry.same.order = id := funext fun o => by
    obtain ⟨_, _, _, _, _, kind⟩ := o
    cases kind <;> rfl
  have hfills : ∀ fills : List Fill, fills.map Symmetry.same.fill = fills :=
    fun fills => List.map_id'' (fun _ => rfl) fills
  cases out with
  | submitted r =>
      show Outcome.submitted { r with fills := r.fills.map Symmetry.same.fill } = _
      rw [hfills]
  | cancelled order =>
      show Outcome.cancelled (order.map Symmetry.same.order) = _
      rw [horder, Option.map_id]
      rfl
  | modified r =>
      show Outcome.modified { r with fills := r.fills.map Symmetry.same.fill } = _
      rw [hfills]

end Symmetry

/-! ## Consistent memories -/

/-- Well formed, once the aggregates are recomputed. -/
def Consistent (m : BookMemory) : Prop :=
  WellFormed { m with state := m.state.rebalance }

namespace Consistent

variable {m : BookMemory}

theorem of_agrees (h : IndexAgrees m.state) (ha : Allocated m)
    (halive : m.state.AllOrders fun o => 0 < o.remaining)
    (hfull : ∀ s, ∀ e ∈ (m.state.side s).levels.entries, e.2.empty = false)
    (hcross : m.state.isCrossed = false) : Consistent m where
  sound s := by
    show (m.state.rebalance.side s).Sound
    rw [Book.rebalance_side]
    refine ⟨fun e he => ?_, fun e he => ?_, ?_, ?_⟩
    · obtain ⟨e', he', rfl⟩ := List.mem_map.mp he
      exact h.keyed s e' he'
    · obtain ⟨e', _, rfl⟩ := List.mem_map.mp he
      exact ⟨rfl, rfl⟩
    · exact (occupants_rebalance _).symm ▸ h.indexes s
    · exact (occupants_rebalance _).symm ▸ h.positions s
  fresh s o ho := by
    have hocc : o ∈ occupants (m.state.side s).levels.entries := by
      rw [← occupants_rebalance]
      change o ∈ occupants (m.state.rebalance.side s).levels.entries at ho
      rw [Book.rebalance_side] at ho
      exact ho
    obtain ⟨e, he, hn⟩ := List.mem_flatMap.mp hocc
    obtain ⟨n, hn', rfl⟩ := List.mem_map.mp hn
    exact ha s e he n hn'
  valid := by
    show m.state.rebalance.view.Valid
    rw [Book.rebalance_view]
    exact h.valid halive hfull hcross

theorem valid (h : Consistent m) : m.state.view.Valid := by
  have hv := WellFormed.valid h
  rwa [Book.rebalance_view] at hv

/-- A memory in step with a well-formed one is consistent and shows the same. -/
theorem of_alike {m' : BookMemory} (h : WellFormed m')
    (hm : InStep Symmetry.same.BookAlike m m') :
    Consistent m ∧ m'.state.view = m.state.view := by
  have heq : m.state.rebalance = m'.state := by
    rw [hm.state.rebalance_eq]
    exact Book.rebalance_eq_self fun s => (h.sound s).balanced
  refine ⟨⟨fun s => ?_, fun s => ?_, ?_⟩, ?_⟩
  · show (m.state.rebalance.side s).Sound
    rw [heq]
    exact h.sound s
  · show ∀ o ∈ occupants (m.state.rebalance.side s).levels.entries, o.2.position < m.ticks
    rw [heq, ← hm.ticks]
    exact h.fresh s
  · show m.state.rebalance.view.Valid
    rw [heq]
    exact h.valid
  · rw [← heq, Book.rebalance_view]

theorem inStep (m : BookMemory) :
    InStep Symmetry.same.BookAlike m { m with state := m.state.rebalance } :=
  ⟨Symmetry.alike_rebalance _, rfl⟩

theorem separate (h : Consistent m) : Symmetry.Separate m.state :=
  WellFormed.separate (m := { m with state := m.state.rebalance }) h

/-- **Refinement without aggregates.** An operation on a consistent memory runs out
of memory, or ends as the operation of the market it shows. -/
theorem refines (h : Consistent m) (op : Op) (fails : ℕ → Bool) :
    ((op.exec fails m).1 = .error (.throws .badAlloc) ∧ ∃ n, fails n = true) ∨
    (∃ f, (op.exec fails m).1 = .error f ∧ m.state.view.apply op = .error f) ∨
    ∃ out m', op.exec fails m = (.ok out, m') ∧ Consistent m' ∧
      m.state.view.apply op = .ok (out, m'.state.view) := by
  have halike := Symmetry.exec_alike fails (inStep m) h.separate op
  rw [Symmetry.op_same] at halike
  have href := exec_refines h op fails
  rw [Book.rebalance_view] at href
  rcases hx : op.exec fails m with ⟨r, m₁⟩
  rcases hx' : op.exec fails { m with state := m.state.rebalance } with ⟨r', m₁'⟩
  rw [hx, hx'] at halike
  rw [hx'] at href
  cases href with
  | starved _ hm hf =>
      cases halike with
      | error _ => exact Or.inl ⟨rfl, hf⟩
  | refused f _ he hm =>
      cases halike with
      | error _ => exact Or.inr (Or.inl ⟨f, rfl, he⟩)
  | done out _ he hwf =>
      cases halike with
      | @ok a _ _ _ ha hm =>
          rw [Symmetry.outcome_same] at ha
          subst ha
          obtain ⟨hc, hview⟩ := of_alike hwf hm
          exact Or.inr (Or.inr ⟨_, _, rfl, hc, hview ▸ he⟩)

end Consistent

end Exchange
