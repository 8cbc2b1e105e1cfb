import Exchange.Core.Conservation
import Exchange.Core.Undo

/-!
# Amending

`modify` has two ways: an order that shrinks at its price is rewritten where it
stands, and any other leaves and comes back. The first touches nothing but the
order and the two counters of its level. The second plans and provisions while
the original still rests, and ends as if it had been cancelled first and a new
order submitted.
-/

namespace Exchange

open Framework Framework.Exec OrderBook

/-! ## Where an order is linked -/

/-- Order `n` of side `s`: its level, its place in the queue, and an index that
leads there from its id alone. -/
structure Linked (b : Book) (s : Side) (pre : List (Price × PriceLevel)) (p : Price)
    (level : PriceLevel) (post : List (Price × PriceLevel)) (as : List Node) (n : Node)
    (bs : List Node) : Prop where
  entries : (b.side s).levels.entries = pre ++ (p, level) :: post
  queue : level.orders = as ++ n :: bs
  addrs : ((as ++ n :: bs).map Node.addr).Nodup
  indexed : (b.side s).index.lookup n.order.id = some ⟨p, n.addr⟩
  elsewhere : (b.side (opposite s)).index.lookup n.order.id = none
  price : n.order.restingPrice = some p

section Linked

variable {b : Book} {s : Side} {pre post : List (Price × PriceLevel)} {p : Price}
  {level : PriceLevel} {as bs : List Node} {n : Node}

theorem IndexAgrees.linked_at (h : IndexAgrees b)
    (hb : (b.side s).levels.entries = pre ++ (p, level) :: post)
    (hl : level.orders = as ++ n :: bs) : Linked b s pre p level post as n bs := by
  have he : (p, level) ∈ (b.side s).levels.entries :=
    hb ▸ List.mem_append_right _ List.mem_cons_self
  have hn : n ∈ level.orders := hl ▸ List.mem_append_right _ List.mem_cons_self
  refine ⟨hb, hl, hl ▸ h.addrs_nodup s _ he, h.linked s _ he n hn, h.lookup_other he hn, ?_⟩
  rw [(h.orders s _ he n hn).2, h.keyed s _ he]

theorem Linked.deref (h : Linked b s pre p level post as n bs) :
    (b.side s).deref ⟨p, n.addr⟩ = some n.order :=
  deref_linked h.entries h.queue h.addrs

end Linked

namespace Book

variable {m : BookMemory} {s : Side} {pre post : List (Price × PriceLevel)} {p : Price}
  {level : PriceLevel} {as bs : List Node} {n : Node} {newQty : Quantity}
  {newPrice : Option Price}

theorem findOn_linked (h : Linked m.state s pre p level post as n bs) (fails : ℕ → Bool) :
    findOn s n.order.id fails m = (.ok (some n.order), m) := by
  unfold findOn
  rw [getSide_bind, h.indexed]
  simp only [h.deref, expect_some_bind]
  rfl

/-- `modify` finds the order and amends it. -/
theorem modify_linked (h : Linked m.state s pre p level post as n bs) (hq : newQty ≠ 0)
    (fails : ℕ → Bool) :
    modify n.order.id newQty newPrice fails m =
      (if ¬ newPrice.any (· ≠ p) ∧ ¬ newQty > n.order.remaining then do
        reduceInPlace s n.order.id newQty
        return { status := .amendedInPlace, restingQty := newQty }
      else requeue s n.order.id newQty (newPrice.getD p) : BookExec ModifyResult) fails m := by
  rw [modify_eq h.elsewhere hq, bind_ok (findOn_linked h fails)]
  dsimp only
  unfold amend
  rw [h.price, expect_some_bind]

end Book

/-! ## In place -/

namespace Order

/-- Shrinking twice is shrinking once. -/
theorem reduceTo_reduceTo (o : Order) {a b : Quantity} (h : b ≤ a) :
    (o.reduceTo a).reduceTo b = o.reduceTo b := by
  obtain ⟨_, _, _, _, _, kind⟩ := o
  cases kind with
  | limit | market => rfl
  | iceberg limit display visible =>
      have hmin : ∀ x : Quantity, min (min x a) b = min x b := fun x => by grind
      simp [reduceTo, hmin]

/-- What an in-place reduction leaves of an order. -/
structure ShrunkTo (o : Order) (q : Quantity) (o' : Order) : Prop where
  id : o'.id = o.id
  account : o'.account = o.account
  side : o'.side = o.side
  sequence : o'.sequence = o.sequence
  restingPrice : o'.restingPrice = o.restingPrice
  remaining : o'.remaining = q
  visible : o'.visibleQty = min o.visibleQty q
  shows : 0 < o'.visibleQty

theorem reduceTo_shrunk {o : Order} {q : Quantity} (hq : 0 < q) (hle : q ≤ o.remaining)
    (hv : 0 < o.visibleQty) : o.ShrunkTo q (o.reduceTo q) := by
  obtain ⟨id, remaining, sequence, account, side, kind⟩ := o
  cases kind with
  | limit | market =>
      have hle' : q ≤ remaining := hle
      have hmin : q = min remaining q := by grind
      exact ⟨rfl, rfl, rfl, rfl, rfl, rfl, hmin, hq⟩
  | iceberg limit display visible =>
      have hv' : 0 < visible := hv
      have hpos : 0 < min visible q := by grind
      exact ⟨rfl, rfl, rfl, rfl, rfl, rfl, rfl, hpos⟩

end Order

/-- A level with one order of its queue shrunk to `q`. -/
def PriceLevel.shrinkAt (level : PriceLevel) (as : List Node) (n : Node) (bs : List Node)
    (q : Quantity) : PriceLevel :=
  { level with
    orders := as ++ ⟨n.addr, n.order.reduceTo q⟩ :: bs
    totalQty := level.totalQty - n.order.remaining + (n.order.reduceTo q).remaining
    visibleQty := level.visibleQty - n.order.visibleQty + (n.order.reduceTo q).visibleQty }

/-- Shrinking an order twice leaves the level that shrinking it once does. -/
theorem PriceLevel.shrinkAt_shrinkAt (level : PriceLevel) (as : List Node) (n : Node)
    (bs : List Node) {a b : Quantity} (h : b ≤ a) :
    (level.shrinkAt as n bs a).shrinkAt as ⟨n.addr, n.order.reduceTo a⟩ bs b =
      level.shrinkAt as n bs b := by
  unfold shrinkAt
  simp only [Order.reduceTo_reduceTo _ h]
  congr 1 <;> abel

namespace Book

variable {m : BookMemory} {s : Side} {pre post : List (Price × PriceLevel)} {p : Price}
  {level : PriceLevel} {as bs : List Node} {n : Node} {newQty : Quantity}
  {newPrice : Option Price}

/-- The effect of an in-place reduction, and where the order is linked after it. -/
theorem modify_inPlace (h : Linked m.state s pre p level post as n bs) (hq : 0 < newQty)
    (hle : newQty ≤ n.order.remaining) (hp : newPrice = none ∨ newPrice = some p) :
    ∃ ob : OrderBook s, (∀ fails, modify n.order.id newQty newPrice fails m =
        (.ok { status := .amendedInPlace, restingQty := newQty },
          { m with state := m.state.setSide s ob })) ∧
      ob.levels.entries = pre ++ (p, level.shrinkAt as n bs newQty) :: post ∧
      ob.index = (m.state.side s).index ∧ ob.buckets = (m.state.side s).buckets ∧
      Linked (m.state.setSide s ob) s pre p (level.shrinkAt as n bs newQty) post as
        ⟨n.addr, n.order.reduceTo newQty⟩ bs := by
  obtain ⟨ob, hedit, hentries, hindex, hbuckets⟩ := edit_split
    (f := (·.reduceQuantity n.addr newQty)) h.entries
    (PriceLevel.reduceQuantity_split h.queue h.addrs newQty)
  refine ⟨ob, fun fails => ?_, hentries, hindex, hbuckets, ?_⟩
  · rw [modify_linked h (UInt64.pos_iff_ne_zero.mp hq), if_pos]
    · have hrun : reduceInPlace s n.order.id newQty fails m =
          (.ok (), { m with state := m.state.setSide s ob }) := by
        unfold reduceInPlace
        rw [getSide_bind, h.indexed, expect_some_bind]
        exact editLevel_run hedit
      rw [bind_ok hrun]
      rfl
    · refine ⟨?_, UInt64.not_lt.mpr hle⟩
      rcases hp with rfl | rfl <;> simp
  · refine ⟨?_, rfl, ?_, ?_, ?_, ?_⟩
    · rw [side_setSide]
      exact hentries
    · simpa using h.addrs
    · rw [side_setSide, hindex, Order.reduceTo_id]
      exact h.indexed
    · rw [opposite_side_setSide, Order.reduceTo_id]
      exact h.elsewhere
    · rw [Order.reduceTo_restingPrice]
      exact h.price

end Book

/-- **In-place reduction.** On a book whose index and levels agree, whose counters are the
sums and whose orders show something and no more than they have: reducing a resting order
at its price rewrites that order where it stands and the counters of its level, and
nothing else. Reducing it to `a` and then to `b ≤ a` is reducing it to `b`. -/
theorem reduction_in_place {m : BookMemory} (hagree : IndexAgrees m.state)
    (hbal : ∀ s, ∀ e ∈ (m.state.side s).levels.entries, e.2.Balanced)
    (horders : m.state.AllOrders fun x => 0 < x.visibleQty ∧ x.visibleQty ≤ x.remaining)
    {s : Side} {pre post : List (Price × PriceLevel)} {p : Price} {level : PriceLevel}
    {as bs : List Node} {n : Node}
    (hb : (m.state.side s).levels.entries = pre ++ (p, level) :: post)
    (hl : level.orders = as ++ n :: bs) :
    (∀ newQty newPrice fails, 0 < newQty → newQty ≤ n.order.remaining →
      newPrice = none ∨ newPrice = n.order.restingPrice →
      ∃ (ob : OrderBook s) (level' : PriceLevel),
        Book.modify n.order.id newQty newPrice fails m =
          (.ok { status := .amendedInPlace, restingQty := newQty },
            { m with state := m.state.setSide s ob }) ∧
        ob.levels.entries = pre ++ (p, level') :: post ∧
        level'.price = level.price ∧
        level'.orders = as ++ ⟨n.addr, n.order.reduceTo newQty⟩ :: bs ∧
        level'.Balanced ∧ n.order.ShrunkTo newQty (n.order.reduceTo newQty) ∧
        ob.index = (m.state.side s).index ∧ ob.buckets = (m.state.side s).buckets) ∧
    ∀ a b pa pb fails fails', 0 < b → b ≤ a → a ≤ n.order.remaining →
      pa = none ∨ pa = n.order.restingPrice → pb = none ∨ pb = n.order.restingPrice →
      Book.modify n.order.id b pb fails' (Book.modify n.order.id a pa fails m).2 =
        Book.modify n.order.id b pb fails' m := by
  have hlink := hagree.linked_at hb hl
  refine ⟨?_, ?_⟩
  · intro newQty newPrice fails hq hle hp
    rw [hlink.price] at hp
    obtain ⟨ob, hrun, hentries, hindex, hbuckets, _⟩ := Book.modify_inPlace hlink hq hle hp
    have he : (p, level) ∈ (m.state.side s).levels.entries :=
      hb ▸ List.mem_append_right _ List.mem_cons_self
    have hn : n ∈ level.orders := hl ▸ List.mem_append_right _ List.mem_cons_self
    exact ⟨ob, _, hrun fails, hentries, rfl, rfl, (hbal s _ he).reduceQuantity hl newQty,
      Order.reduceTo_shrunk hq hle (horders s _ he n hn).1, hindex, hbuckets⟩
  · intro a b pa pb fails fails' hb hba ha hpa hpb
    rw [hlink.price] at hpa hpb
    have hpos : 0 < a := UInt64.lt_of_lt_of_le hb hba
    obtain ⟨ob₁, hrun₁, hentries₁, hindex₁, hbuckets₁, hlink₁⟩ :=
      Book.modify_inPlace hlink hpos ha hpa
    obtain ⟨ob₂, hrun₂, hentries₂, hindex₂, hbuckets₂, _⟩ :=
      Book.modify_inPlace (m := { m with state := m.state.setSide s ob₁ }) hlink₁ hb
        (by rw [Order.reduceTo_remaining]; exact hba) hpb
    obtain ⟨ob₃, hrun₃, hentries₃, hindex₃, hbuckets₃, _⟩ :=
      Book.modify_inPlace hlink hb (UInt64.le_trans hba ha) hpb
    -- In two steps or in one, the same level is left behind.
    have hsame : ob₂ = ob₃ := by
      rw [PriceLevel.shrinkAt_shrinkAt _ _ _ _ hba] at hentries₂
      dsimp only at hindex₂ hbuckets₂
      rw [Book.side_setSide] at hindex₂ hbuckets₂
      obtain ⟨levels₂, _, _⟩ := ob₂
      obtain ⟨levels₃, _, _⟩ := ob₃
      have hlevels : levels₂ = levels₃ := OrderedMap.ext (hentries₂.trans hentries₃.symm)
      have hindex := (hindex₂.trans hindex₁).trans hindex₃.symm
      have hbuckets := (hbuckets₂.trans hbuckets₁).trans hbuckets₃.symm
      dsimp only at hindex hbuckets
      rw [hlevels, hindex, hbuckets]
    rw [Order.reduceTo_id] at hrun₂
    rw [hrun₁ fails, hrun₂ fails', hrun₃ fails', hsame]
    dsimp only
    rw [Book.setSide_setSide]

/-- The iceberg of 6 is cut to 4 and then to 1 where it stands, ahead of the other ask. -/
theorem reduction_in_place_stacked :
    (∃ (ob : OrderBook .sell) (level : PriceLevel),
      Book.modify 3 4 none (fun _ => false) stacked =
        (.ok { status := .amendedInPlace, restingQty := 4 },
          { stacked with state := stacked.state.setSide .sell ob }) ∧
      ob.levels.entries.head? = some (101, level) ∧
      level.orders.map (·.order.id) = [3, 4] ∧ level.Balanced) ∧
    Book.modify 3 1 (some 101) (fun _ => false)
        (Book.modify 3 4 none (fun _ => false) stacked).2 =
      Book.modify 3 1 (some 101) (fun _ => false) stacked := by
  have hwf := stacked_reachable.wellFormed
  have hentries : (stacked.state.side .sell).levels.entries =
      [] ++ (101, { price := 101
                    orders :=
                      [⟨0, (icebergOrder 3 .sell 9 6 101 2).assignSequence 1⟩,
                        ⟨4, (limitOrder 4 .sell 8 5 101).assignSequence 2⟩]
                    totalQty := 11, visibleQty := 7 }) ::
        [(103, { price := 103
                 orders := [⟨9, (limitOrder 5 .sell 8 4 103).assignSequence 3⟩]
                 totalQty := 4, visibleQty := 4 })] := by
    decide +kernel
  have key := reduction_in_place hwf.representation.toIndexAgrees
    (fun s => (hwf.sound s).balanced)
    (fun s e he n hn => (stacked_orders s e he n hn).2) hentries (List.nil_append _).symm
  refine ⟨?_, key.2 4 1 none (some 101) _ _ (by decide) (by decide) (by decide)
    (Or.inl rfl) (Or.inr rfl)⟩
  obtain ⟨ob, level, hrun, hlevels, _, horders, hbalanced, _⟩ :=
    key.1 4 none (fun _ => false) (by decide) (by decide) (Or.inl rfl)
  refine ⟨ob, level, hrun, by rw [hlevels]; rfl, ?_, hbalanced⟩
  rw [horders]
  rfl

/-! ## Out and back in -/

namespace Book

variable {s : Side} {fails : ℕ → Bool} {m : BookMemory}

/-- `cancel(id)` and then `submit` of what the cancelled order becomes under its new
terms. -/
def cancelAndSubmit (id : OrderId) (newQty : Quantity) (newPrice : Option Price) :
    BookExec SubmitResult := do
  let order ← expect .restingFound (← cancel id)
  let _ ← allocate .badAlloc
  submit (some (Market.replacement order newQty newPrice))

/-- The size of the bucket array is nothing a level operation looks at. -/
theorem edit_buckets (b : OrderBook s) (k : ℕ) (p : Price)
    (f : PriceLevel → Option PriceLevel) :
    ({ b with buckets := k } : OrderBook s).edit p f =
      (b.edit p f).map fun b' => { b' with buckets := k } := by
  unfold OrderBook.edit
  show (b.levels.find? p >>= _) = _
  cases b.levels.find? p with
  | none => rfl
  | some level =>
      show (f level >>= _) = Option.map _ (f level >>= _)
      cases f level <;> rfl

theorem restOn_buckets (b : OrderBook s) (k : ℕ) (nodes : RestNodes) (n : Node) :
    restOn { b with buckets := k } nodes n =
      (restOn b nodes n).map fun b' => { b' with buckets := k } := by
  unfold restOn
  rw [← edit_buckets]
  congr 1
  unfold OrderBook.installIndex
  show (if nodes.indexNode ∈ b.index then _ else _) = _
  split
  · rename_i hin
    rw [if_pos (show nodes.indexNode ∈ (b.installLevel nodes.levelNode).index from hin)]
    rfl
  · rename_i hin
    rw [if_neg (show nodes.indexNode ∉ (b.installLevel nodes.levelNode).index from hin)]
    rfl

theorem withdraw_buckets (b : OrderBook s) (k : ℕ) (id : OrderId) (loc : Locator) :
    ({ b with buckets := k } : OrderBook s).withdraw id loc =
      (b.withdraw id loc).map fun r => (r.1, { r.2 with buckets := k }) := by
  unfold OrderBook.withdraw
  show (b.levels.find? loc.price >>= _) = Option.map _ (b.levels.find? loc.price >>= _)
  cases b.levels.find? loc.price with
  | none => rfl
  | some level =>
      show (level.extract loc.position >>= _) =
        Option.map _ (level.extract loc.position >>= _)
      cases level.extract loc.position with
      | none => rfl
      | some r =>
          dsimp only [Option.bind_eq_bind, Option.bind_some]
          split <;> rfl

/-- The same commit on the same book with another bucket array. -/
theorem Commits.buckets {b b₁ : Book} {ob : OrderBook s} {k : ℕ} (k' : ℕ)
    {prepared : PreparedSubmit} {r : Replay (opposite s)} {res : SubmitResult}
    (h : Commits (b.setSide s { ob with buckets := k }) s prepared r res b₁) :
    ∃ b₂, Commits (b.setSide s { ob with buckets := k' }) s prepared r res b₂ ∧
      SameBook b₁ b₂ := by
  cases h with
  | idle hrest =>
      refine ⟨_, .idle hrest, .of_side s ?_ ?_ ?_ ?_⟩
      · rw [afterSweep_side, afterSweep_side, side_setSide, side_setSide]
      · rw [afterSweep_side, afterSweep_side, side_setSide, side_setSide]
      · rw [afterSweep_opposite, afterSweep_opposite]
      · cases s <;> rfl
  | rests nodes ob₁ hrest hob =>
      rw [side_setSide, restOn_buckets, Option.map_eq_some_iff] at hob
      obtain ⟨ob₂, hob₂, rfl⟩ := hob
      refine ⟨_, .rests nodes { ob₂ with buckets := k' } hrest ?_, ?_⟩
      · rw [side_setSide, restOn_buckets, hob₂]
        rfl
      · refine .of_side s ?_ ?_ ?_ ?_
        · rw [side_setSide, side_setSide]
        · rw [side_setSide, side_setSide]
        · rw [opposite_side_setSide, opposite_side_setSide, afterSweep_opposite,
            afterSweep_opposite]
        · cases s <;> rfl

/-- Validation of an order with a quantity and an id neither side knows. -/
theorem validate_run {o : Order} (hq : o.remaining ≠ 0)
    (hid : ∀ t, (m.state.side t).index.lookup o.id = none) :
    validate o fails m = (.ok (), m) := by
  unfold validate
  simp only [if_neg hq]
  have hfind : find o.id fails m = (.ok none, m) := by
    rw [find_eq (s := .buy) (hid .sell)]
    exact findOn_none (hid .buy)
  exact bind_ok hfind

/-- An order that was withdrawn from the side it was linked on is known to neither. -/
theorem withdrawn_unknown {pre post : List (Price × PriceLevel)} {p : Price}
    {level : PriceLevel} {as bs : List Node} {n : Node} {ob : OrderBook s}
    (h : Linked m.state s pre p level post as n bs)
    (hindex : ob.index = (m.state.side s).index.erase n.order.id) (t : Side) :
    ((m.state.setSide s ob).side t).index.lookup n.order.id = none := by
  rcases eq_or_eq_opposite s t with rfl | rfl
  · rw [side_setSide, hindex]
    exact Finmap.lookup_erase _ _
  · rw [opposite_side_setSide]
    exact h.elsewhere

/-- What the commit of `o` is handed under this plan, its node at `addr`. -/
def preparedFor (addr : Addr) (o : Order) (plan : MatchPlan) : PreparedSubmit :=
  { plan, holding := ⟨addr, o⟩, rest := restNodes o plan, fillsCapacity := plan.fills.length }

theorem Provisioned.prepared_eq {m' : BookMemory} {o : Order} {plan : MatchPlan}
    {prepared : PreparedSubmit} (h : Provisioned m s o plan prepared m') :
    prepared = preparedFor m.ticks o plan := by
  obtain ⟨plan', holding, rest, capacity⟩ := prepared
  obtain rfl : plan' = plan := h.planned
  obtain rfl : holding = ⟨m.ticks, o⟩ := h.holding
  obtain rfl : rest = restNodes o plan' := h.rest
  obtain rfl : capacity = plan'.fills.length := h.capacity
  rfl

/-- The original leaves after the replacement was provisioned for. -/
theorem cancelOn_reserved {m' : BookMemory} {pre post : List (Price × PriceLevel)} {p : Price}
    {level : PriceLevel} {as bs : List Node} {n : Node} {ob : OrderBook s} {k : ℕ}
    (hstate : m'.state = m.state.setSide s { m.state.side s with buckets := k })
    (h : Linked m.state s pre p level post as n bs)
    (hw : (m.state.side s).withdraw n.order.id ⟨p, n.addr⟩ = some (n.order, ob)) :
    cancelOn s n.order.id fails m' = (.ok (some n.order),
      { m' with state := m.state.setSide s { ob with buckets := k } }) := by
  unfold cancelOn
  rw [getSide_bind, hstate, side_setSide]
  simp only [h.indexed, withdraw_buckets, hw, Option.map_some, expect_some_bind]
  show (_, { m' with state := m'.state.setSide s { ob with buckets := k } }) = _
  rw [hstate, setSide_setSide]

/-- The re-entry of an amendment that goes through: planned with the original in place,
committed without it. -/
theorem requeue_commits {pre post : List (Price × PriceLevel)} {p : Price}
    {level : PriceLevel} {as bs : List Node} {n : Node} {ob : OrderBook s} {newQty : Quantity}
    {target : Price} {res : ModifyResult} {m' : BookMemory}
    (h : Linked m.state s pre p level post as n bs)
    (hw : (m.state.side s).withdraw n.order.id ⟨p, n.addr⟩ = some (n.order, ob))
    (hindex : ob.index = (m.state.side s).index.erase n.order.id)
    (hrun : requeue s n.order.id newQty target fails m = (.ok res, m')) :
    ∃ plan k r sub, fails m.ticks = false ∧
      planAgainst (m.state.side (opposite s)).levels.entries
        (n.order.cloneAmended newQty target) = .ok plan ∧
      (Replay.start (m.state.side (opposite s)) (n.order.cloneAmended newQty target)
        m.state.nextSequence).replay plan.fills = some r ∧
      Commits (m.state.setSide s { ob with buckets := k }) s
        (preparedFor (m.ticks + 1) (n.order.cloneAmended newQty target) plan) r sub m'.state ∧
      res = { status := .requeued, fills := sub.fills, restingQty := sub.restingQty } := by
  unfold requeue at hrun
  rw [bind_ok (findOn_linked h fails), expect_some_bind] at hrun
  obtain ⟨_, m₀, halloc, hrun⟩ := bind_eq_ok hrun
  obtain ⟨hf, rfl⟩ := allocate_eq_ok halloc
  obtain ⟨prepared, m₁, hprep, hrun⟩ := bind_eq_ok hrun
  obtain ⟨plan, hplan, hprov⟩ := prepareSubmit_eq_ok hprep
  obtain ⟨k, hstate, hroom⟩ := hprov.state
  dsimp only at hplan hstate hroom
  rw [bind_ok (cancelOn_reserved hstate h hw), expect_some_bind] at hrun
  obtain ⟨sub, m₂, hcommit, hrun⟩ := bind_eq_ok hrun
  cases hrun
  have hcount : ob.orderCount ≤ (m.state.side s).orderCount := by
    unfold OrderBook.orderCount
    rw [hindex, Finmap.keys_erase]
    exact Finset.card_le_card (Finset.erase_subset _ _)
  obtain rfl := hprov.prepared_eq
  obtain ⟨r, hr, hcommits⟩ := commitSubmit_eq_ok (Nat.le_refl _) (by
    dsimp only
    rw [side_setSide]
    exact fun hrest => Nat.le_trans (Nat.succ_le_succ hcount) (hroom hrest)) hcommit
  refine ⟨plan, k, r, sub, hf, hplan, ?_, hcommits, rfl⟩
  dsimp only at hr
  rw [opposite_side_setSide, setSide_nextSequence] at hr
  exact hr

/-- A fresh order that plans and replays the same way ends the same way. -/
theorem submit_commits (fails : ℕ → Bool) {o : Order} {plan : MatchPlan}
    {r : Replay (opposite s)} {k : ℕ} {sub : SubmitResult} {b : Book} (hs : o.side = s)
    (hq : o.remaining ≠ 0)
    (hid : ∀ t, (m.state.side t).index.lookup o.id = none)
    (hplan : planAgainst (m.state.side (opposite s)).levels.entries o = .ok plan)
    (hr : (Replay.start (m.state.side (opposite s)) o m.state.nextSequence).replay
      plan.fills = some r)
    (hcommits : Commits (m.state.setSide s { m.state.side s with buckets := k }) s
      (preparedFor m.ticks o plan) r sub b) (hcross : b.isCrossed = false) :
    ((submit (some o) fails m).1 = .error (.throws .badAlloc) ∧ ∃ k, fails k = true) ∨
      ∃ m', submit (some o) fails m = (.ok sub, m') ∧ SameBook b m'.state := by
  rw [submit_on hs, bind_ok (validate_run hq hid)]
  rcases prepareSubmit_cases s o fails m with ⟨_, hstarved, _, hf⟩ | hcases
  · rw [bind_error hstarved]
    exact Or.inl ⟨rfl, hf⟩
  rw [hplan] at hcases
  obtain ⟨prepared, m₁, hprep, hprov⟩ := hcases
  obtain ⟨k', hstate, _⟩ := hprov.state
  obtain ⟨b₂, hcommits₂, hsame⟩ := hcommits.buckets k'
  rw [← hstate] at hcommits₂
  rw [← hprov.opposite_side, ← hprov.nextSequence] at hr
  have hroom := hprov.room
  obtain rfl := hprov.prepared_eq
  rw [bind_ok hprep, bind_ok (Commits.run hr (Nat.le_refl _) hroom hcommits₂), get_bind]
  dsimp only
  rw [hsame.isCrossed, hcross]
  exact Or.inr ⟨_, rfl, hsame⟩

end Book

theorem Market.modify_total {M : Market} (h : M.AllShown) (id : OrderId) (newQty : Quantity)
    (newPrice : Option Price) : ∃ r, M.modify id newQty newPrice = .ok r := by
  unfold Market.modify
  split
  · exact ⟨_, rfl⟩
  · split
    · exact ⟨_, rfl⟩
    · rename_i s o _
      split
      · exact ⟨_, rfl⟩
      · obtain ⟨swept, hsw⟩ := sweep_of_shown (replacement o newQty newPrice) (h (opposite s))
        unfold Market.enter
        rw [Market.opposite_ladder_setLadder, hsw]
        exact ⟨_, rfl⟩

/-- **A requeueing amendment trades as a fresh order would.** On a book whose index and
levels agree, with no empty level, not crossed, and whose orders show something and no more
than they have: an amendment that moves the price or grows the size ends as a cancel and a
submit of the amended clone do, with the same fills, the same remainder and the same book. -/
theorem requeue_as_fresh {m : BookMemory} (hagree : IndexAgrees m.state)
    (hheap : Allocated m) (hcross : m.state.isCrossed = false)
    (hfull : ∀ s, ∀ e ∈ (m.state.side s).levels.entries, e.2.empty = false)
    (horders : m.state.AllOrders fun x =>
      x.Object ∧ 0 < x.visibleQty ∧ x.visibleQty ≤ x.remaining)
    {s : Side} {pre post : List (Price × PriceLevel)} {p : Price} {level : PriceLevel}
    {as bs : List Node} {n : Node}
    (hb : (m.state.side s).levels.entries = pre ++ (p, level) :: post)
    (hl : level.orders = as ++ n :: bs) {newQty : Quantity} {newPrice : Option Price}
    (hq : 0 < newQty)
    (hmoves : (∃ q, newPrice = some q ∧ n.order.restingPrice ≠ some q) ∨
      n.order.remaining < newQty) (fails : ℕ → Bool) :
    ((Book.modify n.order.id newQty newPrice fails m).1 = .error (.throws .badAlloc) ∨
        (Book.cancelAndSubmit n.order.id newQty newPrice fails m).1 =
          .error (.throws .badAlloc)) ∧ (∃ k, fails k = true) ∨
      ∃ sub m₁ m₂,
        Book.modify n.order.id newQty newPrice fails m =
          (.ok { status := .requeued, fills := sub.fills, restingQty := sub.restingQty }, m₁) ∧
        Book.cancelAndSubmit n.order.id newQty newPrice fails m = (.ok sub, m₂) ∧
        SameBook m₁.state m₂.state := by
  have hlink := hagree.linked_at hb hl
  have hq' : newQty ≠ 0 := UInt64.pos_iff_ne_zero.mp hq
  have hc : Consistent m := .of_agrees hagree hheap
    (fun s e he n hn =>
      UInt64.lt_of_lt_of_le (horders s e he n hn).2.1 (horders s e he n hn).2.2) hfull hcross
  have hshown := Book.allShown_of_objects horders
  have hkeeps : ¬ (¬ newPrice.any (· ≠ p) ∧ ¬ newQty > n.order.remaining) := by
    rintro ⟨hprice, hsize⟩
    rcases hmoves with ⟨q, rfl, hne⟩ | hgrows
    · rw [hlink.price] at hne
      refine hprice ?_
      simpa using fun heq : q = p => hne (by rw [heq])
    · exact hsize hgrows
  rcases hc.refines (.modify n.order.id newQty newPrice) fails with
    ⟨herr, hf⟩ | ⟨f, _, herr⟩ | hok
  · exact Or.inl ⟨Or.inl (return_eq_error herr), hf⟩
  · obtain ⟨r, hr⟩ := Market.modify_total hshown n.order.id newQty newPrice
    rw [Market.apply, hr] at herr
    cases herr
  obtain ⟨out, m₁, hexec, hc₁, _⟩ := hok
  obtain ⟨res, _, hrun, hout⟩ := bind_eq_ok hexec
  cases hout
  rw [Book.modify_linked hlink hq', if_neg hkeeps] at hrun
  obtain ⟨ob, hw, _, hindex, _⟩ := withdraw_split hb hl hlink.addrs n.order.id
  obtain ⟨plan, k, r, sub, hticks, hplan, hr, hcommits, rfl⟩ :=
    Book.requeue_commits hlink hw hindex hrun
  rw [Book.modify_linked hlink hq', if_neg hkeeps]
  -- The cancel, and the clone at the address the amendment's own had.
  have hreplace : Market.replacement n.order newQty newPrice =
      n.order.cloneAmended newQty (newPrice.getD p) := by
    rw [Market.replacement, hlink.price]
    rfl
  unfold Book.cancelAndSubmit
  rw [bind_ok (Book.cancel_linked hlink.elsewhere hlink.indexed hw), expect_some_bind,
    bind_ok (allocate_run (by exact hticks)), hreplace]
  have he : (p, level) ∈ (m.state.side s).levels.entries :=
    hb ▸ List.mem_append_right _ List.mem_cons_self
  have hn : n ∈ level.orders := hl ▸ List.mem_append_right _ List.mem_cons_self
  have hside : (n.order.cloneAmended newQty (newPrice.getD p)).side = s := by
    rw [Order.cloneAmended_side]
    exact (hagree.orders s _ he n hn).1
  have hown : (m.state.setSide s ob).setSide s { (m.state.setSide s ob).side s with
      buckets := k } = m.state.setSide s { ob with buckets := k } := by
    rw [Book.side_setSide, Book.setSide_setSide]
  have hend := Book.submit_commits fails (m := { m with
    state := m.state.setSide s ob, ticks := m.ticks + 1
    snapshots := m.snapshots ++ [m.state.setSide s ob] }) hside
    (by rw [Order.cloneAmended_remaining]; exact hq')
    (by rw [Order.cloneAmended_id]; exact Book.withdrawn_unknown hlink hindex)
    (by rw [Book.opposite_side_setSide]; exact hplan)
    (by rw [Book.opposite_side_setSide, Book.setSide_nextSequence]; exact hr)
    (by rw [hown]; exact hcommits) (not_isCrossed hc₁.valid)
  rcases hend with ⟨hstarved, hf⟩ | ⟨m₂, hsub, hsame⟩
  · exact Or.inl ⟨Or.inr hstarved, hf⟩
  · exact Or.inr ⟨sub, m₁, m₂, hrun, hsub, hsame⟩

/-- The bid of `quotes`, where it is linked. -/
theorem quotes_bids : (quotes.state.side .buy).levels.entries =
    [] ++ (100, { price := 100, orders := [⟨0, (limitOrder 1 .buy 7 5 100).assignSequence 1⟩],
                  totalQty := 5, visibleQty := 5 }) :: [] := by
  decide +kernel

/-- The bid is moved to the ask, takes all of it, and rests with what is left. -/
theorem requeue_as_fresh_quotes :
    ((Book.modify 1 9 (some 101) (fun _ => false) quotes).1 = .error (.throws .badAlloc) ∨
        (Book.cancelAndSubmit 1 9 (some 101) (fun _ => false) quotes).1 =
          .error (.throws .badAlloc)) ∧ (∃ k : ℕ, (fun _ => false) k = true) ∨
      ∃ sub m₁ m₂,
        Book.modify 1 9 (some 101) (fun _ => false) quotes =
          (.ok { status := .requeued, fills := sub.fills, restingQty := sub.restingQty }, m₁) ∧
        Book.cancelAndSubmit 1 9 (some 101) (fun _ => false) quotes = (.ok sub, m₂) ∧
        SameBook m₁.state m₂.state :=
  requeue_as_fresh quotes_reachable.wellFormed.representation.toIndexAgrees
    quotes_reachable.wellFormed.allocated (by decide +kernel)
    quotes_reachable.wellFormed.representation.full quotes_orders quotes_bids
    (List.nil_append _).symm (by decide) (Or.inl ⟨101, rfl, by decide⟩) _

end Exchange
