import Exchange.Core.Book
import Exchange.Core.Sweep

/-!
# The book as it is meant

The purpose of the book without its representation: two ladders and the counter
that stamps the orders. `core/` implements this with plan-then-commit over
linked lists and a hash index. That it does is the subject of `Refinement`;
what a market keeps is proved here, where there is nothing else to look at.
-/

namespace Exchange

open Framework

/-! ## Operations -/

/-- An operation of the book, with its arguments. -/
inductive Op : Type where
  | submit (order : Option Order)
  | cancel (id : OrderId)
  | modify (id : OrderId) (newQty : Quantity) (newPrice : Option Price)
deriving DecidableEq, Repr

/-- What an operation returns. -/
inductive Outcome : Type where
  | submitted (result : SubmitResult)
  | cancelled (order : Option Order)
  | modified (result : ModifyResult)
deriving DecidableEq, Repr

/-- How an operation can end. -/
abbrev Ending : Type := Fault Exception Precondition

structure Market where
  bids : Ladder := []
  asks : Ladder := []
  nextSequence : Sequence := 1
deriving DecidableEq, Repr

namespace Market

def ladder (M : Market) : Side → Ladder
  | .buy => M.bids
  | .sell => M.asks

def setLadder (M : Market) : Side → Ladder → Market
  | .buy, bids => { M with bids }
  | .sell, asks => { M with asks }

section Sides

variable (M : Market) (s : Side)

@[simp] theorem ladder_setLadder (l : Ladder) : (M.setLadder s l).ladder s = l := by
  cases s <;> rfl

@[simp] theorem ladder_setLadder_opposite (l : Ladder) :
    (M.setLadder (opposite s) l).ladder s = M.ladder s := by
  cases s <;> rfl

@[simp] theorem opposite_ladder_setLadder (l : Ladder) :
    (M.setLadder s l).ladder (opposite s) = M.ladder (opposite s) := by
  cases s <;> rfl

@[simp] theorem ladder_stamped (n : Sequence) :
    ({ M with nextSequence := n } : Market).ladder s = M.ladder s := by
  cases s <;> rfl

@[simp] theorem setLadder_nextSequence (l : Ladder) :
    (M.setLadder s l).nextSequence = M.nextSequence := by
  cases s <;> rfl

end Sides

/-- The side an id rests on, and its order. -/
def locate (M : Market) (id : OrderId) : Option (Side × Order) :=
  match M.bids.find? id with
  | some o => some (.buy, o)
  | none => (M.asks.find? id).map fun o => (.sell, o)

/-- The price the remainder of `o` comes to rest at, if it does. -/
def restsAt (o : Order) (swept : Direct.MatchResult) : Option Price :=
  if 0 < swept.left ∧ ¬ swept.blocked then o.restingPrice else none

def submitStatus (o : Order) (swept : Direct.MatchResult) : SubmitStatus :=
  if (restsAt o swept).isSome then
    if swept.fills.isEmpty then .resting else .partiallyFilledResting
  else if swept.left = 0 then .filled
  else if swept.blocked then .selfMatchBlocked
  else .cancelledRemainder

def submitResult (o : Order) (swept : Direct.MatchResult) : SubmitResult :=
  { status := submitStatus o swept
    fills := swept.fills
    filledQty := o.remaining - swept.left
    restingQty := if (restsAt o swept).isSome then swept.left else 0 }

/-- The market after `o` was matched as `swept` says: its remainder rests,
stamped with its place in time. -/
def settleEntry (M : Market) (s : Side) (o : Order) (swept : Direct.MatchResult) :
    Market :=
  let M' := { M.setLadder (opposite s) swept.ladder with
    nextSequence := M.nextSequence + 1 }
  match restsAt o swept with
  | none => M'
  | some price =>
      M'.setLadder s (Ladder.rest s (M.ladder s) price
        ((o.assignSequence M.nextSequence).onPartialFill (o.remaining - swept.left)))

/-- Match `o` against the other side and rest what may rest. -/
def enter (M : Market) (s : Side) (o : Order) :
    Except Precondition (SubmitResult × Market) :=
  (Direct.sweep o (M.ladder (opposite s))).map fun swept =>
    (submitResult o swept, M.settleEntry s o swept)

def submit (M : Market) : Option Order → Except Ending (SubmitResult × Market)
  | none => .error (.throws (.invalidOrder "submit called with a null order"))
  | some o =>
      if o.remaining = 0 then
        .error (.throws (.invalidOrder
          ("order " ++ toString o.id ++ " has zero quantity")))
      else if (M.locate o.id).isSome then
        .error (.throws (.invalidOrder ("duplicate order id " ++ toString o.id)))
      else (M.enter o.side o).mapError .undefined

def cancel (M : Market) (id : OrderId) : Option Order × Market :=
  match M.locate id with
  | none => (none, M)
  | some (s, o) => (some o, M.setLadder s ((M.ladder s).remove id))

/-- May the order keep its place under its new terms? -/
def keepsPlace (o : Order) (newQty : Quantity) (newPrice : Option Price) : Bool :=
  ¬ newPrice.any (fun p => some p ≠ o.restingPrice) ∧ ¬ newQty > o.remaining

/-- The order that re-enters under its new terms. -/
def replacement (o : Order) (newQty : Quantity) (newPrice : Option Price) : Order :=
  o.cloneAmended newQty (newPrice.getD (o.restingPrice.getD 0))

def modify (M : Market) (id : OrderId) (newQty : Quantity) (newPrice : Option Price) :
    Except Ending (ModifyResult × Market) :=
  if newQty = 0 then .ok ({ status := .rejected }, M)
  else
    match M.locate id with
    | none => .ok ({ status := .notFound }, M)
    | some (s, o) =>
        if keepsPlace o newQty newPrice then
          .ok ({ status := .amendedInPlace, restingQty := newQty },
            M.setLadder s ((M.ladder s).reduce id newQty))
        else
          (((M.setLadder s ((M.ladder s).remove id)).enter s
            (replacement o newQty newPrice)).mapError .undefined).map fun r =>
              ({ status := .requeued, fills := r.1.fills,
                 restingQty := r.1.restingQty }, r.2)

def apply (M : Market) : Op → Except Ending (Outcome × Market)
  | .submit order => (M.submit order).map fun r => (.submitted r.1, r.2)
  | .cancel id => .ok (.cancelled (M.cancel id).1, (M.cancel id).2)
  | .modify id newQty newPrice =>
      (M.modify id newQty newPrice).map fun r => (.modified r.1, r.2)

/-- The order an operation matches against the other side, if it gets there. -/
def entering (M : Market) : Op → Option Order
  | .submit (some o) =>
      if o.remaining = 0 ∨ (M.locate o.id).isSome then none else some o
  | .modify id newQty newPrice =>
      if newQty = 0 then none
      else
        match M.locate id with
        | none => none
        | some (_, o) =>
            if keepsPlace o newQty newPrice then none
            else some (replacement o newQty newPrice)
  | _ => none

/-! ## What a market keeps -/

/-- An order that rests where it belongs. -/
structure Placed (s : Side) (price : Price) (o : Order) : Prop where
  side : o.side = s
  price : o.restingPrice = some price
  alive : o.remaining ≠ 0

structure Valid (M : Market) : Prop where
  ordered : ∀ s, (M.ladder s).Ordered s
  placed : ∀ s, (M.ladder s).All (Placed s)
  /-- No id rests twice, on one side or on both. -/
  ids : ∀ s, ((M.ladder s).ids ++ (M.ladder (opposite s)).ids).Nodup
  /-- The two sides do not cross. -/
  apart : ∀ s, ∀ p ∈ (M.ladder s).prices, ∀ q ∈ (M.ladder (opposite s)).prices,
    ordering (opposite s) p q

theorem valid_empty : ({} : Market).Valid := by
  constructor <;> intro s <;> cases s
  all_goals first
    | exact ⟨List.Pairwise.nil, fun e he => absurd he List.not_mem_nil⟩
    | exact fun e he => absurd he List.not_mem_nil
    | exact List.nodup_nil

theorem ordering_opposite {s : Side} {p q : Price} (h : ordering (opposite s) p q) :
    ordering s q p := by
  cases s <;> exact h

/-- It is enough to look from one side. -/
theorem valid_of_side {M : Market} (s : Side)
    (hown : (M.ladder s).Ordered s)
    (hopp : (M.ladder (opposite s)).Ordered (opposite s))
    (pown : (M.ladder s).All (Placed s))
    (popp : (M.ladder (opposite s)).All (Placed (opposite s)))
    (hids : ((M.ladder s).ids ++ (M.ladder (opposite s)).ids).Nodup)
    (hapart : ∀ p ∈ (M.ladder s).prices, ∀ q ∈ (M.ladder (opposite s)).prices,
      ordering (opposite s) p q) : M.Valid := by
  constructor <;> intro t <;> rcases eq_or_eq_opposite s t with rfl | rfl
  · exact hown
  · exact hopp
  · exact pown
  · exact popp
  · exact hids
  · rw [opposite_opposite]
    exact List.nodup_append_comm.mp hids
  · exact hapart
  · rw [opposite_opposite]
    intro p hp q hq
    exact ordering_opposite (hapart q hq p hp)

section Preservation

variable {M : Market} {s : Side} {id : OrderId} {o : Order}

theorem locate_eq_some (h : M.locate id = some (s, o)) :
    (M.ladder s).find? id = some o := by
  unfold locate at h
  split at h
  · rename_i hb
    cases h
    exact hb
  · obtain ⟨x, hx, hxo⟩ := Option.map_eq_some_iff.mp h
    cases hxo
    exact hx

theorem locate_eq_none : M.locate id = none ↔ ∀ s, id ∉ (M.ladder s).ids := by
  unfold locate
  constructor
  · intro h
    split at h
    · cases h
    · rename_i hb
      intro s
      cases s with
      | buy => exact Ladder.find?_eq_none.mp hb
      | sell => exact Ladder.find?_eq_none.mp (Option.map_eq_none_iff.mp h)
  · intro h
    have hb : M.bids.find? id = none := Ladder.find?_eq_none.mpr (h .buy)
    have ha : M.asks.find? id = none := Ladder.find?_eq_none.mpr (h .sell)
    rw [hb, ha]
    rfl

theorem Valid.ids_nodup (h : M.Valid) (s : Side) : (M.ladder s).ids.Nodup :=
  (List.nodup_append.mp (h.ids s)).1

/-- A located order is placed. -/
theorem Valid.placed_of_find? (h : M.Valid) (hf : (M.ladder s).find? id = some o) :
    ∃ price, Placed s price o := by
  obtain ⟨e, he, ho⟩ := Ladder.mem_orders.mp (List.mem_of_find?_eq_some hf)
  exact ⟨e.1, h.placed s e he o ho⟩

/-- Replacing one side by a well-made one with no more prices and ids. -/
theorem Valid.setLadder (h : M.Valid) {l : Ladder} (hl : l.Ordered s)
    (hp : l.All (Placed s)) (hids : l.ids.Subperm (M.ladder s).ids)
    (hprices : ∀ p ∈ l.prices, p ∈ (M.ladder s).prices) :
    (M.setLadder s l).Valid := by
  refine valid_of_side s ?_ ?_ ?_ ?_ ?_ ?_ <;>
    simp only [ladder_setLadder, opposite_ladder_setLadder]
  · exact hl
  · exact h.ordered (opposite s)
  · exact hp
  · exact h.placed (opposite s)
  · obtain ⟨l', hperm, hsub⟩ := hids
    have hnd := (h.ids s).sublist (hsub.append_right _)
    exact (hperm.append_right _).nodup_iff.mp hnd
  · exact fun p hp q hq => h.apart s p (hprices p hp) q hq

theorem Valid.remove (h : M.Valid) (s : Side) (id : OrderId) :
    (M.setLadder s ((M.ladder s).remove id)).Valid :=
  h.setLadder (h.ordered s).remove (h.placed s).remove Ladder.remove_ids.subperm
    fun _ hp => Ladder.remove_prices.subset hp

theorem Placed.reduceTo {price : Price} {q : Quantity} (h : Placed s price o)
    (hq : q ≠ 0) : Placed s price (o.reduceTo q) where
  side := by rw [Order.reduceTo_side, h.side]
  price := by rw [Order.reduceTo_restingPrice, h.price]
  alive := by rwa [Order.reduceTo_remaining]

theorem Valid.reduce (h : M.Valid) (s : Side) (id : OrderId) {q : Quantity}
    (hq : q ≠ 0) : (M.setLadder s ((M.ladder s).reduce id q)).Valid := by
  refine h.setLadder (h.ordered s).reduce
    ((h.placed s).reduce fun _ _ _ _ ho => ho.reduceTo hq) ?_ ?_
  · rw [Ladder.reduce_ids]
  · intro p hp
    rwa [Ladder.reduce_prices] at hp

/-- Trading keeps an order in its place for as long as it lives. -/
theorem placed_kept (s : Side) : Direct.Kept (Placed s) := by
  intro price head left h _ o ho
  unfold Direct.settle at ho
  split at ho
  · cases ho
  · rename_i hfilled
    have halive : (head.onPartialFill (min left head.visibleQty)).remaining ≠ 0 := by
      simpa [Order.isFilled] using hfilled
    split at ho
    · rw [List.nil_append, List.mem_singleton] at ho
      rw [ho]
      refine ⟨?_, ?_, ?_⟩
      · rw [Order.replenish_side, Order.onPartialFill_side, h.side]
      · rw [Order.replenish_restingPrice, Order.onPartialFill_restingPrice, h.price]
      · rwa [Order.replenish_remaining]
    · rw [List.mem_singleton.mp ho]
      refine ⟨?_, ?_, halive⟩
      · rw [Order.onPartialFill_side, h.side]
      · rw [Order.onPartialFill_restingPrice, h.price]

theorem restsAt_eq_some {swept : Direct.MatchResult} {price : Price}
    (h : restsAt o swept = some price) :
    0 < swept.left ∧ swept.blocked = false ∧ o.restingPrice = some price := by
  unfold restsAt at h
  split at h
  · rename_i hc
    exact ⟨hc.1, by simpa using hc.2, h⟩
  · cases h

theorem entered_remaining {swept : Direct.MatchResult} (seq : Sequence) :
    ((o.assignSequence seq).onPartialFill (o.remaining - swept.left)).remaining =
      swept.left := by
  rw [Order.onPartialFill_remaining]
  show o.remaining - (o.remaining - swept.left) = swept.left
  abel

/-- A property of orders is one of all orders of a market side by side. -/
theorem all_of_side {P : Price → Order → Prop} (s : Side) (hown : (M.ladder s).All P)
    (hopp : (M.ladder (opposite s)).All P) (t : Side) : (M.ladder t).All P := by
  cases s <;> cases t <;> assumption

theorem settleEntry_nextSequence (M : Market) (s : Side) (o : Order)
    (swept : Direct.MatchResult) :
    (M.settleEntry s o swept).nextSequence = M.nextSequence + 1 := by
  unfold settleEntry
  split
  · rfl
  · exact setLadder_nextSequence _ _ _

theorem all_setLadder {P : Price → Order → Prop} (h : ∀ t, (M.ladder t).All P)
    {l : Ladder} (hl : l.All P) (t : Side) : ((M.setLadder s l).ladder t).All P := by
  refine all_of_side s ?_ ?_ t
  · rwa [ladder_setLadder]
  · rw [opposite_ladder_setLadder]
    exact h (opposite s)

theorem settleEntry_opposite (M : Market) (s : Side) (o : Order)
    (swept : Direct.MatchResult) :
    (M.settleEntry s o swept).ladder (opposite s) = swept.ladder := by
  unfold settleEntry
  cases restsAt o swept <;> simp

/-- A remainder joins its own side. -/
theorem settleEntry_own {swept : Direct.MatchResult} {price : Price} (M : Market) (s : Side)
    (hrest : restsAt o swept = some price) :
    (M.settleEntry s o swept).ladder s = Ladder.rest s (M.ladder s) price
      ((o.assignSequence M.nextSequence).onPartialFill (o.remaining - swept.left)) := by
  unfold settleEntry
  rw [hrest]
  exact ladder_setLadder _ _ _

/-- Without a remainder that side is as it was. -/
theorem settleEntry_own_none {swept : Direct.MatchResult} (M : Market) (s : Side)
    (hrest : restsAt o swept = none) : (M.settleEntry s o swept).ladder s = M.ladder s := by
  unfold settleEntry
  rw [hrest]
  cases s <;> rfl

/-- Entering keeps what trading keeps, if the order that comes to rest has it. -/
theorem all_settleEntry {P : Price → Order → Prop} {swept : Direct.MatchResult}
    (hP : Direct.Kept P) (h : ∀ t, (M.ladder t).All P) (hord : (M.ladder s).Ordered s)
    (hsw : Direct.sweep o (M.ladder (opposite s)) = .ok swept)
    (hrest : ∀ price, restsAt o swept = some price → P price
      ((o.assignSequence M.nextSequence).onPartialFill (o.remaining - swept.left)))
    (t : Side) : ((M.settleEntry s o swept).ladder t).All P := by
  refine all_of_side s ?_ ?_ t
  · cases hr : restsAt o swept with
    | none =>
        rw [settleEntry_own_none M s hr]
        exact h s
    | some price =>
        rw [settleEntry_own M s hr]
        exact Ladder.All.rest hord (h s) (hrest price hr)
  · rw [settleEntry_opposite]
    exact Direct.sweep_all hP hsw (h (opposite s))

/-- The order that comes to rest is in the market it leaves. -/
theorem entered_mem (hord : (M.ladder s).Ordered s) {swept : Direct.MatchResult}
    {price : Price}
    (hrest : restsAt o swept = some price) :
    (o.assignSequence M.nextSequence).onPartialFill (o.remaining - swept.left) ∈
      ((M.settleEntry s o swept).ladder s).orders := by
  rw [settleEntry_own M s hrest]
  exact (Ladder.rest_orders hord).mem_iff.mpr List.mem_cons_self

/-- A remainder that comes to rest is in its place. -/
theorem entered_placed {swept : Direct.MatchResult} {price : Price} (hs : o.side = s)
    (hrest : restsAt o swept = some price) (seq : Sequence) :
    Placed s price
      ((o.assignSequence seq).onPartialFill (o.remaining - swept.left)) := by
  obtain ⟨hleft, _, hprice⟩ := restsAt_eq_some hrest
  refine ⟨?_, ?_, ?_⟩
  · rw [Order.onPartialFill_side]
    exact hs
  · rw [Order.onPartialFill_restingPrice]
    exact hprice
  · rw [entered_remaining]
    grind

/-- **Entering keeps a market valid.** -/
theorem Valid.settleEntry {swept : Direct.MatchResult} (h : M.Valid) (hs : o.side = s)
    (hnew : ∀ t, o.id ∉ (M.ladder t).ids)
    (hsw : Direct.sweep o (M.ladder (opposite s)) = .ok swept) :
    (M.settleEntry s o swept).Valid := by
  have hopp := Direct.sweep_ordered hsw (h.ordered (opposite s))
  have popp := Direct.sweep_all (placed_kept (opposite s)) hsw (h.placed (opposite s))
  have hids := Direct.sweep_ids hsw
  have hprices := Direct.sweep_prices hsw
  have hmid : (M.setLadder (opposite s) swept.ladder).Valid :=
    h.setLadder hopp popp hids fun p hp => hprices.subset hp
  unfold Market.settleEntry
  cases hrest : restsAt o swept with
  | none => exact ⟨hmid.ordered, hmid.placed, hmid.ids, hmid.apart⟩
  | some price =>
      obtain ⟨hleft, hblocked, hprice⟩ := restsAt_eq_some hrest
      have hown := h.ordered s
      -- Something is left and nothing blocked it: whatever it reached is gone.
      have hreach : ∀ q ∈ swept.ladder.prices, o.crosses q = false := by
        refine (Direct.sweep_exhausts hsw ?_ hblocked).resolve_left (by grind)
        rw [hs]
        exact h.ordered (opposite s)
      dsimp only
      refine valid_of_side s ?_ ?_ ?_ ?_ ?_ ?_ <;>
        simp only [ladder_setLadder, opposite_ladder_setLadder, ladder_stamped]
      · exact hown.rest
      · exact hopp
      · exact Ladder.All.rest hown (h.placed s) (entered_placed hs hrest _)
      · exact popp
      · have hperm := ((Ladder.rest_orders (p := price)
          (o := (o.assignSequence M.nextSequence).onPartialFill
            (o.remaining - swept.left)) hown).map Order.id).append_right swept.ladder.ids
        refine hperm.nodup_iff.mpr ?_
        rw [List.map_cons, Order.onPartialFill_id, List.cons_append, List.nodup_cons]
        refine ⟨?_, ?_⟩
        · rw [List.mem_append]
          rintro (hm | hm)
          · exact hnew s hm
          · exact hnew (opposite s) (hids.subset hm)
        · have hnd := hmid.ids s
          rwa [ladder_setLadder_opposite, ladder_setLadder] at hnd
      · intro p hp q hq
        obtain ⟨e, he, rfl⟩ := List.mem_map.mp hp
        rcases (Ladder.mem_rest hown he).1 with heq | hmem
        · rw [heq, ← hs]
          exact (crosses_eq_false hprice).mp (hreach q hq)
        · exact h.apart s e.1 hmem q (hprices.subset hq)

end Preservation

/-! ## Everything an operation can do -/

/-- The successful operations of a market, one constructor per path. -/
inductive Transition (M : Market) : Op → Outcome → Market → Prop where
  | entered (o : Order) (swept : Direct.MatchResult) (hq : o.remaining ≠ 0)
      (hid : M.locate o.id = none)
      (hsw : Direct.sweep o (M.ladder (opposite o.side)) = .ok swept) :
      Transition M (.submit (some o)) (.submitted (submitResult o swept))
        (M.settleEntry o.side o swept)
  | unknown (id : OrderId) (h : M.locate id = none) :
      Transition M (.cancel id) (.cancelled none) M
  | withdrawn (id : OrderId) (s : Side) (o : Order) (h : M.locate id = some (s, o)) :
      Transition M (.cancel id) (.cancelled (some o))
        (M.setLadder s ((M.ladder s).remove id))
  | rejected (id : OrderId) (newPrice : Option Price) :
      Transition M (.modify id 0 newPrice) (.modified { status := .rejected }) M
  | absent (id : OrderId) (newQty : Quantity) (newPrice : Option Price)
      (hq : newQty ≠ 0) (h : M.locate id = none) :
      Transition M (.modify id newQty newPrice) (.modified { status := .notFound }) M
  | reduced (id : OrderId) (newQty : Quantity) (newPrice : Option Price) (s : Side)
      (o : Order) (hq : newQty ≠ 0) (h : M.locate id = some (s, o))
      (hk : keepsPlace o newQty newPrice = true) :
      Transition M (.modify id newQty newPrice)
        (.modified { status := .amendedInPlace, restingQty := newQty })
        (M.setLadder s ((M.ladder s).reduce id newQty))
  | requeued (id : OrderId) (newQty : Quantity) (newPrice : Option Price) (s : Side)
      (o : Order) (swept : Direct.MatchResult) (hq : newQty ≠ 0)
      (h : M.locate id = some (s, o)) (hk : keepsPlace o newQty newPrice = false)
      (hsw : Direct.sweep (replacement o newQty newPrice) (M.ladder (opposite s)) =
        .ok swept) :
      Transition M (.modify id newQty newPrice)
        (.modified { status := .requeued, fills := swept.fills,
                     restingQty := (submitResult (replacement o newQty newPrice)
                       swept).restingQty })
        ((M.setLadder s ((M.ladder s).remove id)).settleEntry s
          (replacement o newQty newPrice) swept)

section Inversion

variable {M M' : Market} {op : Op} {out : Outcome}

theorem submit_ok {order : Option Order} {res : SubmitResult}
    (h : M.submit order = .ok (res, M')) :
    Transition M (.submit order) (.submitted res) M' := by
  cases order with
  | none => cases h
  | some o =>
      rw [submit] at h
      split at h
      · cases h
      · rename_i hq
        split at h
        · cases h
        · rename_i hid
          unfold enter at h
          cases hsw : Direct.sweep o (M.ladder (opposite o.side)) with
          | error p => rw [hsw] at h; cases h
          | ok swept =>
              rw [hsw] at h
              cases h
              exact .entered o swept hq (by simpa using hid) hsw

theorem modify_requeue {id : OrderId} {newQty : Quantity} {newPrice : Option Price}
    {s : Side} {o : Order} (hq : newQty ≠ 0) (hl : M.locate id = some (s, o))
    (hk : keepsPlace o newQty newPrice = false) :
    M.modify id newQty newPrice =
      (((M.setLadder s ((M.ladder s).remove id)).enter s
        (replacement o newQty newPrice)).mapError .undefined).map fun r =>
          ({ status := .requeued, fills := r.1.fills,
             restingQty := r.1.restingQty }, r.2) := by
  rw [modify, if_neg hq, hl]
  simp only [hk, Bool.false_eq_true, if_false]

theorem modify_ok {id : OrderId} {newQty : Quantity} {newPrice : Option Price}
    {res : ModifyResult} (h : M.modify id newQty newPrice = .ok (res, M')) :
    Transition M (.modify id newQty newPrice) (.modified res) M' := by
  unfold modify at h
  split at h
  · rename_i hq
    cases h
    rw [hq]
    exact .rejected id newPrice
  · rename_i hq
    split at h
    · rename_i hl
      cases h
      exact .absent id newQty newPrice hq hl
    · rename_i s o hl
      split at h
      · rename_i hk
        cases h
        exact .reduced id newQty newPrice s o hq hl hk
      · rename_i hk
        unfold enter at h
        rw [opposite_ladder_setLadder] at h
        cases hsw : Direct.sweep (replacement o newQty newPrice)
            (M.ladder (opposite s)) with
        | error p => rw [hsw] at h; cases h
        | ok swept =>
            rw [hsw] at h
            cases h
            exact .requeued id newQty newPrice s o swept hq hl (by simpa using hk) hsw

theorem apply_ok (h : M.apply op = .ok (out, M')) : Transition M op out M' := by
  cases op with
  | submit order =>
      rw [apply] at h
      cases hs : M.submit order with
      | error e => rw [hs] at h; cases h
      | ok r =>
          rw [hs] at h
          cases h
          exact submit_ok hs
  | cancel id =>
      unfold apply at h
      cases h
      unfold cancel
      cases hl : M.locate id with
      | none => exact .unknown id hl
      | some so => exact .withdrawn id so.1 so.2 hl
  | modify id newQty newPrice =>
      rw [apply] at h
      cases hm : M.modify id newQty newPrice with
      | error e => rw [hm] at h; cases h
      | ok r =>
          rw [hm] at h
          cases h
          exact modify_ok hm

end Inversion

theorem locate_id {M : Market} {id : OrderId} {s : Side} {o : Order}
    (h : M.locate id = some (s, o)) : o.id = id :=
  (Ladder.split_of_find? (locate_eq_some h)).1

/-- Once removed, an id rests on neither side. -/
theorem Valid.removed_not_mem {M : Market} {id : OrderId} {s : Side} {o : Order}
    (h : M.Valid) (hl : M.locate id = some (s, o)) (t : Side) :
    id ∉ ((M.setLadder s ((M.ladder s).remove id)).ladder t).ids := by
  have hmem : id ∈ (M.ladder s).ids := by
    by_contra hn
    have hf := locate_eq_some hl
    rw [Ladder.find?_eq_none.mpr hn] at hf
    cases hf
  have hother : id ∉ (M.ladder (opposite s)).ids := fun hm =>
    (List.nodup_append.mp (h.ids s)).2.2 id hmem id hm rfl
  rcases eq_or_eq_opposite s t with rfl | rfl
  · rw [ladder_setLadder]
    exact Ladder.not_mem_remove_ids
  · rw [opposite_ladder_setLadder]
    exact hother

theorem replacement_id (o : Order) (q : Quantity) (p : Option Price) :
    (replacement o q p).id = o.id := Order.cloneAmended_id _ _ _

theorem replacement_side (o : Order) (q : Quantity) (p : Option Price) :
    (replacement o q p).side = o.side := Order.cloneAmended_side _ _ _

/-- **An operation on a valid market leaves a valid market.** -/
theorem Valid.transition {M M' : Market} {op : Op} {out : Outcome} (h : M.Valid)
    (ht : Transition M op out M') : M'.Valid := by
  cases ht with
  | entered o swept hq hid hsw => exact h.settleEntry rfl (locate_eq_none.mp hid) hsw
  | unknown | rejected | absent => exact h
  | withdrawn id s o hl => exact h.remove s id
  | reduced id newQty newPrice s o hq hl hk => exact h.reduce s id hq
  | requeued id newQty newPrice s o swept hq hl hk hsw =>
      obtain ⟨price, hp⟩ := h.placed_of_find? (locate_eq_some hl)
      refine (h.remove s id).settleEntry ?_ ?_ ?_
      · rw [replacement_side, hp.side]
      · rw [replacement_id, locate_id hl]
        exact h.removed_not_mem hl
      · rw [opposite_ladder_setLadder]
        exact hsw

/-- An operation that ends otherwise was refused, or an order could not be swept: one
that enters the market, or one that enters it again with its place given up. -/
theorem apply_error_cases {M : Market} {op : Op} {f : Ending} (h : M.apply op = .error f) :
    (∃ what, f = .throws (.invalidOrder what)) ∨
      ∃ (M' : Market) (s : Side) (o : Order) (p : Precondition), f = .undefined p ∧
        M'.enter s o = .error p ∧
        (M' = M ∨ ∃ id, M' = M.setLadder s ((M.ladder s).remove id)) := by
  cases op with
  | cancel id => cases h
  | submit order =>
      cases order with
      | none =>
          cases h
          exact Or.inl ⟨_, rfl⟩
      | some o =>
          rw [apply, submit] at h
          split at h
          · cases h
            exact Or.inl ⟨_, rfl⟩
          · split at h
            · cases h
              exact Or.inl ⟨_, rfl⟩
            · cases he : M.enter o.side o with
              | ok r =>
                  rw [he] at h
                  cases h
              | error p =>
                  rw [he] at h
                  cases h
                  exact Or.inr ⟨M, o.side, o, p, rfl, he, Or.inl rfl⟩
  | modify id newQty newPrice =>
      rw [apply, modify] at h
      split at h
      · cases h
      · split at h
        · cases h
        · rename_i s o hl
          split at h
          · cases h
          · cases he : (M.setLadder s ((M.ladder s).remove id)).enter s
                (replacement o newQty newPrice) with
            | ok r =>
                rw [he] at h
                cases h
            | error p =>
                rw [he] at h
                cases h
                exact Or.inr ⟨_, s, _, p, rfl, he, Or.inr ⟨id, rfl⟩⟩

/-- An order that cannot be swept met a head that shows nothing. -/
theorem enter_error {M : Market} {s : Side} {o : Order} {p : Precondition}
    (h : M.enter s o = .error p) : p = .positiveQuantity := by
  unfold enter at h
  cases hsw : Direct.sweep o (M.ladder (opposite s)) with
  | ok swept =>
      rw [hsw] at h
      cases h
  | error q =>
      rw [hsw] at h
      cases h
      exact Direct.sweep_error hsw

/-- An operation that ends otherwise was refused, or planned against a head
that shows nothing. -/
theorem apply_error {M : Market} {op : Op} {f : Ending} (h : M.apply op = .error f) :
    (∃ what, f = .throws (.invalidOrder what)) ∨ f = .undefined .positiveQuantity := by
  rcases apply_error_cases h with hrefused | ⟨M', s, o, p, rfl, he, _⟩
  · exact Or.inl hrefused
  · rw [enter_error he]
    exact Or.inr rfl

end Market

end Exchange
