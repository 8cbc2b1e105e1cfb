import Exchange.Core.Unnoticed
import Exchange.Store.WalRecord

/-!
# What the log forgets

The log writes an iceberg down as a limit order when it shows all it has, so a
replayed book may hold a limit order where the live one holds an iceberg. For as
long as such an iceberg stays whole, that is, shows all it has and would show
more, the book cannot tell the two apart. Amending it beyond its display size
ends that.
-/

namespace Exchange

open Framework

/-! ## One order -/

/-- The order with an iceberg's tranche forgotten. -/
def Order.forget (o : Order) : Order :=
  match o.kind with
  | .iceberg limit _ _ => { o with kind := .limit limit }
  | _ => o

/-- Is this order written down as a limit order although it is an iceberg? -/
def Order.losesKind (o : Order) : Bool :=
  match o.kind with
  | .iceberg _ _ _ => ¬ o.displaySize < o.remaining
  | _ => false

/-- An iceberg that shows all it has and would show more. -/
def Order.Whole (o : Order) : Prop :=
  ∃ limit display, o.kind = .iceberg limit display o.remaining ∧ o.remaining ≤ display

/-- Forget the tranches of the orders with these ids. -/
def forgetIn (lost : List OrderId) (o : Order) : Order :=
  if o.id ∈ lost then o.forget else o

theorem Order.Built.stored_eq {o : Order} (h : o.Built) :
    o.stored.1 = if o.losesKind then o.forget else o := by
  cases h with
  | limit id side account qty price =>
      unfold Order.stored
      rw [storedKind_limit]
      rfl
  | market id side account qty => rfl
  | iceberg id side account qty price display =>
      have hloses : (icebergOrder id side account qty price display).losesKind =
          decide (¬ clampDisplay display qty < qty) := rfl
      unfold Order.stored
      rw [storedKind_iceberg, hloses]
      by_cases hlt : clampDisplay display qty < qty
      · rw [if_pos hlt, if_neg (by simpa using hlt)]
        simp only [icebergOrder, restingPrice, displaySize, Option.getD_some,
          clampDisplay_clampDisplay]
      · rw [if_neg hlt, if_pos (by simpa using hlt)]
        rfl

section Forget

variable (lost : List OrderId) (o : Order)

theorem forgetIn_cases : forgetIn lost o = o ∨ forgetIn lost o = o.forget := by
  unfold forgetIn
  split
  · exact Or.inr rfl
  · exact Or.inl rfl

/-- Anything `forget` keeps, `forgetIn` keeps. -/
theorem forgetIn_keeps {β : Type} (g : Order → β) (h : ∀ o, g o.forget = g o) :
    g (forgetIn lost o) = g o := by
  rcases forgetIn_cases lost o with heq | heq
  · rw [heq]
  · rw [heq, h]

/-- Anything `forget` commutes with and that keeps ids, `forgetIn` commutes with. -/
theorem forgetIn_comm (g : Order → Order) (hid : (g o).id = o.id)
    (h : (g o).forget = g o.forget) : forgetIn lost (g o) = g (forgetIn lost o) := by
  unfold forgetIn
  rw [hid]
  split
  · exact h
  · rfl

theorem Order.Whole.visibleQty {o : Order} (h : o.Whole) : o.visibleQty = o.remaining := by
  obtain ⟨limit, display, hk, _⟩ := h
  unfold Order.visibleQty
  rw [hk]

theorem Order.Whole.remaining_le {o : Order} (h : o.Whole) :
    o.remaining ≤ o.displaySize := by
  obtain ⟨limit, display, hk, hle⟩ := h
  unfold Order.displaySize
  rw [hk]
  exact hle

theorem Order.Whole.not_needsReplenish {o : Order} (h : o.Whole) :
    o.needsReplenish = false := by
  unfold Order.needsReplenish
  rw [h.visibleQty]
  by_cases hz : o.remaining = 0
  · simp [hz]
  · simp [hz]

theorem Order.Whole.onPartialFill {o : Order} (h : o.Whole) {q : Quantity}
    (hq : q ≤ o.remaining) : (o.onPartialFill q).Whole := by
  obtain ⟨limit, display, hk, hle⟩ := h
  refine ⟨limit, display, ?_, ?_⟩
  · rw [Order.onPartialFill_remaining]
    unfold Order.onPartialFill
    rw [hk]
  · rw [Order.onPartialFill_remaining]
    grind

theorem Order.Whole.reduceTo {o : Order} (h : o.Whole) {q : Quantity}
    (hq : q ≤ o.remaining) : (o.reduceTo q).Whole := by
  obtain ⟨limit, display, hk, hle⟩ := h
  have hvis : min o.remaining q = q := by grind
  have hdisp : min display q = q := by grind
  refine ⟨limit, q, ?_, ?_⟩
  · rw [Order.reduceTo_remaining]
    unfold Order.reduceTo
    rw [hk]
    dsimp only
    rw [hvis, hdisp]
  · rw [Order.reduceTo_remaining]
    exact UInt64.le_refl q

/-- **Nothing is noticed while the icebergs concerned are whole.** -/
theorem forgetIn_unnoticed :
    Unnoticed (fun o => o.id ∈ lost → o.Whole) (forgetIn lost) where
  id o := forgetIn_keeps lost o Order.id fun o => by unfold Order.forget; split <;> rfl
  account o :=
    forgetIn_keeps lost o Order.account fun o => by unfold Order.forget; split <;> rfl
  side o := forgetIn_keeps lost o Order.side fun o => by unfold Order.forget; split <;> rfl
  remaining o :=
    forgetIn_keeps lost o Order.remaining fun o => by unfold Order.forget; split <;> rfl
  restingPrice o := by
    refine forgetIn_keeps lost o Order.restingPrice fun o => ?_
    obtain ⟨_, _, _, _, _, kind⟩ := o
    cases kind <;> rfl
  assignSequence o n := by
    refine forgetIn_comm lost o (·.assignSequence n) rfl ?_
    obtain ⟨_, _, _, _, _, kind⟩ := o
    cases kind <;> rfl
  onPartialFill o q := by
    refine forgetIn_comm lost o (·.onPartialFill q) (Order.onPartialFill_id o q) ?_
    obtain ⟨_, _, _, _, _, kind⟩ := o
    cases kind <;> rfl
  reduceTo o q := by
    refine forgetIn_comm lost o (·.reduceTo q) (Order.reduceTo_id o q) ?_
    obtain ⟨_, _, _, _, _, kind⟩ := o
    cases kind <;> rfl
  cloneAmended o q p := by
    refine forgetIn_comm lost o (·.cloneAmended q p) (Order.cloneAmended_id o q p) ?_
    obtain ⟨_, _, _, _, _, kind⟩ := o
    cases kind <;> rfl
  visibleQty o ho := by
    unfold forgetIn
    split
    · rename_i hlost
      rw [(ho hlost).visibleQty]
      obtain ⟨limit, display, hk, _⟩ := ho hlost
      unfold Order.forget
      rw [hk]
      rfl
    · rfl
  replenish o ho hspent := by
    -- A whole iceberg is never refilled, so this order is not among the lost.
    have hkept : o.id ∉ lost := by
      intro hlost
      rw [(ho hlost).not_needsReplenish] at hspent
      cases hspent
    unfold forgetIn
    rw [Order.replenish_id, if_neg hkept, if_neg hkept]
  keepFill o q ho hq hlost := by
    rw [Order.onPartialFill_id] at hlost
    have hwhole := ho hlost
    rw [hwhole.visibleQty] at hq
    exact hwhole.onPartialFill hq
  keepReplenish o ho hspent hlost := by
    rw [Order.replenish_id] at hlost
    rw [(ho hlost).not_needsReplenish] at hspent
    cases hspent

end Forget

/-! ## One command -/

/-- The ids whose orders the log has as limit orders, once this command has ended
this way. -/
def lostAfter (lost : List OrderId) : Command × Except Ending ApplyOutcome → List OrderId
  | (.submit order, .ok _) =>
      if order.1.losesKind then order.1.id :: lost
      else lost.filter fun id => id ≠ order.1.id
  | _ => lost

/-- Would the remainder of `o` come to rest? -/
def Market.comesToRest (M : Market) (s : Side) (o : Order) : Bool :=
  match Direct.sweep o (M.ladder (opposite s)) with
  | .ok swept => (restsAt o swept).isSome
  | .error _ => false

/-- The command does not amend an order that lost its type beyond its display
size and back into the book. -/
def KeepsKind (lost : List OrderId) (M : Market) : Command → Prop
  | .modify id quantity price =>
      id ∈ lost → ∀ so ∈ M.locate id, quantity ≤ so.2.displaySize ∨
        M.comesToRest so.1 (Market.replacement so.2 quantity price) = false
  | _ => True

instance (lost : List OrderId) (M : Market) (c : Command) :
    Decidable (KeepsKind lost M c) :=
  match c with
  | .modify id _ _ => inferInstanceAs (Decidable (id ∈ lost → ∀ so ∈ M.locate id, _ ∨ _))
  | .submit _ | .cancel _ => inferInstanceAs (Decidable True)

/-- Every order that lost its type is whole. -/
def AllWhole (lost : List OrderId) (M : Market) : Prop :=
  ∀ s, (M.ladder s).All fun _ o => o.id ∈ lost → o.Whole

section Step

variable {lost lost' : List OrderId} {M M' : Market} {c : Command}

/-- Only the ids of a market matter. -/
theorem mapOrders_congr (h : ∀ s, ∀ id ∈ (M.ladder s).ids, id ∈ lost ↔ id ∈ lost') :
    M.mapOrders (forgetIn lost) = M.mapOrders (forgetIn lost') := by
  have hladder : ∀ s, (M.ladder s).mapOrders (forgetIn lost) =
      (M.ladder s).mapOrders (forgetIn lost') := by
    intro s
    refine List.map_congr_left fun e he => ?_
    refine congrArg (Prod.mk e.1) (List.map_congr_left fun o ho => ?_)
    have hid := h s o.id (List.mem_map_of_mem (Ladder.mem_orders.mpr ⟨e, he, ho⟩))
    unfold forgetIn
    simp only [hid]
  unfold Market.mapOrders
  rw [show M.bids.mapOrders _ = _ from hladder .buy,
    show M.asks.mapOrders _ = _ from hladder .sell]
  rfl

theorem allWhole_congr (h : ∀ s, ∀ id ∈ (M.ladder s).ids, id ∈ lost ↔ id ∈ lost')
    (hw : AllWhole lost M) : AllWhole lost' M := by
  intro s e he o ho hlost
  have hid := h s o.id (List.mem_map_of_mem (Ladder.mem_orders.mpr ⟨e, he, ho⟩))
  exact hw s e he o ho (hid.mpr hlost)

/-- An accepted submit changes what is lost at its own id only. -/
theorem mem_lostAfter_submit {order : BuiltOrder} {out : ApplyOutcome} {id : OrderId} :
    id ∈ lostAfter lost (.submit order, .ok out) ↔
      if id = order.1.id then order.1.losesKind = true else id ∈ lost := by
  unfold lostAfter
  by_cases hl : order.1.losesKind = true
  · by_cases hid : id = order.1.id <;> simp [hl, hid]
  · by_cases hid : id = order.1.id <;> simp [hl, hid]

theorem lostAfter_congr (lost : List OrderId) {order : BuiltOrder} (out : ApplyOutcome)
    (hid : M.locate order.1.id = none) (s : Side) (id : OrderId)
    (hmem : id ∈ (M.ladder s).ids) :
    id ∈ lost ↔ id ∈ lostAfter lost (.submit order, .ok out) := by
  have hne : id ≠ order.1.id := by
    rintro rfl
    exact Market.locate_eq_none.mp hid s hmem
  rw [mem_lostAfter_submit, if_neg hne]

theorem forgetIn_submit (lost : List OrderId) (order : BuiltOrder) (out : ApplyOutcome) :
    forgetIn (lostAfter lost (.submit order, .ok out)) order.1 = order.1.stored.1 := by
  unfold forgetIn
  simp only [mem_lostAfter_submit, if_true]
  exact order.2.stored_eq.symm

/-- An order whose id rests already is refused, with its type or without. -/
theorem submit_taken {o o' : Order} (hq : o'.remaining = o.remaining) (hid : o'.id = o.id)
    {N : Market} (hN : (N.locate o.id).isSome) (hM : (M.locate o.id).isSome) :
    ∃ f, M.submit (some o) = .error f ∧ N.submit (some o') = .error f := by
  rw [Market.submit, Market.submit, hq, hid, hN, hM]
  split
  · exact ⟨_, rfl, rfl⟩
  · exact ⟨_, rfl, rfl⟩

/-- **One command, live and replayed.** On the forgetful image of a market the
command as it was logged does the same, and leaves the forgetful image. -/
theorem applyCommand_stored (hw : AllWhole lost M) (c : Command) :
    (M.mapOrders (forgetIn lost)).applyCommand c.stored =
      (M.applyCommand c).map fun r =>
        (r.1, r.2.mapOrders (forgetIn (lostAfter lost (c, .ok r.1)))) := by
  cases c with
  | cancel id =>
      show Except.ok _ = Except.ok _
      dsimp only [Command.stored, Command.op]
      rw [(forgetIn_unnoticed lost).cancel]
      dsimp only [Outcome.applied]
      rw [Option.isSome_map]
      rfl
  | modify id quantity price =>
      unfold Market.applyCommand Market.apply
      dsimp only [Command.stored, Command.op]
      rw [(forgetIn_unnoticed lost).modify hw]
      cases M.modify id quantity price <;> rfl
  | submit order =>
      unfold Market.applyCommand Market.apply
      dsimp only [Command.stored, Command.op]
      have hsame := order.2.same_stored
      cases hid : M.locate order.1.id with
      | none =>
          -- The id is free, so what is lost may already count the new order.
          have hcongr := lostAfter_congr lost {} hid
          rw [mapOrders_congr hcongr, ← forgetIn_submit lost order {},
            ← Option.map_some, (forgetIn_unnoticed _).submit (allWhole_congr hcongr hw)]
          cases M.submit (some order.1) <;> rfl
      | some so =>
          have htaken : (M.locate order.1.id).isSome := by rw [hid]; rfl
          have htaken' : ((M.mapOrders (forgetIn lost)).locate order.1.id).isSome := by
            rw [(forgetIn_unnoticed lost).locate, Option.isSome_map, htaken]
          obtain ⟨f, hM, hN⟩ := submit_taken hsame.remaining.symm hsame.id.symm htaken'
            htaken
          rw [hM, hN]
          rfl

/-- The order that comes to rest is whole if the one that entered was built to
show all it has. -/
theorem whole_entered {o : Order} {swept : Direct.MatchResult} {ladder : Ladder}
    (hw : o.Whole) (hsw : Direct.sweep o ladder = .ok swept) (n : Sequence) :
    ((o.assignSequence n).onPartialFill (o.remaining - swept.left)).Whole := by
  have hle := Direct.sweep_left_le hsw
  obtain ⟨limit, display, hk, hd⟩ := hw
  have hstamped : (o.assignSequence n).Whole := ⟨limit, display, hk, hd⟩
  apply hstamped.onPartialFill
  show o.remaining - swept.left ≤ o.remaining
  grind

theorem whole_icebergOrder {id : OrderId} {side : Side} {account : AccountId}
    {qty display : Quantity} {price : Price} (h : clampDisplay display qty = qty) :
    (icebergOrder id side account qty price display).Whole := by
  refine ⟨price, qty, ?_, UInt64.le_refl qty⟩
  show OrderKind.iceberg price (clampDisplay display qty) (clampDisplay display qty) = _
  rw [h]
  rfl

theorem whole_of_losesKind {o : Order} (hb : o.Built) (h : o.losesKind = true) :
    o.Whole := by
  cases hb with
  | limit | market => cases h
  | iceberg id side account qty price display =>
      have hall : clampDisplay display qty = qty := by
        have hle := clampDisplay_le display qty
        have hlt : ¬ clampDisplay display qty < qty := by
          simpa [Order.losesKind, icebergOrder, Order.displaySize] using h
        grind
      exact whole_icebergOrder hall

/-- An amended whole iceberg is whole exactly if it stays within its display. -/
theorem replacement_whole {o : Order} {q : Quantity} (p : Option Price) (hw : o.Whole)
    (halive : o.remaining ≠ 0) :
    (q ≤ o.displaySize → (Market.replacement o q p).Whole) ∧
    (¬ q ≤ o.displaySize → (Market.replacement o q p).visibleQty ≠ q) := by
  obtain ⟨limit, display, hk, hle⟩ := hw
  have hd : o.displaySize = display := by
    unfold Order.displaySize
    rw [hk]
  have hrep : Market.replacement o q p = icebergOrder o.id o.side o.account q
      (p.getD (o.restingPrice.getD 0)) display := by
    unfold Market.replacement Order.cloneAmended
    rw [hk]
  rw [hd, hrep]
  constructor
  · intro hq
    have hclamp : clampDisplay display q = q := by
      unfold clampDisplay
      grind
    exact whole_icebergOrder hclamp
  · intro hq
    show clampDisplay display q ≠ q
    unfold clampDisplay
    grind

theorem le_of_keepsPlace {o : Order} {q : Quantity} {p : Option Price}
    (h : Market.keepsPlace o q p = true) : q ≤ o.remaining := by
  unfold Market.keepsPlace at h
  simp only [decide_eq_true_eq] at h
  exact UInt64.not_lt.mp h.2

theorem comesToRest_eq {s : Side} {o : Order} {swept : Direct.MatchResult}
    (hsw : Direct.sweep o (M.ladder (opposite s)) = .ok swept) :
    M.comesToRest s o = (Market.restsAt o swept).isSome := by
  unfold Market.comesToRest
  rw [hsw]

theorem Market.Valid.eq_of_id {s : Side} {id : OrderId} {o x : Order} (hv : M.Valid)
    (hl : M.locate id = some (s, o)) (hx : x ∈ (M.ladder s).orders) (hid : x.id = id) :
    x = o := by
  have ho : o ∈ (M.ladder s).orders := List.mem_of_find?_eq_some (Market.locate_eq_some hl)
  refine List.inj_on_of_nodup_map (hv.ids_nodup s) hx ho ?_
  rw [hid, Market.locate_id hl]

theorem AllWhole.located {s : Side} {id : OrderId} {o : Order} (hw : AllWhole lost M)
    (hl : M.locate id = some (s, o)) (hlost : id ∈ lost) : o.Whole := by
  have ho : o ∈ (M.ladder s).orders := List.mem_of_find?_eq_some (Market.locate_eq_some hl)
  obtain ⟨e, he, hmem⟩ := Ladder.mem_orders.mp ho
  exact hw s e he o hmem (by rw [Market.locate_id hl]; exact hlost)

section Requeue

variable {s : Side} {id : OrderId} {o : Order} {quantity : Quantity} {price : Option Price}
  {swept : Direct.MatchResult}

/-- An order that re-enters within its display size, or does not come to rest, is no
trouble. -/
theorem AllWhole.requeue (hv : M.Valid) (hw : AllWhole lost M)
    (hl : M.locate id = some (s, o))
    (hsw : Direct.sweep (Market.replacement o quantity price) (M.ladder (opposite s)) =
      .ok swept)
    (hkeeps : KeepsKind lost M (.modify id quantity price)) :
    AllWhole lost ((M.setLadder s ((M.ladder s).remove id)).settleEntry s
      (Market.replacement o quantity price) swept) := by
  obtain ⟨_, hplaced⟩ := hv.placed_of_find? (Market.locate_eq_some hl)
  refine Market.all_settleEntry (forgetIn_unnoticed lost).kept
    (Market.all_setLadder hw (hw s).remove) ((hv.remove s id).ordered s)
    (by rw [Market.opposite_ladder_setLadder]; exact hsw) fun restPrice hrest hlost => ?_
  rw [Order.onPartialFill_id, Order.assignSequence_id, Market.replacement_id,
    Market.locate_id hl] at hlost
  refine whole_entered ?_ hsw _
  rcases hkeeps hlost (s, o) hl with hle | hno
  · exact (replacement_whole price (hw.located hl hlost) hplaced.alive).1 hle
  · rw [comesToRest_eq hsw, hrest] at hno
    cases hno

/-- One that comes to rest beyond its display size hides something. -/
theorem AllWhole.requeue_hides (hv : M.Valid) (hw : AllWhole lost M)
    (hl : M.locate id = some (s, o))
    (hsw : Direct.sweep (Market.replacement o quantity price) (M.ladder (opposite s)) =
      .ok swept)
    (hbreaks : ¬ KeepsKind lost M (.modify id quantity price)) :
    ∃ x ∈ (((M.setLadder s ((M.ladder s).remove id)).settleEntry s
        (Market.replacement o quantity price) swept).ladder s).orders,
      x.id ∈ lost ∧ x.visibleQty ≠ x.remaining := by
  unfold KeepsKind at hbreaks
  push Not at hbreaks
  obtain ⟨hlost, so, hso, hlt, hrests⟩ := hbreaks
  rw [hl] at hso
  cases hso
  rw [comesToRest_eq hsw, ne_eq, Bool.not_eq_false, Option.isSome_iff_exists] at hrests
  obtain ⟨restPrice, hrest⟩ := hrests
  obtain ⟨_, hplaced⟩ := hv.placed_of_find? (Market.locate_eq_some hl)
  refine ⟨_, Market.entered_mem ((hv.remove s id).ordered s) hrest, ?_, ?_⟩
  · rw [Order.onPartialFill_id, Order.assignSequence_id, Market.replacement_id,
      Market.locate_id hl]
    exact hlost
  · have hne := (replacement_whole price (hw.located hl hlost) hplaced.alive).2 hlt
    rw [Order.onPartialFill_visibleQty, Order.onPartialFill_remaining]
    intro heq
    apply hne
    have hvis : (Market.replacement o quantity price).visibleQty =
        (Market.replacement o quantity price).remaining := sub_left_injective heq
    exact hvis.trans (Order.cloneAmended_remaining _ _ _)

end Requeue

/-- **One command keeps what lost its type whole, exactly under the condition.** -/
theorem allWhole_step (hv : M.Valid) (hw : AllWhole lost M) {out : ApplyOutcome}
    (h : M.applyCommand c = .ok (out, M')) :
    (KeepsKind lost M c → AllWhole (lostAfter lost (c, .ok out)) M') ∧
    (¬ KeepsKind lost M c → ∃ s, ∃ o ∈ (M'.ladder s).orders,
      o.id ∈ lostAfter lost (c, .ok out) ∧ o.visibleQty ≠ o.remaining) := by
  obtain ⟨result, rfl, ht⟩ := Market.applyCommand_ok h
  cases c with
  | cancel id =>
      refine ⟨fun _ => ?_, fun hn => absurd trivial hn⟩
      cases ht with
      | unknown => exact hw
      | withdrawn _ s => exact Market.all_setLadder hw (hw s).remove
  | submit order =>
      refine ⟨fun _ => ?_, fun hn => absurd trivial hn⟩
      cases ht with
      | entered _ swept hq hid hsw =>
          -- Its id is new, so who had lost the type before it is unchanged.
          have hw' : AllWhole (lostAfter lost (.submit order,
              .ok (Outcome.submitted (Market.submitResult order.1 swept)).applied)) M :=
            allWhole_congr (lostAfter_congr lost _ hid) hw
          refine Market.all_settleEntry (forgetIn_unnoticed _).kept hw'
            (hv.ordered order.1.side) hsw fun price _ hlost => ?_
          rw [Order.onPartialFill_id, Order.assignSequence_id, mem_lostAfter_submit,
            if_pos rfl] at hlost
          exact whole_entered (whole_of_losesKind order.2 hlost) hsw _
  | modify id quantity price =>
      cases ht with
      | rejected =>
          refine ⟨fun _ => hw, fun hn => absurd (fun _ so _ => Or.inl ?_) hn⟩
          exact UInt64.zero_le
      | absent _ _ _ _ hl =>
          refine ⟨fun _ => hw, fun hn => absurd (fun _ so hso => ?_) hn⟩
          rw [hl] at hso
          cases hso
      | reduced _ _ _ s o hq hl hk =>
          have hle := le_of_keepsPlace hk
          constructor
          · intro _
            apply Market.all_setLadder hw
            refine (hw s).reduce fun _ x hx hid hwx hlost => ?_
            rw [Order.reduceTo_id] at hlost
            rw [hv.eq_of_id hl hx hid] at hwx hlost ⊢
            exact (hwx hlost).reduceTo hle
          · refine fun hn => absurd (fun hlost so hso => Or.inl ?_) hn
            rw [hl] at hso
            cases hso
            exact UInt64.le_trans hle (hw.located hl hlost).remaining_le
      | requeued _ _ _ s o swept hq hl hk hsw =>
          exact ⟨hw.requeue hv hl hsw, fun hbreaks => ⟨s, hw.requeue_hides hv hl hsw hbreaks⟩⟩

/-- A command the market refuses amends nothing. -/
theorem keepsKind_of_error {f : Ending} (h : M.applyCommand c = .error f) :
    KeepsKind lost M c := by
  cases c with
  | submit order => trivial
  | cancel id => trivial
  | modify id quantity price =>
      rintro _ ⟨s, o⟩ hl
      right
      -- Only the sweep can go wrong, and then nothing comes to rest.
      unfold Market.comesToRest
      cases hsw : Direct.sweep (Market.replacement o quantity price)
          (M.ladder (opposite s)) with
      | error p => rfl
      | ok swept =>
          rw [Market.applyCommand, Command.op, Market.apply, Market.modify, hl] at h
          split at h
          · cases h
          · dsimp only at h
            split at h
            · cases h
            · rw [Market.enter, Market.opposite_ladder_setLadder, hsw] at h
              cases h

end Step

end Exchange
