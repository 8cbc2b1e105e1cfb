import Exchange.Core.Consistency
import Exchange.Core.Descent
import Exchange.Core.TrancheRuns

/-!
# Conservation of quantity

What a submit owes to every party: each fill is a trade between two accounts at
a price both accept, each resting order loses exactly its own fills, and what
the incoming order does not trade rests or is given back. An amendment makes
the same promise for the amended order, and does not keep it: a replacement
that runs into its own account's order is dropped.
-/

namespace Exchange

open Framework Framework.Exec OrderBook

/-! ## Order objects -/

/-- The objects of the order classes: what a constructor builds for a positive
quantity, and what the member functions make of it. -/
inductive Order.Object : Order → Prop where
  | built {o : Order} (h : o.Built) (hq : o.remaining ≠ 0) : Object o
  | assignSequence {o : Order} (n : Sequence) (h : Object o) : Object (o.assignSequence n)
  | onPartialFill {o : Order} (qty : Quantity) (h : Object o) : Object (o.onPartialFill qty)
  | replenish {o : Order} (h : Object o) : Object o.replenish
  | reduceTo {o : Order} (newQty : Quantity) (hq : newQty ≠ 0) (h : Object o) :
      Object (o.reduceTo newQty)

/-- An iceberg never loses its display size. -/
theorem Order.Object.display_pos {o : Order} (h : o.Object) {limit : Price}
    {display visible : Quantity} (hk : o.kind = .iceberg limit display visible) :
    0 < display := by
  induction h generalizing limit display visible with
  | @built o hb hq =>
      cases hb with
      | limit | market => cases hk
      | iceberg id side account qty price displaySize =>
          cases hk
          have hqty : qty ≠ 0 := hq
          unfold clampDisplay
          split <;> grind
  | assignSequence n _ ih => exact ih hk
  | @onPartialFill o qty _ ih =>
      obtain ⟨_, _, _, _, _, kind⟩ := o
      cases kind with
      | limit | market => cases hk
      | iceberg =>
          cases hk
          exact ih rfl
  | @replenish o _ ih =>
      obtain ⟨_, _, _, _, _, kind⟩ := o
      cases kind with
      | limit | market => cases hk
      | iceberg =>
          cases hk
          exact ih rfl
  | @reduceTo o newQty hq _ ih =>
      obtain ⟨_, _, _, _, _, kind⟩ := o
      cases kind with
      | limit | market => cases hk
      | iceberg l d v =>
          cases hk
          have hd := ih rfl
          grind

theorem Order.Object.shown {o : Order} (h : o.Object) (hv : 0 < o.visibleQty)
    (hw : o.visibleQty ≤ o.remaining) : Shown o := by
  refine ⟨hv, hw, ?_⟩
  have hpos : ∀ limit display visible, o.kind = .iceberg limit display visible → 0 < display :=
    fun _ _ _ => h.display_pos
  obtain ⟨_, _, _, _, _, kind⟩ := o
  cases kind with
  | limit | market => exact hv
  | iceberg limit display visible => exact hpos limit display visible rfl

/-- A book of objects that show something and no more than they have. -/
theorem Book.allShown_of_objects {b : Book}
    (h : b.AllOrders fun x => x.Object ∧ 0 < x.visibleQty ∧ x.visibleQty ≤ x.remaining) :
    b.view.AllShown := by
  refine Book.allOrders_iff.mp fun s e he n hn => ?_
  obtain ⟨hobj, hpos, hle⟩ := h s e he n hn
  exact hobj.shown hpos hle

/-- Trading makes objects of objects. -/
theorem object_kept : Direct.Kept fun _ o => o.Object := by
  intro price head left h _ o ho
  unfold Direct.settle at ho
  split at ho
  · cases ho
  · split at ho
    · rw [List.nil_append, List.mem_singleton] at ho
      rw [ho]
      exact (h.onPartialFill _).replenish
    · rw [List.mem_singleton.mp ho]
      exact h.onPartialFill _

theorem Market.Transition.objects {M M' : Market} {op : Op} {out : Outcome}
    (ht : Market.Transition M op out M') (hv : M.Valid) (hop : op.Built)
    (h : ∀ s, (M.ladder s).All fun _ o => o.Object) (t : Side) :
    (M'.ladder t).All fun _ o => o.Object := by
  cases ht with
  | entered o swept hq _ hsw =>
      exact Market.all_settleEntry object_kept h (hv.ordered _) hsw
        (fun _ _ => ((Order.Object.built hop hq).assignSequence _).onPartialFill _) t
  | unknown | rejected | absent => exact h t
  | withdrawn id s o hl => exact Market.all_setLadder h (h s).remove t
  | reduced id newQty newPrice s o hq hl hk =>
      exact Market.all_setLadder h ((h s).reduce fun _ _ _ _ ho => ho.reduceTo _ hq) t
  | requeued id newQty newPrice s o swept hq hl hk hsw =>
      refine Market.all_settleEntry object_kept (Market.all_setLadder h (h s).remove)
        ?_ ?_ (fun _ _ => ?_) t
      · rw [Market.ladder_setLadder]
        exact (hv.ordered s).remove
      · rw [Market.opposite_ladder_setLadder]
        exact hsw
      · refine ((Order.Object.built (built_cloneAmended _ _ _) ?_).assignSequence
          _).onPartialFill _
        rw [Order.cloneAmended_remaining]
        exact hq

/-- **A book that is given constructed orders holds objects only.** -/
theorem Reachable.objects {m : BookMemory} (h : Reachable (fun _ op => op.Built) m)
    (s : Side) : (m.state.view.ladder s).All fun _ o => o.Object := by
  induction h generalizing s with
  | empty =>
      intro e he
      cases s <;> cases he
  | @step m op fails hm hop ih =>
      rcases hm.wellFormed.transition op fails with ⟨out, _, ht⟩ | ⟨_, hsame⟩
      · exact ht.objects hm.wellFormed.valid hop ih s
      · rw [hsame]
        exact ih s

/-! ## The bottom line of a submit -/

/-- `o` rests on side `s` at price `p`. -/
def Rests (b : Book) (s : Side) (p : Price) (o : Order) : Prop :=
  (p, o) ∈ (b.view.ladder s).places

/-- The statuses of a submit that leaves a remainder in the book. -/
def SubmitStatus.Rested (s : SubmitStatus) : Prop :=
  s = .resting ∨ s = .partiallyFilledResting

/-- What submitting `o` with the result `r` did on the way from `b` to `b'`. -/
structure Conserves (b b' : Book) (o : Order) (r : SubmitResult) : Prop where
  positive : ∀ f ∈ r.fills, 0 < f.quantity
  parties : ∀ f ∈ r.fills, f.aggressorId = o.id ∧ f.aggressorAccount = o.account ∧
    f.aggressorSide = o.side ∧ f.restingAccount ≠ f.aggressorAccount
  total : filledTotal r.fills = r.filledQty.toNat ∧ r.filledQty ≤ o.remaining
  /-- The resting order's own price, and within the aggressor's limit. -/
  priced : ∀ f ∈ r.fills, o.crosses f.price = true ∧
    ∃ x, Rests b (opposite o.side) f.price x ∧ x.id = f.restingId ∧
      x.account = f.restingAccount
  worsening : r.fills.Pairwise fun f g => NoBetter (opposite o.side) f.price g.price
  /-- An opposite order is used up by its fills, or is left with the rest. -/
  reduced : ∀ p x, Rests b (opposite o.side) p x →
    filledOf r.fills x.id = x.remaining.toNat ∧
        x.id ∉ (b'.view.ladder (opposite o.side)).ids ∨
      ∃ x', Rests b' (opposite o.side) p x' ∧ Descends r.fills x x' ∧ 0 < x'.remaining
  noneNew : ∀ p x', Rests b' (opposite o.side) p x' →
    ∃ x, Rests b (opposite o.side) p x ∧ Descends r.fills x x'
  rested : r.status.Rested →
    r.filledQty.toNat + r.restingQty.toNat = o.remaining.toNat ∧ 0 < r.restingQty ∧
    ((o.assignSequence b.nextSequence).onPartialFill r.filledQty).remaining = r.restingQty ∧
    ∃ p, o.restingPrice = some p ∧
      b'.view.ladder o.side = Ladder.rest o.side (b.view.ladder o.side) p
        ((o.assignSequence b.nextSequence).onPartialFill r.filledQty)
  idle : ¬ r.status.Rested → r.restingQty = 0 ∧
    (b'.side o.side).levels = (b.side o.side).levels ∧
    (b'.side o.side).index = (b.side o.side).index
  filled : r.status = .filled ↔ r.filledQty = o.remaining
  cancelled : r.status = .cancelledRemainder → o.kind = .market

/-! ## What the market says -/

namespace Market

variable {M : Market} {o : Order} {swept : Direct.MatchResult}

/-- A remainder comes to rest, and the status says so. -/
theorem status_of_restsAt {p : Price} (h : restsAt o swept = some p) :
    (submitResult o swept).status.Rested ∧
      (submitResult o swept).restingQty = swept.left := by
  unfold submitResult submitStatus SubmitStatus.Rested
  rw [h]
  refine ⟨?_, rfl⟩
  by_cases hf : swept.fills.isEmpty = true
  · exact Or.inl (by simp [hf])
  · exact Or.inr (by simp [hf])

/-- Nothing comes to rest, for one of three reasons. -/
theorem status_of_restsAt_none (h : restsAt o swept = none) :
    (submitResult o swept).restingQty = 0 ∧
      ((submitResult o swept).status = .filled ∧ swept.left = 0 ∨
        (submitResult o swept).status = .selfMatchBlocked ∧ swept.left ≠ 0 ∨
        (submitResult o swept).status = .cancelledRemainder ∧ swept.left ≠ 0 ∧
          swept.blocked = false) := by
  unfold submitResult submitStatus
  rw [h]
  refine ⟨rfl, ?_⟩
  by_cases hz : swept.left = 0
  · exact Or.inl (by simp [hz])
  · cases hb : swept.blocked with
    | true => exact Or.inr (Or.inl (by simp [hz]))
    | false => exact Or.inr (Or.inr (by simp [hz]))

theorem rested_iff :
    (submitResult o swept).status.Rested ↔ ∃ p, restsAt o swept = some p := by
  constructor
  · intro hrested
    cases hr : restsAt o swept with
    | some p => exact ⟨p, rfl⟩
    | none =>
        have hcases := (status_of_restsAt_none hr).2
        rcases hrested with hs | hs <;> rw [hs] at hcases <;> simp at hcases
  · rintro ⟨p, hr⟩
    exact (status_of_restsAt hr).1

theorem status_filled :
    (submitResult o swept).status = .filled ↔
      (submitResult o swept).filledQty = o.remaining := by
  have hfilled : (submitResult o swept).filledQty = o.remaining ↔ swept.left = 0 := by
    show o.remaining - swept.left = o.remaining ↔ _
    exact sub_eq_self
  rw [hfilled]
  cases hr : restsAt o swept with
  | some p =>
      obtain ⟨hleft, _, _⟩ := restsAt_eq_some hr
      have hne : swept.left ≠ 0 := UInt64.pos_iff_ne_zero.mp hleft
      rcases (status_of_restsAt hr).1 with hs | hs <;> simp [hs, hne]
  | none =>
      rcases (status_of_restsAt_none hr).2 with ⟨hs, hz⟩ | ⟨hs, hz⟩ | ⟨hs, hz, _⟩ <;>
        simp [hs, hz]

/-- Only a market order can be left with a remainder nobody blocked. -/
theorem status_cancelled (h : (submitResult o swept).status = .cancelledRemainder) :
    o.kind = .market := by
  cases hr : restsAt o swept with
  | some p => rcases (status_of_restsAt hr).1 with hs | hs <;> rw [hs] at h <;> cases h
  | none =>
      rcases (status_of_restsAt_none hr).2 with ⟨hs, _⟩ | ⟨hs, _⟩ | ⟨_, hz, hb⟩
      · rw [hs] at h
        cases h
      · rw [hs] at h
        cases h
      · unfold restsAt at hr
        rw [if_pos ⟨UInt64.pos_iff_ne_zero.mpr hz, by simp [hb]⟩] at hr
        obtain ⟨_, _, _, _, _, kind⟩ := o
        cases kind with
        | market => rfl
        | limit | iceberg => cases hr

end Market

/-! ## Submitting conserves quantity -/

namespace Consistent

variable {m : BookMemory}

/-- Validation does not look at the aggregates either. -/
theorem validate_ok (h : Consistent m) {o : Order} {fails : ℕ → Bool}
    (hv : (Book.validate o fails m).1 = .ok ()) :
    o.remaining ≠ 0 ∧ m.state.view.locate o.id = none := by
  have halike := Symmetry.validate_alike fails (inStep m) h.separate o
  have horder : Symmetry.same.order o = o := by
    obtain ⟨_, _, _, _, _, kind⟩ := o
    cases kind <;> rfl
  rw [horder] at halike
  have hv' : (Book.validate o fails { m with state := m.state.rebalance }).1 = .ok () := by
    rcases hx : Book.validate o fails m with ⟨r, n⟩
    rcases hx' : Book.validate o fails { m with state := m.state.rebalance } with ⟨r', n'⟩
    rw [hx, hx'] at halike
    rw [hx] at hv
    cases halike with
    | ok => rfl
    | error => cases hv
  have hok := Exchange.validate_ok (m := { m with state := m.state.rebalance }) h hv'
  rwa [Book.rebalance_view] at hok

/-- An order that passes validation on a book whose orders all show something is matched,
unless memory runs out. -/
theorem submit_valid (h : Consistent m) (hshown : m.state.view.AllShown) {o : Order}
    {fails : ℕ → Bool} (hv : (Book.validate o fails m).1 = .ok ()) :
    (Book.submit (some o) fails m).1 = .error (.throws .badAlloc) ∧ (∃ n, fails n = true) ∨
      ∃ res m', Book.submit (some o) fails m = (.ok res, m') ∧
        m.state.view.apply (.submit (some o)) = .ok (.submitted res, m'.state.view) := by
  obtain ⟨hq, hid⟩ := h.validate_ok hv
  obtain ⟨swept, hsw⟩ := sweep_of_shown o (hshown (opposite o.side))
  have happly : ∃ r, m.state.view.apply (.submit (some o)) = .ok r := by
    rw [Market.apply, Market.submit, if_neg hq, if_neg (by simp [hid]), Market.enter, hsw]
    exact ⟨_, rfl⟩
  obtain ⟨r, happly⟩ := happly
  rcases h.refines (.submit (some o)) fails with ⟨herr, hf⟩ | ⟨f, _, herr⟩ | hok
  · exact Or.inl ⟨return_eq_error herr, hf⟩
  · rw [happly] at herr
    cases herr
  · obtain ⟨out, m', hrun, _, hspec⟩ := hok
    obtain ⟨res, m₁, hsub, hout⟩ := bind_eq_ok hrun
    cases hout
    exact Or.inr ⟨res, _, hsub, hspec⟩

/-- What a submit that goes through conserves. -/
theorem conserves (h : Consistent m) (hshown : m.state.view.AllShown) {o : Order}
    {fails : ℕ → Bool} {res : SubmitResult} {m' : BookMemory}
    (hrun : Book.submit (some o) fails m = (.ok res, m'))
    (happly : m.state.view.apply (.submit (some o)) = .ok (.submitted res, m'.state.view)) :
    Conserves m.state m'.state o res := by
  have htrans := Market.apply_ok happly
  generalize hM' : m'.state.view = M' at htrans
  cases htrans with
  | entered o swept hq hid hsw =>
  have hown := h.valid.ordered o.side
  have hopp : m'.state.view.ladder (opposite o.side) = swept.ladder := by
    rw [hM', Market.settleEntry_opposite]
  have hnd := h.valid.ids_nodup (opposite o.side)
  have hacc := sweep_account (hshown (opposite o.side)) hnd hsw
  have hle := Direct.sweep_left_le hsw
  have hleft := UInt64.le_iff_toNat_le.mp hle
  have hfilled : (Market.submitResult o swept).filledQty.toNat =
      o.remaining.toNat - swept.left.toNat := UInt64.toNat_sub_of_le _ _ hle
  have htotal : filledTotal swept.fills + swept.left.toNat = o.remaining.toNat := sweep_total hsw
  refine ⟨fun f hf => (hacc.fills f hf).positive, ?_, ⟨?_, ?_⟩, ?_,
    sweep_descending (h.valid.ordered _) hsw, ?_, ?_, ?_, ?_, Market.status_filled,
    Market.status_cancelled⟩
  · intro f hf
    obtain ⟨hid, haccount, hside⟩ := (hacc.fills f hf).aggressor
    obtain ⟨x, _, _, hx, hne⟩ := (hacc.fills f hf).resting
    exact ⟨hid, haccount, hside, by rw [hx, haccount]; exact hne⟩
  · rw [hfilled]
    show filledTotal swept.fills = _
    omega
  · rw [UInt64.le_iff_toNat_le, hfilled]
    omega
  · intro f hf
    obtain ⟨x, hx, hxid, hxacc, _⟩ := (hacc.fills f hf).resting
    exact ⟨(hacc.fills f hf).reached, x, hx, hxid.symm, hxacc.symm⟩
  · intro p x hx
    unfold Rests
    rw [hopp]
    exact hacc.used_or_kept hnd hx
  · intro p x' hx'
    unfold Rests at hx'
    rw [hopp] at hx'
    exact hacc.kept (p, x') hx'
  · intro hrested
    obtain ⟨p, hr⟩ := Market.rested_iff.mp hrested
    obtain ⟨hpos, _, hp⟩ := Market.restsAt_eq_some hr
    have hrest := (Market.status_of_restsAt hr).2
    refine ⟨?_, hrest ▸ hpos, ?_, p, hp, ?_⟩
    · rw [hfilled, hrest]
      omega
    · exact (Market.entered_remaining m.state.nextSequence).trans hrest.symm
    · rw [hM']
      exact Market.settleEntry_own _ _ hr
  · intro hrested
    have hr : Market.restsAt o swept = none :=
      Option.eq_none_iff_forall_ne_some.mpr fun p hr => hrested (Market.rested_iff.mpr ⟨p, hr⟩)
    exact ⟨(Market.status_of_restsAt_none hr).1, Book.submit_own hrun hrested⟩

end Consistent

/-- **Conservation of quantity.** On a book whose index and levels agree, with no empty
level, not crossed, and whose orders show something and no more than they have, an order
that passes validation is matched without losing or inventing quantity, unless memory
runs out. -/
theorem submit_conserves {m : BookMemory} (hrep : Representation m.state)
    (hheap : Allocated m) (hcross : m.state.isCrossed = false)
    (horders : m.state.AllOrders fun x =>
      x.Object ∧ 0 < x.visibleQty ∧ x.visibleQty ≤ x.remaining)
    {o : Order} {fails : ℕ → Bool} (hv : (Book.validate o fails m).1 = .ok ()) :
    (Book.submit (some o) fails m).1 = .error (.throws .badAlloc) ∧ (∃ n, fails n = true) ∨
      ∃ res m', Book.submit (some o) fails m = (.ok res, m') ∧
        Conserves m.state m'.state o res := by
  have hc : Consistent m := .of_agrees hrep.toIndexAgrees hheap hrep.alive hrep.full hcross
  have hshown := Book.allShown_of_objects horders
  rcases hc.submit_valid hshown hv with herr | ⟨res, m', hsub, hspec⟩
  · exact Or.inl herr
  · exact Or.inr ⟨res, m', hsub, hc.conserves hshown hsub hspec⟩

theorem Reachable.allOrders {m : BookMemory} (h : Reachable (fun _ op => op.Built) m)
    (hshown : m.state.view.AllShown) :
    m.state.AllOrders fun x => x.Object ∧ 0 < x.visibleQty ∧ x.visibleQty ≤ x.remaining := by
  refine Book.allOrders_iff.mpr fun s e he o ho => ?_
  have hs := hshown s e he o ho
  exact ⟨h.objects s e he o ho, hs.shows, hs.within⟩

theorem quotes_orders : quotes.state.AllOrders fun x =>
    x.Object ∧ 0 < x.visibleQty ∧ x.visibleQty ≤ x.remaining := by
  have hbuilt : Reachable (fun _ op => op.Built) quotes :=
    .step _ _ (.step _ _ .empty (.limit _ _ _ _ _)) (.limit _ _ _ _ _)
  have hshown : quotes.state.view.AllShown := by decide +kernel
  exact hbuilt.allOrders hshown

theorem stacked_orders : stacked.state.AllOrders fun x =>
    x.Object ∧ 0 < x.visibleQty ∧ x.visibleQty ≤ x.remaining := by
  have hbuilt : Reachable (fun _ op => op.Built) stacked :=
    .step _ _ (.step _ _ (.step _ _ .empty (.iceberg _ _ _ _ _ _)) (.limit _ _ _ _ _))
      (.limit _ _ _ _ _)
  have hshown : stacked.state.view.AllShown := by decide +kernel
  exact hbuilt.allOrders hshown

/-- A buyer takes three of the five on offer. -/
theorem submit_conserves_quotes :
    (Book.submit (some (limitOrder 3 .buy 9 3 101)) (fun _ => false) quotes).1 =
        .error (.throws .badAlloc) ∧ (∃ n : ℕ, (fun _ => false) n = true) ∨
      ∃ res m', Book.submit (some (limitOrder 3 .buy 9 3 101)) (fun _ => false) quotes =
          (.ok res, m') ∧
        Conserves quotes.state m'.state (limitOrder 3 .buy 9 3 101) res :=
  submit_conserves quotes_reachable.wellFormed.representation
    quotes_reachable.wellFormed.allocated (by decide +kernel) quotes_orders (by decide +kernel)

/-! ## Amendments -/

/-- On the other side, at a price the amended order crosses, stands an order of its own
account, with less than the new quantity to take ahead of it. -/
def Book.amendmentBlocked (b : Book) (id : OrderId) (newQty : Quantity)
    (newPrice : Option Price) : Bool :=
  match b.view.locate id with
  | none => false
  | some (s, o) =>
      let ahead := reach (Market.replacement o newQty newPrice) (b.view.ladder (opposite s))
      ahead.2 && ahead.1 < newQty.toNat

namespace Market

theorem replacement_remaining (o : Order) (q : Quantity) (p : Option Price) :
    (replacement o q p).remaining = q := Order.cloneAmended_remaining _ _ _

/-- The replacement of a resting order can rest, at its target price. -/
theorem replacement_restingPrice {o : Order} {price : Price} (q : Quantity)
    (p : Option Price) (h : o.restingPrice = some price) :
    (replacement o q p).restingPrice = p.or (some price) := by
  unfold replacement Order.cloneAmended
  obtain ⟨_, _, _, _, _, kind⟩ := o
  cases kind with
  | market => cases h
  | limit | iceberg =>
      cases h
      cases p <;> rfl

/-- What is left of an order that was not blocked comes to rest. -/
theorem restsAt_of_unblocked {o : Order} {swept : Direct.MatchResult} {price : Price}
    (hp : o.restingPrice = some price) (hb : swept.blocked = false) (hleft : 0 < swept.left) :
    restsAt o swept = some price := by
  unfold restsAt
  rw [if_pos ⟨hleft, by simp [hb]⟩, hp]

/-- The remainder is in its place. -/
theorem settleEntry_places {M : Market} {s : Side} {o : Order} {swept : Direct.MatchResult}
    {price : Price} (hord : (M.ladder s).Ordered s) (h : restsAt o swept = some price) :
    (price, (o.assignSequence M.nextSequence).onPartialFill (o.remaining - swept.left)) ∈
      ((M.settleEntry s o swept).ladder s).places := by
  rw [settleEntry_own M s h]
  obtain ⟨pre, queue, post, _, hrest, _⟩ := Ladder.rest_split hord price
    ((o.assignSequence M.nextSequence).onPartialFill (o.remaining - swept.left))
  rw [hrest]
  exact Ladder.mem_places.mpr ⟨_, List.mem_append_right _ List.mem_cons_self,
    List.mem_append_right _ List.mem_cons_self⟩

end Market

/-- **An amendment keeps its quantity exactly if it is not blocked.** What a requeued
order did not trade rests under its id at the target price; a replacement that reaches an
order of its own account with something left is gone with it. -/
theorem amendment_conserves {m m' : BookMemory} (h : Reachable anyOp m) {id : OrderId}
    {newQty : Quantity} {newPrice : Option Price} {fails : ℕ → Bool} {res : ModifyResult}
    (hrun : Book.modify id newQty newPrice fails m = (.ok res, m'))
    (hreq : res.status = .requeued) :
    (m.state.amendmentBlocked id newQty newPrice = false ↔
      filledTotal res.fills + res.restingQty.toNat = newQty.toNat) ∧
    (0 < res.restingQty → ∃ s o p x, m.state.view.locate id = some (s, o) ∧
      newPrice.or o.restingPrice = some p ∧ Rests m'.state s p x ∧ x.id = id ∧
      x.remaining = res.restingQty) := by
  have href : Refines fails m _ _ (Book.modify id newQty newPrice fails m) :=
    Book.modify_refines h.wellFormed id newQty newPrice
  rw [hrun] at href
  cases href with
  | done _ _ hspec hwf =>
  have htrans := Market.modify_ok hspec
  generalize hM' : m'.state.view = M' at htrans
  cases htrans with
  | rejected | absent | reduced => cases hreq
  | requeued id newQty newPrice s o swept hq hl hk hsw =>
  obtain ⟨price, hplaced⟩ := h.wellFormed.valid.placed_of_find? (Market.locate_eq_some hl)
  have hprice := Market.replacement_restingPrice newQty newPrice hplaced.price
  obtain ⟨target, htarget⟩ : ∃ target, newPrice.or (some price) = some target := by
    cases newPrice <;> exact ⟨_, rfl⟩
  rw [htarget] at hprice
  have hblocked : m.state.amendmentBlocked id newQty newPrice = swept.blocked := by
    have hreach := (sweep_reach (h.wellFormed.valid.ordered (opposite s)).full hsw).2
    rw [Market.replacement_remaining] at hreach
    unfold Book.amendmentBlocked
    rw [hl, Bool.eq_iff_iff, hreach]
    simp
  have htotal := sweep_total hsw
  rw [Market.replacement_remaining] at htotal
  rw [hblocked]
  cases hr : Market.restsAt (Market.replacement o newQty newPrice) swept with
  | none =>
      have hzero := (Market.status_of_restsAt_none hr).1
      rw [hzero]
      refine ⟨⟨fun hb => ?_, fun hsum => ?_⟩, fun hpos => absurd hpos (UInt64.lt_irrefl 0)⟩
      · -- Not blocked and not resting: nothing was left.
        have hz : swept.left = 0 := by
          by_contra hne
          rw [Market.restsAt_of_unblocked hprice hb (UInt64.pos_iff_ne_zero.mpr hne)] at hr
          cases hr
        rw [hz] at htotal
        exact htotal
      · by_contra hb
        have hleft := UInt64.lt_iff_toNat_lt.mp (Direct.sweep_blocked hsw (by simpa using hb))
        change filledTotal swept.fills + 0 = newQty.toNat at hsum
        change 0 < swept.left.toNat at hleft
        omega
  | some p =>
      obtain ⟨_, hb, hp⟩ := Market.restsAt_eq_some hr
      obtain rfl : target = p := Option.some.inj (hprice.symm.trans hp)
      rw [(Market.status_of_restsAt hr).2]
      have hord : ((m.state.view.setLadder s ((m.state.view.ladder s).remove id)).ladder
          s).Ordered s := (h.wellFormed.valid.remove s id).ordered s
      have hrests := Market.settleEntry_places hord hr
      rw [← hM'] at hrests
      refine ⟨⟨fun _ => htotal, fun _ => hb⟩, fun _ => ⟨s, o, target, _, hl, ?_, hrests, ?_,
        Market.entered_remaining _⟩⟩
      · rw [hplaced.price]
        exact htarget
      · rw [Order.onPartialFill_id]
        exact (Market.replacement_id _ _ _).trans (Market.locate_id hl)

/-- The bid takes all of the ask and rests with what is left. -/
theorem amendment_conserves_quotes :
    quotes.state.amendmentBlocked 1 9 (some 101) = false ∧
    ∃ res m', Book.modify 1 9 (some 101) (fun _ => false) quotes = (.ok res, m') ∧
      res.status = .requeued ∧
      (quotes.state.amendmentBlocked 1 9 (some 101) = false ↔
        filledTotal res.fills + res.restingQty.toNat = (9 : Quantity).toNat) ∧
      (0 < res.restingQty → ∃ s o p x, quotes.state.view.locate 1 = some (s, o) ∧
        (some 101).or o.restingPrice = some p ∧ Rests m'.state s p x ∧ x.id = 1 ∧
        x.remaining = res.restingQty) := by
  have hstatus : (Book.modify 1 9 (some 101) (fun _ => false) quotes).1.map (·.status) =
      .ok .requeued := by decide +kernel
  rcases hrun : Book.modify 1 9 (some 101) (fun _ => false) quotes with ⟨_ | res, m'⟩
  · rw [hrun] at hstatus
    cases hstatus
  · rw [hrun] at hstatus
    have hreq : res.status = .requeued := Except.ok.inj hstatus
    exact ⟨by decide +kernel, res, m', rfl, hreq,
      amendment_conserves quotes_reachable hrun hreq⟩

/-- An ask and a bid of one account. -/
def ownQuotes : BookMemory :=
  ((Op.submit (some (limitOrder 2 .buy 7 5 100))).exec (fun _ => false)
    ((Op.submit (some (limitOrder 1 .sell 7 5 105))).exec (fun _ => false)
      { state := {} }).2).2

theorem ownQuotes_reachable : Reachable anyOp ownQuotes :=
  .step _ _ (.step _ _ .empty trivial) trivial

/-- The bid is amended to the price of its own account's ask: it is reported requeued,
it traded nothing, and it is gone. -/
theorem amendment_drops_remainder :
    Reachable anyOp ownQuotes ∧ ownQuotes.state.amendmentBlocked 2 5 (some 105) = true ∧
    (Book.modify 2 5 (some 105) (fun _ => false) ownQuotes).1 =
      .ok { status := .requeued, fills := [], restingQty := 0 } ∧
    (Book.modify 2 5 (some 105) (fun _ => false) ownQuotes).2.state.view.locate 2 = none :=
  ⟨ownQuotes_reachable, by decide +kernel, by decide +kernel, by decide +kernel⟩

end Exchange
