import Exchange.Core.Conservation

/-!
# What becomes of quantity over a run

`submit_conserves` and `amendment_conserves` follow one operation. Over a whole run an order
is entered, traded against from both sides, reduced, amended, cancelled, and its id may be
used again when it is gone. The books balance all the same: whatever was admitted under an
id was traded under that id, was given back, or still rests.

Everything but the reduction of an amended order can be read off what the operations
returned; for that the order is looked up in the book the operation found.
-/

namespace Exchange

open Framework Framework.Exec OrderBook

/-! ## What rests under an id -/

namespace Ladder

variable {l : Ladder} {s : Side} {o : Order} {p : Price} {id id' : OrderId} {q : Quantity}

def held (l : Ladder) (id : OrderId) : ℕ :=
  ((l.orders.filter fun o => o.id = id).map fun o => o.remaining.toNat).sum

theorem held_eq_zero (h : id ∉ l.ids) : l.held id = 0 := by
  have hnone : l.orders.filter (fun o => o.id = id) = [] := by
    refine List.filter_eq_nil_iff.mpr fun o ho hid => h ?_
    exact List.mem_map.mpr ⟨o, ho, of_decide_eq_true hid⟩
  rw [held, hnone]
  rfl

/-- An id that rests once holds what its order has left. -/
theorem held_eq (hnodup : l.ids.Nodup) (ho : o ∈ l.orders) :
    l.held o.id = o.remaining.toNat := by
  obtain ⟨pre, post, horders⟩ := List.append_of_mem ho
  rw [ids, horders, List.map_append, List.map_cons, List.nodup_middle, List.nodup_cons,
    ← List.map_append] at hnodup
  have hothers : (pre ++ post).filter (fun x => x.id = o.id) = [] := by
    refine List.filter_eq_nil_iff.mpr fun x hx hid => hnodup.1 ?_
    exact List.mem_map.mpr ⟨x, hx, of_decide_eq_true hid⟩
  rw [List.filter_append, List.append_eq_nil_iff] at hothers
  rw [held, horders, List.filter_append, hothers.1, List.nil_append, List.filter_cons,
    if_pos (by simp), hothers.2]
  rfl

theorem held_rest (h : l.Ordered s) :
    (Ladder.rest s l p o).held id = (if o.id = id then o.remaining.toNat else 0) + l.held id := by
  have hperm := (((rest_orders h (p := p) (o := o)).filter fun o => o.id = id).map
    fun o => o.remaining.toNat).sum_eq
  rw [held, hperm]
  by_cases hid : o.id = id <;> simp [held, hid]

theorem held_remove : (l.remove id').held id = if id' = id then 0 else l.held id := by
  split
  · rename_i hid
    exact held_eq_zero (hid ▸ not_mem_remove_ids)
  · rename_i hid
    rw [held, remove_orders, List.filter_filter]
    congr 2
    refine List.filter_congr fun o _ => ?_
    by_cases ho : o.id = id
    · simp [ho, Ne.symm hid]
    · simp [ho]

theorem held_reduce (hnodup : l.ids.Nodup) (hfind : l.find? id' = some o) :
    (l.reduce id' q).held id = if id' = id then q.toNat else l.held id := by
  obtain ⟨rfl, pre, price, as, bs, post, rfl⟩ := split_of_find? hfind
  have hreduced : (Ladder.reduce (pre ++ (price, as ++ o :: bs) :: post) o.id q).ids.Nodup := by
    rwa [reduce_ids]
  rw [reduce_split q hnodup] at hreduced
  rw [reduce_split q hnodup]
  split
  · rename_i hid
    have hmem : o.reduceTo q ∈
        Ladder.orders (pre ++ (price, as ++ o.reduceTo q :: bs) :: post) := by
      rw [orders_split]
      exact List.mem_append_right _ List.mem_cons_self
    have hheld := held_eq hreduced hmem
    rwa [Order.reduceTo_id, hid, Order.reduceTo_remaining] at hheld
  · rename_i hid
    simp [held, orders_split, hid]

end Ladder

/-- A sweep takes from each id what its fills say. -/
theorem SweepAccount.held {agg : Order} {ladder : Ladder} {st : Direct.MatchState}
    (h : SweepAccount agg ladder st) (hnodup : ladder.ids.Nodup) (id : OrderId) :
    st.ladder.held id + filledOf st.fills id = ladder.held id := by
  have hplace : ∀ {l : Ladder} {y : Price × Order}, y ∈ l.places → y.2 ∈ l.orders := by
    intro l y hy
    rw [← Ladder.places_orders]
    exact List.mem_map_of_mem hy
  by_cases hid : id ∈ ladder.ids
  · rw [← Ladder.places_ids] at hid
    obtain ⟨⟨p, x⟩, hx, rfl⟩ := List.mem_map.mp hid
    rw [Ladder.held_eq hnodup (hplace hx)]
    rcases h.used_or_kept hnodup hx with ⟨hused, hgone⟩ | ⟨x', hx', hdesc, _⟩
    · rw [Ladder.held_eq_zero hgone, hused, Nat.zero_add]
    · have hheld := Ladder.held_eq h.nodup (hplace hx')
      dsimp only at hheld ⊢
      rw [hdesc.id] at hheld
      rw [hheld]
      exact hdesc.remaining
  · have hgone : id ∉ st.ladder.ids := by
      intro hmem
      rw [← Ladder.places_ids] at hmem hid
      obtain ⟨y, hy, rfl⟩ := List.mem_map.mp hmem
      obtain ⟨x₀, hx₀, hdesc⟩ := h.kept y hy
      exact hid (List.mem_map.mpr ⟨_, hx₀, hdesc.id.symm⟩)
    have hnone : st.fills.filter (fun f => f.restingId = id) = [] := by
      refine List.filter_eq_nil_iff.mpr fun f hf hresting => hid ?_
      obtain ⟨x₀, hx₀, hfill, _⟩ := (h.fills f hf).resting
      rw [← of_decide_eq_true hresting, hfill, ← Ladder.places_ids]
      exact List.mem_map.mpr ⟨_, hx₀, rfl⟩
    rw [Ladder.held_eq_zero hgone, Ladder.held_eq_zero hid, filledOf, filledWhere, hnone]
    rfl

/-! ## What was traded under an id -/

/-- What fills moved under an id, on whichever side of them. -/
def tradedUnder (fills : List Fill) (id : OrderId) : ℕ :=
  filledWhere (fun f => f.aggressorId = id ∨ f.restingId = id) fills

@[simp] theorem tradedUnder_nil (id : OrderId) : tradedUnder [] id = 0 := rfl

theorem tradedUnder_aggressor {fills : List Fill} {id : OrderId}
    (h : ∀ f ∈ fills, f.aggressorId = id) : tradedUnder fills id = filledTotal fills := by
  refine congrArg filledTotal (List.filter_eq_self.mpr fun f hf => ?_)
  exact decide_eq_true (Or.inl (h f hf))

theorem tradedUnder_resting {fills : List Fill} {id : OrderId}
    (h : ∀ f ∈ fills, f.aggressorId ≠ id) : tradedUnder fills id = filledOf fills id := by
  refine congrArg filledTotal (List.filter_congr fun f hf => ?_)
  simp [h f hf]

/-! ## One operation -/

namespace Market

variable {M M' : Market} {s : Side} {o : Order} {swept : Direct.MatchResult} {id : OrderId}

def held (M : Market) (id : OrderId) : ℕ := M.bids.held id + M.asks.held id

theorem held_sides (M : Market) (s : Side) (id : OrderId) :
    M.held id = (M.ladder s).held id + (M.ladder (opposite s)).held id := by
  cases s
  · rfl
  · exact Nat.add_comm _ _

theorem held_setLadder (M : Market) (s : Side) (l : Ladder) (id : OrderId) :
    (M.setLadder s l).held id = l.held id + (M.ladder (opposite s)).held id := by
  rw [held_sides _ s, ladder_setLadder, opposite_ladder_setLadder]

/-- What is not traded and does not come to rest. -/
def givenBack (o : Order) (r : SubmitResult) : ℕ :=
  o.remaining.toNat - r.filledQty.toNat - r.restingQty.toNat

/-- **An entry balances.** -/
theorem settleEntry_balance (hv : M.Valid) (hshown : M.AllShown)
    (hnew : ∀ t, o.id ∉ (M.ladder t).ids)
    (hsw : Direct.sweep o (M.ladder (opposite s)) = .ok swept) (id : OrderId) :
    M.held id + (if o.id = id then o.remaining.toNat else 0) =
      (M.settleEntry s o swept).held id + tradedUnder swept.fills id +
        if o.id = id then givenBack o (submitResult o swept) else 0 := by
  have hnodup := hv.ids_nodup (opposite s)
  have haccount := sweep_account (hshown (opposite s)) hnodup hsw
  have hopp : swept.ladder.held id + filledOf swept.fills id = (M.ladder (opposite s)).held id :=
    haccount.held hnodup id
  have htotal := sweep_total hsw
  have hown : ((M.settleEntry s o swept).ladder s).held id =
      (if o.id = id then (submitResult o swept).restingQty.toNat else 0) +
        (M.ladder s).held id := by
    cases hrest : restsAt o swept with
    | none =>
        rw [settleEntry_own_none M s hrest, (status_of_restsAt_none hrest).1]
        simp
    | some p =>
        rw [settleEntry_own M s hrest, Ladder.held_rest (hv.ordered s), entered_remaining,
          (status_of_restsAt hrest).2, Order.onPartialFill_id]
        rfl
  have hfilled : (submitResult o swept).filledQty.toNat =
      o.remaining.toNat - swept.left.toNat :=
    UInt64.toNat_sub_of_le _ _ (Direct.sweep_left_le hsw)
  have hresting : (submitResult o swept).restingQty.toNat ≤ swept.left.toNat := by
    cases hrest : restsAt o swept with
    | none =>
        rw [(status_of_restsAt_none hrest).1]
        exact Nat.zero_le _
    | some p => rw [(status_of_restsAt hrest).2]
  rw [held_sides M s, held_sides _ s, settleEntry_opposite, hown]
  by_cases hid : o.id = id
  · -- the order that enters: it is new, and every fill is its own
    subst hid
    have htraded : tradedUnder swept.fills o.id = filledTotal swept.fills :=
      tradedUnder_aggressor fun f hf => (haccount.fills f hf).aggressor.1
    have hzero := Ladder.held_eq_zero (hnew (opposite s))
    simp only [if_true, givenBack]
    omega
  · -- any other: only the side it rests on counts, and only if it is the opposite one
    have htraded : tradedUnder swept.fills id = filledOf swept.fills id :=
      tradedUnder_resting fun f hf heq =>
        hid ((haccount.fills f hf).aggressor.1.symm.trans heq)
    simp only [if_neg hid]
    omega

end Market

/-- An operation that went through, and the market it found. -/
structure Performed where
  before : Market
  op : Op
  outcome : Outcome

namespace Performed

/-- What the operation brought in under an id. -/
def admitted (d : Performed) (id : OrderId) : ℕ :=
  match d.op, d.outcome with
  | .submit (some o), .submitted _ => if o.id = id then o.remaining.toNat else 0
  | .modify id' newQty _, .modified r =>
      if id' = id ∧ r.status = .requeued then newQty.toNat else 0
  | _, _ => 0

def fills (d : Performed) : List Fill :=
  match d.outcome with
  | .submitted r => r.fills
  | .cancelled _ => []
  | .modified r => r.fills

/-- What the operation gave back of what had been brought in under an id: the remainder
that does not rest, the order that is cancelled, the part it is reduced by. An order that
is queued anew is given back as it was. -/
def returned (d : Performed) (id : OrderId) : ℕ :=
  match d.op, d.outcome with
  | .submit (some o), .submitted r => if o.id = id then Market.givenBack o r else 0
  | .cancel _, .cancelled (some o) => if o.id = id then o.remaining.toNat else 0
  | .modify id' newQty _, .modified r =>
      if id' = id then
        match r.status with
        | .amendedInPlace => d.before.held id - newQty.toNat
        | .requeued => d.before.held id +
            (newQty.toNat - filledTotal r.fills - r.restingQty.toNat)
        | _ => 0
      else 0
  | _, _ => 0

end Performed

namespace Market

variable {M M' : Market} {s : Side} {o : Order} {id : OrderId}

/-- A located order is all that rests under its id. -/
theorem Valid.held_locate (h : M.Valid) (hl : M.locate id = some (s, o)) :
    (M.ladder s).held id = o.remaining.toNat ∧ (M.ladder (opposite s)).held id = 0 := by
  have hfind := locate_eq_some hl
  obtain rfl := locate_id hl
  have hmem := List.mem_of_find?_eq_some hfind
  refine ⟨Ladder.held_eq (h.ids_nodup s) hmem, Ladder.held_eq_zero fun hother => ?_⟩
  exact (List.nodup_append.mp (h.ids s)).2.2 o.id (List.mem_map_of_mem hmem) o.id hother rfl

end Market

/-- Reducing never asks for more than there is. -/
theorem Market.newQty_le {o : Order} {newQty : Quantity} {newPrice : Option Price}
    (h : Market.keepsPlace o newQty newPrice = true) : newQty.toNat ≤ o.remaining.toNat := by
  have hle : ¬ newQty > o.remaining := (of_decide_eq_true h).2
  exact UInt64.le_iff_toNat_le.mp (by grind)

/-- **An operation balances.** -/
theorem Market.Transition.balance {M M' : Market} {op : Op} {out : Outcome}
    (ht : Market.Transition M op out M') (hv : M.Valid) (hshown : M.AllShown) (id : OrderId) :
    M.held id + (Performed.mk M op out).admitted id =
      M'.held id + tradedUnder (Performed.mk M op out).fills id +
        (Performed.mk M op out).returned id := by
  cases ht with
  | entered o swept hq hid hsw =>
      exact Market.settleEntry_balance hv hshown (Market.locate_eq_none.mp hid) hsw id
  | unknown id' hl => rfl
  | rejected id' newPrice =>
      simp [Performed.admitted, Performed.fills, Performed.returned]
  | absent id' newQty newPrice hq hl =>
      simp [Performed.admitted, Performed.fills, Performed.returned]
  | withdrawn id' s o hl =>
      obtain ⟨hown, hopp⟩ := hv.held_locate hl
      obtain rfl := Market.locate_id hl
      rw [Market.held_setLadder, Ladder.held_remove, Market.held_sides M s]
      by_cases hid : o.id = id
      · subst hid
        simp [Performed.admitted, Performed.fills, Performed.returned, hown, hopp]
      · simp [Performed.admitted, Performed.fills, Performed.returned, hid]
  | reduced id' newQty newPrice s o hq hl hk =>
      obtain ⟨hown, hopp⟩ := hv.held_locate hl
      have hle := Market.newQty_le hk
      rw [Market.held_setLadder, Ladder.held_reduce (hv.ids_nodup s) (Market.locate_eq_some hl)]
      by_cases hid : id' = id
      · subst hid
        simp only [Performed.admitted, Performed.fills, Performed.returned, tradedUnder_nil,
          Market.held_sides M s, hown, hopp, if_true]
        simp
        omega
      · simp [Performed.admitted, Performed.fills, Performed.returned,
          Market.held_sides M s, hid]
  | requeued id' newQty newPrice s o swept hq hl hk hsw =>
      have hid' := (Market.replacement_id o newQty newPrice).trans (Market.locate_id hl)
      -- the order is taken out, and what replaces it enters
      have hnew : ∀ t, (Market.replacement o newQty newPrice).id ∉
          ((M.setLadder s ((M.ladder s).remove id')).ladder t).ids := by
        rw [hid']
        exact hv.removed_not_mem hl
      have hentry := Market.settleEntry_balance (hv.remove s id')
        (Market.all_setLadder hshown (hshown s).remove) hnew
        ((Market.opposite_ladder_setLadder M s _).symm ▸ hsw) id
      obtain ⟨hown, hopp⟩ := hv.held_locate hl
      have htotal := sweep_total hsw
      have hfilled : (Market.submitResult (Market.replacement o newQty newPrice)
          swept).filledQty.toNat = filledTotal swept.fills := by
        have hsub : (Market.submitResult (Market.replacement o newQty newPrice)
            swept).filledQty.toNat = _ :=
          UInt64.toNat_sub_of_le _ _ (Direct.sweep_left_le hsw)
        omega
      rw [hid', Market.held_setLadder, Ladder.held_remove, Market.givenBack,
        Market.replacement_remaining, hfilled] at hentry
      by_cases hid : id' = id
      · subst hid
        simp only [if_true] at hentry
        simp only [Performed.admitted, Performed.fills, Performed.returned,
          Market.held_sides M s, hown, hopp, and_self, if_true]
        omega
      · simp only [if_neg hid] at hentry
        simp only [Performed.admitted, Performed.fills, Performed.returned,
          Market.held_sides M s, hid, false_and, if_false]
        omega

/-! ## Runs -/

/-- A run and the operations of it that went through. Those that throw leave no trace. -/
inductive Chronicle (allowed : Book → Op → Prop) : List Performed → BookMemory → Prop where
  | empty : Chronicle allowed [] { state := {} }
  | performed {past : List Performed} {m m' : BookMemory} (op : Op) (fails : ℕ → Bool)
      (out : Outcome) (h : Chronicle allowed past m) (hop : allowed m.state op)
      (hexec : op.exec fails m = (.ok out, m')) :
      Chronicle allowed (past ++ [⟨m.state.view, op, out⟩]) m'
  | failed {past : List Performed} {m m' : BookMemory} (op : Op) (fails : ℕ → Bool)
      (f : Ending) (h : Chronicle allowed past m) (hop : allowed m.state op)
      (hexec : op.exec fails m = (.error f, m')) : Chronicle allowed past m'

theorem Chronicle.snoc {allowed : Book → Op → Prop} {past : List Performed} {m : BookMemory}
    (h : Chronicle allowed past m) {op : Op} {fails : ℕ → Bool} {out : Outcome}
    (hop : allowed m.state op) (hout : (op.exec fails m).1 = .ok out) :
    Chronicle allowed (past ++ [⟨m.state.view, op, out⟩]) (op.exec fails m).2 :=
  .performed op fails out h hop (Prod.ext hout rfl)

theorem Chronicle.reachable {allowed : Book → Op → Prop} {past : List Performed}
    {m : BookMemory} (h : Chronicle allowed past m) : Reachable allowed m := by
  induction h with
  | empty => exact .empty
  | performed op fails out _ hop hexec ih
  | failed op fails f _ hop hexec ih =>
      have hstep := Reachable.step op fails ih hop
      rwa [hexec] at hstep

/-- **Quantity is accounted for.** In every run whose orders stay within their tranches,
whatever its operations and whichever allocations fail, what was admitted under an id is
what was traded under it, what was given back and what still rests. -/
theorem quantity_accounted {past : List Performed} {m : BookMemory}
    (h : Chronicle WithinTranche past m) (id : OrderId) :
    (past.map (·.admitted id)).sum =
      (past.map fun d => tradedUnder d.fills id).sum + (past.map (·.returned id)).sum +
        m.state.view.held id := by
  induction h with
  | empty => rfl
  | @performed past m m' op fails out h hop hexec ih =>
      have hwf := h.reachable.wellFormed
      have hshown := (reachable_shown h.reachable).1
      rcases hwf.transition op fails with ⟨out', hout, ht⟩ | ⟨⟨f, hf⟩, _⟩
      · rw [hexec] at hout ht
        obtain rfl := Except.ok.inj hout
        have hbalance := ht.balance hwf.valid hshown id
        dsimp only at hbalance
        simp only [List.map_append, List.map_cons, List.map_nil, List.sum_append, List.sum_cons,
          List.sum_nil]
        omega
      · rw [hexec] at hf
        cases hf
  | @failed past m m' op fails f h hop hexec ih =>
      rcases h.reachable.wellFormed.transition op fails with ⟨out, hout, _⟩ | ⟨_, hsame⟩
      · rw [hexec] at hout
        cases hout
      · rw [hexec] at hsame
        rw [hsame]
        exact ih

/-- An ask of 5 of which 3 are bought. -/
def partlyBought : BookMemory :=
  ((Op.submit (some (limitOrder 2 .buy 8 3 100))).exec (fun _ => false) (askAlone 5)).2

/-- The ask, its fill, and the cancellation of what is left. -/
def askCancelled : List Performed :=
  [⟨{}, .submit (some (limitOrder 1 .sell 7 5 100)), .submitted ⟨.resting, [], 0, 5⟩⟩,
    ⟨(askAlone 5).state.view, .submit (some (limitOrder 2 .buy 8 3 100)),
      .submitted ⟨.filled, [⟨2, 1, 100, 3, 8, 7, .buy⟩], 3, 0⟩⟩,
    ⟨partlyBought.state.view, .cancel 1,
      .cancelled (some { limitOrder 1 .sell 7 2 100 with sequence := 1 })⟩]

theorem askCancelled_chronicle :
    Chronicle WithinTranche askCancelled ((Op.cancel 1).exec (fun _ => false) partlyBought).2 := by
  have hasked : Chronicle WithinTranche (askCancelled.take 1) (askAlone 5) :=
    Chronicle.empty.snoc ⟨Order.Built.limit _ _ _ _ _, by decide +kernel⟩ (by decide +kernel)
  have hbought : Chronicle WithinTranche (askCancelled.take 2) partlyBought :=
    hasked.snoc ⟨Order.Built.limit _ _ _ _ _, by decide +kernel⟩ (by decide +kernel)
  exact hbought.snoc ⟨trivial, fun o ho => by cases ho⟩ (by decide +kernel)

theorem quantity_accounted_cancelled :
    (askCancelled.map (·.admitted 1)).sum = 5 ∧
    (askCancelled.map fun d => tradedUnder d.fills 1).sum = 3 ∧
    (askCancelled.map (·.admitted 1)).sum =
      (askCancelled.map fun d => tradedUnder d.fills 1).sum +
        (askCancelled.map (·.returned 1)).sum +
        ((Op.cancel 1).exec (fun _ => false) partlyBought).2.state.view.held 1 :=
  ⟨by decide +kernel, by decide +kernel, quantity_accounted askCancelled_chronicle 1⟩

end Exchange
