import Exchange.Core.Runs

/-!
# Tranches

What a resting order shows. As long as every order shows something and no more
than it has, the planner is never stuck and the book matches as direct matching
does. Trading keeps it so for the orders it meets; the order that comes in is
another matter, since the planner sizes it by what it has and not by what it
shows.
-/

namespace Exchange

open Framework Framework.Exec OrderBook

/-- Something on display, no more than there is, and something to refresh it
with. -/
structure Shown (o : Order) : Prop where
  shows : 0 < o.visibleQty
  within : o.visibleQty ≤ o.remaining
  refills : 0 < o.displaySize

instance (o : Order) : Decidable (Shown o) :=
  decidable_of_iff (0 < o.visibleQty ∧ o.visibleQty ≤ o.remaining ∧ 0 < o.displaySize)
    ⟨fun h => ⟨h.1, h.2.1, h.2.2⟩, fun h => ⟨h.shows, h.within, h.refills⟩⟩

/-- Every resting order of a market shows a tranche. -/
def Market.AllShown (M : Market) : Prop := ∀ s, (M.ladder s).All fun _ o => Shown o

instance (M : Market) : Decidable M.AllShown :=
  decidable_of_iff ((∀ e ∈ M.bids, ∀ o ∈ e.2, Shown o) ∧ ∀ e ∈ M.asks, ∀ o ∈ e.2, Shown o)
    ⟨fun h s => match s with
      | .buy => h.1
      | .sell => h.2, fun h => ⟨h .buy, h .sell⟩⟩

namespace Shown

variable {o : Order} {qty : Quantity}

/-- What is left of a tranche is still a tranche. -/
theorem onPartialFill (h : Shown o) (hq : qty < o.visibleQty) :
    Shown (o.onPartialFill qty) := by
  have hw := h.within
  refine ⟨?_, ?_, ?_⟩
  · rw [Order.onPartialFill_visibleQty]
    grind
  · rw [Order.onPartialFill_visibleQty, Order.onPartialFill_remaining]
    grind
  · obtain ⟨id, remaining, sequence, account, side, kind⟩ := o
    cases kind with
    | iceberg limit display visible => exact h.refills
    | limit limit =>
        show 0 < remaining - qty
        have hq' : qty < remaining := hq
        grind
    | market =>
        show 0 < remaining - qty
        have hq' : qty < remaining := hq
        grind

/-- A spent tranche is refreshed from what remains. -/
theorem replenish (h : Shown o) (hq : qty = o.visibleQty) (hr : qty ≠ o.remaining) :
    Shown (o.onPartialFill qty).replenish := by
  have hw := h.within
  obtain ⟨id, remaining, sequence, account, side, kind⟩ := o
  cases kind with
  | iceberg limit display visible =>
      have hd : 0 < display := h.refills
      have hv : qty = visible := hq
      have hw' : visible ≤ remaining := hw
      have hr' : qty ≠ remaining := hr
      refine ⟨?_, ?_, hd⟩
      · show 0 < min display (remaining - qty)
        grind
      · show min display (remaining - qty) ≤ remaining - qty
        grind
  | limit limit => exact absurd hq hr
  | market => exact absurd hq hr

theorem reduceTo (h : Shown o) (hq : qty ≠ 0) : Shown (o.reduceTo qty) := by
  obtain ⟨id, remaining, sequence, account, side, kind⟩ := o
  have hpos : 0 < qty := UInt64.pos_iff_ne_zero.mpr hq
  cases kind with
  | iceberg limit display visible =>
      have hd : 0 < display := h.refills
      have hv : 0 < visible := h.shows
      refine ⟨?_, ?_, ?_⟩
      · show 0 < min visible qty
        grind
      · show min visible qty ≤ qty
        grind
      · show 0 < min display qty
        grind
  | limit limit => exact ⟨hpos, UInt64.le_refl _, hpos⟩
  | market => exact ⟨hpos, UInt64.le_refl _, hpos⟩

end Shown

/-- Trading with the head leaves a tranche, a fresh one, or nothing. -/
theorem shown_kept : Direct.Kept fun _ o => Shown o := by
  intro price head left h hqty o ho
  set qty := min left head.visibleQty with hq
  have hle : qty ≤ head.visibleQty := by grind
  unfold Direct.settle at ho
  split at ho
  · cases ho
  · rename_i hfilled
    have hr : qty ≠ head.remaining := by
      intro heq
      apply hfilled
      simp [Order.isFilled, heq]
    split at ho
    · rename_i hspent
      have hv : qty = head.visibleQty := by
        simp only [Order.needsReplenish, Bool.and_eq_true, decide_eq_true_eq,
          Order.onPartialFill_visibleQty] at hspent
        grind
      rw [List.nil_append, List.mem_singleton] at ho
      rw [ho]
      exact h.replenish hv hr
    · rename_i hspent
      have hv : qty < head.visibleQty := by
        have hw := h.within
        simp only [Order.needsReplenish, Bool.and_eq_true, decide_eq_true_eq,
          Order.onPartialFill_visibleQty, Order.onPartialFill_remaining] at hspent
        grind
      rw [List.mem_singleton.mp ho]
      exact h.onPartialFill hv

/-- Where every order shows something, a sweep is never stuck. -/
theorem sweep_of_shown (agg : Order) {ladder : Ladder}
    (h : ladder.All fun _ o => Shown o) : ∃ swept, Direct.sweep agg ladder = .ok swept := by
  have key := Direct.sweep_induction agg ladder
    (I := fun st => st.ladder.All fun _ o => Shown o)
    (P := fun res => ∃ swept, res = .ok swept) h ?_ (fun st b _ _ => ⟨_, rfl⟩) ?_
  · exact key
  · exact fun _ _ _ _ _ hst hl _ _ hqty => shown_kept.trade hst hl hqty
  · rintro st hst ⟨price, head, tail, rest, hl, _, _, _, hv⟩
    rw [hl] at hst
    have hshown := hst (price, head :: tail) List.mem_cons_self head List.mem_cons_self
    exact absurd hv (UInt64.pos_iff_ne_zero.mp hshown.shows)

/-! ## Plan-then-commit is direct matching -/

theorem validate_ok {m : BookMemory} (h : WellFormed m) {o : Order} {fails : ℕ → Bool}
    (hv : (Book.validate o fails m).1 = .ok ()) :
    o.remaining ≠ 0 ∧ m.state.view.locate o.id = none := by
  rcases Book.validate_cases fails h o with ⟨m', e, hrun, _⟩ | ⟨hq, hid, _⟩
  · rw [hrun] at hv
    cases hv
  · exact ⟨hq, hid⟩

/-- A sweep ends blocked exactly if the status says so. -/
theorem status_selfMatchBlocked {o : Order} {ladder : Ladder} {swept : Direct.MatchResult}
    (h : Direct.sweep o ladder = .ok swept) :
    (Market.submitResult o swept).status = .selfMatchBlocked ↔ swept.blocked = true := by
  show Market.submitStatus o swept = _ ↔ _
  unfold Market.submitStatus
  constructor
  · intro hs
    split at hs
    · split at hs <;> cases hs
    · split at hs
      · cases hs
      · split at hs
        · assumption
        · cases hs
  · intro hb
    have hleft := Direct.sweep_blocked h hb
    have hnone : Market.restsAt o swept = none := by simp [Market.restsAt, hb]
    have hne : swept.left ≠ 0 := UInt64.pos_iff_ne_zero.mp hleft
    simp [hnone, hne, hb]

/-- **Plan-then-commit refines direct matching.** On a well-formed book whose
orders all show a tranche, an order that passes `validate` is matched by
`submit` as by the one-trade-at-a-time loop, unless an allocation fails. The
commit meets no dangling position: any such step would be `undefined`. -/
theorem submit_matches_direct {m : BookMemory} (h : WellFormed m)
    (hshown : m.state.view.AllShown) {o : Order} {fails : ℕ → Bool}
    (hv : (Book.validate o fails m).1 = .ok ()) :
    ∃ swept, Direct.sweep o (m.state.view.ladder (opposite o.side)) = .ok swept ∧
      ((∃ n, fails n = true) ∧
          (Book.submit (some o) fails m).1 = .error (.throws .badAlloc) ∧
          (Book.submit (some o) fails m).2.state = m.state ∨
        ∃ res m', Book.submit (some o) fails m = (.ok res, m') ∧
          res.fills = swept.fills ∧
          o.remaining - res.filledQty = swept.left ∧
          (res.status = .selfMatchBlocked ↔ swept.blocked = true) ∧
          m'.state.view.ladder (opposite o.side) = swept.ladder ∧
          m'.state.view = m.state.view.settleEntry o.side o swept) := by
  obtain ⟨hq, hid⟩ := validate_ok h hv
  obtain ⟨swept, hsw⟩ := sweep_of_shown o (hshown (opposite o.side))
  have hspec : m.state.view.submit (some o) =
      .ok (Market.submitResult o swept, m.state.view.settleEntry o.side o swept) := by
    rw [Market.submit, if_neg hq, if_neg (by simp [hid]), Market.enter, hsw]
    rfl
  refine ⟨swept, hsw, ?_⟩
  have href := Book.submit_refines fails h (some o)
  rw [hspec] at href
  cases hx : Book.submit (some o) fails m with
  | mk r m' =>
      rw [hx] at href
      cases href with
      | starved _ hm hf => exact Or.inl ⟨hf, rfl, hm.state⟩
      | refused _ _ he _ => cases he
      | done res _ he _ _ _ =>
          obtain ⟨rfl, hview⟩ := Prod.mk.inj (Except.ok.inj he)
          refine Or.inr ⟨_, m', rfl, rfl, ?_, status_selfMatchBlocked hsw, ?_, hview.symm⟩
          · show o.remaining - (o.remaining - swept.left) = swept.left
            abel
          · rw [← hview]
            exact Market.settleEntry_opposite _ _ _ _

/-- A third account lifts part of the ask. -/
theorem submit_matches_direct_quotes :
    ∃ swept, Direct.sweep (limitOrder 3 .buy 9 3 101) (quotes.state.view.ladder .sell) =
        .ok swept ∧
      ((∃ n : ℕ, (fun _ => false) n = true) ∧
          (Book.submit (some (limitOrder 3 .buy 9 3 101)) (fun _ => false) quotes).1 =
            .error (.throws .badAlloc) ∧
          (Book.submit (some (limitOrder 3 .buy 9 3 101)) (fun _ => false)
            quotes).2.state = quotes.state ∨
        ∃ res m', Book.submit (some (limitOrder 3 .buy 9 3 101)) (fun _ => false)
            quotes = (.ok res, m') ∧
          res.fills = swept.fills ∧
          3 - res.filledQty = swept.left ∧
          (res.status = .selfMatchBlocked ↔ swept.blocked = true) ∧
          m'.state.view.ladder .sell = swept.ladder ∧
          m'.state.view = quotes.state.view.settleEntry .buy (limitOrder 3 .buy 9 3 101)
            swept) :=
  submit_matches_direct quotes_reachable.wellFormed (by decide +kernel) (by decide +kernel)

end Exchange
