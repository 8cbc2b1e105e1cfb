import Exchange.Core.Reach

/-!
# The tranche of the incoming order

The commit charges every fill to the incoming order as well. Nothing caps those
fills at what the order shows, so an iceberg that trades on entry can overdraw
its first tranche. `FitsTranche` says, from the book as it stands, when it does
not; it is exact.
-/

namespace Exchange

open Framework Framework.Exec OrderBook

/-! ## The incoming order's own tranche -/

theorem Order.Built.shown {o : Order} (h : o.Built) (hq : o.remaining ≠ 0) : Shown o := by
  have hpos : 0 < o.remaining := UInt64.pos_iff_ne_zero.mpr hq
  cases h with
  | limit | market => exact ⟨hpos, UInt64.le_refl _, hpos⟩
  | iceberg id side account qty price displaySize =>
      have hqty : 0 < qty := hpos
      refine ⟨?_, ?_, ?_⟩
      · show 0 < clampDisplay displaySize qty
        unfold clampDisplay
        grind
      · show clampDisplay displaySize qty ≤ qty
        unfold clampDisplay
        grind
      · show 0 < clampDisplay displaySize qty
        unfold clampDisplay
        grind

theorem built_cloneAmended (o : Order) (q : Quantity) (p : Price) :
    (o.cloneAmended q p).Built := by
  unfold Order.cloneAmended
  split <;> constructor

/-- The orders an operation brings are as their constructors leave them. -/
def Op.Built : Op → Prop
  | .submit (some o) => o.Built
  | _ => True

theorem Op.Built.entering {M : Market} {op : Op} {o : Order} (h : op.Built)
    (ho : M.entering op = some o) : o.Built ∧ o.remaining ≠ 0 := by
  cases op with
  | cancel id => cases ho
  | submit order =>
      cases order with
      | none => cases ho
      | some o' =>
          rw [Market.entering] at ho
          split at ho
          · cases ho
          · rename_i hc
            cases ho
            exact ⟨h, fun hz => hc (Or.inl hz)⟩
  | modify id newQty newPrice =>
      rw [Market.entering] at ho
      split at ho
      · cases ho
      · rename_i hq
        split at ho
        · cases ho
        · split at ho
          · cases ho
          · cases ho
            refine ⟨built_cloneAmended _ _ _, ?_⟩
            rw [Market.replacement, Order.cloneAmended_remaining]
            exact hq

/-- What the incoming order will trade fits its first tranche, and uses it up
only if nothing is left to rest. -/
def FitsTranche (o : Order) (ladder : Ladder) : Prop :=
  let filled := min o.remaining.toNat (reach o ladder).1
  filled ≤ o.visibleQty.toNat ∧
    (filled = o.visibleQty.toNat → filled = o.remaining.toNat ∨ (reach o ladder).2 = true)

instance (o : Order) (ladder : Ladder) : Decidable (FitsTranche o ladder) :=
  inferInstanceAs (Decidable (_ ∧ _))

/-- The condition on an operation and the book it finds. -/
def WithinTranche (b : Book) (op : Op) : Prop :=
  op.Built ∧ ∀ o ∈ b.view.entering op, FitsTranche o (b.view.ladder (opposite o.side))

theorem visibleQty_of_market {o : Order} (h : o.restingPrice = none) :
    o.visibleQty = o.remaining := by
  obtain ⟨_, _, _, _, _, kind⟩ := o
  cases kind with
  | market => rfl
  | limit _ => cases h
  | iceberg _ _ _ => cases h

/-- The closed form against what the sweep did. -/
theorem fitsTranche_iff {o : Order} {ladder : Ladder} {swept : Direct.MatchResult}
    (hfull : ∀ e ∈ ladder, e.2 ≠ [])
    (h : Direct.sweep o ladder = .ok swept) :
    FitsTranche o ladder ↔ o.remaining - swept.left ≤ o.visibleQty ∧
      ((Market.restsAt o swept).isSome → o.remaining - swept.left ≠ o.visibleQty) := by
  obtain ⟨hfilled, hblocked⟩ := sweep_reach hfull h
  have hle := Direct.sweep_left_le h
  have hle' := UInt64.le_iff_toNat_le.mp hle
  have hnat : (o.remaining - swept.left).toNat =
      o.remaining.toNat - swept.left.toNat := UInt64.toNat_sub_of_le _ _ hle
  have hcov : o.remaining - swept.left ≤ o.visibleQty ↔
      min o.remaining.toNat (reach o ladder).1 ≤ o.visibleQty.toNat := by
    rw [UInt64.le_iff_toNat_le, hnat, hfilled]
  have heq : o.remaining - swept.left = o.visibleQty ↔
      min o.remaining.toNat (reach o ladder).1 = o.visibleQty.toNat := by
    rw [← UInt64.toNat_inj, hnat, hfilled]
  have hzero : 0 < swept.left ↔ 0 < swept.left.toNat := UInt64.lt_iff_toNat_lt
  unfold FitsTranche
  rw [hcov, ne_eq, heq]
  refine and_congr_right fun _ => ?_
  constructor
  · intro hfit hrest heq'
    obtain ⟨price, hprice⟩ := Option.isSome_iff_exists.mp hrest
    obtain ⟨hleft, hunblocked, _⟩ := Market.restsAt_eq_some hprice
    rw [hzero] at hleft
    rcases hfit heq' with hall | hown
    · omega
    · have hb := hblocked.mpr ⟨hown, by omega⟩
      rw [hunblocked] at hb
      cases hb
  · intro hrest heq'
    by_cases hleft : 0 < swept.left.toNat
    · by_cases hb : swept.blocked = true
      · exact Or.inr (hblocked.mp hb).1
      · cases hp : o.restingPrice with
        | none =>
            rw [visibleQty_of_market hp] at heq'
            exact Or.inl heq'
        | some price =>
            refine absurd heq' (hrest ?_)
            simp [Market.restsAt, hzero.mpr hleft, hb, hp]
    · exact Or.inl (by omega)

/-! ## One operation -/

section Step

variable {M M' : Market} {s : Side} {o : Order} {swept : Direct.MatchResult}

/-- Entering keeps every order shown if the fills leave something on display. -/
theorem allShown_settleEntry (h : M.AllShown) (hord : (M.ladder s).Ordered s)
    (ho : Shown o) (hsw : Direct.sweep o (M.ladder (opposite s)) = .ok swept)
    (hcov : o.remaining - swept.left ≤ o.visibleQty)
    (hleft : (Market.restsAt o swept).isSome →
      o.remaining - swept.left ≠ o.visibleQty) :
    (M.settleEntry s o swept).AllShown := by
  refine Market.all_settleEntry shown_kept h hord hsw fun price hrest => ?_
  have hne := hleft (by rw [hrest]; rfl)
  have hstamped : Shown (o.assignSequence M.nextSequence) :=
    ⟨ho.shows, ho.within, ho.refills⟩
  have hlt : o.remaining - swept.left < o.visibleQty := by grind
  exact hstamped.onPartialFill hlt

/-- The fills of the order an operation enters, against its tranche. -/
theorem fits_of_entering {op : Op} (hv : M.Valid)
    (ho : M.entering op = some o)
    (hsw : Direct.sweep o (M.ladder (opposite o.side)) = .ok swept) :
    (∀ o ∈ M.entering op, FitsTranche o (M.ladder (opposite o.side))) ↔
      Covered M op ∧ ((Market.restsAt o swept).isSome →
        o.remaining - swept.left ≠ o.visibleQty) := by
  rw [covered_iff ho hsw, ← fitsTranche_iff (hv.ordered (opposite o.side)).full hsw]
  constructor
  · exact fun h => h o ho
  · intro h o' ho'
    rw [ho] at ho'
    cases ho'
    exact h

/-- Every order shows something and no more than it has. -/
def Market.AllVisible (M : Market) : Prop :=
  ∀ s, (M.ladder s).All fun _ o => 0 < o.visibleQty ∧ o.visibleQty ≤ o.remaining

theorem Market.AllShown.allVisible (h : M.AllShown) : M.AllVisible :=
  fun s e he o ho => ⟨(h s e he o ho).shows, (h s e he o ho).within⟩

/-- A market with a spent tranche at rest. -/
theorem not_spent_of_allVisible (hord : (M.ladder s).Ordered s)
    (h : (M.settleEntry s o swept).AllVisible) :
    (Market.restsAt o swept).isSome → o.remaining - swept.left ≠ o.visibleQty := by
  intro hrest heq
  obtain ⟨price, hprice⟩ := Option.isSome_iff_exists.mp hrest
  obtain ⟨e, he, hmem⟩ := Ladder.mem_orders.mp (Market.entered_mem hord hprice)
  have hpos := (h s e he _ hmem).1
  rw [Order.onPartialFill_visibleQty, heq] at hpos
  have hz : (o.assignSequence M.nextSequence).visibleQty - o.visibleQty = 0 :=
    UInt64.sub_self _
  rw [hz] at hpos
  exact absurd hpos (by decide)

/-- **One step, exactly.** A completed operation that keeps to its condition
keeps every tranche, and one that does not breaks a tranche or overdraws it. -/
theorem transition_tranche {op : Op} {out : Outcome} (hv : M.Valid) (hs : M.AllShown)
    (hb : op.Built) (ht : Market.Transition M op out M') :
    ((∀ o ∈ M.entering op, FitsTranche o (M.ladder (opposite o.side))) →
      M'.AllShown) ∧
    (M'.AllVisible → Covered M op →
      ∀ o ∈ M.entering op, FitsTranche o (M.ladder (opposite o.side))) := by
  have hnone : M.entering op = none →
      ∀ o ∈ M.entering op, FitsTranche o (M.ladder (opposite o.side)) := by
    intro hn o ho
    rw [hn] at ho
    cases ho
  cases ht with
  | entered o swept hq hid hsw =>
      have hent : M.entering (.submit (some o)) = some o := by
        simp [Market.entering, hq, hid]
      have hord := hv.ordered o.side
      rw [fits_of_entering hv hent hsw]
      refine ⟨fun hf => ?_, fun hvis hcov => ⟨hcov, not_spent_of_allVisible hord hvis⟩⟩
      exact allShown_settleEntry hs hord ((hb.entering hent).1.shown hq) hsw
        ((covered_iff hent hsw).mp hf.1) hf.2
  | unknown id hl => exact ⟨fun _ => hs, fun _ _ => hnone rfl⟩
  | withdrawn id s o hl =>
      exact ⟨fun _ => Market.all_setLadder hs (hs s).remove, fun _ _ => hnone rfl⟩
  | rejected id newPrice =>
      exact ⟨fun _ => hs, fun _ _ => hnone (by simp [Market.entering])⟩
  | absent id newQty newPrice hq hl =>
      exact ⟨fun _ => hs, fun _ _ => hnone (by simp [Market.entering, hl])⟩
  | reduced id newQty newPrice s o hq hl hk =>
      refine ⟨fun _ => Market.all_setLadder hs ?_,
        fun _ _ => hnone (by simp [Market.entering, hl, hk])⟩
      exact (hs s).reduce fun _ _ _ _ ho => ho.reduceTo hq
  | requeued id newQty newPrice s o swept hq hl hk hsw =>
      have hent : M.entering (.modify id newQty newPrice) =
          some (Market.replacement o newQty newPrice) := by
        simp [Market.entering, hq, hl, hk]
      obtain ⟨price, hp⟩ := hv.placed_of_find? (Market.locate_eq_some hl)
      have hside : (Market.replacement o newQty newPrice).side = s := by
        rw [Market.replacement_side, hp.side]
      -- Taking the original out leaves the side it trades against as it was.
      have hsw' : Direct.sweep (Market.replacement o newQty newPrice)
          (M.ladder (opposite (Market.replacement o newQty newPrice).side)) =
            .ok swept := by
        rw [hside]
        exact hsw
      obtain ⟨hbuilt, hne⟩ := hb.entering hent
      have hrem : (M.setLadder s ((M.ladder s).remove id)).AllShown :=
        Market.all_setLadder hs (hs s).remove
      have hord : ((M.setLadder s ((M.ladder s).remove id)).ladder s).Ordered s :=
        (hv.remove s id).ordered s
      rw [fits_of_entering hv hent hsw']
      refine ⟨fun hf => ?_, fun hvis hcov => ⟨hcov, not_spent_of_allVisible hord hvis⟩⟩
      refine allShown_settleEntry hrem hord (hbuilt.shown hne) ?_
        ((covered_iff hent hsw').mp hf.1) hf.2
      rw [Market.opposite_ladder_setLadder]
      exact hsw

end Step

/-! ## Runs -/

/-- Every resting order shows something and no more than it has, and every call
of `onPartialFill` so far stayed within the tranche it found. -/
def Tranches (m : BookMemory) : Prop :=
  (∀ s, ∀ e ∈ (m.state.side s).levels.entries, ∀ n ∈ e.2.orders,
    0 < n.order.visibleQty ∧ n.order.visibleQty ≤ n.order.remaining) ∧
  ∀ c ∈ m.events, c.qty ≤ c.visible

theorem tranches_iff {m : BookMemory} :
    Tranches m ↔ m.state.view.AllVisible ∧ ∀ c ∈ m.events, c.qty ≤ c.visible := by
  refine and_congr_left fun _ => ?_
  exact Book.allOrders_iff (P := fun o => 0 < o.visibleQty ∧ o.visibleQty ≤ o.remaining)

/-- A market whose orders all show something plans without a precondition. -/
theorem apply_defined {M : Market} (h : M.AllShown) (op : Op) (p : Precondition) :
    M.apply op ≠ .error (.undefined p) := by
  intro ha
  rcases Market.apply_error_cases ha with ⟨what, hw⟩ | ⟨N, s, o, q, _, he, hN⟩
  · cases hw
  · have hshown : N.AllShown := by
      rcases hN with rfl | ⟨id, rfl⟩
      · exact h
      · exact Market.all_setLadder h (h s).remove
    obtain ⟨swept, hsw⟩ := sweep_of_shown o (hshown (opposite s))
    rw [Market.enter, hsw] at he
    cases he

/-- One operation within its tranche. -/
theorem tranches_step {m : BookMemory} (h : WellFormed m) (hs : m.state.view.AllShown)
    (hc : ∀ c ∈ m.events, c.qty ≤ c.visible) {op : Op} (fails : ℕ → Bool)
    (hop : WithinTranche m.state op) :
    (op.exec fails m).2.state.view.AllShown ∧
      ∀ c ∈ (op.exec fails m).2.events, c.qty ≤ c.visible := by
  have href := exec_refines h op fails
  cases hx : op.exec fails m with
  | mk r m' =>
      rw [hx] at href
      cases href with
      | starved _ hm _ => exact ⟨hm.state ▸ hs, hm.events ▸ hc⟩
      | refused _ _ _ hm => exact ⟨hm.state ▸ hs, hm.events ▸ hc⟩
      | done out _ he _ _ hcalls =>
          obtain ⟨calls, hevents, hcov⟩ := hcalls
          have ht := Market.apply_ok he
          refine ⟨(transition_tranche h.valid hs hop.1 ht).1 hop.2, ?_⟩
          rw [hevents, List.forall_mem_append]
          refine ⟨hc, hcov.mpr ?_⟩
          cases hent : m.state.view.entering op with
          | none => exact covered_of_none hent
          | some o =>
              obtain ⟨swept, hsw⟩ := sweep_of_shown o (hs (opposite o.side))
              exact ((fits_of_entering h.valid hent hsw).mp hop.2).1

theorem reachable_shown {m : BookMemory} (h : Reachable WithinTranche m) :
    m.state.view.AllShown ∧ ∀ c ∈ m.events, c.qty ≤ c.visible := by
  induction h with
  | empty =>
      refine ⟨fun s e he => ?_, fun c hc => absurd hc List.not_mem_nil⟩
      cases s <;> exact absurd he List.not_mem_nil
  | step op fails h hop ih => exact tranches_step h.wellFormed ih.1 ih.2 fails hop

/-- **Tranches, exactly.** In a run whose operations all keep to the condition,
every resting order shows a tranche it can cover, no call of `onPartialFill`
overdraws one, and no operation is undefined. From any state of such a run, an
operation that completes keeps this if and only if it meets the condition. -/
theorem tranches_kept {m : BookMemory} (h : Reachable WithinTranche m) :
    Tranches m ∧
    (∀ (op : Op) fails p, (op.exec fails m).1 ≠ .error (.undefined p)) ∧
    ∀ (op : Op) fails out m', op.Built → op.exec fails m = (.ok out, m') →
      (Tranches m' ↔ WithinTranche m.state op) := by
  obtain ⟨hs, hc⟩ := reachable_shown h
  have hwf := h.wellFormed
  refine ⟨tranches_iff.mpr ⟨hs.allVisible, hc⟩, ?_, ?_⟩
  · intro op fails p hp
    exact apply_defined hs op p (hwf.view_undefined hp)
  · intro op fails out m' hb hx
    constructor
    · intro htr
      obtain ⟨hvis, hev⟩ := tranches_iff.mp htr
      have href := exec_refines hwf op fails
      rw [hx] at href
      cases href with
      | done _ _ he _ _ hcalls =>
          obtain ⟨calls, hevents, hcov⟩ := hcalls
          rw [hevents, List.forall_mem_append] at hev
          exact ⟨hb, (transition_tranche hwf.valid hs hb (Market.apply_ok he)).2 hvis
            (hcov.mp hev.2)⟩
    · intro hop
      have hstep := tranches_step hwf hs hc fails hop
      rw [hx] at hstep
      exact tranches_iff.mpr ⟨hstep.1.allVisible, hstep.2⟩

/-- An ask of `qty` at 100. -/
def askAlone (qty : Quantity) : BookMemory :=
  ((Op.submit (some (limitOrder 1 .sell 7 qty 100))).exec (fun _ => false)
    { state := {} }).2

/-- The ask, and then an iceberg bid for 10 that shows 2. -/
def icebergAgainst (qty : Quantity) : BookMemory :=
  ((Op.submit (some (icebergOrder 2 .buy 8 10 100 2))).exec (fun _ => false)
    (askAlone qty)).2

theorem icebergAgainst_reachable {allowed : Book → Op → Prop} (qty : Quantity)
    (hask : allowed {} (.submit (some (limitOrder 1 .sell 7 qty 100))))
    (hbid : allowed (askAlone qty).state (.submit (some (icebergOrder 2 .buy 8 10 100 2)))) :
    Reachable allowed (icebergAgainst qty) :=
  .step _ _ (.step _ _ .empty hask) hbid

/-- Against an ask of 1 the iceberg trades half its tranche and rests. -/
theorem tranches_kept_half :
    (icebergAgainst 1).events = [⟨1, 1⟩, ⟨1, 2⟩] ∧ Tranches (icebergAgainst 1) := by
  refine ⟨by decide +kernel, (tranches_kept (icebergAgainst_reachable 1 ?_ ?_)).1⟩
  · exact ⟨.limit _ _ _ _ _, by decide +kernel⟩
  · exact ⟨.iceberg _ _ _ _ _ _, by decide +kernel⟩

/-- Against an ask of 5 the second call takes 5 from a tranche of 2, and the
iceberg rests showing 2^64 - 3 of its 5. -/
theorem iceberg_overdraws :
    Reachable (fun _ op => op.Built) (icebergAgainst 5) ∧
    (icebergAgainst 5).events = [⟨5, 5⟩, ⟨5, 2⟩] ∧
    (icebergAgainst 5).state.view.bids =
      [(100, [{ id := 2, remaining := 5, sequence := 2, account := 8, side := .buy,
                kind := .iceberg 100 2 18446744073709551613 }])] ∧
    ¬ Tranches (icebergAgainst 5) := by
  have hevents : (icebergAgainst 5).events = [⟨5, 5⟩, ⟨5, 2⟩] := by decide +kernel
  refine ⟨icebergAgainst_reachable 5 (.limit _ _ _ _ _) (.iceberg _ _ _ _ _ _),
    hevents, by decide +kernel, fun h => ?_⟩
  have hbad := h.2 ⟨5, 2⟩ (by rw [hevents]; simp)
  exact absurd hbad (by decide)

end Exchange
