import Exchange.Core.Consistency

/-!
# Cancelling

Cancel is the inverse of resting: the level, the queue, the two counters and
the index entry that a remainder brought are what a cancel of its id takes away
again. On a book whose index and levels agree a cancel finds any resting order
and leaves everything else where it was.
-/

namespace Exchange

open Framework Framework.Exec OrderBook

namespace OrderBook

variable {s : Side} {b : OrderBook s}

/-- Inserting a new key and erasing it again. -/
theorem erase_insert_index {index : Index} {id : OrderId} (loc : Locator)
    (h : id ∉ index) : (index.insert id loc).erase id = index := by
  refine Finmap.ext_lookup fun x => ?_
  by_cases hx : x = id
  · subst hx
    rw [Finmap.lookup_erase, Finmap.lookup_eq_none.mpr h]
  · rw [Finmap.lookup_erase_ne hx, Finmap.lookup_insert_of_ne _ hx]

/-- **Withdrawing undoes resting.** -/
theorem withdraw_restOn {ob : OrderBook s} {p : Price} {id : OrderId} {n : Node}
    (hfull : ∀ e ∈ b.levels.entries, e.2.empty = false)
    (haddrs : ∀ e ∈ b.levels.entries, (e.2.orders.map Node.addr).Nodup)
    (hfresh : ∀ e ∈ b.levels.entries, ∀ x ∈ e.2.orders, x.addr ≠ n.addr)
    (hid : id ∉ b.index)
    (h : Book.restOn b ⟨p, { price := p }, id⟩ n = some ob) :
    ob.index.lookup id = some ⟨p, n.addr⟩ ∧
    ∃ b', ob.withdraw id ⟨p, n.addr⟩ = some (n.order, b') ∧ b'.levels = b.levels ∧
      b'.index = b.index := by
  obtain ⟨pre, level, post, he, hold⟩ := installLevel_split b p
  have hinst : (b.installLevel { price := p }).installIndex id p n.addr =
      { b.installLevel { price := p } with index := b.index.insert id ⟨p, n.addr⟩ } := by
    unfold OrderBook.installIndex
    rw [if_neg (show id ∉ (b.installLevel { price := p }).index from hid)]
    rfl
  have hob := h
  unfold Book.restOn at hob
  dsimp only at hob
  rw [hinst] at hob
  obtain ⟨ob', hedit, hentries, hindex, _⟩ := edit_split
    (b := { b.installLevel { price := p } with index := b.index.insert id ⟨p, n.addr⟩ })
    (f := fun level => some (level.adopt n)) he rfl
  rw [hedit] at hob
  cases hob
  have horders : (level.adopt n).orders = level.orders ++ n :: [] := rfl
  have hnd : ((level.orders ++ n :: []).map Node.addr).Nodup := by
    rw [List.map_append]
    refine List.nodup_append.mpr ⟨?_, List.nodup_singleton _, ?_⟩ <;>
      rcases hold with hold | ⟨rfl, hold⟩
    · exact haddrs (p, level) (hold ▸ List.mem_append_right _ List.mem_cons_self)
    · exact List.nodup_nil
    · rintro _ ha _ hn rfl
      obtain ⟨x, hx, hxa⟩ := List.mem_map.mp ha
      rw [← hxa] at hn
      exact hfresh (p, level) (hold ▸ List.mem_append_right _ List.mem_cons_self) x hx
        (List.mem_singleton.mp hn)
    · rintro _ ha
      cases ha
  obtain ⟨b', hw, hlevels, hindex', _⟩ := withdraw_split hentries horders hnd id
  refine ⟨by rw [hindex]; exact Finmap.lookup_insert _, b', hw, OrderedMap.ext ?_, ?_⟩
  · -- The counters are back where they were, so the level is.
    have hlevel : ({ level.adopt n with
        orders := level.orders ++ []
        totalQty := (level.adopt n).totalQty - n.order.remaining
        visibleQty := (level.adopt n).visibleQty - n.order.visibleQty } : PriceLevel) =
        level := by
      simp [PriceLevel.adopt]
    rw [hlevels, hlevel]
    unfold remnant
    rcases hold with hold | ⟨rfl, hold⟩
    · rw [if_neg, hold, List.append_assoc]
      · rfl
      · rw [hfull (p, level) (hold ▸ List.mem_append_right _ List.mem_cons_self)]
        exact Bool.false_ne_true
    · rw [hold]
      simp [PriceLevel.empty]
  · rw [hindex', hindex]
    exact erase_insert_index _ hid

end OrderBook

namespace Book

variable {s : Side} {fails : ℕ → Bool} {m m' : BookMemory}

/-- Neither side knows the id of an order that passes validation. -/
theorem validate_unknown {o : Order} (h : validate o fails m = (.ok (), m')) (t : Side) :
    (m.state.side t).index.lookup o.id = none := by
  have hknown : ∀ s loc, (m.state.side s).index.lookup o.id = some loc →
      ∀ m₁, findOn s o.id fails m ≠ (.ok none, m₁) := by
    intro s loc hloc m₁ hfind
    unfold findOn at hfind
    rw [getSide_bind, hloc] at hfind
    obtain ⟨x, _, _, hpure⟩ := bind_eq_ok hfind
    cases hpure
  obtain ⟨found, m₂, hbuy, hsell⟩ := bind_eq_ok (validate_find h)
  obtain rfl : m₂ = m := by
    have hm := findOn_memory .buy o.id fails m
    rw [hbuy] at hm
    exact hm
  cases found with
  | some x => cases hsell
  | none =>
      refine Option.eq_none_iff_forall_ne_some.mpr fun loc hloc => ?_
      cases t with
      | buy => exact hknown .buy loc hloc m₂ hbuy
      | sell => exact hknown .sell loc hloc m' hsell

/-- A cancel of an order linked on side `s`. -/
theorem cancel_linked {id : OrderId} {loc : Locator} {o : Order} {ob : OrderBook s}
    (hother : (m.state.side (opposite s)).index.lookup id = none)
    (hloc : (m.state.side s).index.lookup id = some loc)
    (hw : (m.state.side s).withdraw id loc = some (o, ob)) :
    cancel id fails m = (.ok (some o), { m with state := m.state.setSide s ob }) := by
  rw [cancel_eq hother]
  unfold cancelOn
  rw [getSide_bind, hloc]
  simp only [hw, expect_some_bind]
  rfl

theorem replay_fills_length {t : Side} {r r' : Replay t} {fills : List PlannedFill}
    (h : r.replay fills = some r') : r'.fills.length = r.fills.length + fills.length := by
  induction fills generalizing r with
  | nil =>
      cases h
      rfl
  | cons planned rest ih =>
      rw [Replay.replay, List.foldlM_cons, Option.bind_eq_bind, Option.bind_eq_some_iff] at h
      obtain ⟨r₁, h₁, hrest⟩ := h
      rw [ih hrest, replayFill_fills_length h₁, List.length_cons]
      omega

/-- A front with no empty level stays. -/
theorem dropEmpty_eq_self {ob : OrderBook s}
    (hfull : ∀ e ∈ ob.levels.entries, e.2.empty = false) :
    ob.dropEmptyLevelsFromFront = ob := by
  have hentries : ob.levels.entries.dropWhile (fun e => e.2.empty) = ob.levels.entries := by
    cases hl : ob.levels.entries with
    | nil => rfl
    | cons e l =>
        rw [List.dropWhile_cons_of_neg]
        rw [hfull e (hl ▸ List.mem_cons_self)]
        exact Bool.false_ne_true
  unfold OrderBook.dropEmptyLevelsFromFront
  rw [show ob.levels.dropWhile PriceLevel.empty = ob.levels from OrderedMap.ext hentries]

/-- A book whose own side was replaced and whose other side was put back. -/
theorem setSide_restored (s : Side) (b : Book) (x y : OrderBook s) (n : Sequence) :
    (({ b.setSide s x with nextSequence := n } : Book).setSide (opposite s)
      (b.side (opposite s))).setSide s y =
        ({ b with nextSequence := n } : Book).setSide s y := by
  cases s <;> rfl

/-- What a submit that returns `Resting` did: nothing but to rest its order. -/
theorem submit_resting {o : Order} {res : SubmitResult}
    (hfull : ∀ s, ∀ e ∈ (m.state.side s).levels.entries, e.2.empty = false)
    (h : submit (some o) fails m = (.ok res, m')) (hs : res.status = .resting) :
    ∃ p k ob, o.restingPrice = some p ∧
      restOn { m.state.side o.side with buckets := k } ⟨p, { price := p }, o.id⟩
        ⟨m.ticks, o.assignSequence m.state.nextSequence⟩ = some ob ∧
      m'.state = { m.state with nextSequence := m.state.nextSequence + 1 }.setSide o.side ob := by
  obtain ⟨plan, prepared, m₁, r, hprov, hr, hcommits⟩ := submit_eq_commits h
  obtain ⟨k, hstate, _⟩ := hprov.state
  obtain ⟨hfills, nodes, ob, hrest, hob, hstate'⟩ := hcommits.resting hs
  -- no fills, so none were planned and the replay is where it started
  have hnone : prepared.plan.fills = [] := by
    have hlen := replay_fills_length hr
    rw [hfills] at hlen
    exact List.eq_nil_of_length_eq_zero (Nat.eq_zero_of_add_eq_zero_left hlen.symm)
  rw [hnone] at hr
  cases hr
  rw [hprov.rest] at hrest
  obtain ⟨p, hprice, rfl⟩ := restNodes_eq_some hrest
  have hown : m₁.state.side o.side = { m.state.side o.side with buckets := k } := by
    rw [hstate, side_setSide]
  have hseq := hprov.nextSequence
  rw [hown, hprov.holding] at hob
  refine ⟨p, k, ob, hprice, hseq ▸ hob, ?_⟩
  rw [hstate']
  unfold afterSweep Replay.start
  dsimp only
  rw [hprov.opposite_side, dropEmpty_eq_self (hfull _), hseq, hstate]
  exact setSide_restored _ _ _ _ _

end Book

/-! ## Cancel undoes a resting submit -/

theorem IndexAgrees.addrs_nodup {b : Book} (h : IndexAgrees b) (s : Side) :
    ∀ e ∈ (b.side s).levels.entries, (e.2.orders.map Node.addr).Nodup := by
  intro e he
  have hnodes := h.nodes s
  rw [List.map_flatMap] at hnodes
  exact (List.nodup_flatMap.mp hnodes).1 e he

/-- An order linked on one side is not indexed on the other. -/
theorem IndexAgrees.lookup_other {b : Book} (h : IndexAgrees b) {s : Side}
    {e : Price × PriceLevel} {n : Node} (he : e ∈ (b.side s).levels.entries)
    (hn : n ∈ e.2.orders) : (b.side (opposite s)).index.lookup n.order.id = none := by
  refine Option.eq_none_iff_forall_ne_some.mpr fun loc hloc => ?_
  have hmem : ∀ {t : Side} {e : Price × PriceLevel} {n : Node},
      e ∈ (b.side t).levels.entries → n ∈ e.2.orders →
      n.order.id ∈ (b.view.ladder t).ids := by
    intro t e n he hn
    obtain ⟨hq, ho⟩ := mem_view_of_linked he hn
    exact List.mem_map_of_mem (Ladder.mem_orders.mpr ⟨_, hq, ho⟩)
  obtain ⟨level, hlevel, x, hx, _, hid⟩ := h.indexed (opposite s) _ loc hloc
  have hdisj := (List.nodup_append.mp (h.ids_view s)).2.2
  exact hdisj _ (hmem he hn) _ (hmem hlevel hx) hid.symm

/-- **Cancel.** On a book whose index and levels agree, with no empty level: a cancel right
after a submit that returned `Resting` hands the order back whole and restores the levels
and the index of both sides; a cancel of a resting order takes out that order, its index
entry and its share of the counters, and its level if that emptied it; a cancel of an
unknown id changes nothing. -/
theorem cancel_undoes_submit {m : BookMemory} (hagree : IndexAgrees m.state)
    (hheap : Allocated m)
    (hfull : ∀ s, ∀ e ∈ (m.state.side s).levels.entries, e.2.empty = false) :
    (∀ o fails res m₁, Book.submit (some o) fails m = (.ok res, m₁) →
      res.status = .resting → ∀ fails', ∃ m₂,
        Book.cancel o.id fails' m₁ =
          (.ok (some (o.assignSequence m.state.nextSequence)), m₂) ∧
        ∀ s, (m₂.state.side s).levels = (m.state.side s).levels ∧
          (m₂.state.side s).index = (m.state.side s).index) ∧
    (∀ s pre p level post as n bs fails,
      (m.state.side s).levels.entries = pre ++ (p, level) :: post →
      level.orders = as ++ n :: bs → ∃ ob : OrderBook s,
        Book.cancel n.order.id fails m =
          (.ok (some n.order), { m with state := m.state.setSide s ob }) ∧
        ob.levels.entries = pre ++ remnant p { level with
          orders := as ++ bs
          totalQty := level.totalQty - n.order.remaining
          visibleQty := level.visibleQty - n.order.visibleQty } ++ post ∧
        ob.index = (m.state.side s).index.erase n.order.id) ∧
    ∀ id fails,
      (∀ s, ∀ e ∈ (m.state.side s).levels.entries, ∀ n ∈ e.2.orders, n.order.id ≠ id) →
      Book.cancel id fails m = (.ok none, m) := by
  refine ⟨?_, ?_, ?_⟩
  -- The submit swept nothing, so only its own side has changed.
  · intro o fails res m₁ hsub hs fails'
    obtain ⟨m₀, _, _, hv, _, _⟩ := Book.submit_eq_ok hsub
    have hunknown := Book.validate_unknown hv
    obtain ⟨p, k, ob, hprice, hob, hstate⟩ := Book.submit_resting hfull hsub hs
    obtain ⟨hloc, b', hw, hlevels, hindex⟩ := withdraw_restOn
      (b := { m.state.side o.side with buckets := k }) (hfull o.side)
      (hagree.addrs_nodup o.side)
      (fun e he x hx => Nat.ne_of_lt (hheap o.side e he x hx))
      (Finmap.lookup_eq_none.mp (hunknown o.side)) hob
    have hown : m₁.state.side o.side = ob := by rw [hstate, Book.side_setSide]
    have hopp : m₁.state.side (opposite o.side) = m.state.side (opposite o.side) := by
      rw [hstate, Book.opposite_side_setSide, Book.side_stamped]
    refine ⟨_, Book.cancel_linked (s := o.side) (by rw [hopp]; exact hunknown _)
      (by rw [hown]; exact hloc) (by rw [hown]; exact hw), fun t => ?_⟩
    rcases eq_or_eq_opposite o.side t with rfl | rfl
    · dsimp only
      rw [Book.side_setSide]
      exact ⟨hlevels, hindex⟩
    · dsimp only
      rw [Book.opposite_side_setSide, hopp]
      exact ⟨rfl, rfl⟩
  · intro s pre p level post as n bs fails hb hl
    have he : (p, level) ∈ (m.state.side s).levels.entries :=
      hb ▸ List.mem_append_right _ List.mem_cons_self
    have hn : n ∈ level.orders := hl ▸ List.mem_append_right _ List.mem_cons_self
    have hnd := hagree.addrs_nodup s _ he
    rw [hl] at hnd
    obtain ⟨ob, hw, hentries, hindex, _⟩ := withdraw_split hb hl hnd n.order.id
    exact ⟨ob, Book.cancel_linked (hagree.lookup_other he hn) (hagree.linked s _ he n hn) hw,
      hentries, hindex⟩
  · intro id fails hnone
    have hunknown : ∀ s, (m.state.side s).index.lookup id = none := by
      refine fun s => Option.eq_none_iff_forall_ne_some.mpr fun loc hloc => ?_
      obtain ⟨level, he, n, hn, _, hid⟩ := hagree.indexed s id loc hloc
      exact hnone s _ he n hn hid
    rw [Book.cancel_eq (s := .buy) (hunknown .sell)]
    exact Book.cancelOn_none (hunknown .buy)

/-- An iceberg joins the bids below the best one, and is cancelled. -/
theorem cancel_undoes_submit_quotes :
    ∃ res m₁, Book.submit (some (icebergOrder 3 .buy 9 6 99 2)) (fun _ => false) quotes =
        (.ok res, m₁) ∧ res.status = .resting ∧
      ∃ m₂, Book.cancel 3 (fun _ => false) m₁ =
          (.ok (some ((icebergOrder 3 .buy 9 6 99 2).assignSequence
            quotes.state.nextSequence)), m₂) ∧
        ∀ s, (m₂.state.side s).levels = (quotes.state.side s).levels ∧
          (m₂.state.side s).index = (quotes.state.side s).index := by
  have hstatus : (Book.submit (some (icebergOrder 3 .buy 9 6 99 2)) (fun _ => false)
      quotes).1.map (·.status) = .ok .resting := by decide +kernel
  rcases hrun : Book.submit (some (icebergOrder 3 .buy 9 6 99 2)) (fun _ => false) quotes
    with ⟨_ | res, m₁⟩
  · rw [hrun] at hstatus
    cases hstatus
  · rw [hrun] at hstatus
    have hs : res.status = .resting := Except.ok.inj hstatus
    have hrep := quotes_reachable.wellFormed.representation
    exact ⟨res, m₁, rfl, hs, (cancel_undoes_submit hrep.toIndexAgrees
      quotes_reachable.wellFormed.allocated hrep.full).1 _ _ _ _ hrun hs _⟩

end Exchange
