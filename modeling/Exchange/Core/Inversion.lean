import Exchange.Core.Refinement

/-!
# Reading a run backwards

What an operation must have found if it ended well. Nothing here assumes the
index and the levels to agree: a commit that goes through has replayed its plan,
whatever the book looked like, and what it leaves can be written down.
-/

namespace Exchange

open Framework Framework.Exec OrderBook

/-- The same levels, indices and sequence counter; the bucket arrays may differ
in size. -/
structure SameBook (b b' : Book) : Prop where
  levels : ∀ s, (b'.side s).levels = (b.side s).levels
  index : ∀ s, (b'.side s).index = (b.side s).index
  nextSequence : b'.nextSequence = b.nextSequence

theorem SameBook.of_side {b b' : Book} (s : Side)
    (hlevels : (b'.side s).levels = (b.side s).levels)
    (hindex : (b'.side s).index = (b.side s).index)
    (hopp : b'.side (opposite s) = b.side (opposite s))
    (hseq : b'.nextSequence = b.nextSequence) : SameBook b b' := by
  refine ⟨fun t => ?_, fun t => ?_, hseq⟩ <;> rcases eq_or_eq_opposite s t with rfl | rfl
  · exact hlevels
  · rw [hopp]
  · exact hindex
  · rw [hopp]

theorem SameBook.isCrossed {b b' : Book} (h : SameBook b b') :
    b'.isCrossed = b.isCrossed := by
  have hbids : b'.bids.levels = b.bids.levels := h.levels .buy
  have hasks : b'.asks.levels = b.asks.levels := h.levels .sell
  unfold Book.isCrossed Book.bestBid Book.bestAsk bestPrice
  rw [hbids, hasks]

namespace Book

variable {s : Side} {fails : ℕ → Bool} {m m' : BookMemory}

/-! ## The commit loop -/

theorem editLevel_eq_ok {p : Price} {f : PriceLevel → Option PriceLevel}
    (h : editLevel s p f fails m = (.ok (), m')) :
    ∃ ob, (m.state.side s).edit p f = some ob ∧
      m' = { m with state := m.state.setSide s ob } := by
  unfold editLevel at h
  rw [getSide_bind] at h
  cases hob : (m.state.side s).edit p f with
  | none =>
      rw [hob] at h
      cases h
  | some ob =>
      rw [hob] at h
      cases h
      exact ⟨ob, rfl, rfl⟩

/-- A turn of the commit loop that goes through has replayed its fill. -/
theorem commitFill_eq_ok {r : Replay (opposite s)} {planned : PlannedFill} {capacity : ℕ}
    {st : CommitState} (hcap : r.fills.length < capacity)
    (h : commitFill s capacity ⟨r.aggressor, r.fills⟩ planned fails (loaded m r) =
      (.ok st, m')) : ∃ r', r.replayFill planned = some r' := by
  have hside : (loaded m r).state.side (opposite s) = r.opp := by simp [loaded]
  unfold commitFill at h
  rw [getSide_bind, hside] at h
  unfold Replay.replayFill
  cases hfound : r.opp.deref ⟨planned.level, planned.resting⟩ with
  | none =>
      rw [hfound] at h
      cases h
  | some found =>
      rw [hfound, expect_some_bind, observe_bind] at h
      obtain ⟨_, m₁, hedit, h⟩ := bind_eq_ok h
      obtain ⟨opp₁, hopp₁, rfl⟩ := editLevel_eq_ok hedit
      dsimp only at hopp₁
      rw [hside] at hopp₁
      rw [observe_bind, bind_ok (pushFill_run hcap), getSide_bind] at h
      dsimp only at h
      rw [side_setSide] at h
      cases hresting : opp₁.deref ⟨planned.level, planned.resting⟩ with
      | none =>
          rw [hresting] at h
          cases h
      | some resting =>
          rw [hresting, expect_some_bind] at h
          -- What becomes of the resting order: unlinked, sent to the back, or left alone.
          have hresolve : ∃ opp₂, Replay.resolve opp₁ planned resting = some opp₂ := by
            unfold Replay.resolve
            by_cases hfilled : resting.isFilled = true
            · rw [if_pos hfilled] at h ⊢
              rw [getSide_bind, putSide_bind] at h
              obtain ⟨_, _, hedit, _⟩ := bind_eq_ok h
              obtain ⟨opp₂, hopp₂, _⟩ := editLevel_eq_ok hedit
              simp only [side_setSide] at hopp₂
              exact ⟨opp₂, hopp₂⟩
            · rw [if_neg hfilled] at h ⊢
              by_cases hspent : resting.needsReplenish = true
              · rw [if_pos hspent] at h ⊢
                obtain ⟨_, _, hedit, _⟩ := bind_eq_ok h
                obtain ⟨opp₂, hopp₂, _⟩ := editLevel_eq_ok hedit
                simp only [side_setSide] at hopp₂
                exact ⟨opp₂, hopp₂⟩
              · rw [if_neg hspent]
                exact ⟨opp₁, rfl⟩
          obtain ⟨opp₂, hopp₂⟩ := hresolve
          simp only [Option.bind_eq_bind, Option.bind_some, hfound, hopp₁, hresting,
            hopp₂]
          exact ⟨_, rfl⟩

/-- A commit loop that goes through has replayed its fills. -/
theorem commitFills_eq_ok {capacity : ℕ} {st : CommitState} (fills : List PlannedFill)
    (r : Replay (opposite s)) (hcap : r.fills.length + fills.length ≤ capacity)
    (h : commitFills s capacity fills ⟨r.aggressor, r.fills⟩ fails (loaded m r) =
      (.ok st, m')) : ∃ r', r.replay fills = some r' := by
  induction fills generalizing r with
  | nil => exact ⟨r, rfl⟩
  | cons planned rest ih =>
      rw [List.length_cons] at hcap
      obtain ⟨st₁, m₁, hfirst, hrest⟩ := bind_eq_ok h
      obtain ⟨r₁, hr₁⟩ := commitFill_eq_ok (by omega) hfirst
      rw [commitFill_run hr₁ (by omega)] at hfirst
      cases hfirst
      have hlen := replayFill_fills_length hr₁
      obtain ⟨r', hr'⟩ := ih r₁ (by omega) hrest
      exact ⟨r', by
        rw [Replay.replay, List.foldlM_cons, hr₁]
        exact hr'⟩

/-! ## The commit -/

/-- The side on which the remainder has come to rest. -/
def restOn (ob : OrderBook s) (nodes : RestNodes) (holding : Node) : Option (OrderBook s) :=
  ((ob.installLevel nodes.levelNode).installIndex nodes.indexNode nodes.restPrice
    holding.addr).edit nodes.restPrice fun level => some (level.adopt holding)

theorem restRemainder_eq_ok {nodes : RestNodes} {holding : Node}
    (hroom : (m.state.side s).orderCount + 1 ≤ (m.state.side s).buckets)
    (h : restRemainder s nodes holding fails m = (.ok (), m')) :
    ∃ ob, restOn (m.state.side s) nodes holding = some ob := by
  unfold restRemainder at h
  rw [getSide_bind, putSide_bind,
    bind_ok (insertIndex_run (by rw [side_setSide]; exact hroom))] at h
  obtain ⟨ob, hob, _⟩ := editLevel_eq_ok h
  simp only [side_setSide] at hob
  exact ⟨ob, hob⟩

/-- The two ends of a commit that has replayed its plan to `r`. -/
inductive Commits (b : Book) (s : Side) (prepared : PreparedSubmit)
    (r : Replay (opposite s)) : SubmitResult → Book → Prop where
  | idle (h : prepared.rest = none) : Commits b s prepared r
      { fills := r.fills, filledQty := prepared.plan.aggressorFilled
        status := if r.aggressor.isFilled then .filled
          else if prepared.plan.selfMatchBlocked then .selfMatchBlocked
          else .cancelledRemainder } (afterSweep b s r.opp)
  | rests (nodes : RestNodes) (ob : OrderBook s) (h : prepared.rest = some nodes)
      (hob : restOn (b.side s) nodes ⟨prepared.holding.addr, r.aggressor⟩ = some ob) :
      Commits b s prepared r
        { fills := r.fills, filledQty := prepared.plan.aggressorFilled
          restingQty := r.aggressor.remaining
          status := if r.fills.isEmpty then .resting else .partiallyFilledResting }
        ((afterSweep b s r.opp).setSide s ob)

variable {prepared : PreparedSubmit} {res : SubmitResult}

/-- A commit that answers `Resting` traded nothing and rested its order. -/
theorem Commits.resting {b b' : Book} {r : Replay (opposite s)}
    (h : Commits b s prepared r res b') (hs : res.status = .resting) :
    r.fills = [] ∧ ∃ nodes ob, prepared.rest = some nodes ∧
      restOn (b.side s) nodes ⟨prepared.holding.addr, r.aggressor⟩ = some ob ∧
      b' = (afterSweep b s r.opp).setSide s ob := by
  cases h with
  | idle =>
      dsimp only at hs
      split at hs
      · cases hs
      · split at hs <;> cases hs
  | rests nodes ob hrest hob =>
      refine ⟨?_, nodes, ob, hrest, hob, rfl⟩
      dsimp only at hs
      split at hs
      · rename_i hfills
        exact List.isEmpty_iff.mp hfills
      · cases hs

/-- With room in the index, a commit goes through as its replay does. -/
theorem Commits.run {r : Replay (opposite s)} {b' : Book}
    (hr : (Replay.start (m.state.side (opposite s)) prepared.holding.order
      m.state.nextSequence).replay prepared.plan.fills = some r)
    (hcap : prepared.plan.fills.length ≤ prepared.fillsCapacity)
    (hroom : prepared.rest.isSome →
      (m.state.side s).orderCount + 1 ≤ (m.state.side s).buckets)
    (h : Commits m.state s prepared r res b') :
    commitSubmit s prepared fails m =
      (.ok res, { m with state := b', events := m.events ++ r.calls }) := by
  rw [commitSubmit_run hr hcap]
  cases h with
  | idle hrest => exact noexcept_ok (finishSubmit_idle hrest)
  | rests nodes ob hrest hob =>
      refine noexcept_ok ?_
      rw [finishSubmit_rests hrest]
      · rw [afterSweep_side]
        exact hroom (by rw [hrest]; rfl)
      · rw [afterSweep_side]
        exact hob

/-- **A commit that goes through has replayed its plan.** -/
theorem commitSubmit_eq_ok (hcap : prepared.plan.fills.length ≤ prepared.fillsCapacity)
    (hroom : prepared.rest.isSome →
      (m.state.side s).orderCount + 1 ≤ (m.state.side s).buckets)
    (h : commitSubmit s prepared fails m = (.ok res, m')) :
    ∃ r, (Replay.start (m.state.side (opposite s)) prepared.holding.order
        m.state.nextSequence).replay prepared.plan.fills = some r ∧
      Commits m.state s prepared r res m'.state := by
  have hreplay : ∃ r, (Replay.start (m.state.side (opposite s)) prepared.holding.order
      m.state.nextSequence).replay prepared.plan.fills = some r := by
    have hbody := noexcept_eq_ok h
    rw [get_bind, set_bind] at hbody
    obtain ⟨st, m₁, hloop, _⟩ := bind_eq_ok hbody
    rw [← loaded_start m prepared.holding.order] at hloop
    exact commitFills_eq_ok _ _ (by simpa [Replay.start] using hcap) hloop
  obtain ⟨r, hr⟩ := hreplay
  refine ⟨r, hr, ?_⟩
  rw [commitSubmit_run hr hcap] at h
  have hend := noexcept_eq_ok h
  cases hrest : prepared.rest with
  | none =>
      rw [finishSubmit_idle hrest] at hend
      cases hend
      exact .idle hrest
  | some nodes =>
      have hroom' := hroom (by rw [hrest]; rfl)
      have hrests : ∃ ob, restOn (m.state.side s) nodes
          ⟨prepared.holding.addr, r.aggressor⟩ = some ob := by
        have hbody := hend
        unfold finishSubmit at hbody
        rw [hrest] at hbody
        obtain ⟨_, _, hbody, _⟩ := bind_eq_ok hbody
        have hob := restRemainder_eq_ok (by rw [afterSweep_side]; exact hroom') hbody
        rwa [afterSweep_side] at hob
      obtain ⟨ob, hob⟩ := hrests
      rw [finishSubmit_rests hrest (by rw [afterSweep_side]; exact hroom')
        (by rw [afterSweep_side]; exact hob)] at hend
      cases hend
      exact .rests nodes ob hrest hob

/-- What a preparation that goes through hands on. -/
theorem prepareSubmit_eq_ok {o : Order} (h : prepareSubmit s o fails m = (.ok prepared, m')) :
    ∃ plan, planAgainst (m.state.side (opposite s)).levels.entries o = .ok plan ∧
      Provisioned m s o plan prepared m' := by
  rcases prepareSubmit_cases s o fails m with ⟨_, hstarved, _⟩ | hcases
  · rw [h] at hstarved
    cases hstarved
  · cases hplan : planAgainst (m.state.side (opposite s)).levels.entries o with
    | error e =>
        rw [hplan] at hcases
        obtain ⟨_, herr, _⟩ := hcases
        rw [h] at herr
        cases herr
    | ok plan =>
        rw [hplan] at hcases
        obtain ⟨_, _, hok, hprov⟩ := hcases
        rw [h] at hok
        cases hok
        exact ⟨plan, rfl, hprov⟩

/-- Room in the index, as the preparation left it. -/
theorem Provisioned.room {o : Order} {plan : MatchPlan}
    (h : Provisioned m s o plan prepared m') (hrest : prepared.rest.isSome) :
    (m'.state.side s).orderCount + 1 ≤ (m'.state.side s).buckets := by
  obtain ⟨buckets, hstate, hroom⟩ := h.state
  rw [hstate, side_setSide]
  exact hroom (by rw [← h.rest]; exact hrest)

/-! ## Which side knows an id -/

section Lookup

variable {id : OrderId}

/-- `findOn` only looks. -/
theorem findOn_memory (s : Side) (id : OrderId) (fails : ℕ → Bool) (m : BookMemory) :
    (findOn s id fails m).2 = m := by
  unfold findOn
  rw [getSide_bind]
  cases (m.state.side s).index.lookup id with
  | none => rfl
  | some loc => cases hd : (m.state.side s).deref loc <;> simp only [hd] <;> rfl

theorem find_memory (id : OrderId) (fails : ℕ → Bool) (m : BookMemory) :
    (find id fails m).2 = m := by
  have hbuy := findOn_memory .buy id fails m
  unfold find
  rcases hr : findOn .buy id fails m with ⟨_ | _ | o, m₁⟩ <;>
    obtain rfl : m₁ = m := (by rw [hr] at hbuy; exact hbuy)
  · rw [bind_error hr]
  · rw [bind_ok hr]
    exact findOn_memory .sell id fails m₁
  · rw [bind_ok hr]
    rfl

theorem findOn_none (h : (m.state.side s).index.lookup id = none) :
    findOn s id fails m = (.ok none, m) := by
  unfold findOn
  rw [getSide_bind, h]
  rfl

theorem cancelOn_none (h : (m.state.side s).index.lookup id = none) :
    cancelOn s id fails m = (.ok none, m) := by
  unfold cancelOn
  rw [getSide_bind, h]
  rfl

theorem cancelOn_eq_none {m' : BookMemory}
    (h : cancelOn s id fails m = (.ok none, m')) : m' = m := by
  cases hloc : (m.state.side s).index.lookup id with
  | none =>
      rw [cancelOn_none hloc] at h
      exact (congrArg Prod.snd h).symm
  | some loc =>
      unfold cancelOn at h
      rw [getSide_bind, hloc] at h
      cases hw : (m.state.side s).withdraw id loc with
      | none =>
          simp only [hw] at h
          cases h
      | some r =>
          simp only [hw] at h
          cases h

/-- Searching both sides for what only side `s` can have. -/
theorem bothSides_eq (on : Side → BookExec (Option Order))
    (hnone : on (opposite s) fails m = (.ok none, m))
    (hsame : ∀ m', on s fails m = (.ok none, m') → m' = m) :
    (do match ← on .buy with
        | some order => return some order
        | none => on .sell : BookExec (Option Order)) fails m = on s fails m := by
  cases s with
  | sell => exact bind_ok hnone
  | buy =>
      rcases hr : on .buy fails m with ⟨_ | _ | o, m'⟩
      · exact bind_error hr
      · obtain rfl := hsame m' hr
        exact (bind_ok hr).trans hnone
      · exact bind_ok hr

theorem find_eq (h : (m.state.side (opposite s)).index.lookup id = none) :
    find id fails m = findOn s id fails m := by
  refine bothSides_eq (fun s => findOn s id) (findOn_none h) fun m' hm' => ?_
  have hm := findOn_memory s id fails m
  rw [hm'] at hm
  exact hm

theorem cancel_eq (h : (m.state.side (opposite s)).index.lookup id = none) :
    cancel id fails m = cancelOn s id fails m :=
  bothSides_eq (fun s => cancelOn s id) (cancelOn_none h)
    fun _ => cancelOn_eq_none

theorem modify_eq (h : (m.state.side (opposite s)).index.lookup id = none)
    {newQty : Quantity} (hq : newQty ≠ 0) (newPrice : Option Price) :
    modify id newQty newPrice fails m =
      (do match ← findOn s id with
          | some resting => amend s resting id newQty newPrice
          | none => return { status := .notFound } : BookExec ModifyResult) fails m := by
  unfold modify
  rw [if_neg hq]
  cases s with
  | sell => exact bind_ok (findOn_none h)
  | buy =>
      have hm := findOn_memory .buy id fails m
      rcases hr : findOn .buy id fails m with ⟨_ | _ | o, m'⟩
      · exact (bind_error hr).trans (bind_error hr).symm
      · obtain rfl : m' = m := by rw [hr] at hm; exact hm
        rw [bind_ok hr, bind_ok hr]
        exact bind_ok (findOn_none h)
      · rw [bind_ok hr, bind_ok hr]

end Lookup

/-! ## Submitting -/

/-- `submit` of an order of side `s`. -/
theorem submit_on {o : Order} (h : o.side = s) :
    submit (some o) = (do
      validate o
      let prepared ← prepareSubmit s o
      let result ← commitSubmit s prepared
      require .notCrossed (!(← get).isCrossed)
      return result : BookExec SubmitResult) := by
  subst h
  rfl

/-- The steps of a submit that goes through. -/
theorem submit_eq_ok {o : Order} {r : SubmitResult}
    (h : submit (some o) fails m = (.ok r, m')) :
    ∃ m₀ prepared m₁, validate o fails m = (.ok (), m₀) ∧
      prepareSubmit o.side o fails m₀ = (.ok prepared, m₁) ∧
      commitSubmit o.side prepared fails m₁ = (.ok r, m') := by
  obtain ⟨_, m₀, hv, h⟩ := bind_eq_ok h
  obtain ⟨prepared, m₁, hp, h⟩ := bind_eq_ok h
  obtain ⟨r', m₂, hc, h⟩ := bind_eq_ok h
  rw [get_bind] at h
  obtain ⟨_, m₃, hreq, h⟩ := bind_eq_ok h
  unfold require at hreq
  split at hreq
  · cases hreq
    cases h
    exact ⟨m₀, prepared, m₁, hv, hp, hc⟩
  · cases hreq

/-- An order that passes validation was looked for and not found. -/
theorem validate_find {o : Order} (h : validate o fails m = (.ok (), m')) :
    find o.id fails m = (.ok none, m') := by
  unfold validate at h
  by_cases hq : o.remaining = 0
  · simp only [if_pos hq] at h
    obtain ⟨_, _, _, h⟩ := bind_eq_ok h
    obtain ⟨_, _, hthrow, _⟩ := bind_eq_ok h
    cases hthrow
  · simp only [if_neg hq] at h
    obtain ⟨found, m₁, hfind, hrest⟩ := bind_eq_ok h
    cases found with
    | some x =>
        obtain ⟨_, _, _, hthrow⟩ := bind_eq_ok hrest
        cases hthrow
    | none =>
        cases hrest
        exact hfind

/-- Validation leaves the memory alone. -/
theorem validate_memory {o : Order} (h : validate o fails m = (.ok (), m')) : m' = m := by
  have hm := find_memory o.id fails m
  rw [validate_find h] at hm
  exact hm

/-- What a submit that goes through prepared, replayed and committed. -/
theorem submit_eq_commits {o : Order} (h : submit (some o) fails m = (.ok res, m')) :
    ∃ plan prepared m₁ r, Provisioned m o.side o plan prepared m₁ ∧
      (Replay.start (m₁.state.side (opposite o.side)) prepared.holding.order
        m₁.state.nextSequence).replay prepared.plan.fills = some r ∧
      Commits m₁.state o.side prepared r res m'.state := by
  obtain ⟨m₀, prepared, m₁, hv, hp, hc⟩ := submit_eq_ok h
  obtain rfl := validate_memory hv
  obtain ⟨plan, _, hprov⟩ := prepareSubmit_eq_ok hp
  obtain ⟨r, hr, hcommits⟩ := commitSubmit_eq_ok
    (by rw [hprov.planned, hprov.capacity]) hprov.room hc
  exact ⟨plan, prepared, m₁, r, hprov, hr, hcommits⟩

/-- An order that does not rest leaves its own side alone. -/
theorem submit_own {o : Order} (h : submit (some o) fails m = (.ok res, m'))
    (hs : ¬ (res.status = .resting ∨ res.status = .partiallyFilledResting)) :
    (m'.state.side o.side).levels = (m.state.side o.side).levels ∧
      (m'.state.side o.side).index = (m.state.side o.side).index := by
  obtain ⟨plan, prepared, m₁, r, hprov, _, hcommits⟩ := submit_eq_commits h
  obtain ⟨buckets, hstate, _⟩ := hprov.state
  generalize hb' : m'.state = b' at hcommits
  cases hcommits with
  | idle hrest =>
      rw [afterSweep_side, hstate, side_setSide]
      exact ⟨rfl, rfl⟩
  | rests nodes ob hrest hob =>
      refine absurd ?_ hs
      by_cases hfills : r.fills.isEmpty = true
      · exact Or.inl (if_pos hfills)
      · exact Or.inr (if_neg hfills)

end Book

end Exchange
