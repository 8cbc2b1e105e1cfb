import Exchange.Core.Lockstep

/-!
# Running the operations

What each computation of `Book` does to a memory it is run on, one equation or
inversion per function. From here on nothing unfolds a computation again.

The commit is the replay of the plan: on a side where the plan replays, the
commit loop never leaves its reserved capacity, never allocates and never
meets a dangling position.
-/

namespace Exchange

open Framework Framework.Exec OrderBook

namespace Book

variable {α β : Type} {s : Side} {fails : ℕ → Bool} {m m' : BookMemory}

/-! ## Access to one side -/

@[simp] theorem getSide_bind {f : OrderBook s → BookExec β} :
    (getSide s >>= f) fails m = f (m.state.side s) fails m := rfl

@[simp] theorem putSide_bind {ob : OrderBook s} {f : Unit → BookExec β} :
    (putSide s ob >>= f) fails m =
      f () fails { m with state := m.state.setSide s ob } := rfl

theorem editLevel_run {p : Price} {g : PriceLevel → Option PriceLevel}
    {ob : OrderBook s} (h : (m.state.side s).edit p g = some ob) :
    editLevel s p g fails m = (.ok (), { m with state := m.state.setSide s ob }) := by
  unfold editLevel
  rw [getSide_bind, h]
  rfl

/-! ## The commit loop -/

/-- The memory in which the commit has reached `r`. -/
def loaded (m : BookMemory) (r : Replay (opposite s)) : BookMemory :=
  { m with state := m.state.setSide (opposite s) r.opp, events := m.events ++ r.calls }

theorem pushFill_run {capacity : ℕ} {fills : List Fill} {fill : Fill}
    (h : fills.length < capacity) :
    pushFill capacity fills fill fails m = (.ok (fills ++ [fill]), m) := by
  unfold pushFill
  rw [if_neg (Nat.not_le.mpr h)]
  rfl

theorem commitFill_run {r r' : Replay (opposite s)} {planned : PlannedFill}
    {capacity : ℕ} (h : r.replayFill planned = some r')
    (hcap : r.fills.length < capacity) :
    commitFill s capacity ⟨r.aggressor, r.fills⟩ planned fails (loaded m r) =
      (.ok ⟨r'.aggressor, r'.fills⟩, loaded m r') := by
  unfold Replay.replayFill at h
  simp only [Option.bind_eq_bind, Option.bind_eq_some_iff, Option.pure_def,
    Option.some.injEq] at h
  obtain ⟨found, hfound, opp₁, hedit, resting, hresting, opp₂, hres, rfl⟩ := h
  have hside : (loaded m r).state.side (opposite s) = r.opp := by simp [loaded]
  have hedit₁ : editLevel (opposite s) planned.level
      (·.applyFill planned.resting planned.quantity) fails
      { loaded m r with
        events := (loaded m r).events ++ [⟨planned.quantity, found.visibleQty⟩] } =
      (.ok (), { loaded m r with
        state := (loaded m r).state.setSide (opposite s) opp₁
        events := (loaded m r).events ++ [⟨planned.quantity, found.visibleQty⟩] }) :=
    editLevel_run (by rw [hside]; exact hedit)
  unfold commitFill
  simp only [getSide_bind, hside, hfound, expect_some_bind, observe_bind, bind_ok hedit₁,
    bind_ok (pushFill_run hcap), side_setSide, hresting]
  unfold Replay.resolve at hres
  by_cases hfilled : resting.isFilled = true
  · rw [if_pos hfilled] at hres ⊢
    rw [getSide_bind, putSide_bind, bind_ok (editLevel_run (by simpa using hres))]
    simp [loaded]
  · rw [if_neg hfilled] at hres ⊢
    by_cases hspent : resting.needsReplenish = true
    · rw [if_pos hspent] at hres ⊢
      rw [bind_ok (editLevel_run (by simpa using hres))]
      simp [loaded]
    · rw [if_neg hspent] at hres ⊢
      cases hres
      simp [loaded]

theorem replayFill_fills_length {t : Side} {r r' : Replay t} {planned : PlannedFill}
    (h : r.replayFill planned = some r') : r'.fills.length = r.fills.length + 1 := by
  unfold Replay.replayFill at h
  simp only [Option.bind_eq_bind, Option.bind_eq_some_iff, Option.pure_def,
    Option.some.injEq] at h
  obtain ⟨_, _, _, _, _, _, _, _, rfl⟩ := h
  simp

/-- **The commit loop is the replay**: within the reserved capacity it appends
without allocating. -/
theorem commitFills_run {capacity : ℕ} : ∀ (fills : List PlannedFill)
    (r r' : Replay (opposite s)), r.replay fills = some r' →
    r.fills.length + fills.length ≤ capacity →
    commitFills s capacity fills ⟨r.aggressor, r.fills⟩ fails (loaded m r) =
      (.ok ⟨r'.aggressor, r'.fills⟩, loaded m r')
  | [], r, r', h, _ => by
      cases h
      rfl
  | planned :: rest, r, r', h, hcap => by
      rw [Replay.replay, List.foldlM_cons, Option.bind_eq_bind,
        Option.bind_eq_some_iff] at h
      obtain ⟨r₁, h₁, hrest⟩ := h
      rw [List.length_cons] at hcap
      have hlen := replayFill_fills_length h₁
      rw [commitFills, bind_ok (commitFill_run h₁ (by omega))]
      exact commitFills_run rest r₁ r' hrest (by omega)

/-! ## Preparation -/

/-- The remainder of `o` comes to rest under this plan. -/
def restNodes (o : Order) (plan : MatchPlan) : Option RestNodes :=
  if 0 < o.remaining - plan.aggressorFilled ∧ ¬ plan.selfMatchBlocked then
    o.restingPrice.map fun restPrice =>
      { restPrice, levelNode := { price := restPrice }, indexNode := o.id }
  else none

theorem restNodes_eq_some {o : Order} {plan : MatchPlan} {nodes : RestNodes}
    (h : restNodes o plan = some nodes) :
    ∃ p, o.restingPrice = some p ∧ nodes = ⟨p, { price := p }, o.id⟩ := by
  unfold restNodes at h
  split at h
  · obtain ⟨p, hprice, rfl⟩ := Option.map_eq_some_iff.mp h
    exact ⟨p, hprice, rfl⟩
  · cases h

/-- What a successful preparation hands to the commit. All it did to the book
is to make room in the index. -/
structure Provisioned (m : BookMemory) (s : Side) (o : Order) (plan : MatchPlan)
    (prepared : PreparedSubmit) (m' : BookMemory) : Prop where
  planned : prepared.plan = plan
  holding : prepared.holding = ⟨m.ticks, o⟩
  capacity : prepared.fillsCapacity = plan.fills.length
  rest : prepared.rest = restNodes o plan
  state : ∃ buckets, m'.state =
    m.state.setSide s { m.state.side s with buckets } ∧
    ((restNodes o plan).isSome → (m.state.side s).orderCount + 1 ≤ buckets)
  ticks : m.ticks < m'.ticks
  events : m'.events = m.events
  snapshots : ∃ k, m'.snapshots = m.snapshots ++ List.replicate k m.state

section Provisioned

variable {m m' : BookMemory} {s : Side} {o : Order} {plan : MatchPlan}
  {prepared : PreparedSubmit}

theorem Provisioned.opposite_side (h : Provisioned m s o plan prepared m') :
    m'.state.side (opposite s) = m.state.side (opposite s) := by
  obtain ⟨buckets, hstate, _⟩ := h.state
  rw [hstate, opposite_side_setSide]

theorem Provisioned.nextSequence (h : Provisioned m s o plan prepared m') :
    m'.state.nextSequence = m.state.nextSequence := by
  obtain ⟨buckets, hstate, _⟩ := h.state
  rw [hstate, setSide_nextSequence]

end Provisioned

/-- An allocation failed and the book is as it was. -/
def Starved (fails : ℕ → Bool) (m : BookMemory) (r : Except Ending α × BookMemory) :
    Prop :=
  ∃ m', r = (.error (.throws .badAlloc), m') ∧ Frozen m m' ∧ ∃ n, fails n = true

theorem reserveIndex_cases (s : Side) (fails : ℕ → Bool) (m : BookMemory) :
    Starved fails m (reserveIndex s fails m) ∨
    ∃ buckets m', reserveIndex s fails m = (.ok (), m') ∧
      m'.state = m.state.setSide s { m.state.side s with buckets } ∧
      (m.state.side s).orderCount + 1 ≤ buckets ∧ m.ticks ≤ m'.ticks ∧
      m'.events = m.events ∧
      ∃ k, m'.snapshots = m.snapshots ++ List.replicate k m.state := by
  unfold reserveIndex
  rw [getSide_bind]
  split
  · obtain ⟨m₁, hm₁, _, h₁⟩ :=
      allocate_cases (π := Precondition) Exception.badAlloc fails m
    rcases h₁ with ⟨hf, h₁⟩ | h₁
    · exact Or.inl ⟨m₁, bind_error h₁, hm₁, _, hf⟩
    · refine Or.inr ⟨_, _, bind_ok h₁, ?_, Nat.le_refl _, hm₁.ticks, hm₁.events, hm₁.snapshots⟩
      show m₁.state.setSide s _ = _
      rw [hm₁.state]
  · rename_i hroom
    refine Or.inr ⟨(m.state.side s).buckets, m, rfl, ?_, by omega, Nat.le_refl _, rfl, 0, ?_⟩
    · exact (setSide_side _ _).symm
    · simp

theorem prepareSubmit_cases (s : Side) (o : Order) (fails : ℕ → Bool) (m : BookMemory) :
    Starved fails m (prepareSubmit s o fails m) ∨
    match planAgainst (m.state.side (opposite s)).levels.entries o with
    | .error p => ∃ m', prepareSubmit s o fails m = (.error (.undefined p), m') ∧
        Frozen m m'
    | .ok plan => ∃ prepared m', prepareSubmit s o fails m = (.ok prepared, m') ∧
        Provisioned m s o plan prepared m' := by
  unfold prepareSubmit
  obtain ⟨m₁, hm₁, ht₁, h₁⟩ :=
    allocate_cases (π := Precondition) Exception.badAlloc fails m
  rcases h₁ with ⟨hf, h₁⟩ | h₁
  · exact Or.inl ⟨m₁, bind_error h₁, hm₁, _, hf⟩
  rw [bind_ok h₁, getSide_bind, hm₁.state]
  cases hplan : planAgainst (m.state.side (opposite s)).levels.entries o with
  | error p => exact Or.inr ⟨m₁, rfl, hm₁⟩
  | ok plan =>
      rw [show liftPlan (.ok plan) = pure plan from rfl, pure_bind_run]
      obtain ⟨m₂, hm₂, h₂⟩ := allocateMany_cases (π := Precondition)
        Exception.badAlloc fails plan.insertions m₁
      rcases h₂ with ⟨hf, h₂⟩ | h₂
      · exact Or.inl ⟨m₂, bind_error h₂, hm₁.trans hm₂, hf⟩
      obtain ⟨m₃, hm₃, h₃⟩ := allocateMany_cases (π := Precondition)
        Exception.badAlloc fails (if plan.fills.isEmpty then 0 else 1) m₂
      rw [bind_ok h₂]
      rcases h₃ with ⟨hf, h₃⟩ | h₃
      · exact Or.inl ⟨m₃, bind_error h₃, (hm₁.trans hm₂).trans hm₃, hf⟩
      rw [bind_ok h₃]
      have hm := (hm₁.trans hm₂).trans hm₃
      have ht : m.ticks < m₃.ticks := by
        have := hm₂.ticks
        have := hm₃.ticks
        omega
      -- Nothing but the allocator has moved so far.
      have hidle : restNodes o plan = none →
          Provisioned m s o plan
            { plan, holding := ⟨m.ticks, o⟩, rest := none,
              fillsCapacity := plan.fills.length } m₃ := fun hrest =>
        ⟨rfl, rfl, rfl, hrest.symm,
          ⟨(m.state.side s).buckets, hm.state.trans (setSide_side _ _).symm,
            by simp [hrest]⟩, ht, hm.events, hm.snapshots⟩
      cases hprice : o.restingPrice with
      | none => exact Or.inr ⟨_, m₃, rfl, hidle (by simp [restNodes, hprice])⟩
      | some restPrice =>
          dsimp only
          split
          · rename_i hrest
            obtain ⟨m₄, hm₄, h₄⟩ := allocateMany_cases (π := Precondition)
              Exception.badAlloc fails 3 m₃
            rcases h₄ with ⟨hf, h₄⟩ | h₄
            · exact Or.inl ⟨m₄, bind_error h₄, hm.trans hm₄, hf⟩
            rw [bind_ok h₄]
            have hm' := hm.trans hm₄
            rcases reserveIndex_cases s fails m₄ with ⟨m₅, h₅, hm₅, hf⟩ | h₅
            · exact Or.inl ⟨m₅, bind_error h₅, hm'.trans hm₅, hf⟩
            obtain ⟨buckets, m₅, h₅, hstate, hroom, hticks, hevents, k, hsnap⟩ := h₅
            obtain ⟨k', hk'⟩ := hm'.snapshots
            rw [bind_ok h₅]
            refine Or.inr ⟨_, m₅, rfl, rfl, rfl, rfl, ?_, ⟨buckets, ?_, ?_⟩, ?_, ?_,
              k' + k, ?_⟩
            · simp [restNodes, hrest.1, hrest.2, hprice]
            · rw [hstate, hm'.state]
            · rw [hm'.state] at hroom
              exact fun _ => hroom
            · have := hm₄.ticks
              omega
            · rw [hevents, hm'.events]
            · rw [hsnap, hk', hm'.state, List.append_assoc,
                List.replicate_append_replicate]
          · rename_i hrest
            exact Or.inr ⟨_, m₃, rfl, hidle (by rw [restNodes, if_neg hrest])⟩

/-! ## The commit -/

theorem insertIndex_run {id : OrderId} {price : Price} {position : Addr}
    (h : (m.state.side s).orderCount + 1 ≤ (m.state.side s).buckets) :
    insertIndex s id price position fails m = (.ok (), { m with
      state := m.state.setSide s ((m.state.side s).installIndex id price position) }) := by
  unfold insertIndex
  rw [getSide_bind, if_neg (Nat.not_lt.mpr h)]
  rfl

theorem restRemainder_run {nodes : RestNodes} {holding : Node} {ob : OrderBook s}
    (hroom : (m.state.side s).orderCount + 1 ≤ (m.state.side s).buckets)
    (h : (((m.state.side s).installLevel nodes.levelNode).installIndex nodes.indexNode
        nodes.restPrice holding.addr).edit nodes.restPrice
        (fun level => some (level.adopt holding)) = some ob) :
    restRemainder s nodes holding fails m =
      (.ok (), { m with state := m.state.setSide s ob }) := by
  unfold restRemainder
  have hroom' : ((m.state.side s).installLevel nodes.levelNode).orderCount + 1 ≤
      ((m.state.side s).installLevel nodes.levelNode).buckets := hroom
  rw [getSide_bind, putSide_bind,
    bind_ok (insertIndex_run (by rw [side_setSide]; exact hroom')),
    editLevel_run (by simpa using h)]
  simp

/-- The book once the plan has been replayed against it. -/
def afterSweep (b : Book) (s : Side) (opp : OrderBook (opposite s)) : Book :=
  { b with nextSequence := b.nextSequence + 1 }.setSide (opposite s)
    opp.dropEmptyLevelsFromFront

/-- The memory a commit starts its loop on. -/
theorem loaded_start (m : BookMemory) (o : Order) :
    loaded { m with state := { m.state with nextSequence := m.state.nextSequence + 1 } }
        (Replay.start (m.state.side (opposite s)) o m.state.nextSequence) =
      { m with state := { m.state with nextSequence := m.state.nextSequence + 1 } } := by
  have hside : ({ m.state with nextSequence := m.state.nextSequence + 1 } : Book).setSide
      (opposite s) (m.state.side (opposite s)) =
      { m.state with nextSequence := m.state.nextSequence + 1 } := by cases s <;> rfl
  simp [loaded, Replay.start, hside]

/-- The commit replays its plan, without an allocation, and comes to its end. -/
theorem commitSubmit_run {prepared : PreparedSubmit} {r : Replay (opposite s)}
    (hr : (Replay.start (m.state.side (opposite s)) prepared.holding.order
      m.state.nextSequence).replay prepared.plan.fills = some r)
    (hcap : prepared.plan.fills.length ≤ prepared.fillsCapacity) :
    commitSubmit s prepared fails m =
      noexcept (finishSubmit s prepared ⟨r.aggressor, r.fills⟩) fails
        { m with state := afterSweep m.state s r.opp, events := m.events ++ r.calls } := by
  let stamped : BookMemory :=
    { m with state := { m.state with nextSequence := m.state.nextSequence + 1 } }
  have hstart : loaded stamped (Replay.start (m.state.side (opposite s))
      prepared.holding.order m.state.nextSequence) = stamped := loaded_start m _
  have hloop : commitFills s prepared.fillsCapacity prepared.plan.fills _ fails
      (loaded stamped _) = _ :=
    commitFills_run prepared.plan.fills _ r hr (by simpa [Replay.start] using hcap)
  rw [hstart] at hloop
  have hbody : (do
      let st ← commitFills s prepared.fillsCapacity prepared.plan.fills
        { aggressor := prepared.holding.order.assignSequence m.state.nextSequence
          fills := [] }
      putSide (opposite s) ((← getSide (opposite s)).dropEmptyLevelsFromFront)
      finishSubmit s prepared st : BookExec SubmitResult) fails stamped =
      finishSubmit s prepared ⟨r.aggressor, r.fills⟩ fails
        { m with state := afterSweep m.state s r.opp, events := m.events ++ r.calls } := by
    refine (bind_ok hloop).trans ?_
    rw [getSide_bind, putSide_bind]
    simp [loaded, afterSweep, stamped]
  unfold commitSubmit noexcept
  rw [get_bind, set_bind, hbody]

theorem finishSubmit_idle {prepared : PreparedSubmit} {st : CommitState}
    (h : prepared.rest = none) :
    finishSubmit s prepared st fails m =
      (.ok { fills := st.fills, filledQty := prepared.plan.aggressorFilled
             status := if st.aggressor.isFilled then .filled
               else if prepared.plan.selfMatchBlocked then .selfMatchBlocked
               else .cancelledRemainder }, m) := by
  unfold finishSubmit
  rw [h]
  rfl

theorem finishSubmit_rests {prepared : PreparedSubmit} {st : CommitState}
    {nodes : RestNodes} {ob : OrderBook s} (h : prepared.rest = some nodes)
    (hroom : (m.state.side s).orderCount + 1 ≤ (m.state.side s).buckets)
    (hob : (((m.state.side s).installLevel nodes.levelNode).installIndex nodes.indexNode
        nodes.restPrice prepared.holding.addr).edit nodes.restPrice
        (fun level => some (level.adopt ⟨prepared.holding.addr, st.aggressor⟩)) = some ob) :
    finishSubmit s prepared st fails m =
      (.ok { fills := st.fills, filledQty := prepared.plan.aggressorFilled
             restingQty := st.aggressor.remaining
             status := if st.fills.isEmpty then .resting
               else .partiallyFilledResting },
        { m with state := m.state.setSide s ob }) := by
  unfold finishSubmit
  rw [h]
  exact bind_ok (restRemainder_run hroom hob)

/-! ## Lookups -/

theorem findOn_run (h : (m.state.side s).Sound) (id : OrderId) :
    findOn s id fails m =
      (.ok ((ladderOf (m.state.side s).levels.entries).find? id), m) := by
  unfold findOn
  rw [getSide_bind]
  cases hloc : (m.state.side s).index.lookup id with
  | none =>
      rw [h.lookup_eq_none.mp hloc]
      rfl
  | some loc =>
      obtain ⟨o, hderef, hfind⟩ := h.deref_of_lookup hloc
      simp only [hderef, expect_some_bind, hfind]
      rfl

theorem cancelOn_run (fails : ℕ → Bool) (h : (m.state.side s).Sound)
    (hfull : ∀ e ∈ (m.state.side s).levels.entries, e.2.orders ≠ []) (id : OrderId) :
    (ladderOf (m.state.side s).levels.entries).find? id = none ∧
        cancelOn s id fails m = (.ok none, m) ∨
      ∃ o ob, (ladderOf (m.state.side s).levels.entries).find? id = some o ∧
        cancelOn s id fails m =
          (.ok (some o), { m with state := m.state.setSide s ob }) ∧
        Withdrawn (m.state.side s) ob id := by
  unfold cancelOn
  rw [getSide_bind]
  cases hloc : (m.state.side s).index.lookup id with
  | none => exact Or.inl ⟨h.lookup_eq_none.mp hloc, rfl⟩
  | some loc =>
      obtain ⟨o, ob, hw, hfind, hob⟩ := h.withdraw hfull hloc
      refine Or.inr ⟨o, ob, hfind, ?_, hob⟩
      simp only [hw, expect_some_bind]
      rfl

theorem reduceInPlace_run (fails : ℕ → Bool) (h : (m.state.side s).Sound) {id : OrderId} {o : Order}
    (hfind : (ladderOf (m.state.side s).levels.entries).find? id = some o)
    (q : Quantity) :
    ∃ ob, reduceInPlace s id q fails m =
        (.ok (), { m with state := m.state.setSide s ob }) ∧ ob.Sound ∧
      ladderOf ob.levels.entries =
        (ladderOf (m.state.side s).levels.entries).reduce id q ∧
      (∀ x ∈ occupants ob.levels.entries,
        x ∈ occupants (m.state.side s).levels.entries) := by
  cases hloc : (m.state.side s).index.lookup id with
  | none =>
      rw [h.lookup_eq_none.mp hloc] at hfind
      cases hfind
  | some loc =>
      obtain ⟨ob, hedit, hob⟩ := h.reduceQuantity hloc q
      refine ⟨ob, ?_, hob⟩
      unfold reduceInPlace
      rw [getSide_bind, hloc, expect_some_bind]
      exact editLevel_run hedit

end Book

end Exchange
